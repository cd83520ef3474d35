import TeleSync.Monitor.Report

/-!
# Events that are not reported

When `handle_event` returns -1, its entry is left out of the report. It still goes on to update the file table, with the
timestamp that was in the slot before.

* `NoNews ft te` : the table knows all that the entry says;
* `eventTableUpdate_eq_self` : the update changes nothing exactly then, or if it has nothing to update;
* `KeepsTable` : a rejected event is one of these;
* `reporting` : the events of a buffer as steps;
* `rejected_leaves_table_iff` : a rejected event leaves the table as it is exactly under `KeepsTable`, and if all events
  of a buffer meet it, the table is what the reported entries make of it.
-/

namespace TeleSync
open ChainTable Program Transition

/-! ## Updates that change nothing -/

/-- The entry is older than what the table has for its name, or of the same time with owners that are all known. -/
def NoNews (ft : FileTable) (te : TransFileEntry) : Prop :=
  ∃ fe ∈ fileTableSearch ft te.name, te.timestamp < fe.timestamp ∨
    te.timestamp = fe.timestamp ∧ ∀ p ∈ te.owners, alreadyInOwners fe.owners p

instance (ft : FileTable) (te : TransFileEntry) : Decidable (NoNews ft te) :=
  inferInstanceAs (Decidable (∃ fe ∈ fileTableSearch ft te.name, _))

theorem peerIdListAdd_eq_self {head : List PeerId} {te : TransFileEntry} :
    peerIdListAdd head te = head ↔ ∀ p ∈ te.owners, alreadyInOwners head p := by
  rw [peerIdListAdd_eq, List.append_right_eq_self, KeyedList.eraseDupsBy_eq_nil, List.filter_eq_nil_iff]
  simp [alreadyInOwners]

theorem fileEntryUpdate_eq_self {fe : FileEntry} {te : TransFileEntry} :
    (fileEntryUpdate fe te).1 = fe ↔ te.timestamp < fe.timestamp ∨
      te.timestamp = fe.timestamp ∧ ∀ p ∈ te.owners, alreadyInOwners fe.owners p := by
  rcases lt_trichotomy te.timestamp fe.timestamp with hlt | heq | hgt
  · refine iff_of_true ?_ (Or.inl hlt)
    rw [fileEntryUpdate, if_neg hlt.not_gt, if_neg hlt.ne]
  · rw [fileEntryUpdate, if_neg (by omega), if_pos heq, ← peerIdListAdd_eq_self]
    constructor
    · intro h
      exact Or.inr ⟨heq, congrArg (fun e => e.owners) h⟩
    · rintro (hlt | ⟨-, howners⟩)
      · omega
      · dsimp only
        rw [howners]
  · refine iff_of_false (fun h => ?_) (by omega)
    rw [fileEntryUpdate, if_pos hgt] at h
    have hstamp : te.timestamp = fe.timestamp := congrArg (fun e => e.timestamp) h
    omega

theorem modify_eq_self_iff_noNews {ft : FileTable} {te : TransFileEntry} {fe : FileEntry}
    (h : fileTableSearch ft te.name = some fe) :
    ft.modify te.name (fun fe => (fileEntryUpdate fe te).1) = ft ↔ NoNews ft te := by
  have hmodify : ft.modify te.name (fun fe => (fileEntryUpdate fe te).1) = ft ↔
      scheme.modify ft.fileHtable te.name (fun fe => (fileEntryUpdate fe te).1) = ft.fileHtable := by
    constructor
    · exact congrArg FileTable.fileHtable
    · intro hsame
      rw [FileTable.modify, hsame]
  have hsearch : scheme.search ft.fileHtable te.name = some fe := h
  unfold NoNews
  rw [hmodify, Scheme.modify_eq_self, h, hsearch]
  simp [fileEntryUpdate_eq_self]

/-- What the update at the end of `handle_event` leaves as it is. -/
theorem eventTableUpdate_eq_self {te : TransFileEntry} (h : te.opType ≠ .fileDelete) (ft : FileTable) :
    eventTableUpdate ft te = ft ↔
      (te.opType = .fileAdd → NoNews ft te) ∧
        (te.opType = .fileModify → fileTableSearch ft te.name = none ∨ NoNews ft te) := by
  have hnone : fileTableSearch ft te.name = none → ¬ NoNews ft te := by
    rintro hnone ⟨fe, hfe, -⟩
    rw [hnone] at hfe
    cases hfe
  unfold eventTableUpdate
  cases hop : te.opType with
  | fileAdd =>
    simp only [forall_const, reduceCtorEq, IsEmpty.forall_iff, and_true, fileTableAdd]
    cases hs : fileTableSearch ft te.name with
    | none =>
      refine iff_of_false (fun heq => ?_) (hnone hs)
      have hn : ft.n + 1 = ft.n := congrArg FileTable.n heq
      omega
    | some fe => exact modify_eq_self_iff_noNews hs
  | fileModify =>
    simp only [forall_const, reduceCtorEq, IsEmpty.forall_iff, true_and, fileTableUpdate]
    cases hs : fileTableSearch ft te.name with
    | none => simp
    | some fe => simpa using modify_eq_self_iff_noNews hs
  | fileDelete => exact absurd hop h
  | fileNone => simp
  | other code => simp

/-! ## One event -/

/-- A rejected event that leaves the file table alone: its operation is not known, or `stat` fails and the table knows
all that is in the slot for the name, with this peer as one more owner; or there is nothing to be modified. -/
def KeepsTable (myIp mask : UInt32) (stat : Option ℕ) (te : TransFileEntry) (sysName : CString) (ft : FileTable) :
    Prop :=
  trickyString sysName = false → stat = none →
    ((eventKind mask).op = .fileAdd → NoNews ft { te with owners := te.owners ++ [⟨myIp, P2P_PORT⟩] }) ∧
      ((eventKind mask).op = .fileModify → fileTableSearch ft te.name = none ∨
        NoNews ft { te with owners := te.owners ++ [⟨myIp, P2P_PORT⟩] })

instance (myIp mask : UInt32) (stat : Option ℕ) (te : TransFileEntry) (sysName : CString) (ft : FileTable) :
    Decidable (KeepsTable myIp mask stat te sysName ft) :=
  inferInstanceAs (Decidable (_ → _ → (_ ∧ _)))

theorem fillEvent_none (myIp mask : UInt32) (te : TransFileEntry) :
    (fillEvent myIp mask none te).1 = { te with
      opType := (eventKind mask).op
      fileType := eventType mask
      owners := te.owners ++ [⟨myIp, P2P_PORT⟩] } := by
  unfold fillEvent getTransTimestamp
  dsimp only
  split_ifs <;> rfl

theorem keepsTable_iff (myIp : UInt32) (v : Visit) (te : TransFileEntry) (ft : FileTable) :
    ((handleVisit myIp v te ft).ret ≠ 0 → (handleVisit myIp v te ft).ft = ft) ↔
      KeepsTable myIp v.mask v.stat te v.sysName ft := by
  rw [Ne, ret_handleVisit, not_not]
  unfold Visit.Rejected KeepsTable handleVisit
  by_cases htricky : trickyString v.sysName = true
  · simp [htricky]
  rw [Bool.not_eq_true] at htricky
  simp only [htricky, Bool.false_eq_true, if_false, true_and, forall_const]
  cases hstat : v.stat with
  | some mtime =>
    refine iff_of_true (fun hrejected => ?_) fun hnone => ?_
    · -- only an operation that is not known is rejected
      have hop : (fillEvent myIp v.mask (some mtime) te).1.opType = .fileNone := by
        obtain hop | ⟨-, hnone⟩ := hrejected
        · simp [fillEvent, hop]
        · cases hnone
      rw [eventTableUpdate, hop]
    · cases hnone
  | none =>
    simp only [and_true, forall_const]
    by_cases hdelete : (eventKind v.mask).op = .fileDelete
    · simp [hdelete]
    · have hop : (fillEvent myIp v.mask none te).1.opType = (eventKind v.mask).op := by rw [fillEvent_none]
      have hne : (fillEvent myIp v.mask none te).1.opType ≠ .fileDelete := by rwa [hop]
      have hself := eventTableUpdate_eq_self hne ft
      rw [hop, fillEvent_none] at hself
      rw [fillEvent_none]
      exact ⟨fun h => hself.mp (h (Or.inr hdelete)), fun h _ => hself.mpr h⟩

/-! ## A buffer of events -/

/-- The events of a buffer that have a target, one after another. -/
def reporting (myIp : UInt32) : System Report Visit where
  step s v := some (s.visit myIp v)

/-- The event leaves the table alone if it is rejected. -/
def Report.Keeps (myIp : UInt32) (s : Report) (v : Visit) : Prop :=
  KeepsTable myIp v.mask v.stat { s.slot with name := v.name } v.sysName s.ft

instance (myIp : UInt32) (s : Report) (v : Visit) : Decidable (s.Keeps myIp v) :=
  inferInstanceAs (Decidable (KeepsTable _ _ _ _ _ _))

theorem ft_foldl_visit (myIp : UInt32) {s : Report} {vs : List Visit}
    (h : (reporting myIp).RunMeets (Report.Keeps myIp) s vs) :
    ∃ told more : List TransFileEntry, (vs.foldl (Report.visit myIp) s).entries = s.entries ++ more ∧ told.Sublist more ∧
      (vs.foldl (Report.visit myIp) s).ft = told.foldl eventTableUpdate s.ft := by
  induction vs generalizing s with
  | nil => exact ⟨[], [], (List.append_nil _).symm, List.Sublist.slnil, rfl⟩
  | cons v vs ih =>
    obtain ⟨hkeeps, hrest⟩ := h
    obtain ⟨told, more, hentries, hsub, hft⟩ := ih (hrest (s.visit myIp v) rfl)
    rw [List.foldl_cons, hentries, hft]
    have hvisit : (s.visit myIp v) = s.put (handleVisit myIp v { s.slot with name := v.name } s.ft) := rfl
    set r := handleVisit myIp v { s.slot with name := v.name } s.ft with hr
    by_cases hret : r.ret = 0
    · have hput : (s.visit myIp v).entries = s.entries ++ [r.te] := by
        rw [hvisit]
        exact if_pos hret
      rw [hput, List.append_assoc, List.singleton_append]
      by_cases htricky : trickyString v.sysName = true
      · refine ⟨told, r.te :: more, rfl, hsub.cons _, ?_⟩
        have hsame : (s.visit myIp v).ft = s.ft := by
          rw [hvisit, hr, handleVisit, if_pos htricky]
          rfl
        rw [hsame]
      · refine ⟨r.te :: told, r.te :: more, rfl, hsub.cons_cons _, ?_⟩
        have hupdate : (s.visit myIp v).ft = eventTableUpdate s.ft r.te := by
          rw [hvisit, hr, handleVisit, if_neg htricky]
          rfl
        rw [hupdate, List.foldl_cons]
    · have hput : (s.visit myIp v).entries = s.entries := by
        rw [hvisit]
        exact if_neg hret
      have hsame : (s.visit myIp v).ft = s.ft := (keepsTable_iff myIp v _ s.ft).mpr hkeeps hret
      rw [hput, hsame]
      exact ⟨told, more, rfl, hsub, rfl⟩

/-- **Rejected events and the local table.** Whatever the tables, the slot and the event: if `handle_event` returns
nonzero, the file table is unchanged exactly under `KeepsTable`. And when every event of a buffer meets it, the table at
the end is what some of the reported entries make of it, so that it holds nothing the tracker is not told. -/
theorem rejected_leaves_table_iff (K : Kernel) (myIp : UInt32) (ft : FileTable) (m m' : MonitorTable) :
    (∀ mask stat p te sysName r, handleEventEntry K myIp mask stat p te sysName ft m = (some r, m') →
      ((r.ret ≠ 0 → r.ft = ft) ↔ KeepsTable myIp mask stat te sysName ft)) ∧
    ∀ (buf : EventBuffer) s, reportEvents K myIp (Report.start ft) buf.events m = (some s, m') →
      ∃ vs, visits K buf.events m = (some vs, m') ∧
        ((reporting myIp).RunMeets (Report.Keeps myIp) (Report.start ft) vs →
          ∃ told : List TransFileEntry, told.Sublist s.entries ∧ s.ft = told.foldl eventTableUpdate ft) := by
  refine ⟨fun mask stat p te sysName r h => ?_, fun buf s h => ?_⟩
  · rw [handleEventEntry_eq] at h
    obtain ⟨u, m₁, -, hr⟩ := Prog.bind_eq_some h
    cases hr
    exact keepsTable_iff myIp ⟨mask, stat, te.name, sysName⟩ te ft
  · rw [reportEvents_start] at h
    obtain ⟨vs, m₁, hvisits, hs⟩ := Prog.bind_eq_some h
    cases hs
    refine ⟨vs, hvisits, fun hmeets => ?_⟩
    obtain ⟨told, more, hentries, hsub, hft⟩ := ft_foldl_visit myIp hmeets
    have hentries' : (vs.foldl (Report.visit myIp) (Report.start ft)).entries = more := hentries
    exact ⟨told, hentries' ▸ hsub, hft⟩

/-- `x` changes, which the table does not know, and is gone when `stat` is called; then `y` is created. The table is what
the reported entry of `y` makes of it. -/
theorem rejected_leaves_table_unknown_file :
    ∃ m s m' vs, fileMonitorTask plainKernel oneWatch .empty = (some 0, m) ∧
      reportEvents plainKernel 7 (Report.start fileTableInit) (changeAndCreate none (some 5)).events m = (some s, m') ∧
      visits plainKernel (changeAndCreate none (some 5)).events m = (some vs, m') ∧
      (reporting 7).RunMeets (Report.Keeps 7) (Report.start fileTableInit) vs ∧
      ∃ told : List TransFileEntry, told.Sublist s.entries ∧ s.ft = told.foldl eventTableUpdate fileTableInit := by
  have hzero : (fileMonitorTask plainKernel oneWatch .empty).1 = some 0 := by decide +kernel
  set m := (fileMonitorTask plainKernel oneWatch .empty).2 with hm
  have hstart : fileMonitorTask plainKernel oneWatch .empty = (some 0, m) := Prod.ext hzero rfl
  have hsome : (reportEvents plainKernel 7 (Report.start fileTableInit)
      (changeAndCreate none (some 5)).events m).1.isSome = true := by
    decide +kernel
  have hmeets : ∀ vs, (visits plainKernel (changeAndCreate none (some 5)).events m).1 = some vs →
      (reporting 7).RunMeets (Report.Keeps 7) (Report.start fileTableInit) vs := by
    have heval : ((visits plainKernel (changeAndCreate none (some 5)).events m).1.map fun vs =>
        decide ((reporting 7).RunMeets (Report.Keeps 7) (Report.start fileTableInit) vs)) = some true := by
      decide +kernel
    intro vs hvs
    rw [hvs, Option.map_some, Option.some.injEq] at heval
    exact of_decide_eq_true heval
  obtain ⟨s, hs⟩ := Option.isSome_iff_exists.1 hsome
  obtain ⟨vs, hvisits, htold⟩ := (rejected_leaves_table_iff plainKernel 7 fileTableInit m _).2
    (changeAndCreate none (some 5)) s (Prod.ext hs rfl)
  have hmeets := hmeets vs (congrArg Prod.fst hvisits)
  exact ⟨m, s, _, vs, hstart, Prod.ext hs rfl, hvisits, hmeets, htold hmeets⟩

/-- A file that is created and gone again before `stat`: `handle_event` returns -1, and the table has got an entry with
timestamp 0. -/
theorem gone_file_in_table :
    let x : Name := ⟨[49, 47, 120], by decide, by decide⟩
    let te : TransFileEntry := { TransFileEntry.zero with name := x }
    ∃ m r m', fileMonitorTask plainKernel oneWatch .empty = (some 0, m) ∧
      handleEventEntry plainKernel 7 IN_CREATE none 0 te [47, 97, 47, 120] fileTableInit m = (some r, m') ∧
      r.ret = -1 ∧ (fileTableSearch r.ft x).map (fun fe => fe.timestamp) = some 0 ∧ r.ft ≠ fileTableInit := by
  intro x te
  have hzero : (fileMonitorTask plainKernel oneWatch .empty).1 = some 0 := by decide +kernel
  set m := (fileMonitorTask plainKernel oneWatch .empty).2 with hm
  have heval : ((handleEventEntry plainKernel 7 IN_CREATE none 0 te [47, 97, 47, 120] fileTableInit m).1.map fun r =>
      (r.ret, (fileTableSearch r.ft x).map fun fe => fe.timestamp)) = some (-1, some 0) := by
    decide +kernel
  obtain ⟨r, hr, hret⟩ := Option.map_eq_some_iff.1 heval
  obtain ⟨hret, hentry⟩ := Prod.mk.inj hret
  refine ⟨m, r, _, Prod.ext hzero rfl, Prod.ext hr rfl, hret, hentry, fun hsame => ?_⟩
  rw [hsame] at hentry
  cases hentry

end TeleSync
