import TeleSync.Monitor.Table
import TeleSync.Lib.PathName

/-!
# What holds of every target and every call

* `Holds P Q m` : the names of every target are related by `P`, and every call so far is one of `Q`;
* `Closed P Q C` : a component of `C` below a target may be watched and made;
* `keeps_watchTargetAdd`, `keeps_watchTargetAddDir`, `keeps_handleEvent`, `keeps_fileMonitorBlock`, ... : then every
  function keeps `Holds P Q`, as long as it is given components of `C`.
-/

namespace TeleSync
open Program

/-- Logical and system name of every target are related by `P`; all calls so far are in `Q`. -/
structure Holds (P : CString → CString → Prop) (Q : Call → Prop) (m : MonitorTable) : Prop where
  targets : ∀ p t, m.objs p = some t → P t.logicName t.sysName
  calls : ∀ c ∈ m.trace, Q c

/-- The path is a target's system name and the last component of `name`. -/
def BelowTarget (P : CString → CString → Prop) (name path : CString) : Prop :=
  SLASH ∈ name ∧ ∃ l s, P l s ∧ path = s ++ fileText name

/-- Components in `C` may be added to the names of a target, and the directory made; calls that touch no file are
always in `Q`. -/
structure Closed (P : CString → CString → Prop) (Q : Call → Prop) (C : CString → Prop) : Prop where
  child : ∀ l s c, P l s → C c → P (l ++ SLASH :: c) (s ++ SLASH :: c)
  mkdir : ∀ l s c, P l s → C c → Q (.mkdir (s ++ SLASH :: c))
  addWatch : ∀ path mask, Q (.inotifyAddWatch path mask)
  rmWatch : ∀ wd, Q (.inotifyRmWatch wd)
  calloc : Q .calloc

/-! ## Prefixes of names -/

theorem eq_dirText_append_fileText {name : CString} (h : SLASH ∈ name) : name = dirText name ++ fileText name :=
  PathName.eq_dropLast_append_getLast h

theorem fileText_append (a b : CString) :
    fileText (a ++ SLASH :: b) = SLASH :: (b.splitOn SLASH).getLast (List.splitOn_ne_nil _ _) :=
  congrArg (SLASH :: ·) (PathName.getLast_splitOn_append a b)

theorem dirText_append {a c : CString} (hc : SLASH ∉ c) : dirText (a ++ SLASH :: c) = a := by
  unfold dirText
  rw [List.splitOn_append_cons_self, List.splitOn_eq_singleton hc, List.dropLast_concat]
  exact List.intercalate_splitOn SLASH

theorem fileText_append_of_notMem {a c : CString} (hc : SLASH ∉ c) : fileText (a ++ SLASH :: c) = SLASH :: c := by
  rw [fileText_append]
  simp only [List.splitOn_eq_singleton hc, List.getLast_singleton]

theorem exists_of_mem_dirPrefixes {name dir : CString} (h : dir ∈ dirPrefixes name) :
    ∃ rest, name = dir ++ SLASH :: rest := by
  obtain ⟨l, hl, rfl⟩ := List.mem_map.mp h
  have hne : l ≠ [] := by
    cases hd : (name.splitOn SLASH).dropLast.dropLast with
    | nil =>
      rw [hd] at hl
      cases hl
    | cons c cs =>
      rw [hd, List.inits_cons, List.drop_one, List.tail_cons] at hl
      obtain ⟨l', -, rfl⟩ := List.mem_map.mp hl
      exact List.cons_ne_nil c l'
  have hprefix : l <+: (name.splitOn SLASH).dropLast :=
    ((List.mem_inits _ _).mp (List.mem_of_mem_drop hl)).trans (List.dropLast_prefix _)
  obtain ⟨l', hl'⟩ := hprefix
  have hsplit := List.dropLast_append_getLast (List.splitOn_ne_nil SLASH name)
  rw [← hl', List.append_assoc] at hsplit
  have hname : [SLASH].intercalate (name.splitOn SLASH) = name := List.intercalate_splitOn SLASH
  have hright := List.append_ne_nil_of_right_ne_nil l' (List.cons_ne_nil
    ((name.splitOn SLASH).getLast (List.splitOn_ne_nil SLASH name)) [])
  have hcut : [SLASH].intercalate _ = _ := PathName.intercalate_append hne hright
  rw [hsplit, hname] at hcut
  exact ⟨_, hcut⟩

/-! ## Lookups -/

theorem getDirTarget_eq_some {m : MonitorTable} {dir : CString} {p : ℕ} (h : getDirTarget m dir = some p) :
    ∃ t, m.objs p = some t ∧ t.logicName = dir := by
  have hfound := List.find?_some h
  cases ht : m.objs p with
  | none =>
    rw [ht] at hfound
    cases hfound
  | some t =>
    rw [ht] at hfound
    exact ⟨t, rfl, by simpa using hfound⟩

theorem exists_of_nearestTarget {m : MonitorTable} {name : CString} {p : ℕ} (h : nearestTarget m name = some p) :
    ∃ dir ∈ dirPrefixes name, getDirTarget m dir = some p := by
  have hfold : ∀ l : List CString, (∀ dir ∈ l, dir ∈ dirPrefixes name) →
      l.foldl (fun t dir => (getDirTarget m dir).or t) none = some p →
        ∃ dir ∈ dirPrefixes name, getDirTarget m dir = some p := by
    intro l hl hp
    induction l using List.reverseRecOn with
    | nil => cases hp
    | append_singleton l dir ih =>
      rw [List.foldl_append, List.foldl_cons, List.foldl_nil] at hp
      cases hd : getDirTarget m dir with
      | none =>
        rw [hd, Option.none_or] at hp
        exact ih (fun d hd => hl d (List.mem_append_left _ hd)) hp
      | some q =>
        rw [hd, Option.some_or] at hp
        exact ⟨dir, hl dir (List.mem_append_right _ (List.mem_singleton_self dir)), hd.trans hp⟩
  exact hfold (dirPrefixes name) (fun _ hd => hd) h

theorem nearestTarget_eq_some {m : MonitorTable} {name : CString} {p : ℕ} (h : nearestTarget m name = some p) :
    ∃ t rest, m.objs p = some t ∧ name = t.logicName ++ SLASH :: rest := by
  obtain ⟨dir, hdir, hp⟩ := exists_of_nearestTarget h
  obtain ⟨t, ht, rfl⟩ := getDirTarget_eq_some hp
  obtain ⟨rest, hrest⟩ := exists_of_mem_dirPrefixes hdir
  exact ⟨t, rest, ht, hrest⟩

/-- What `file_monitor_block` starts from when it makes directories: the target and the rest of the name. -/
theorem drop_logicName {name l rest : CString} (h : name = l ++ SLASH :: rest) : name.drop (l.length + 1) = rest := by
  rw [h, List.drop_append, List.drop_of_length_le (by omega), List.nil_append, Nat.add_sub_cancel_left,
    List.drop_one, List.tail_cons]

/-! ## Single calls -/

theorem deref_eq {m : MonitorTable} {p : ℕ} {t : MonitorTarget} (ht : m.objs p = some t) : deref p m = (some t, m) := by
  rw [← ht]
  rfl

theorem calloc_eq (K : Kernel) (m : MonitorTable) : calloc K m = (some (K.calloc m), m.log .calloc) := rfl

theorem inotifyAddWatch_eq (K : Kernel) (path : CString) (mask : WatchMask) (m : MonitorTable) :
    inotifyAddWatch K path mask m = (some (K.inotifyAddWatch m path mask), m.log (.inotifyAddWatch path mask)) := rfl

theorem getFileTarget_eq {name : CString} (hslash : SLASH ∈ name) (m : MonitorTable) :
    getFileTarget name m = (some (getDirTarget m (dirText name)), m) := by
  unfold getFileTarget
  rw [Prog.bind_of_some (Prog.assert_of_pos hslash m)]
  rfl

theorem watchAgain_eq (K : Kernel) (mask : WatchMask) {m : MonitorTable} {p : ℕ} {t : MonitorTarget}
    (ht : m.objs p = some t) : watchAgain K mask p m = (some (),
      (m.log (.inotifyAddWatch t.sysName mask)).setWd p (K.inotifyAddWatch m t.sysName mask)) := by
  unfold watchAgain
  rw [Prog.bind_of_some (deref_eq ht)]
  rfl

/-! ## Adding a target -/

theorem watchTargetAdd_fresh {K : Kernel} {m : MonitorTable} {sysName logicName : CString} {wd : ℤ}
    (hsys : NameFits sysName) (hlogic : NameFits logicName) (hwatch : K.inotifyAddWatch m sysName .defaultWatch = wd)
    (hrange : 0 ≤ wd ∧ wd < WD_HASH_SIZE) (hfree : m.targets wd = none)
    (halloc : K.calloc (m.log (.inotifyAddWatch sysName .defaultWatch)) = true) :
    watchTargetAdd K sysName logicName m = (some (some m.allocated),
      ((m.log (.inotifyAddWatch sysName .defaultWatch)).log .calloc).insert ⟨wd, sysName, logicName⟩) := by
  have hcheck : (Prog.assert (NameFits sysName ∧ NameFits logicName) : Monitor Unit) m = (some (), m) :=
    Prog.assert_of_pos ⟨hsys, hlogic⟩ m
  have hwd : inotifyAddWatch K sysName .defaultWatch m =
      (some wd, m.log (.inotifyAddWatch sysName .defaultWatch)) := by
    rw [← hwatch]
    rfl
  have hroom : (Prog.assert (wd < WD_HASH_SIZE) : Monitor Unit) (m.log (.inotifyAddWatch sysName .defaultWatch)) =
      (some (), m.log (.inotifyAddWatch sysName .defaultWatch)) := Prog.assert_of_pos hrange.2 _
  have hused : (Prog.get fun m => m.targets wd : Monitor (Option ℕ)) (m.log (.inotifyAddWatch sysName .defaultWatch)) =
      (some none, m.log (.inotifyAddWatch sysName .defaultWatch)) := by
    rw [← hfree]
    rfl
  have hcalloc : calloc K (m.log (.inotifyAddWatch sysName .defaultWatch)) =
      (some true, (m.log (.inotifyAddWatch sysName .defaultWatch)).log .calloc) := by
    rw [← halloc]
    rfl
  unfold watchTargetAdd
  rw [Prog.bind_of_some hcheck, Prog.bind_of_some hwd, if_neg (not_lt.mpr hrange.1), Prog.bind_of_some hroom,
    Prog.bind_of_some hused]
  dsimp only
  rw [Prog.bind_of_some hcalloc, if_pos rfl]
  rfl

/-! ## Held names -/

/-- What blocking says of its target (`L`) and looking up says of the path (`F`) is known of a held name. -/
theorem triple_blockName_of {K : Kernel} {name : CString} {del : Bool} {I S E : MonitorTable → Prop}
    {L : ℕ → MonitorTable → Prop} {F : CString → Prop}
    (hblock : Triple I (fileMonitorBlock K name del) (fun r m => S m ∧ ∀ p, r = some p → L p m) E)
    (hget : ∀ p, Triple (fun m => S m ∧ L p m) (monitorGetSysName K name p)
      (fun r m => S m ∧ ∀ path, r = some path → F path) E)
    (hunblock : ∀ p, Triple S (fileMonitorUnblock K p) (fun _ => S) E) :
    Triple I (blockName K name del) (fun r m => S m ∧ ∀ g, r = some g → g.logicName = name ∧ F g.sysName) E := by
  apply Triple.bind hblock
  intro target
  cases target with
  | none =>
    refine Triple.ret fun m hm => ⟨hm.1, fun g hg => ?_⟩
    cases hg
  | some p =>
    apply Triple.bind_fact (F := fun r => ∀ path, r = some path → F path)
    · exact (hget p).conseq (fun m hm => ⟨hm.1, hm.2 p rfl⟩) (fun _ _ hs => hs) fun _ hs => hs
    intro sysName hpath
    cases sysName with
    | none =>
      apply Triple.bind (hunblock p)
      intro _
      refine Triple.ret fun m hm => ⟨hm, fun g hg => ?_⟩
      cases hg
    | some path =>
      refine Triple.ret fun m hm => ⟨hm, fun g hg => ?_⟩
      cases hg
      exact ⟨rfl, hpath path rfl⟩

/-! ## Keeping what holds -/

section Holds
variable {P : CString → CString → Prop} {Q : Call → Prop} {C : CString → Prop} {K : Kernel}

theorem Holds.empty : Holds P Q MonitorTable.empty :=
  ⟨fun _ _ h => (Option.some_ne_none _ h.symm).elim, fun _ h => (List.not_mem_nil h).elim⟩

theorem Holds.log {m : MonitorTable} (h : Holds P Q m) {c : Call} (hc : Q c) : Holds P Q (m.log c) := by
  refine ⟨h.targets, fun d hd => ?_⟩
  rcases List.mem_append.mp hd with hd | hd
  · exact h.calls d hd
  · rw [List.mem_singleton.mp hd]
    exact hc

theorem Holds.insert {m : MonitorTable} (h : Holds P Q m) {t : MonitorTarget} (ht : P t.logicName t.sysName) :
    Holds P Q (m.insert t) := by
  refine ⟨fun p t' ht' => ?_, h.calls⟩
  rw [MonitorTable.objs_insert, Function.update_apply] at ht'
  split_ifs at ht' with hp
  · cases ht'
    exact ht
  · exact h.targets p t' ht'

theorem Holds.setWd {m : MonitorTable} (h : Holds P Q m) (p : ℕ) (wd : ℤ) : Holds P Q (m.setWd p wd) := by
  refine ⟨fun q t ht => ?_, h.calls⟩
  rw [MonitorTable.objs_setWd, Function.update_apply] at ht
  split_ifs at ht with hq
  · obtain ⟨t', ht', rfl⟩ := Option.map_eq_some_iff.mp ht
    exact h.targets p t' ht'
  · exact h.targets q t ht

theorem Holds.free {m : MonitorTable} (h : Holds P Q m) (p : ℕ) (wd : ℤ) : Holds P Q (m.free p wd) := by
  refine ⟨fun q t ht => ?_, h.calls⟩
  rw [MonitorTable.objs_free, Function.update_apply] at ht
  split_ifs at ht with hq
  exact h.targets q t ht

theorem keeps_issue {c : Call} (hc : Q c) : Keeps (Holds P Q) (issue c) := Triple.modify fun _ h => h.log hc

theorem triple_deref (p : ℕ) : Triple (Holds P Q) (deref p)
    (fun t m => Holds P Q m ∧ P t.logicName t.sysName) (Holds P Q) :=
  Triple.read (fun _ t h ht => ⟨h, h.targets p t ht⟩) fun _ h => h

/-- What is shown for a target may use that its names are related. -/
theorem keeps_deref_bind {α : Type} (p : ℕ) {k : MonitorTarget → Monitor α}
    (hk : ∀ t, P t.logicName t.sysName → Keeps (Holds P Q) (k t)) : Keeps (Holds P Q) (deref p >>= k) :=
  Triple.bind_fact (triple_deref p) hk

variable (h : Closed P Q C)
include h

theorem keeps_inotifyAddWatch (path : CString) (mask : WatchMask) :
    Keeps (Holds P Q) (inotifyAddWatch K path mask) := by
  apply Keeps.bind (Keeps.get _)
  intro wd
  apply Keeps.bind (keeps_issue (h.addWatch path mask))
  intro _
  exact Keeps.ret wd

theorem keeps_calloc : Keeps (Holds P Q) (calloc K) := by
  apply Keeps.bind (Keeps.get _)
  intro ok
  apply Keeps.bind (keeps_issue h.calloc)
  intro _
  exact Keeps.ret ok

omit h in
theorem keeps_mkdir {path : CString} (hpath : Q (.mkdir path)) : Keeps (Holds P Q) (mkdir K path) := by
  apply Keeps.bind (Keeps.get _)
  intro ret
  apply Keeps.bind (keeps_issue hpath)
  intro _
  exact Keeps.ret ret

theorem keeps_unwatchAndFreeTarget (p : ℕ) : Keeps (Holds P Q) (unwatchAndFreeTarget p) := by
  apply Keeps.bind (Keeps.read _)
  intro t
  apply Keeps.bind (Keeps.assert _)
  intro _
  apply Keeps.bind (keeps_issue (h.rmWatch t.wd))
  intro _
  exact Triple.modify fun m hm => hm.free p t.wd

theorem keeps_watchTargetAdd {sysName logicName : CString} (hP : P logicName sysName) :
    Keeps (Holds P Q) (watchTargetAdd K sysName logicName) := by
  apply Keeps.bind (Keeps.assert _)
  intro _
  apply Keeps.bind (keeps_inotifyAddWatch h _ _)
  intro wd
  refine Keeps.ite (fun _ => Keeps.ret _) fun _ => ?_
  apply Keeps.bind (Keeps.assert _)
  intro _
  apply Keeps.bind (Keeps.get _)
  intro used
  cases used with
  | some p => exact Keeps.ret _
  | none =>
    apply Keeps.bind (keeps_calloc h)
    intro ok
    refine Keeps.ite (fun _ => ?_) fun _ => Keeps.ret _
    apply Keeps.bind (Keeps.get _)
    intro p
    apply Keeps.bind (Triple.modify fun m hm => hm.insert hP)
    intro _
    exact Keeps.ret _

mutual
/-- All directories below one whose names are related. -/
theorem keeps_watchTargetAddDir {N : CString → Prop} (hN : ∀ c, N c → c ≠ DOT → c ≠ DOT_DOT → C c)
    {dir localDir : CString} (hP : P localDir dir) : ∀ d : Directory, d.Named N →
    Keeps (Holds P Q) (watchTargetAddDir K dir localDir d)
  | .unreadable, _ => by
    rw [watchTargetAddDir]
    apply Keeps.bind (keeps_watchTargetAdd h hP)
    intro _
    exact Keeps.ret _
  | .readable entries, hd => by
    rw [watchTargetAddDir]
    apply Keeps.bind (keeps_watchTargetAdd h hP)
    intro _
    exact keeps_watchEntries hN hP 0 entries hd
theorem keeps_watchEntries {N : CString → Prop} (hN : ∀ c, N c → c ≠ DOT → c ≠ DOT_DOT → C c)
    {dir localDir : CString} (hP : P localDir dir) (ret : ℤ) : ∀ entries : DirEntries, entries.Named N →
    Keeps (Holds P Q) (watchEntries K dir localDir ret entries)
  | .nil, _ => by
    rw [watchEntries]
    exact Keeps.ret _
  | .file rest, hd => by
    rw [watchEntries]
    exact keeps_watchEntries hN hP ret rest hd
  | .dir dName sub rest, hd => by
    rw [watchEntries]
    apply Keeps.bind (Keeps.assert _)
    intro _
    refine Keeps.ite (fun _ => keeps_watchEntries hN hP ret rest hd.2.2) fun hdots => ?_
    have hC := hN dName hd.1 (fun heq => hdots (Or.inl heq)) fun heq => hdots (Or.inr heq)
    apply Keeps.bind (keeps_watchTargetAddDir hN (h.child _ _ dName hP hC) sub hd.2.1)
    intro r
    exact keeps_watchEntries hN hP _ rest hd.2.2
end

theorem keeps_watchTargets {N : CString → Prop} (hN : ∀ c, N c → c ≠ DOT → c ≠ DOT_DOT → C c)
    (dirs : List (CString × Directory)) (i : ℕ) (ret : ℤ)
    (hdirs : ∀ j dir d, dirs[j]? = some (dir, d) → P (decimal (i + j + 1)) dir ∧ d.Named N) :
    Keeps (Holds P Q) (watchTargets K i ret dirs) := by
  induction dirs generalizing i ret with
  | nil =>
    rw [watchTargets]
    exact Keeps.ret _
  | cons e dirs ih =>
    obtain ⟨dir, d⟩ := e
    rw [watchTargets]
    obtain ⟨hP, hd⟩ := hdirs 0 dir d rfl
    apply Keeps.bind (keeps_watchTargetAddDir h hN hP d hd)
    intro r
    apply ih
    intro j dir' d' hj
    have hrest := hdirs (j + 1) dir' d' hj
    rwa [show i + (j + 1) + 1 = i + 1 + j + 1 by omega] at hrest

theorem keeps_handleEvent (e : InotifyEvent) (he : ∀ wd what isDir name, e = .entry wd what isDir name → C name) :
    Keeps (Holds P Q) (handleEvent K e) := by
  have htarget : ∀ wd, Keeps (Holds P Q) (eventTarget wd) := by
    intro wd
    apply Keeps.bind (Keeps.assert _)
    intro _
    exact Keeps.get _
  cases e with
  | entry wd what isDir name =>
    apply Keeps.bind (htarget wd)
    intro target
    cases target with
    | none => exact Keeps.ret _
    | some p =>
      apply keeps_deref_bind
      intro t ht
      apply Keeps.bind (Keeps.assert _)
      intro _
      refine Keeps.ite (fun _ => Keeps.ret _) fun _ => Keeps.ite (fun _ => ?_) fun _ => Keeps.ret _
      apply Keeps.bind (keeps_watchTargetAdd h (h.child _ _ name ht (he wd what isDir name rfl)))
      intro _
      exact Keeps.ret _
  | self wd what =>
    apply Keeps.bind (htarget wd)
    intro target
    cases target with
    | none => exact Keeps.ret _
    | some p => exact Keeps.ite (fun _ => keeps_unwatchAndFreeTarget h p) fun _ => Keeps.ret _

theorem keeps_watchAgain (mask : WatchMask) (p : ℕ) : Keeps (Holds P Q) (watchAgain K mask p) := by
  apply Keeps.bind (Keeps.read _)
  intro t
  apply Keeps.bind (keeps_inotifyAddWatch h _ _)
  intro wd
  exact Triple.modify fun m hm => hm.setWd p wd

theorem keeps_makeDirs (cs : List CString) (hcs : ∀ c ∈ cs, C c) (p : ℕ) :
    Keeps (Holds P Q) (makeDirs K p cs) := by
  induction cs generalizing p with
  | nil =>
    rw [makeDirs]
    exact Keeps.ret _
  | cons c cs ih =>
    have hc := hcs c List.mem_cons_self
    rw [makeDirs]
    apply keeps_deref_bind
    intro t ht
    apply Keeps.bind (keeps_watchAgain h _ _)
    intro _
    apply Keeps.bind (keeps_mkdir (h.mkdir _ _ c ht hc))
    intro _
    apply Keeps.bind (keeps_watchAgain h _ _)
    intro _
    apply Keeps.bind (keeps_watchTargetAdd h (h.child _ _ c ht hc))
    intro next
    cases next with
    | none => exact Keeps.crash
    | some q => exact ih (fun d hd => hcs d (List.mem_cons_of_mem _ hd)) q

theorem keeps_blockOut (target : Option ℕ) : Keeps (Holds P Q) (blockOut K target) := by
  cases target with
  | none => exact Keeps.crash
  | some p =>
    apply Keeps.bind (keeps_watchAgain h _ _)
    intro _
    exact Keeps.ret _

/-- A name may be blocked if its components after the first are in `C`. -/
theorem keeps_fileMonitorBlock {name : CString} (hname : ∀ c ∈ (name.splitOn SLASH).tail, C c) (del : Bool) :
    Keeps (Holds P Q) (fileMonitorBlock K name del) := by
  have hlookup : Keeps (Holds P Q) (getFileTarget name) := by
    apply Keeps.bind (Keeps.assert _)
    intro _
    exact Keeps.get _
  refine Keeps.ite (fun _ => Keeps.ret _) fun _ => ?_
  apply Keeps.bind hlookup
  intro target
  refine Keeps.ite (fun _ => keeps_blockOut h target) fun _ => ?_
  apply Triple.bind (Q := fun near m => Holds P Q m ∧ near = nearestTarget m name) (Triple.get fun m hm => ⟨hm, rfl⟩)
  intro near
  cases near with
  | none => exact Triple.ret fun m hm => hm.1
  | some p =>
    apply Triple.bind_fact (F := fun t => ∃ rest, name = t.logicName ++ SLASH :: rest)
    · refine Triple.read (fun m t hm ht => ⟨hm.1, ?_⟩) fun m hm => hm.1
      obtain ⟨t', rest, ht', hrest⟩ := nearestTarget_eq_some hm.2.symm
      rw [ht] at ht'
      cases ht'
      exact ⟨rest, hrest⟩
    · rintro t ⟨rest, hrest⟩
      have hcs : ∀ c ∈ (rest.splitOn SLASH).dropLast, C c := by
        intro c hc
        apply hname
        obtain ⟨d, l, hdl⟩ := List.exists_cons_of_ne_nil (List.splitOn_ne_nil SLASH t.logicName)
        rw [hrest, List.splitOn_append_cons_self, hdl, List.cons_append, List.tail_cons]
        exact List.mem_append_right _ (List.mem_of_mem_dropLast hc)
      rw [drop_logicName hrest]
      apply Keeps.bind (keeps_makeDirs h _ hcs p)
      intro q
      exact keeps_blockOut h (some q)

omit h in
theorem triple_sysNameBelow (name : CString) (p : ℕ) :
    Triple (Holds P Q) (sysNameBelow name p)
      (fun r m => Holds P Q m ∧ ∀ path, r = some path → BelowTarget P name path) (Holds P Q) := by
  apply Triple.bind_fact (triple_deref p)
  intro t ht
  apply Triple.bind_fact (F := fun _ => SLASH ∈ name) (Triple.assert (fun _ hm hb => ⟨hm, hb.1⟩) fun _ hm => hm)
  intro _ hslash
  refine Triple.ret fun m hm => ⟨hm, fun path hpath => ?_⟩
  cases hpath
  exact ⟨hslash, _, _, ht, rfl⟩

theorem triple_monitorGetSysName (name : CString) (p : ℕ) :
    Triple (Holds P Q) (monitorGetSysName K name p)
      (fun r m => Holds P Q m ∧ ∀ path, r = some path → BelowTarget P name path) (Holds P Q) := by
  apply Triple.bind (keeps_calloc h)
  intro ok
  refine Triple.ite (fun _ => triple_sysNameBelow name p) fun _ => Triple.ret fun m hm => ⟨hm, fun path hpath => ?_⟩
  cases hpath

theorem keeps_monitorGetSysName (name : CString) (p : ℕ) : Keeps (Holds P Q) (monitorGetSysName K name p) :=
  (triple_monitorGetSysName h name p).conseq (fun _ hm => hm) (fun _ _ hm => hm.1) fun _ hm => hm

theorem below_blockName {name : CString} (hname : ∀ c ∈ (name.splitOn SLASH).tail, C c) (del : Bool) :
    Triple (Holds P Q) (blockName K name del)
      (fun r m => Holds P Q m ∧ ∀ g, r = some g → g.logicName = name ∧ BelowTarget P name g.sysName)
      (Holds P Q) := by
  apply triple_blockName_of (L := fun _ _ => True)
  · exact (keeps_fileMonitorBlock h hname del).conseq (fun _ hm => hm) (fun _ _ hm => ⟨hm, fun _ _ => trivial⟩)
      fun _ hm => hm
  · exact fun p => (triple_monitorGetSysName h name p).conseq (fun _ hm => hm.1) (fun _ _ hm => hm) fun _ hm => hm
  · exact fun p => keeps_watchAgain h _ p

theorem keeps_fileMonitorMkdir {sysName logicName : CString} (hP : P logicName sysName) (hQ : Q (.mkdir sysName)) :
    Keeps (Holds P Q) (fileMonitorMkdir K sysName logicName) := by
  apply Keeps.bind (keeps_mkdir hQ)
  intro ret
  refine Keeps.ite (fun _ => Keeps.ret _) fun _ => ?_
  apply Keeps.bind (keeps_watchTargetAdd h hP)
  intro target
  exact Keeps.ret _

theorem keeps_fileMonitorRmdir {sysName logicName : CString} (hQ : Q (.system (rmCommand sysName))) :
    Keeps (Holds P Q) (fileMonitorRmdir sysName logicName) := by
  apply Keeps.bind (keeps_issue hQ)
  intro _
  apply Keeps.bind (Keeps.get _)
  intro target
  cases target with
  | none => exact Keeps.ret _
  | some p => exact keeps_unwatchAndFreeTarget h p

end Holds

end TeleSync
