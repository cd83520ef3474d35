import TeleSync.Monitor.Names
import TeleSync.Sync.Network

/-!
# What the file monitor reports

`file_monitor_task` reads a buffer of inotify events and lets `handle_event` fill one slot of its `trans_file_table`
for each. The table is zeroed once for the whole buffer; an event that `handle_event` rejects leaves what it wrote in
the slot, and the next event goes on from there.

* `Inotify`, `EventBuffer` : the events of one `read`, with what `stat` says for each;
* `handleEventEntry` : `handle_event`, on the slot it is given; `reportEvents` : the loop over a buffer;
* `Visit`, `visits` : what the monitor table contributes, which does not depend on slots;
* `EntriesAlone` : each reported entry is what its event makes of a zeroed slot;
* `entries_alone_iff` : this holds exactly when, once an event is rejected, all later ones are, and at most sixteen.
-/

namespace TeleSync
open Program

/-! ## Events -/

def IN_MODIFY : UInt32 := 0x2
def IN_ATTRIB : UInt32 := 0x4
def IN_MOVED_FROM : UInt32 := 0x40
def IN_MOVED_TO : UInt32 := 0x80
def IN_CREATE : UInt32 := 0x100
def IN_DELETE : UInt32 := 0x200
def IN_DELETE_SELF : UInt32 := 0x400
def IN_MOVE_SELF : UInt32 := 0x800
def IN_ISDIR : UInt32 := 0x40000000

/-- `sizeof(struct inotify_event)` -/
def EVENT_LEN : ℕ := 16
def EVENT_BUF_LEN : ℕ := 1024 * (EVENT_LEN + 16)

/-- `struct inotify_event` in the buffer; `name` is the string at its end, which is whatever comes next in the buffer
if `len` is 0. -/
structure Inotify where
  wd : ℤ
  mask : UInt32
  len : ℕ
  name : CString
  deriving DecidableEq

/-- What one `read` gives: events, each with the time that `stat` finds for its file when it is handled. -/
structure EventBuffer where
  events : List (Inotify × Option ℕ)
  size_le : (events.map fun e => EVENT_LEN + e.1.len).sum ≤ EVENT_BUF_LEN

/-- The branches of `handle_event`. -/
inductive EventKind where
  | create
  | delete
  | deleteSelf
  | modify
  | moveSelf
  | movedFrom
  | movedTo
  | attrib
  | unknown
  deriving DecidableEq

def eventKind (mask : UInt32) : EventKind :=
  if mask &&& IN_CREATE ≠ 0 then .create
  else if mask &&& IN_DELETE ≠ 0 then .delete
  else if mask &&& IN_DELETE_SELF ≠ 0 then .deleteSelf
  else if mask &&& IN_MODIFY ≠ 0 then .modify
  else if mask &&& IN_MOVE_SELF ≠ 0 then .moveSelf
  else if mask &&& IN_MOVED_FROM ≠ 0 then .movedFrom
  else if mask &&& IN_MOVED_TO ≠ 0 then .movedTo
  else if mask &&& IN_ATTRIB ≠ 0 then .attrib
  else .unknown

def EventKind.op : EventKind → OperationType
  | .create => .fileAdd
  | .delete => .fileDelete
  | .deleteSelf => .fileDelete
  | .modify => .fileModify
  | .moveSelf => .fileDelete
  | .movedFrom => .fileDelete
  | .movedTo => .fileAdd
  | .attrib => .fileModify
  | .unknown => .fileNone

/-- The event is about the watched directory itself, which is no longer watched then. -/
def EventKind.isSelf (k : EventKind) : Prop := k = .deleteSelf ∨ k = .moveSelf

instance (k : EventKind) : Decidable k.isSelf := inferInstanceAs (Decidable (k = .deleteSelf ∨ k = .moveSelf))

/-- `te->file_type` -/
def eventType (mask : UInt32) : FileType :=
  if (eventKind mask).isSelf then .directory else if mask &&& IN_ISDIR ≠ 0 then .directory else .regular

/-! ## `handle_event` -/

/-- `get_trans_timestamp`, with its return value. -/
def getTransTimestamp (te : TransFileEntry) (stat : Option ℕ) : TransFileEntry × ℤ :=
  match stat with
  | some mtime => ({ te with timestamp := mtime }, 0)
  | none => (te, -1)

/-- What `handle_event` writes to the slot of an event that is not skipped for its name, and what it returns. -/
def fillEvent (myIp : UInt32) (mask : UInt32) (stat : Option ℕ) (te : TransFileEntry) : TransFileEntry × ℤ :=
  let te := { te with opType := (eventKind mask).op, fileType := eventType mask }
  let r :=
    if te.opType = .fileNone then (te, -1)
    else if te.opType = .fileDelete then (te, 0)
    else getTransTimestamp te stat
  ({ r.1 with owners := r.1.owners ++ [⟨myIp, P2P_PORT⟩] }, r.2)

/-- What `handle_event` returns, and the slot and the file table after it. -/
structure HandleResult where
  ret : ℤ
  te : TransFileEntry
  ft : FileTable

/-- `handle_event` for an event of the target `p` on the slot `te`, whose name is filled in. -/
def handleEventEntry (K : Kernel) (myIp : UInt32) (mask : UInt32) (stat : Option ℕ) (p : ℕ) (te : TransFileEntry)
    (sysName : CString) (ft : FileTable) : Monitor HandleResult :=
  if trickyString sysName then pure ⟨0, te, ft⟩
  else do
    if (eventKind mask).isSelf then unwatchAndFreeTarget p
    if (eventKind mask).op = .fileAdd ∧ eventType mask = .directory then
      let _ ← watchTargetAdd K sysName te.name.bytes
    let r := fillEvent myIp mask stat te
    pure ⟨r.2, r.1, eventTableUpdate ft r.1⟩

/-- A string that a `char[MAX_NAME_LEN]` can hold. -/
def toName (s : CString) : Option Name := if h : 0 ∉ s ∧ s.length < MAX_NAME_LEN then some ⟨s, h.1, h.2⟩ else none

theorem toName_eq_some {s : CString} {name : Name} (h : toName s = some name) : name.bytes = s ∧ NameFits s := by
  unfold toName at h
  split_ifs at h with hs
  cases h
  exact ⟨rfl, hs.2⟩

/-! ## The loop -/

/-- The table under construction: the entries up to `n`, what is in the slot at `n`, and whether an owner was written
behind the array of a slot. The file table changes along the way. -/
structure Report where
  entries : List TransFileEntry
  slot : TransFileEntry
  overrun : Bool
  ft : FileTable

/-- After `bzero(&tft, sizeof(tft))`. -/
def Report.start (ft : FileTable) : Report := ⟨[], .zero, false, ft⟩

/-- The slot after `handle_event`: it becomes an entry, or is left for the next event. An overrun reaches the slots
behind, which are taken to be zero all the same. -/
def Report.put (s : Report) (r : HandleResult) : Report where
  entries := if r.ret = 0 then s.entries ++ [r.te] else s.entries
  slot := if r.ret = 0 then .zero else r.te
  overrun := s.overrun || MAX_PEER_ENTRIES < r.te.owners.length
  ft := r.ft

/-- One round of the loop. -/
def reportEvent (K : Kernel) (myIp : UInt32) (s : Report) (ev : Inotify) (stat : Option ℕ) : Monitor Report := do
  let target ← eventTarget ev.wd
  match target with
  | none => pure s
  | some p => do
    let t ← deref p
    let name ← Prog.read fun _ => toName (if ev.len ≠ 0 then t.logicName ++ SLASH :: ev.name else t.logicName)
    let newName := if ev.len ≠ 0 then t.sysName ++ SLASH :: ev.name else ev.name
    Prog.assert (NameFits newName)
    let r ← handleEventEntry K myIp ev.mask stat p { s.slot with name := name } newName s.ft
    pure (s.put r)

/-- The loop over the events of a buffer. -/
def reportEvents (K : Kernel) (myIp : UInt32) : Report → List (Inotify × Option ℕ) → Monitor Report
  | s, [] => pure s
  | s, (ev, stat) :: evs =>
    if s.entries.length < MAX_FILE_ENTRIES then do
      let s ← reportEvent K myIp s ev stat
      reportEvents K myIp s evs
    else pure s

/-! ## What the monitor table contributes -/

/-- An event whose descriptor has a target when its turn comes, with the two names made for it. -/
structure Visit where
  mask : UInt32
  stat : Option ℕ
  name : Name
  sysName : CString

/-- What `handle_event` does to the monitor table. -/
def monitorPart (K : Kernel) (mask : UInt32) (p : ℕ) (name : Name) (sysName : CString) : Monitor Unit :=
  if trickyString sysName then pure ()
  else do
    if (eventKind mask).isSelf then unwatchAndFreeTarget p
    if (eventKind mask).op = .fileAdd ∧ eventType mask = .directory then
      let _ ← watchTargetAdd K sysName name.bytes

/-- One round of the loop, for the monitor table alone. -/
def visitEvent (K : Kernel) (ev : Inotify) (stat : Option ℕ) : Monitor (Option Visit) := do
  let target ← eventTarget ev.wd
  match target with
  | none => pure none
  | some p => do
    let t ← deref p
    let name ← Prog.read fun _ => toName (if ev.len ≠ 0 then t.logicName ++ SLASH :: ev.name else t.logicName)
    let newName := if ev.len ≠ 0 then t.sysName ++ SLASH :: ev.name else ev.name
    Prog.assert (NameFits newName)
    monitorPart K ev.mask p name newName
    pure (some ⟨ev.mask, stat, name, newName⟩)

/-- The events of a buffer that still have a target, in order. -/
def visits (K : Kernel) : List (Inotify × Option ℕ) → Monitor (List Visit)
  | [] => pure []
  | (ev, stat) :: evs => do
    let v ← visitEvent K ev stat
    let vs ← visits K evs
    pure (v.toList ++ vs)

/-! ### The same as `handleEvent` -/

def EntryEvent.kind : EntryEvent → EventKind
  | .create => .create
  | .delete => .delete
  | .modify => .modify
  | .movedFrom => .movedFrom
  | .movedTo => .movedTo
  | .attrib => .attrib

theorem EntryEvent.not_isSelf (what : EntryEvent) : ¬ what.kind.isSelf := by
  cases what <;> decide

theorem EntryEvent.op_eq_fileAdd (what : EntryEvent) : what.kind.op = .fileAdd ↔ what = .create ∨ what = .movedTo := by
  cases what <;> decide

/-- An event about an entry of a watched directory does to the monitor table what `handleEvent` does. -/
theorem handleEvent_of_visitEvent {K : Kernel} {wd : ℤ} {mask : UInt32} {len : ℕ} {name : CString} {stat : Option ℕ}
    {what : EntryEvent} {isDir : Bool} (hlen : len ≠ 0) (hkind : eventKind mask = what.kind)
    (hdir : mask &&& IN_ISDIR ≠ 0 ↔ isDir = true) {m m' : MonitorTable} {v : Option Visit}
    (h : visitEvent K ⟨wd, mask, len, name⟩ stat m = (some v, m')) :
    handleEvent K (.entry wd what isDir name) m = (some (), m') := by
  obtain ⟨target, m₁, htarget, h⟩ := Prog.bind_eq_some h
  refine (Prog.bind_of_some htarget _).trans ?_
  cases target with
  | none =>
    cases h
    rfl
  | some p =>
    obtain ⟨t, m₂, hderef, h⟩ := Prog.bind_eq_some h
    obtain ⟨teName, m₃, hname, h⟩ := Prog.bind_eq_some h
    obtain ⟨u, m₄, hfits, h⟩ := Prog.bind_eq_some h
    obtain ⟨u', m₅, hmonitor, h⟩ := Prog.bind_eq_some h
    cases h
    obtain ⟨hteName, rfl⟩ := Prod.mk.inj hname
    rw [if_pos hlen] at hteName hfits hmonitor
    obtain ⟨hbytes, hteFits⟩ := toName_eq_some hteName
    have hboth : (Prog.assert (NameFits (t.logicName ++ SLASH :: name) ∧ NameFits (t.sysName ++ SLASH :: name)) :
        Monitor Unit) m₂ = (some (), m₂) ∧ m₄ = m₂ := by
      unfold Prog.assert at hfits ⊢
      split_ifs at hfits with hsys
      · cases hfits
        rw [if_pos ⟨hteFits, hsys⟩]
        exact ⟨rfl, rfl⟩
      · cases hfits
    obtain ⟨hassert, rfl⟩ := hboth
    refine (Prog.bind_of_some hderef _).trans ((Prog.bind_of_some hassert _).trans ?_)
    unfold monitorPart at hmonitor
    rw [hkind, hbytes] at hmonitor
    have htype : eventType mask = .directory ↔ isDir = true := by
      unfold eventType
      rw [hkind, if_neg what.not_isSelf, ← hdir]
      split_ifs with hmask
      · exact iff_of_true rfl hmask
      · exact iff_of_false (by decide) hmask
    simp only [what.op_eq_fileAdd, htype, what.not_isSelf, if_false] at hmonitor
    split_ifs at hmonitor ⊢ with htricky hadd
    · exact hmonitor
    · exact hmonitor
    · exact hmonitor

/-- What `handle_event` does to the slot and the file table. -/
def handleVisit (myIp : UInt32) (v : Visit) (te : TransFileEntry) (ft : FileTable) : HandleResult :=
  if trickyString v.sysName then ⟨0, te, ft⟩
  else
    let r := fillEvent myIp v.mask v.stat te
    ⟨r.2, r.1, eventTableUpdate ft r.1⟩

def Report.visit (myIp : UInt32) (s : Report) (v : Visit) : Report :=
  s.put (handleVisit myIp v { s.slot with name := v.name } s.ft)

/-- `handle_event` in its two halves: what it does to the monitor table does not depend on the slot. -/
theorem handleEventEntry_eq (K : Kernel) (myIp mask : UInt32) (stat : Option ℕ) (p : ℕ) (te : TransFileEntry)
    (sysName : CString) (ft : FileTable) :
    handleEventEntry K myIp mask stat p te sysName ft =
      monitorPart K mask p te.name sysName >>= fun _ =>
        pure (handleVisit myIp ⟨mask, stat, te.name, sysName⟩ te ft) := by
  unfold handleEventEntry monitorPart handleVisit
  by_cases htricky : trickyString sysName = true
  · simp only [htricky, if_true, pure_bind]
  · simp only [htricky, if_false, Bool.false_eq_true]
    split_ifs <;> simp only [bind_assoc, pure_bind]

theorem reportEvent_eq (K : Kernel) (myIp : UInt32) (s : Report) (ev : Inotify) (stat : Option ℕ) :
    reportEvent K myIp s ev stat =
      visitEvent K ev stat >>= fun v => pure (v.toList.foldl (Report.visit myIp) s) := by
  unfold reportEvent visitEvent
  rw [bind_assoc]
  refine congrArg (Bind.bind _) (funext fun target => ?_)
  cases target with
  | none => rfl
  | some p =>
    simp only [bind_assoc, pure_bind, handleEventEntry_eq]
    rfl

/-- The loop over a buffer: the monitor table is walked through first, the slots follow. -/
theorem reportEvents_eq (K : Kernel) (myIp : UInt32) (s : Report) {evs : List (Inotify × Option ℕ)}
    (h : s.entries.length + evs.length ≤ MAX_FILE_ENTRIES) :
    reportEvents K myIp s evs = visits K evs >>= fun vs => pure (vs.foldl (Report.visit myIp) s) := by
  induction evs generalizing s with
  | nil => rfl
  | cons e evs ih =>
    obtain ⟨ev, stat⟩ := e
    rw [List.length_cons] at h
    rw [reportEvents, if_pos (by omega), visits, reportEvent_eq]
    simp only [bind_assoc, pure_bind, List.foldl_append]
    refine congrArg (Bind.bind _) (funext fun v => ih _ ?_)
    -- one event adds one entry at most
    cases v with
    | none => exact (by omega : s.entries.length + evs.length ≤ MAX_FILE_ENTRIES)
    | some v =>
      show ((s.visit myIp v).entries).length + evs.length ≤ MAX_FILE_ENTRIES
      have hput : (s.visit myIp v).entries.length ≤ s.entries.length + 1 := by
        unfold Report.visit Report.put
        dsimp only
        split_ifs
        · rw [List.length_append, List.length_singleton]
        · omega
      omega

theorem EventBuffer.length_le (buf : EventBuffer) : buf.events.length ≤ MAX_FILE_ENTRIES := by
  have hsum : ∀ evs : List (Inotify × Option ℕ),
      EVENT_LEN * evs.length ≤ (evs.map fun e => EVENT_LEN + e.1.len).sum := by
    intro evs
    induction evs with
    | nil => exact le_rfl
    | cons e evs ih =>
      rw [List.map_cons, List.sum_cons, List.length_cons, Nat.mul_succ]
      omega
  have h := (hsum buf.events).trans buf.size_le
  unfold EVENT_BUF_LEN EVENT_LEN at h
  unfold MAX_FILE_ENTRIES
  omega

/-- The loop that `file_monitor_task` runs on a buffer gets to its end. -/
theorem reportEvents_start (K : Kernel) (myIp : UInt32) (ft : FileTable) (buf : EventBuffer) :
    reportEvents K myIp (Report.start ft) buf.events =
      visits K buf.events >>= fun vs => pure (vs.foldl (Report.visit myIp) (Report.start ft)) := by
  apply reportEvents_eq
  show 0 + buf.events.length ≤ MAX_FILE_ENTRIES
  rw [Nat.zero_add]
  exact buf.length_le

/-! ## One event -/

/-- `handle_event` gives the event back: its mask is not known, or its file is gone already. -/
def Visit.Rejected (v : Visit) : Prop :=
  trickyString v.sysName = false ∧
    ((eventKind v.mask).op = .fileNone ∨ (eventKind v.mask).op ≠ .fileDelete ∧ v.stat = none)

instance (v : Visit) : Decidable v.Rejected :=
  inferInstanceAs (Decidable (_ ∧ (_ ∨ _ ∧ _)))

/-- `handle_event` on an all-zero entry, which has got its name. -/
def Visit.alone (myIp : UInt32) (ft : FileTable) (v : Visit) : HandleResult :=
  handleVisit myIp v { TransFileEntry.zero with name := v.name } ft

theorem ret_fillEvent (myIp mask : UInt32) (stat : Option ℕ) (te : TransFileEntry) :
    (fillEvent myIp mask stat te).2 = 0 ↔
      ¬ ((eventKind mask).op = .fileNone ∨ (eventKind mask).op ≠ .fileDelete ∧ stat = none) := by
  unfold fillEvent getTransTimestamp
  dsimp only
  by_cases hnone : (eventKind mask).op = .fileNone
  · simp [hnone]
  by_cases hdelete : (eventKind mask).op = .fileDelete
  · simp [hdelete]
  · cases stat <;> simp [hnone, hdelete]

theorem ret_handleVisit (myIp : UInt32) (v : Visit) (te : TransFileEntry) (ft : FileTable) :
    (handleVisit myIp v te ft).ret = 0 ↔ ¬ v.Rejected := by
  unfold handleVisit Visit.Rejected
  by_cases htricky : trickyString v.sysName = true
  · simp [htricky]
  · simp [htricky, ret_fillEvent]

theorem owners_fillEvent (myIp mask : UInt32) (stat : Option ℕ) (te : TransFileEntry) :
    (fillEvent myIp mask stat te).1.owners = te.owners ++ [⟨myIp, P2P_PORT⟩] := by
  unfold fillEvent getTransTimestamp
  dsimp only
  split_ifs
  · rfl
  · rfl
  · cases stat <;> rfl

theorem owners_handleVisit (myIp : UInt32) (v : Visit) (te : TransFileEntry) (ft : FileTable) :
    (handleVisit myIp v te ft).te.owners =
      te.owners ++ (if trickyString v.sysName then [] else [⟨myIp, P2P_PORT⟩]) := by
  unfold handleVisit
  split_ifs
  · exact (List.append_nil _).symm
  · exact owners_fillEvent myIp v.mask v.stat te

theorem te_handleVisit (myIp : UInt32) (v : Visit) (te : TransFileEntry) (ft ft' : FileTable) :
    (handleVisit myIp v te ft).te = (handleVisit myIp v te ft').te := by
  unfold handleVisit
  split_ifs <;> rfl

/-! ## The slots of a buffer -/

section Slots

variable (myIp : UInt32) (ft : FileTable)

/-- The entries that the events would make each on its own. -/
def aloneEntries (vs : List Visit) : List TransFileEntry :=
  ((vs.map (Visit.alone myIp ft)).filter fun r => r.ret = 0).map HandleResult.te

theorem aloneEntries_cons_rejected {v : Visit} (h : v.Rejected) (vs : List Visit) :
    aloneEntries myIp ft (v :: vs) = aloneEntries myIp ft vs := by
  have hret : (v.alone myIp ft).ret ≠ 0 := fun hret => (ret_handleVisit myIp v _ ft).1 hret h
  unfold aloneEntries
  rw [List.map_cons, List.filter_cons_of_neg (by simpa using hret)]

theorem aloneEntries_cons_accepted {v : Visit} (h : ¬ v.Rejected) (vs : List Visit) :
    aloneEntries myIp ft (v :: vs) = (v.alone myIp ft).te :: aloneEntries myIp ft vs := by
  have hret : (v.alone myIp ft).ret = 0 := (ret_handleVisit myIp v _ ft).2 h
  unfold aloneEntries
  rw [List.map_cons, List.filter_cons_of_pos (by simpa using hret), List.map_cons]

theorem Report.visit_rejected (s : Report) {v : Visit} (h : v.Rejected) :
    (s.visit myIp v).entries = s.entries ∧ (s.visit myIp v).slot.owners = s.slot.owners ++ [⟨myIp, P2P_PORT⟩] ∧
      (s.visit myIp v).overrun = (s.overrun || MAX_PEER_ENTRIES < s.slot.owners.length + 1) := by
  have hret : (handleVisit myIp v { s.slot with name := v.name } s.ft).ret ≠ 0 :=
    fun hret => (ret_handleVisit myIp v _ s.ft).1 hret h
  have howners := owners_handleVisit myIp v { s.slot with name := v.name } s.ft
  rw [h.1, if_neg Bool.false_ne_true] at howners
  unfold Report.visit Report.put
  dsimp only
  rw [if_neg hret, if_neg hret, howners, List.length_append, List.length_singleton]
  exact ⟨rfl, rfl, rfl⟩

theorem Report.visit_accepted (s : Report) {v : Visit} (h : ¬ v.Rejected) :
    ∃ te, (s.visit myIp v).entries = s.entries ++ [te] ∧ (s.visit myIp v).slot = .zero ∧
      te.owners = s.slot.owners ++ (if trickyString v.sysName then [] else [⟨myIp, P2P_PORT⟩]) ∧
      (s.slot = .zero → te = (v.alone myIp ft).te) ∧
      (s.visit myIp v).overrun = (s.overrun || MAX_PEER_ENTRIES < te.owners.length) := by
  have hret : (handleVisit myIp v { s.slot with name := v.name } s.ft).ret = 0 := (ret_handleVisit myIp v _ s.ft).2 h
  refine ⟨(handleVisit myIp v { s.slot with name := v.name } s.ft).te, if_pos hret, if_pos hret,
    owners_handleVisit myIp v _ s.ft, fun hzero => ?_, rfl⟩
  rw [hzero]
  exact te_handleVisit myIp v _ s.ft ft

theorem Report.entries_foldl (s : Report) (vs : List Visit) :
    ∃ more, (vs.foldl (Report.visit myIp) s).entries = s.entries ++ more := by
  induction vs generalizing s with
  | nil => exact ⟨[], (List.append_nil _).symm⟩
  | cons v vs ih =>
    obtain ⟨more, hmore⟩ := ih (s.visit myIp v)
    rw [List.foldl_cons, hmore]
    by_cases h : v.Rejected
    · exact ⟨more, by rw [(s.visit_rejected myIp h).1]⟩
    · obtain ⟨te, hentries, -⟩ := s.visit_accepted myIp s.ft h
      exact ⟨te :: more, by rw [hentries, List.append_assoc, List.singleton_append]⟩

/-- From `s` on, the entries of `vs` are made as if alone, and no owner is written behind a slot. -/
def Report.GoesWell (s : Report) (vs : List Visit) : Prop :=
  (vs.foldl (Report.visit myIp) s).entries = s.entries ++ aloneEntries myIp ft vs ∧
    (vs.foldl (Report.visit myIp) s).overrun = false

theorem Report.goesWell_cons_rejected {s : Report} {v : Visit} (h : v.Rejected) (vs : List Visit) :
    s.GoesWell myIp ft (v :: vs) ↔ (s.visit myIp v).GoesWell myIp ft vs := by
  unfold Report.GoesWell
  rw [List.foldl_cons, aloneEntries_cons_rejected myIp ft h, (s.visit_rejected myIp h).1]

/-- On a slot that a rejected event has left, no event may be accepted any more. -/
theorem Report.goesWell_used {s : Report} (hslot : s.slot.owners ≠ [])
    (hroom : s.overrun = false → s.slot.owners.length ≤ MAX_PEER_ENTRIES) (vs : List Visit) :
    s.GoesWell myIp ft vs ↔
      (∀ v ∈ vs, v.Rejected) ∧ s.overrun = false ∧ s.slot.owners.length + vs.length ≤ MAX_PEER_ENTRIES := by
  induction vs generalizing s with
  | nil =>
    constructor
    · rintro ⟨-, hover⟩
      exact ⟨fun v hv => absurd hv List.not_mem_nil, hover, hroom hover⟩
    · rintro ⟨-, hover, -⟩
      exact ⟨(List.append_nil _).symm, hover⟩
  | cons v vs ih =>
    by_cases h : v.Rejected
    · obtain ⟨-, howners, hover⟩ := s.visit_rejected myIp h
      have hlen : (s.visit myIp v).slot.owners.length = s.slot.owners.length + 1 := by
        rw [howners, List.length_append, List.length_singleton]
      have hover' : (s.visit myIp v).overrun = false ↔
          s.overrun = false ∧ s.slot.owners.length + 1 ≤ MAX_PEER_ENTRIES := by
        rw [hover, Bool.or_eq_false_iff, decide_eq_false_iff_not, not_lt]
      have hused : (s.visit myIp v).slot.owners ≠ [] := by
        rw [howners]
        exact List.append_ne_nil_of_right_ne_nil _ (List.cons_ne_nil _ _)
      rw [Report.goesWell_cons_rejected myIp ft h, ih hused (fun hno => hlen ▸ (hover'.1 hno).2), hover', hlen,
        List.length_cons, List.forall_mem_cons]
      constructor
      · rintro ⟨hall, ⟨hno, -⟩, hle⟩
        exact ⟨⟨h, hall⟩, hno, by omega⟩
      · rintro ⟨⟨-, hall⟩, hno, hle⟩
        exact ⟨hall, ⟨hno, by omega⟩, by omega⟩
    · constructor
      · rintro ⟨hentries, -⟩
        -- the entry of `v` has the owners of the slot, and one made alone has one at most
        obtain ⟨te, hte, -, howners, -⟩ := s.visit_accepted myIp ft h
        obtain ⟨more, hmore⟩ := Report.entries_foldl myIp (s.visit myIp v) vs
        rw [List.foldl_cons, hmore, hte, List.append_assoc, aloneEntries_cons_accepted myIp ft h] at hentries
        have hsame : te = (v.alone myIp ft).te := (List.cons.inj (List.append_cancel_left hentries)).1
        have halone := owners_handleVisit myIp v { TransFileEntry.zero with name := v.name } ft
        change (v.alone myIp ft).te.owners = [] ++ _ at halone
        rw [← hsame, howners, List.append_cancel_right_eq] at halone
        exact absurd halone hslot
      · rintro ⟨hall, -⟩
        exact absurd (hall v List.mem_cons_self) h

/-- The condition on the events of a buffer: after a rejected one there are only rejected ones, sixteen at most. -/
def RejectedLast (vs : List Visit) : Prop :=
  vs.Pairwise (fun v w => v.Rejected → w.Rejected) ∧ (vs.filter fun v => v.Rejected).length ≤ MAX_PEER_ENTRIES

instance (vs : List Visit) : Decidable (RejectedLast vs) := inferInstanceAs (Decidable (_ ∧ _))

theorem rejectedLast_cons_rejected {v : Visit} (h : v.Rejected) (vs : List Visit) :
    RejectedLast (v :: vs) ↔ (∀ w ∈ vs, w.Rejected) ∧ 1 + vs.length ≤ MAX_PEER_ENTRIES := by
  unfold RejectedLast
  rw [List.pairwise_cons, List.filter_cons_of_pos (by simpa using h), List.length_cons]
  constructor
  · rintro ⟨⟨hall, -⟩, hle⟩
    have hself : (vs.filter fun v => v.Rejected) = vs := List.filter_eq_self.2 fun w hw => by simpa using hall w hw h
    rw [hself] at hle
    exact ⟨fun w hw => hall w hw h, by omega⟩
  · rintro ⟨hall, hle⟩
    have hself := List.length_filter_le (fun v : Visit => decide v.Rejected) vs
    exact ⟨⟨fun w hw _ => hall w hw, List.pairwise_of_forall_mem_list fun _ _ w hw _ => hall w hw⟩, by omega⟩

theorem rejectedLast_cons_accepted {v : Visit} (h : ¬ v.Rejected) (vs : List Visit) :
    RejectedLast (v :: vs) ↔ RejectedLast vs := by
  unfold RejectedLast
  rw [List.pairwise_cons, List.filter_cons_of_neg (by simpa using h)]
  simp [h]

theorem Report.goesWell_fresh {s : Report} (hslot : s.slot = .zero) (hover : s.overrun = false) (vs : List Visit) :
    s.GoesWell myIp ft vs ↔ RejectedLast vs := by
  induction vs generalizing s with
  | nil => exact ⟨fun _ => ⟨List.Pairwise.nil, Nat.zero_le _⟩, fun _ => ⟨(List.append_nil _).symm, hover⟩⟩
  | cons v vs ih =>
    by_cases h : v.Rejected
    · obtain ⟨-, howners, hover'⟩ := s.visit_rejected myIp h
      rw [hslot] at howners hover'
      have hno : (s.visit myIp v).overrun = false := by
        rw [hover', hover]
        rfl
      rw [Report.goesWell_cons_rejected myIp ft h, Report.goesWell_used myIp ft
        (by rw [howners]; exact List.cons_ne_nil _ _) (fun _ => by rw [howners]; show 1 ≤ 16; omega), howners,
        rejectedLast_cons_rejected h]
      exact ⟨fun hall => ⟨hall.1, hall.2.2⟩, fun hall => ⟨hall.1, hno, hall.2⟩⟩
    · obtain ⟨te, hentries, hzero, howners, halone, hover'⟩ := s.visit_accepted myIp ft h
      have hno : (s.visit myIp v).overrun = false := by
        rw [hover', hover, howners, hslot]
        split_ifs <;> rfl
      rw [rejectedLast_cons_accepted h, ← ih hzero hno]
      unfold Report.GoesWell
      rw [List.foldl_cons, aloneEntries_cons_accepted myIp ft h, hentries, halone hslot, List.append_assoc,
        List.singleton_append]

end Slots

/-! ## The table that is sent -/

/-- Every entry of the table depends on its own event alone: the events that are accepted make one entry each, in
order, which is what `handle_event` makes of a zeroed slot; so this peer is its only owner, unless the name is that of
a file `4913`; and no owner is written behind a slot. -/
structure EntriesAlone (myIp : UInt32) (ft : FileTable) (vs : List Visit) (s : Report) : Prop where
  entries_eq : s.entries = aloneEntries myIp ft vs
  owner : List.Forall₂ (fun v te => if trickyString v.sysName then te.opType = .fileNone ∧ te.owners = []
      else te.owners = [⟨myIp, P2P_PORT⟩]) (vs.filter fun v => ¬ v.Rejected) s.entries
  no_overrun : s.overrun = false

theorem owner_aloneEntries (myIp : UInt32) (ft : FileTable) (vs : List Visit) :
    List.Forall₂ (fun v te => if trickyString v.sysName then te.opType = .fileNone ∧ te.owners = []
      else te.owners = [⟨myIp, P2P_PORT⟩]) (vs.filter fun v => ¬ v.Rejected) (aloneEntries myIp ft vs) := by
  induction vs with
  | nil => exact List.Forall₂.nil
  | cons v vs ih =>
    by_cases h : v.Rejected
    · rw [aloneEntries_cons_rejected myIp ft h, List.filter_cons_of_neg (by simpa using h)]
      exact ih
    · rw [aloneEntries_cons_accepted myIp ft h, List.filter_cons_of_pos (by simpa using h)]
      refine List.Forall₂.cons ?_ ih
      have howners := owners_handleVisit myIp v { TransFileEntry.zero with name := v.name } ft
      split_ifs at howners ⊢ with htricky
      · refine ⟨?_, howners⟩
        unfold Visit.alone handleVisit
        rw [if_pos htricky]
        rfl
      · exact howners

/-- A whole buffer: `vs` are its events that had a target when their turn came. -/
theorem entries_alone_iff (K : Kernel) (myIp : UInt32) (ft : FileTable) (buf : EventBuffer) (m m' : MonitorTable)
    (s : Report) (h : reportEvents K myIp (Report.start ft) buf.events m = (some s, m')) :
    ∃ vs, visits K buf.events m = (some vs, m') ∧ (EntriesAlone myIp ft vs s ↔ RejectedLast vs) := by
  rw [reportEvents_start] at h
  obtain ⟨vs, m₁, hvisits, hs⟩ := Prog.bind_eq_some h
  cases hs
  refine ⟨vs, hvisits, ?_⟩
  rw [← Report.goesWell_fresh myIp ft (s := Report.start ft) rfl rfl vs]
  constructor
  · intro halone
    exact ⟨halone.entries_eq, halone.no_overrun⟩
  · rintro ⟨hentries, hover⟩
    have hentries' : (vs.foldl (Report.visit myIp) (Report.start ft)).entries = aloneEntries myIp ft vs := hentries
    exact ⟨hentries', hentries' ▸ owner_aloneEntries myIp ft vs, hover⟩

/-- One watched directory, `/a`, whose files have the names `1/...`. -/
def oneWatch : List (CString × Directory) := [([47, 97], .readable .nil)]

/-- In `/a`, `x` changes and `y` is created; `statX` and `statY` are what `stat` says then. -/
def changeAndCreate (statX statY : Option ℕ) : EventBuffer where
  events := [(⟨0, IN_MODIFY, 16, [120]⟩, statX), (⟨0, IN_CREATE, 16, [121]⟩, statY)]
  size_le := by
    show 32 + (32 + 0) ≤ EVENT_BUF_LEN
    decide

/-- Of a buffer the first event is accepted and the second is not: `x` is reported alone. -/
theorem entries_alone_last_rejected :
    ∃ m s m' vs, fileMonitorTask plainKernel oneWatch .empty = (some 0, m) ∧
      reportEvents plainKernel 7 (Report.start fileTableInit) (changeAndCreate (some 5) none).events m = (some s, m') ∧
      visits plainKernel (changeAndCreate (some 5) none).events m = (some vs, m') ∧ vs.length = 2 ∧ RejectedLast vs ∧
      EntriesAlone 7 fileTableInit vs s := by
  have hzero : (fileMonitorTask plainKernel oneWatch .empty).1 = some 0 := by decide +kernel
  set m := (fileMonitorTask plainKernel oneWatch .empty).2 with hm
  have hstart : fileMonitorTask plainKernel oneWatch .empty = (some 0, m) := Prod.ext hzero rfl
  have hsome : (reportEvents plainKernel 7 (Report.start fileTableInit)
      (changeAndCreate (some 5) none).events m).1.isSome = true := by
    decide +kernel
  have hsettled : ∀ vs, (visits plainKernel (changeAndCreate (some 5) none).events m).1 = some vs →
      vs.length = 2 ∧ RejectedLast vs := by
    have heval : ((visits plainKernel (changeAndCreate (some 5) none).events m).1.map fun vs =>
        decide (vs.length = 2 ∧ RejectedLast vs)) = some true := by
      decide +kernel
    intro vs hvs
    rw [hvs, Option.map_some, Option.some.injEq] at heval
    exact of_decide_eq_true heval
  obtain ⟨s, hs⟩ := Option.isSome_iff_exists.1 hsome
  obtain ⟨vs, hvisits, hiff⟩ := entries_alone_iff plainKernel 7 fileTableInit (changeAndCreate (some 5) none) m
    (reportEvents plainKernel 7 (Report.start fileTableInit) (changeAndCreate (some 5) none).events m).2 s
    (Prod.ext hs rfl)
  obtain ⟨hlength, hset⟩ := hsettled vs (congrArg Prod.fst hvisits)
  exact ⟨m, s, _, vs, hstart, Prod.ext hs rfl, hvisits, hlength, hset, hiff.2 hset⟩

/-- When `stat` fails for `x`, what is left in the slot goes into the entry of `y`: this peer is its owner twice. -/
theorem owner_twice :
    ∃ m s m', fileMonitorTask plainKernel oneWatch .empty = (some 0, m) ∧
      reportEvents plainKernel 7 (Report.start fileTableInit) (changeAndCreate none (some 5)).events m = (some s, m') ∧
      s.entries.map (fun te => te.owners) = [[⟨7, P2P_PORT⟩, ⟨7, P2P_PORT⟩]] ∧
      ∀ vs, visits plainKernel (changeAndCreate none (some 5)).events m = (some vs, m') →
        ¬ EntriesAlone 7 fileTableInit vs s := by
  have hzero : (fileMonitorTask plainKernel oneWatch .empty).1 = some 0 := by decide +kernel
  set m := (fileMonitorTask plainKernel oneWatch .empty).2 with hm
  have hstart : fileMonitorTask plainKernel oneWatch .empty = (some 0, m) := Prod.ext hzero rfl
  have heval : ((reportEvents plainKernel 7 (Report.start fileTableInit)
      (changeAndCreate none (some 5)).events m).1.map fun s => s.entries.map fun te => te.owners) =
      some [[⟨7, P2P_PORT⟩, ⟨7, P2P_PORT⟩]] := by
    decide +kernel
  obtain ⟨s, hs, howners⟩ := Option.map_eq_some_iff.1 heval
  refine ⟨m, s, _, hstart, Prod.ext hs rfl, howners, fun vs _ halone => ?_⟩
  have howner := halone.owner
  obtain ⟨te, hte⟩ : ∃ te, s.entries = [te] := by
    have hlength := congrArg List.length howners
    rw [List.length_map] at hlength
    exact List.length_eq_one_iff.1 hlength
  rw [hte] at howners howner
  obtain ⟨v, vs', hv, -, -⟩ := List.forall₂_cons_right_iff.1 howner
  have htwo : te.owners.length = 2 := congrArg List.length (List.cons.inj howners).1
  split_ifs at hv
  · rw [hv.2] at htwo
    cases htwo
  · rw [hv] at htwo
    cases htwo

end TeleSync
