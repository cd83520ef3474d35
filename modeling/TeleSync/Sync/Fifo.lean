import TeleSync.Sync.Network
import TeleSync.Tracker.Order

/-!
# Deletes over first-in-first-out channels

Peers report local events over a channel each, the tracker handles the reports and broadcasts over a channel to
each peer; every channel keeps its order and every message is handled at once.

* `FifoNetwork`, `fifoNetwork` : the tables, the channels and the update entries handled so far (`log`);
* `lastOp f l` : the last operation on `f` among the entries `l`;
* `Uncrossed` : no delete of a name is under way from a peer while an add or modify of it is under way to that
  peer;
* `Settling` : what then holds in every reachable state;
* `deletes_win` : then a name whose last update was a delete is nowhere once no message is under way.
-/

namespace TeleSync
open Transition

/-! ## The network -/

/-- Tracker, peers (by connection) and channels: `up` to the tracker, `down` to the peer, first message first. -/
structure FifoNetwork where
  ft : FileTable
  pt : List PeerEntry
  peerFt : ℤ → FileTable
  up : ℤ → List TransFileTable
  down : ℤ → List TransFileTable
  log : List TransFileEntry

/-- An entry that `file_monitor_task` reports: an addition, change or removal of a name, which is never empty since
it starts with the number of a target. -/
def LocalEvent (te : TransFileEntry) : Prop :=
  (te.opType = .fileAdd ∨ te.opType = .fileModify ∨ te.opType = .fileDelete) ∧ te.name ≠ Name.empty

instance (te : TransFileEntry) : Decidable (LocalEvent te) :=
  inferInstanceAs (Decidable ((te.opType = .fileAdd ∨ te.opType = .fileModify ∨ te.opType = .fileDelete) ∧
    te.name ≠ Name.empty))

namespace FifoNetwork

/-- The connection is in the peer table. -/
def Registered (s : FifoNetwork) (conn : ℤ) : Prop := ∃ pe ∈ s.pt, pe.conn = conn

instance (s : FifoNetwork) (conn : ℤ) : Decidable (s.Registered conn) :=
  inferInstanceAs (Decidable (∃ pe ∈ s.pt, pe.conn = conn))

/-- The address behind a connection. -/
def ipOf (s : FifoNetwork) (conn : ℤ) : UInt32 :=
  ((s.pt.find? fun pe => pe.conn == conn).map fun pe => pe.peerid.ip).getD 0

/-- A peer handles its events in order and reports them. -/
def report (s : FifoNetwork) (conn : ℤ) (tft : TransFileTable) : FifoNetwork :=
  { s with
    peerFt := Function.update s.peerFt conn (tft.foldl eventTableUpdate (s.peerFt conn))
    up := Function.update s.up conn (s.up conn ++ [tft]) }

/-- The tables that a broadcast puts on the channel to `c`. -/
def broadcastTo (s : FifoNetwork) (tft : TransFileTable) (conn c : ℤ) : List TransFileTable :=
  if tft.length > 0 then ((broadcastUpdate s.pt tft conn).filter fun p => p.1 == c).map Prod.snd else []

/-- The tracker handles the first report of `conn`, `tft`, and broadcasts. -/
def handleUpdate (s : FifoNetwork) (conn : ℤ) (tft : TransFileTable) (rest : List TransFileTable) : FifoNetwork :=
  let out := peerFileUpdateTask s.ft tft
  { s with
    ft := out.ft
    up := Function.update s.up conn rest
    down := fun c => s.down c ++ s.broadcastTo out.newTft conn c
    log := s.log ++ tft }

/-- A peer handles the first broadcast on its channel. -/
def deliver (s : FifoNetwork) (conn : ℤ) (tft : TransFileTable) (rest : List TransFileTable) : FifoNetwork :=
  { s with
    peerFt := Function.update s.peerFt conn (handleBroadcast (s.ipOf conn) (s.peerFt conn) tft)
    down := Function.update s.down conn rest }

@[simp] theorem peerFt_report (s : FifoNetwork) (conn : ℤ) (tft : TransFileTable) : (s.report conn tft).peerFt =
    Function.update s.peerFt conn (tft.foldl eventTableUpdate (s.peerFt conn)) := rfl

@[simp] theorem up_report (s : FifoNetwork) (conn : ℤ) (tft : TransFileTable) : (s.report conn tft).up =
    Function.update s.up conn (s.up conn ++ [tft]) := rfl

@[simp] theorem up_handleUpdate (s : FifoNetwork) (conn : ℤ) (tft : TransFileTable) (rest : List TransFileTable) :
    (s.handleUpdate conn tft rest).up = Function.update s.up conn rest := rfl

@[simp] theorem peerFt_deliver (s : FifoNetwork) (conn : ℤ) (tft : TransFileTable) (rest : List TransFileTable) :
    (s.deliver conn tft rest).peerFt =
      Function.update s.peerFt conn (handleBroadcast (s.ipOf conn) (s.peerFt conn) tft) := rfl

@[simp] theorem down_deliver (s : FifoNetwork) (conn : ℤ) (tft : TransFileTable) (rest : List TransFileTable) :
    (s.deliver conn tft rest).down = Function.update s.down conn rest := rfl

/-- No message is under way. -/
def Quiescent (s : FifoNetwork) : Prop := ∀ c, s.Registered c → s.up c = [] ∧ s.down c = []

end FifoNetwork

inductive FifoEvent where
  | report (conn : ℤ) (tft : TransFileTable)
  | handleUpdate (conn : ℤ)
  | deliver (conn : ℤ)
  deriving DecidableEq

/-- Registered peers report local events; the channels move in any order. -/
def fifoNetwork : System FifoNetwork FifoEvent where
  step s
    | .report conn tft =>
      if s.Registered conn ∧ ∀ te ∈ tft, LocalEvent te then some (s.report conn tft) else none
    | .handleUpdate conn =>
      match s.up conn with
      | [] => none
      | tft :: rest => some (s.handleUpdate conn tft rest)
    | .deliver conn =>
      match s.down conn with
      | [] => none
      | tft :: rest => some (s.deliver conn tft rest)

/-! ## The last operation on a name -/

/-- The operation of the last entry of `l` about `f`. -/
def lastOp (f : Name) (l : List TransFileEntry) : Option OperationType :=
  l.foldl (fun o te => if te.name = f then some te.opType else o) none

section LastOp
variable {f : Name} {l m : List TransFileEntry}

theorem lastOp_append_singleton (f : Name) (l : List TransFileEntry) (te : TransFileEntry) :
    lastOp f (l ++ [te]) = if te.name = f then some te.opType else lastOp f l := by
  rw [lastOp, List.foldl_append]
  rfl

theorem lastOp_append (f : Name) (l m : List TransFileEntry) :
    lastOp f (l ++ m) = (lastOp f m).or (lastOp f l) := by
  induction m using List.reverseRecOn with
  | nil => rw [List.append_nil]; rfl
  | append_singleton m te ih =>
    rw [← List.append_assoc, lastOp_append_singleton, lastOp_append_singleton, ih]
    split_ifs <;> rfl

theorem lastOp_eq_some {op : OperationType} (h : lastOp f l = some op) : ∃ te ∈ l, te.name = f ∧ te.opType = op := by
  induction l using List.reverseRecOn with
  | nil => cases h
  | append_singleton l te ih =>
    rw [lastOp_append_singleton] at h
    split_ifs at h with hn
    · exact ⟨te, List.mem_append_right _ (List.mem_singleton_self te), hn, Option.some.inj h⟩
    · obtain ⟨e, he, hrest⟩ := ih h
      exact ⟨e, List.mem_append_left _ he, hrest⟩

theorem lastOp_ne_none {te : TransFileEntry} (h : te ∈ l) (hn : te.name = f) : lastOp f l ≠ none := by
  induction l using List.reverseRecOn with
  | nil => cases h
  | append_singleton l e ih =>
    rw [lastOp_append_singleton]
    split_ifs with he
    · exact Option.some_ne_none _
    · rcases List.mem_append.mp h with h | h
      · exact ih h
      · exact absurd (List.mem_singleton.mp h ▸ hn) he

theorem leavesStep_of_ne {te : TransFileEntry} (h : te.name ≠ f) (x : WithBot ℕ) : leavesStep f x te = x :=
  if_neg h

theorem leavesStep_delete {te : TransFileEntry} (h : te.name = f) (hop : te.opType = .fileDelete) (x : WithBot ℕ) :
    leavesStep f x te = ⊥ := by
  rw [leavesStep, if_pos h, hop]

theorem leavesStep_set {te : TransFileEntry} (h : te.name = f) (hop : te.opType = .fileAdd ∨ te.opType = .fileModify)
    (x : WithBot ℕ) : leavesStep f x te ≠ ⊥ := by
  rw [leavesStep, if_pos h]
  have hmax : max x (te.timestamp : WithBot ℕ) ≠ ⊥ := ne_bot_of_le_ne_bot WithBot.coe_ne_bot (le_max_right _ _)
  rcases hop with hop | hop
  · rw [hop]
    exact hmax
  · rw [hop]
    exact hmax

theorem leaves_of_lastOp_none (h : lastOp f l = none) (x : WithBot ℕ) : l.foldl (leavesStep f) x = x := by
  induction l using List.reverseRecOn with
  | nil => rfl
  | append_singleton l te ih =>
    rw [lastOp_append_singleton] at h
    split_ifs at h with hn
    rw [List.foldl_append, ih h]
    exact leavesStep_of_ne hn x

theorem leaves_of_lastOp_delete (h : lastOp f l = some .fileDelete) (x : WithBot ℕ) :
    l.foldl (leavesStep f) x = ⊥ := by
  induction l using List.reverseRecOn with
  | nil => cases h
  | append_singleton l te ih =>
    rw [lastOp_append_singleton] at h
    rw [List.foldl_append]
    split_ifs at h with hn
    · exact leavesStep_delete hn (Option.some.inj h) _
    · exact (leavesStep_of_ne hn _).trans (ih h)

theorem leaves_of_lastOp_set {op : OperationType} (h : lastOp f l = some op) (hop : op = .fileAdd ∨ op = .fileModify)
    (x : WithBot ℕ) : l.foldl (leavesStep f) x ≠ ⊥ := by
  induction l using List.reverseRecOn with
  | nil => cases h
  | append_singleton l te ih =>
    rw [lastOp_append_singleton] at h
    rw [List.foldl_append]
    split_ifs at h with hn
    · exact leavesStep_set hn (by rwa [Option.some.inj h]) _
    · intro hbot
      exact ih h ((leavesStep_of_ne hn _).symm.trans hbot)

end LastOp

/-! ## Peers -/

section Peers
variable {f : Name}

theorem stamp_event_of_ne {te : TransFileEntry} (h : te.name ≠ f) {ft : FileTable} (hw : ft.Wf) :
    (eventTableUpdate ft te).stamp f = ft.stamp f := by
  have hview : (eventTableUpdate ft te).view f = ft.view f := by
    unfold eventTableUpdate
    split
    · rw [FileTable.view_add, Function.update_of_ne (Ne.symm h)]
    · rw [FileTable.view_update, Function.update_of_ne (Ne.symm h)]
    · rw [FileTable.view_delete hw, Function.update_of_ne (Ne.symm h)]
    · rfl
    · rfl
  rw [FileTable.stamp, FileTable.stamp, hview]

theorem stamp_event_delete {te : TransFileEntry} (h : te.name = f) (hop : te.opType = .fileDelete) {ft : FileTable}
    (hw : ft.Wf) : (eventTableUpdate ft te).stamp f = ⊥ := by
  unfold eventTableUpdate
  rw [hop]
  dsimp only
  rw [FileTable.stamp_delete hw, h, Function.update_self]

theorem stamp_events_none {tft : TransFileTable} (h : lastOp f tft = none) {ft : FileTable} (hw : ft.Wf) :
    (tft.foldl eventTableUpdate ft).stamp f = ft.stamp f := by
  induction tft using List.reverseRecOn with
  | nil => rfl
  | append_singleton tft te ih =>
    rw [lastOp_append_singleton] at h
    split_ifs at h with hn
    rw [List.foldl_append, ← ih h]
    exact stamp_event_of_ne hn (foldl_eventTableUpdate_wf hw tft)

theorem stamp_events_delete {tft : TransFileTable} (h : lastOp f tft = some .fileDelete) {ft : FileTable}
    (hw : ft.Wf) : (tft.foldl eventTableUpdate ft).stamp f = ⊥ := by
  induction tft using List.reverseRecOn with
  | nil => cases h
  | append_singleton tft te ih =>
    rw [lastOp_append_singleton] at h
    rw [List.foldl_append]
    split_ifs at h with hn
    · exact stamp_event_delete hn (Option.some.inj h) (foldl_eventTableUpdate_wf hw tft)
    · exact (stamp_event_of_ne hn (foldl_eventTableUpdate_wf hw tft)).trans (ih h)

/-- A peer handles a broadcast entry as the tracker handles an update. -/
theorem stamp_broadcastEntry (myIp : UInt32) {ft : FileTable} (hw : ft.Wf) (te : TransFileEntry) :
    (broadcastEntryHandler myIp ft te).1.stamp f = leavesStep f (ft.stamp f) te := by
  have hupdate : ∀ x, Function.update ft.stamp te.name x f = if te.name = f then x else ft.stamp f := by
    intro x
    by_cases hn : te.name = f
    · rw [if_pos hn, ← hn, Function.update_self]
    · rw [if_neg hn, Function.update_of_ne (Ne.symm hn)]
  rw [leavesStep]
  cases hop : te.opType with
  | fileAdd =>
    rw [stamp_broadcast_set myIp ft (Or.inl hop), hupdate]
    split_ifs with hn
    · rw [hn]
    · rfl
  | fileModify =>
    rw [stamp_broadcast_set myIp ft (Or.inr hop), hupdate]
    split_ifs with hn
    · rw [hn]
    · rfl
  | fileDelete => rw [stamp_broadcast_delete myIp hw hop, hupdate]
  | fileNone =>
    rw [broadcastEntryHandler, hop]
    simp
  | other c =>
    rw [broadcastEntryHandler, hop]
    simp

theorem stamp_handleBroadcast (myIp : UInt32) {ft : FileTable} (hw : ft.Wf) (tft : TransFileTable) :
    (handleBroadcast myIp ft tft).stamp f = tft.foldl (leavesStep f) (ft.stamp f) := by
  induction tft generalizing ft with
  | nil => rfl
  | cons te tft ih =>
    rw [handleBroadcast, List.foldl_cons, List.foldl_cons, ← stamp_broadcastEntry myIp hw]
    exact ih (wf_broadcastEntryHandler myIp hw te)

end Peers

/-! ## Broadcasts -/

section Broadcasts
variable {f : Name}

/-- The entry broadcast for an update of another name is not about `f`, even if it has lost its name. -/
theorem leaves_newTft_of_ne {te : TransFileEntry} (h : te.name ≠ f) (hf : f ≠ Name.empty) (ft : FileTable)
    (y : WithBot ℕ) : (peerFileUpdateStep ⟨ft, []⟩ te).newTft.foldl (leavesStep f) y = y := by
  have hone : ∀ e : TransFileEntry, e.name ≠ f → [e].foldl (leavesStep f) y = y := fun e he => leavesStep_of_ne he y
  have hset : te.opType = .fileAdd ∨ te.opType = .fileModify ∧ ft.stamp te.name ≠ ⊥ →
      (peerFileUpdateStep ⟨ft, []⟩ te).newTft.foldl (leavesStep f) y = y := by
    intro hop
    obtain ⟨e, he, hname, -⟩ := newTft_updateStep_set ft hop
    rw [he]
    exact hone e (hname ▸ h)
  cases hop : te.opType with
  | fileAdd => exact hset (Or.inl hop)
  | fileModify =>
    by_cases hb : ft.stamp te.name = ⊥
    · rw [newTft_updateStep_unknown ft hop hb]
      exact hone _ hf.symm
    · exact hset (Or.inr ⟨hop, hb⟩)
  | fileDelete =>
    rw [newTft_updateStep_delete ft hop]
    split_ifs
    · rfl
    · exact hone te h
  | fileNone =>
    rw [updateStep_skip (Or.inl hop)]
    rfl
  | other c =>
    rw [updateStep_skip (Or.inr ⟨c, hop⟩)]
    rfl

theorem leaves_newTft_delete {te : TransFileEntry} (h : te.name = f) (hop : te.opType = .fileDelete) (ft : FileTable)
    {y : WithBot ℕ} (hy : ft.stamp f = ⊥ → y = ⊥) :
    (peerFileUpdateStep ⟨ft, []⟩ te).newTft.foldl (leavesStep f) y = ⊥ := by
  rw [newTft_updateStep_delete ft hop, h]
  split_ifs with hb
  · exact hy hb
  · exact leavesStep_delete h hop y

/-- A peer that has no `f` whenever the tracker has none stays so through the broadcast of an update. -/
theorem bot_of_broadcast (hf : f ≠ Name.empty) {ft : FileTable} (hw : ft.Wf) {tft : TransFileTable}
    (htft : ∀ te ∈ tft, LocalEvent te) {y : WithBot ℕ} (hy : ft.stamp f = ⊥ → y = ⊥) :
    (peerFileUpdateTask ft tft).ft.stamp f = ⊥ → (peerFileUpdateTask ft tft).newTft.foldl (leavesStep f) y = ⊥ := by
  induction tft generalizing ft y with
  | nil => exact hy
  | cons te tft ih =>
    rw [peerFileUpdateTask_cons]
    dsimp only
    rw [List.foldl_append]
    have hw' : (peerFileUpdateStep ⟨ft, []⟩ te).ft.Wf := peerFileUpdateStep_wf hw te
    have hstamp : (peerFileUpdateStep ⟨ft, []⟩ te).ft.stamp f = leavesStep f (ft.stamp f) te :=
      stamp_updateStep (s := ⟨ft, []⟩) hw te f
    apply ih hw' fun e he => htft e (List.mem_cons_of_mem te he)
    intro hbot
    by_cases hn : te.name = f
    · rcases (htft te List.mem_cons_self).1 with hop | hop | hop
      · exact absurd (hstamp.symm.trans hbot) (leavesStep_set hn (Or.inl hop) _)
      · exact absurd (hstamp.symm.trans hbot) (leavesStep_set hn (Or.inr hop) _)
      · exact leaves_newTft_delete hn hop ft hy
    · rw [leaves_newTft_of_ne hn hf]
      rw [hstamp, leavesStep_of_ne hn] at hbot
      exact hy hbot

/-- An update that neither adds nor modifies `f` gives it to nobody. -/
theorem bot_of_quiet_broadcast (hf : f ≠ Name.empty) {ft : FileTable} {tft : TransFileTable}
    (htft : ∀ te ∈ tft, LocalEvent te) (hquiet : ∀ te ∈ tft, te.name = f → te.opType = .fileDelete) :
    (peerFileUpdateTask ft tft).newTft.foldl (leavesStep f) ⊥ = ⊥ := by
  induction tft generalizing ft with
  | nil => rfl
  | cons te tft ih =>
    rw [peerFileUpdateTask_cons]
    dsimp only
    have hhead : (peerFileUpdateStep ⟨ft, []⟩ te).newTft.foldl (leavesStep f) ⊥ = ⊥ := by
      by_cases hn : te.name = f
      · exact leaves_newTft_delete hn (hquiet te List.mem_cons_self hn) ft fun _ => rfl
      · exact leaves_newTft_of_ne hn hf ft ⊥
    rw [List.foldl_append, hhead]
    exact ih (fun e he => htft e (List.mem_cons_of_mem te he)) fun e he => hquiet e (List.mem_cons_of_mem te he)

theorem leaves_flatten_copies (l : List TransFileTable) (tft : TransFileTable) (h : ∀ t ∈ l, t = tft)
    (y : WithBot ℕ) : l.flatten.foldl (leavesStep f) y = y ∧ l = [] ∨
      l.flatten.foldl (leavesStep f) y = tft.foldl (leavesStep f) y ∧ l ≠ [] := by
  induction l generalizing y with
  | nil => exact Or.inl ⟨rfl, rfl⟩
  | cons t l ih =>
    right
    refine ⟨?_, List.cons_ne_nil _ _⟩
    rw [List.flatten_cons, List.foldl_append, h t List.mem_cons_self]
    rcases ih (fun t ht => h t (List.mem_cons_of_mem _ ht)) (tft.foldl (leavesStep f) y) with ⟨heq, -⟩ | ⟨heq, -⟩
    · exact heq
    · rw [heq, foldl_leavesStep, foldl_leavesStep, Effect.apply_apply]

theorem mem_broadcastTo (s : FifoNetwork) (tft : TransFileTable) (conn c : ℤ) (t : TransFileTable) :
    t ∈ s.broadcastTo tft conn c ↔ t = tft ∧ tft ≠ [] ∧ s.Registered c ∧ c ≠ conn := by
  unfold FifoNetwork.broadcastTo broadcastUpdate FifoNetwork.Registered
  split_ifs with hpos hzero
  · omega
  · constructor
    · intro ht
      obtain ⟨p, hp, rfl⟩ := List.mem_map.mp ht
      obtain ⟨hp, hpc⟩ := List.mem_filter.mp hp
      obtain ⟨pe, hpe, rfl⟩ := List.mem_map.mp hp
      obtain ⟨hpe, hne⟩ := List.mem_filter.mp hpe
      have hconn : pe.conn = c := by simpa using hpc
      refine ⟨rfl, List.ne_nil_of_length_pos hpos, ⟨pe, hpe, hconn⟩, ?_⟩
      rw [← hconn]
      simpa using hne
    · rintro ⟨rfl, -, ⟨pe, hpe, hconn⟩, hne⟩
      refine List.mem_map.mpr ⟨(pe.conn, t), List.mem_filter.mpr ⟨?_, by simpa using hconn⟩, rfl⟩
      refine List.mem_map.mpr ⟨pe, List.mem_filter.mpr ⟨hpe, ?_⟩, rfl⟩
      rw [hconn]
      simpa using hne
  · have hnil : tft = [] := List.length_eq_zero_iff.mp (by omega)
    simp [hnil]

/-- A peer that is told of a broadcast handles it once or more, which is the same. -/
theorem broadcastTo_cases (s : FifoNetwork) (tft : TransFileTable) (conn c : ℤ) (y : WithBot ℕ) :
    (s.broadcastTo tft conn c).flatten.foldl (leavesStep f) y =
      if s.Registered c ∧ c ≠ conn then tft.foldl (leavesStep f) y else y := by
  have hmem := mem_broadcastTo s tft conn c
  rcases leaves_flatten_copies (f := f) (s.broadcastTo tft conn c) tft (fun t ht => ((hmem t).mp ht).1) y with
    ⟨heq, hnil⟩ | ⟨heq, hne⟩
  · rw [heq]
    split_ifs with hg
    · have htft : tft = [] := by
        by_contra hcon
        have := (hmem tft).mpr ⟨rfl, hcon, hg⟩
        rw [hnil] at this
        cases this
      rw [htft]
      rfl
    · rfl
  · obtain ⟨t, ht⟩ := List.exists_mem_of_ne_nil _ hne
    rw [heq, if_pos ((hmem t).mp ht).2.2]

end Broadcasts

/-! ## Crossing messages -/

/-- The entries end with no addition or change of `f`. -/
def Spares (f : Name) (l : List TransFileEntry) : Prop := lastOp f l = none ∨ lastOp f l = some .fileDelete

instance (f : Name) (l : List TransFileEntry) : Decidable (Spares f l) :=
  inferInstanceAs (Decidable (lastOp f l = none ∨ lastOp f l = some .fileDelete))

/-- No delete crosses an addition or change of the same name: none is reported while one is on its way down, and
none is handled while a delete is on its way up from a peer that is told of it. -/
def Uncrossed (s : FifoNetwork) : FifoEvent → Prop
  | .report conn tft =>
    ∀ te ∈ tft, lastOp te.name tft = some .fileDelete → Spares te.name (s.down conn).flatten
  | .handleUpdate conn =>
    ∀ tft ∈ (s.up conn).head?, ∀ pe ∈ s.pt, pe.conn ≠ conn →
      ∀ te ∈ tft, lastOp te.name (s.up pe.conn).flatten = some .fileDelete → Spares te.name tft
  | .deliver _ => True

instance (s : FifoNetwork) : ∀ e, Decidable (Uncrossed s e)
  | .report conn tft => inferInstanceAs
      (Decidable (∀ te ∈ tft, lastOp te.name tft = some .fileDelete → Spares te.name (s.down conn).flatten))
  | .handleUpdate conn => inferInstanceAs
      (Decidable (∀ tft ∈ (s.up conn).head?, ∀ pe ∈ s.pt, pe.conn ≠ conn →
        ∀ te ∈ tft, lastOp te.name (s.up pe.conn).flatten = some .fileDelete → Spares te.name tft))
  | .deliver _ => inferInstanceAs (Decidable True)

theorem spares_of_uncrossed_report {s : FifoNetwork} {conn : ℤ} {tft : TransFileTable}
    (h : Uncrossed s (.report conn tft)) {f : Name} (hl : lastOp f tft = some .fileDelete) :
    Spares f (s.down conn).flatten := by
  obtain ⟨te, hte, rfl, -⟩ := lastOp_eq_some hl
  exact h te hte hl

theorem spares_of_uncrossed_handleUpdate {s : FifoNetwork} {conn : ℤ} (h : Uncrossed s (.handleUpdate conn))
    {tft : TransFileTable} {rest : List TransFileTable} (hup : s.up conn = tft :: rest) {c : ℤ} (hreg : s.Registered c)
    (hne : c ≠ conn) {f : Name} (hl : lastOp f (s.up c).flatten = some .fileDelete) : Spares f tft := by
  obtain ⟨pe, hpe, rfl⟩ := hreg
  cases ho : lastOp f tft with
  | none => exact Or.inl ho
  | some op =>
    obtain ⟨te, hte, rfl, -⟩ := lastOp_eq_some ho
    exact h tft (by rw [hup]; rfl) pe hpe hne te hte hl

/-! ## The invariant -/

/-- What the peer will have of `f` once its channel is empty. -/
def FifoNetwork.drained (s : FifoNetwork) (c : ℤ) (f : Name) : WithBot ℕ :=
  (s.down c).flatten.foldl (leavesStep f) ((s.peerFt c).stamp f)

/-- The peer `c` will not keep an `f` that is deleted: neither one that it deletes itself, nor one that the tracker
does not have and `c` is not about to report. -/
def Yields (s : FifoNetwork) (c : ℤ) (f : Name) : Prop :=
  (lastOp f (s.up c).flatten = some .fileDelete → s.drained c f = ⊥) ∧
    (lastOp f (s.up c).flatten = none → s.ft.stamp f = ⊥ → s.drained c f = ⊥)

/-- What holds along every run without crossings, from tracker timestamps `old`. -/
structure Settling (old : Name → WithBot ℕ) (s : FifoNetwork) : Prop where
  tracker_wf : s.ft.Wf
  peer_wf : ∀ c, (s.peerFt c).Wf
  local_up : ∀ c, ∀ tft ∈ s.up c, ∀ te ∈ tft, LocalEvent te
  local_log : ∀ te ∈ s.log, LocalEvent te
  stamp_log : ∀ f, s.ft.stamp f = s.log.foldl (leavesStep f) (old f)
  yields : ∀ c, s.Registered c → ∀ f, f ≠ Name.empty → Yields s c f

section Invariant
variable {old : Name → WithBot ℕ} {s : FifoNetwork} {conn : ℤ} {tft : TransFileTable} {rest : List TransFileTable}

theorem yields_report_self {f : Name} (hw : (s.peerFt conn).Wf) (h : Yields s conn f)
    (hok : Uncrossed s (.report conn tft)) : Yields (s.report conn tft) conn f := by
  have hup : ((s.report conn tft).up conn).flatten = (s.up conn).flatten ++ tft := by
    simp [FifoNetwork.report]
  have hdrained : (s.report conn tft).drained conn f =
      (s.down conn).flatten.foldl (leavesStep f) ((tft.foldl eventTableUpdate (s.peerFt conn)).stamp f) := by
    simp [FifoNetwork.drained, FifoNetwork.report]
  have hsame : lastOp f tft = none → (s.report conn tft).drained conn f = s.drained conn f := by
    intro hnone
    rw [hdrained, stamp_events_none hnone hw]
    rfl
  rw [Yields, hup, lastOp_append]
  constructor
  · intro hl
    cases ho : lastOp f tft with
    | none =>
      rw [ho] at hl
      rw [hsame ho]
      exact h.1 hl
    | some op =>
      rw [ho] at hl
      have hdel : lastOp f tft = some .fileDelete := ho.trans hl
      rw [hdrained, stamp_events_delete hdel hw]
      rcases spares_of_uncrossed_report hok hdel with hspare | hspare
      · exact leaves_of_lastOp_none hspare ⊥
      · exact leaves_of_lastOp_delete hspare ⊥
  · intro hl hft
    obtain ⟨htft, hold⟩ := Option.or_eq_none_iff.mp hl
    rw [hsame htft]
    exact h.2 hold hft

theorem Settling.report (h : Settling old s) (htft : ∀ te ∈ tft, LocalEvent te)
    (hok : Uncrossed s (.report conn tft)) : Settling old (s.report conn tft) where
  tracker_wf := h.tracker_wf
  peer_wf c := by
    by_cases hc : c = conn
    · rw [hc, FifoNetwork.peerFt_report, Function.update_self]
      exact foldl_eventTableUpdate_wf (h.peer_wf conn) tft
    · rw [FifoNetwork.peerFt_report, Function.update_of_ne hc]
      exact h.peer_wf c
  local_up c t ht := by
    by_cases hc : c = conn
    · rw [hc, FifoNetwork.up_report, Function.update_self] at ht
      rcases List.mem_append.mp ht with ht | ht
      · exact h.local_up conn t ht
      · rw [List.mem_singleton.mp ht]
        exact htft
    · rw [FifoNetwork.up_report, Function.update_of_ne hc] at ht
      exact h.local_up c t ht
  local_log := h.local_log
  stamp_log := h.stamp_log
  yields c hreg f hf := by
    by_cases hc : c = conn
    · rw [hc] at hreg ⊢
      exact yields_report_self (h.peer_wf conn) (h.yields conn hreg f hf) hok
    · have hold := h.yields c hreg f hf
      simpa [Yields, FifoNetwork.drained, FifoNetwork.report, Function.update_of_ne hc] using hold

theorem drained_handleUpdate (s : FifoNetwork) (conn : ℤ) (tft : TransFileTable) (rest : List TransFileTable) (c : ℤ)
    (f : Name) : (s.handleUpdate conn tft rest).drained c f =
      if s.Registered c ∧ c ≠ conn then (peerFileUpdateTask s.ft tft).newTft.foldl (leavesStep f) (s.drained c f)
      else s.drained c f := by
  rw [FifoNetwork.drained, FifoNetwork.handleUpdate]
  dsimp only
  rw [List.flatten_append, List.foldl_append, broadcastTo_cases]
  rfl

/-- The sender keeps its word: it is not told of its own update. -/
theorem yields_handleUpdate_self {f : Name} (hw : s.ft.Wf) (htft : ∀ te ∈ tft, LocalEvent te)
    (hup : s.up conn = tft :: rest) (h : Yields s conn f) : Yields (s.handleUpdate conn tft rest) conn f := by
  have hrest : (s.handleUpdate conn tft rest).up conn = rest := by
    rw [FifoNetwork.up_handleUpdate, Function.update_self]
  have hwhole : lastOp f (s.up conn).flatten = (lastOp f rest.flatten).or (lastOp f tft) := by
    rw [hup, List.flatten_cons, lastOp_append]
  have hft : (s.handleUpdate conn tft rest).ft.stamp f = tft.foldl (leavesStep f) (s.ft.stamp f) :=
    stamp_peerFileUpdateTask hw tft f
  rw [Yields, hrest, drained_handleUpdate, if_neg fun hg => hg.2 rfl, hft]
  constructor
  · intro hl
    apply h.1
    rw [hwhole, hl]
    rfl
  · intro hl hbot
    rw [hl, Option.none_or] at hwhole
    cases ho : lastOp f tft with
    | none =>
      rw [leaves_of_lastOp_none ho] at hbot
      exact h.2 (hwhole.trans ho) hbot
    | some op =>
      obtain ⟨te, hte, -, hop⟩ := lastOp_eq_some ho
      rcases (htft te hte).1 with hset | hset | hdel
      · exact absurd hbot (leaves_of_lastOp_set ho (Or.inl (hop.symm.trans hset)) _)
      · exact absurd hbot (leaves_of_lastOp_set ho (Or.inr (hop.symm.trans hset)) _)
      · rw [← hop, hdel] at ho
        exact h.1 (hwhole.trans ho)

/-- The others are told, and none of them has a delete under way that this would undo. -/
theorem yields_handleUpdate_other {f : Name} (hf : f ≠ Name.empty) (hw : s.ft.Wf) (htft : ∀ te ∈ tft, LocalEvent te)
    (hup : s.up conn = tft :: rest) {c : ℤ} (hreg : s.Registered c) (hc : c ≠ conn) (h : Yields s c f)
    (hok : Uncrossed s (.handleUpdate conn)) : Yields (s.handleUpdate conn tft rest) c f := by
  have hsame : (s.handleUpdate conn tft rest).up c = s.up c := by
    rw [FifoNetwork.up_handleUpdate, Function.update_of_ne hc]
  have hft : (s.handleUpdate conn tft rest).ft.stamp f = (peerFileUpdateTask s.ft tft).ft.stamp f := rfl
  rw [Yields, hsame, drained_handleUpdate, if_pos ⟨hreg, hc⟩, hft]
  constructor
  · intro hl
    rw [h.1 hl]
    rcases spares_of_uncrossed_handleUpdate hok hup hreg hc hl with hspare | hspare
    · apply bot_of_quiet_broadcast hf htft
      intro te hte hname
      exact absurd hspare (lastOp_ne_none hte hname)
    · apply bot_of_broadcast hf hw htft fun _ => rfl
      rw [stamp_peerFileUpdateTask hw]
      exact leaves_of_lastOp_delete hspare _
  · intro hl hbot
    exact bot_of_broadcast hf hw htft (h.2 hl) hbot

theorem Settling.handleUpdate (h : Settling old s) (hup : s.up conn = tft :: rest)
    (hok : Uncrossed s (.handleUpdate conn)) : Settling old (s.handleUpdate conn tft rest) := by
  have htft : ∀ te ∈ tft, LocalEvent te := h.local_up conn tft (hup ▸ List.mem_cons_self)
  refine ⟨peerFileUpdateTask_wf h.tracker_wf tft, h.peer_wf, ?_, ?_, ?_, ?_⟩
  · intro c t ht
    by_cases hc : c = conn
    · rw [hc, FifoNetwork.up_handleUpdate, Function.update_self] at ht
      exact h.local_up conn t (hup ▸ List.mem_cons_of_mem tft ht)
    · rw [FifoNetwork.up_handleUpdate, Function.update_of_ne hc] at ht
      exact h.local_up c t ht
  · intro te hte
    rcases List.mem_append.mp hte with hte | hte
    · exact h.local_log te hte
    · exact htft te hte
  · intro f
    have hlog : (s.handleUpdate conn tft rest).log = s.log ++ tft := rfl
    rw [hlog, List.foldl_append, ← h.stamp_log f]
    exact stamp_peerFileUpdateTask h.tracker_wf tft f
  · intro c hreg f hf
    by_cases hc : c = conn
    · rw [hc] at hreg ⊢
      exact yields_handleUpdate_self h.tracker_wf htft hup (h.yields conn hreg f hf)
    · exact yields_handleUpdate_other hf h.tracker_wf htft hup hreg hc (h.yields c hreg f hf) hok

theorem Settling.deliver (h : Settling old s) (hdown : s.down conn = tft :: rest) :
    Settling old (s.deliver conn tft rest) := by
  have hdrained : ∀ c f, (s.deliver conn tft rest).drained c f = s.drained c f := by
    intro c f
    rw [FifoNetwork.drained, FifoNetwork.drained, FifoNetwork.peerFt_deliver, FifoNetwork.down_deliver]
    by_cases hc : c = conn
    · rw [hc, Function.update_self, Function.update_self, hdown, List.flatten_cons, List.foldl_append,
        stamp_handleBroadcast _ (h.peer_wf conn)]
    · rw [Function.update_of_ne hc, Function.update_of_ne hc]
  refine ⟨h.tracker_wf, fun c => ?_, h.local_up, h.local_log, h.stamp_log, fun c hreg f hf => ?_⟩
  · by_cases hc : c = conn
    · rw [hc, FifoNetwork.peerFt_deliver, Function.update_self]
      exact wf_handleBroadcast _ (h.peer_wf conn) tft
    · rw [FifoNetwork.peerFt_deliver, Function.update_of_ne hc]
      exact h.peer_wf c
  · have hold := h.yields c hreg f hf
    rw [Yields, hdrained]
    exact hold

theorem Settling.step (h : Settling old s) {e : FifoEvent} (hok : Uncrossed s e) {s' : FifoNetwork}
    (hs : fifoNetwork.step s e = some s') : Settling old s' := by
  cases e with
  | report conn tft =>
    simp only [fifoNetwork] at hs
    split_ifs at hs with hg
    cases hs
    exact h.report hg.2 hok
  | handleUpdate conn =>
    simp only [fifoNetwork] at hs
    split at hs
    · cases hs
    · next tft rest hup =>
      cases hs
      exact h.handleUpdate hup hok
  | deliver conn =>
    simp only [fifoNetwork] at hs
    split at hs
    · cases hs
    · next tft rest hdown =>
      cases hs
      exact h.deliver hdown

end Invariant

/-! ## Deletes win -/

/-- No message is under way, nothing was handled yet, and peers have no file that the tracker does not have. -/
structure FifoStart (s : FifoNetwork) : Prop where
  tracker_wf : s.ft.Wf
  peer_wf : ∀ c, (s.peerFt c).Wf
  up : ∀ c, s.up c = []
  down : ∀ c, s.down c = []
  log : s.log = []
  peers : ∀ c, s.Registered c → ∀ f, s.ft.view f = none → (s.peerFt c).view f = none

theorem FifoStart.settling {s : FifoNetwork} (h : FifoStart s) : Settling s.ft.stamp s := by
  refine ⟨h.tracker_wf, h.peer_wf, fun c tft ht => ?_, fun te hte => ?_, fun f => ?_, fun c hreg f _ => ?_⟩
  · rw [h.up c] at ht
    cases ht
  · rw [h.log] at hte
    cases hte
  · rw [h.log]
    rfl
  · have hdrained : s.drained c f = (s.peerFt c).stamp f := by
      rw [FifoNetwork.drained, h.down c]
      rfl
    rw [Yields, h.up c, hdrained]
    refine ⟨fun hl => Option.some_ne_none _ hl.symm |>.elim, fun _ hbot => ?_⟩
    exact FileTable.stamp_eq_bot.mpr (h.peers c hreg f (FileTable.stamp_eq_bot.mp hbot))

/-- What the last delete of `f` should leave behind when no message is under way: no `f` at the tracker or at any
registered peer. -/
def DeletesWin (s : FifoNetwork) : Prop :=
  s.Quiescent → ∀ f, lastOp f s.log = some .fileDelete →
    s.ft.view f = none ∧ ∀ c, s.Registered c → (s.peerFt c).view f = none

/-- **Deletes win.** In every run of local events in which no delete crosses an addition or change of the same name,
whatever the number of peers and the order of the messages. -/
theorem deletes_win (s s' : FifoNetwork) (es : List FifoEvent) (hstart : FifoStart s)
    (hok : fifoNetwork.RunMeets Uncrossed s es) (hrun : fifoNetwork.run s es = some s') : DeletesWin s' := by
  have h : Settling s.ft.stamp s' :=
    System.runMeets_invariant (fun _ _ _ ht hmeets hstep => ht.step hmeets hstep) hstart.settling hok hrun
  intro hquiet f hlast
  obtain ⟨te, hte, hname, -⟩ := lastOp_eq_some hlast
  have hft : s'.ft.stamp f = ⊥ := by
    rw [h.stamp_log]
    exact leaves_of_lastOp_delete hlast _
  refine ⟨FileTable.stamp_eq_bot.mp hft, fun c hreg => ?_⟩
  obtain ⟨hup, hdown⟩ := hquiet c hreg
  have hyields := (h.yields c hreg f (hname ▸ (h.local_log te hte).2)).2
  rw [hup, FifoNetwork.drained, hdown] at hyields
  exact FileTable.stamp_eq_bot.mp (hyields rfl hft)

/-- Two peers with empty tables. -/
def twoPeers : FifoNetwork where
  ft := fileTableInit
  pt := [⟨1, 0, ⟨11, P2P_PORT⟩⟩, ⟨2, 0, ⟨12, P2P_PORT⟩⟩]
  peerFt _ := fileTableInit
  up _ := []
  down _ := []
  log := []

theorem twoPeers_start : FifoStart twoPeers :=
  ⟨FileTable.wf_init, fun _ => FileTable.wf_init, fun _ => rfl, fun _ => rfl, rfl, fun _ _ _ h => h⟩

/-- Peer 2 adds a file, peer 1 is told of it and deletes it. -/
theorem deletes_win_added_elsewhere :
    let f : Name := ⟨[49, 47, 102], by decide, by decide⟩
    let add : TransFileTable := [⟨f, 1, .fileAdd, .regular, [⟨12, P2P_PORT⟩]⟩]
    let del : TransFileTable := [⟨f, 2, .fileDelete, .regular, [⟨11, P2P_PORT⟩]⟩]
    let es : List FifoEvent :=
      [.report 2 add, .handleUpdate 2, .deliver 1, .report 1 del, .handleUpdate 1, .deliver 2]
    ∃ s, fifoNetwork.run twoPeers es = some s ∧ lastOp f s.log = some .fileDelete ∧ DeletesWin s := by
  intro f add del es
  have hok : fifoNetwork.RunMeets Uncrossed twoPeers es := by decide
  have hlast : (fifoNetwork.run twoPeers es).map (fun s => lastOp f s.log) = some (some .fileDelete) := by decide
  obtain ⟨s, hrun, hlog⟩ := Option.map_eq_some_iff.mp hlast
  exact ⟨s, hrun, hlog, deletes_win twoPeers s es twoPeers_start hok hrun⟩

/-- Peer 1 deletes the file while a change of it by peer 2 is on its way to it: the delete is handled last and is
not sent back to peer 1, which keeps the file. -/
theorem delete_lost_to_crossing_modify :
    let f : Name := ⟨[49, 47, 102], by decide, by decide⟩
    let add : TransFileTable := [⟨f, 1, .fileAdd, .regular, [⟨12, P2P_PORT⟩]⟩]
    let mod : TransFileTable := [⟨f, 2, .fileModify, .regular, [⟨12, P2P_PORT⟩]⟩]
    let del : TransFileTable := [⟨f, 3, .fileDelete, .regular, [⟨11, P2P_PORT⟩]⟩]
    let es : List FifoEvent :=
      [.report 2 add, .handleUpdate 2, .deliver 1, .report 2 mod, .handleUpdate 2, .report 1 del, .deliver 1,
        .handleUpdate 1, .deliver 2]
    FifoStart twoPeers ∧ ∃ s, fifoNetwork.run twoPeers es = some s ∧ ¬ DeletesWin s := by
  intro f add mod del es
  refine ⟨twoPeers_start, ?_⟩
  have hlast : (fifoNetwork.run twoPeers es).map (fun s =>
      (s.pt.all (fun pe => (s.up pe.conn).isEmpty && (s.down pe.conn).isEmpty), lastOp f s.log,
        decide (s.Registered 1), (s.peerFt 1).view f)) =
      some (true, some .fileDelete, true, some ⟨2, .regular, [⟨12, P2P_PORT⟩]⟩) := by decide
  obtain ⟨s, hrun, hs⟩ := Option.map_eq_some_iff.mp hlast
  simp only [Prod.mk.injEq, List.all_eq_true, Bool.and_eq_true, List.isEmpty_iff, decide_eq_true_eq] at hs
  obtain ⟨hquiet, hlog, hreg, hview⟩ := hs
  refine ⟨s, hrun, fun h => ?_⟩
  obtain ⟨-, hpeers⟩ := h (by rintro c ⟨pe, hpe, rfl⟩; exact hquiet pe hpe) f hlog
  rw [hpeers 1 hreg] at hview
  cases hview

end TeleSync
