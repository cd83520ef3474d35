import TeleSync.Tracker.Handshake

/-!
# The tracker's runs

* `tracking` : the tracker's tasks for any number of connections, one after another in any order;
* `Round`, `rounds` : the tasks cut into the rounds of their loops, which threads may interleave;
* `filled` : the entries that a round hands to `trans_entry_fill_from`;
* `tracking_rounds` : a run of tasks is a run of rounds, so what all rounds keep all tasks keep.
-/

namespace TeleSync
open Transition

/-! ## Tasks -/

/-- The entries in the packet of the activity, if it has one, have the property. -/
def PeerActivity.Carries (P : TransFileEntry → Prop) : PeerActivity → Prop
  | .sync tft => ∀ te ∈ tft, P te
  | .update tft => ∀ te ∈ tft, P te
  | .register _ _ => True
  | .lifeUpdate _ => True
  | .cleanup => True

/-- `file_table_init` and `peer_table_init`. -/
def Tracker.start : Tracker := ⟨fileTableInit, []⟩

/-- Tasks and cleanups of any connections, in any order. -/
def tracking (ctrInfo : TtopControlInfo) : System Tracker (ℤ × PeerActivity) where
  step t e := some (t.perform ctrInfo e.1 e.2).1

/-! ## Rounds -/

/-- What a task does to the table under one lock. -/
inductive Round where
  /-- the loop of `sync_task` over the hash table, which fills the reply -/
  | reply (tft : TransFileTable)
  /-- a round of the loop of `sync_task` over the received entries -/
  | merge (te : TransFileEntry)
  /-- a round of the loop of `peer_file_update_task` -/
  | apply (te : TransFileEntry)
  /-- `file_table_delete_owner` -/
  | deleteOwner (ip : UInt32)
  /-- `trans_table_fill_from` -/
  | snapshot

/-- The entry of the round, if it has one, has the property. -/
def Round.Carries (P : TransFileEntry → Prop) : Round → Prop
  | .merge te => P te
  | .apply te => P te
  | .reply _ => True
  | .deleteOwner _ => True
  | .snapshot => True

def roundStep (ft : FileTable) : Round → FileTable
  | .reply _ => ft
  | .merge te => (syncStep ⟨ft, []⟩ te).ft
  | .apply te => (peerFileUpdateStep ⟨ft, []⟩ te).ft
  | .deleteOwner ip => fileTableDeleteOwner ft ip
  | .snapshot => ft

/-- Rounds of any tasks, in any order. -/
def rounds : System FileTable Round where
  step ft r := some (roundStep ft r)

/-- The entries that the round passes to `trans_entry_fill_from`. A `FILE_MODIFY` of an unknown name passes `NULL`. -/
def filled (ft : FileTable) : Round → List FileEntry
  | .reply tft => ft.entries.filter fun fe => (syncReplyEntry tft fe).isSome
  | .merge _ => []
  | .apply te =>
    match te.opType with
    | .fileAdd => [(fileTableAdd ft te).2]
    | .fileModify => ((fileTableFind ft te).map fun fe => (fileEntryUpdate fe te).1).toList
    | .fileDelete => []
    | .fileNone => []
    | .other _ => []
  | .deleteOwner _ => []
  | .snapshot => ft.entries

/-- The rounds of a task. -/
def roundsOf (t : Tracker) (conn : ℤ) : PeerActivity → List Round
  | .sync tft => .reply tft :: tft.map .merge
  | .update tft => tft.map .apply
  | .cleanup => [.deleteOwner (peerTableDelete t.pt conn).2.toUInt32, .snapshot]
  | .register _ _ => []
  | .lifeUpdate _ => []

/-! ## Tasks as rounds -/

theorem run_merge (tft : TransFileTable) (s : SyncState) :
    rounds.run s.ft (tft.map .merge) = some (tft.foldl syncStep s).ft := by
  induction tft generalizing s with
  | nil => rfl
  | cons te tft ih =>
    show rounds.run (syncStep ⟨s.ft, []⟩ te).ft (tft.map .merge) = _
    rw [ft_syncStep, ih]
    rfl

theorem run_apply (tft : TransFileTable) (ft : FileTable) :
    rounds.run ft (tft.map .apply) = some (peerFileUpdateTask ft tft).ft := by
  induction tft generalizing ft with
  | nil => rfl
  | cons te tft ih =>
    show rounds.run (peerFileUpdateStep ⟨ft, []⟩ te).ft (tft.map .apply) = _
    rw [ih, peerFileUpdateTask_cons]

/-- A task is the run of its rounds. -/
theorem run_roundsOf (ctrInfo : TtopControlInfo) (t : Tracker) (conn : ℤ) (a : PeerActivity) :
    rounds.run t.ft (roundsOf t conn a) = some (t.perform ctrInfo conn a).1.ft := by
  cases a with
  | register peerid now => rfl
  | lifeUpdate ip =>
    unfold Tracker.perform Tracker.lifeUpdate
    dsimp only
    split <;> rfl
  | sync tft => exact run_merge tft ⟨t.ft, []⟩
  | update tft => exact run_apply tft t.ft
  | cleanup => rfl

theorem carries_roundsOf {P : TransFileEntry → Prop} (t : Tracker) (conn : ℤ) {a : PeerActivity} (h : a.Carries P) :
    ∀ r ∈ roundsOf t conn a, r.Carries P := by
  cases a with
  | register peerid now => exact fun r hr => absurd hr List.not_mem_nil
  | lifeUpdate ip => exact fun r hr => absurd hr List.not_mem_nil
  | sync tft =>
    intro r hr
    rcases List.mem_cons.mp hr with rfl | hr
    · trivial
    · obtain ⟨te, hte, rfl⟩ := List.mem_map.mp hr
      exact h te hte
  | update tft =>
    intro r hr
    obtain ⟨te, hte, rfl⟩ := List.mem_map.mp hr
    exact h te hte
  | cleanup =>
    intro r hr
    simp only [roundsOf, List.mem_cons, List.not_mem_nil, or_false] at hr
    rcases hr with rfl | rfl
    · trivial
    · trivial

/-- **A run of tasks is a run of rounds** on the same table, with the same entries. -/
theorem tracking_rounds {ctrInfo : TtopControlInfo} {P : TransFileEntry → Prop} {t t' : Tracker}
    {es : List (ℤ × PeerActivity)} (hes : ∀ e ∈ es, e.2.Carries P) (hrun : (tracking ctrInfo).run t es = some t') :
    ∃ rs, rounds.run t.ft rs = some t'.ft ∧ ∀ r ∈ rs, r.Carries P := by
  induction es generalizing t with
  | nil =>
    cases hrun
    exact ⟨[], rfl, fun r hr => absurd hr List.not_mem_nil⟩
  | cons e es ih =>
    rw [List.forall_mem_cons] at hes
    obtain ⟨t₁, hstep, hrest⟩ := System.run_cons_eq_some.mp hrun
    cases hstep
    obtain ⟨rs, hrs, hcarries⟩ := ih hes.2 hrest
    refine ⟨roundsOf t e.1 e.2 ++ rs, ?_, fun r hr => ?_⟩
    · exact System.run_append_eq_some.mpr ⟨_, run_roundsOf ctrInfo t e.1 e.2, hrs⟩
    · rcases List.mem_append.mp hr with hr | hr
      · exact carries_roundsOf t e.1 hes.1 r hr
      · exact hcarries r hr

theorem roundStep_wf {ft : FileTable} (h : ft.Wf) (r : Round) : (roundStep ft r).Wf := by
  cases r with
  | reply tft => exact h
  | merge te => exact syncStep_wf h te
  | apply te => exact peerFileUpdateStep_wf h te
  | deleteOwner ip => exact h.deleteOwner ip
  | snapshot => exact h

end TeleSync
