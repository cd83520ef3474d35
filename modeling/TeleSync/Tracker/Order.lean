import TeleSync.Tracker.Tasks
import TeleSync.Lib.Effect

/-!
# Updates of one peer in any order

`receiver_task` starts a `peer_file_update_task` thread for every `PEER_FILE_UPDATE` packet and waits for none
of them, so the packets of one peer are handled in any order.

* `handlePackets` : the packets handled one after another;
* `entryEffect`, `packetEffect` : what an entry and a packet do to the timestamp of one name: an add or modify
  raises it, a delete resets it (`stamp_handlePackets`);
* `deletes`, `leaves` : a packet deletes a name, and the timestamp it reports for it since;
* `order_irrelevant_iff` : every order gives the same names and timestamps exactly when no packet leaves a name
  with a greater timestamp than a packet that deletes it.
-/

namespace TeleSync

/-- The tracker's table after the tasks of `packets` have run in this order. -/
def handlePackets (ft : FileTable) (packets : List TransFileTable) : FileTable :=
  packets.foldl (fun ft tft => (peerFileUpdateTask ft tft).ft) ft

/-- The packet has a `FILE_DELETE` of `f`. -/
def deletes (f : Name) (tft : TransFileTable) : Bool :=
  tft.any fun te => te.name = f ∧ te.opType = .fileDelete

/-- The timestamp of `f` after one more entry. -/
def leavesStep (f : Name) (x : WithBot ℕ) (te : TransFileEntry) : WithBot ℕ :=
  if te.name = f then
    match te.opType with
    | .fileAdd => max x te.timestamp
    | .fileModify => max x te.timestamp
    | .fileDelete => ⊥
    | .fileNone => x
    | .other _ => x
  else x

/-- The greatest timestamp that the packet reports for `f`, after its last delete of `f` if there is one. -/
def leaves (f : Name) (tft : TransFileTable) : WithBot ℕ := tft.foldl (leavesStep f) ⊥

/-! ## Effects on one name -/

/-- What the entry does to the timestamp of `f`. -/
def entryEffect (f : Name) (te : TransFileEntry) : Effect (WithBot ℕ) :=
  ⟨te.name = f ∧ te.opType = .fileDelete, leavesStep f ⊥ te⟩

/-- What the packet does to the timestamp of `f`. -/
def packetEffect (f : Name) (tft : TransFileTable) : Effect (WithBot ℕ) := ⟨deletes f tft, leaves f tft⟩

theorem apply_entryEffect (f : Name) (te : TransFileEntry) (x : WithBot ℕ) :
    (entryEffect f te).apply x = leavesStep f x te := by
  unfold entryEffect Effect.apply leavesStep
  by_cases hn : te.name = f
  · cases hop : te.opType <;> simp [hn]
  · simp [hn]

theorem stamp_updateStep {s : UpdateState} (hw : s.ft.Wf) (te : TransFileEntry) (f : Name) :
    (peerFileUpdateStep s te).ft.stamp f = leavesStep f (s.ft.stamp f) te := by
  have hset : te.opType = .fileAdd ∨ te.opType = .fileModify → (peerFileUpdateStep s te).ft.stamp f =
      if te.name = f then max (s.ft.stamp f) te.timestamp else s.ft.stamp f := by
    intro hop
    rw [stamp_updateStep_set hop]
    by_cases hn : te.name = f
    · rw [if_pos hn, ← hn, Function.update_self]
    · rw [if_neg hn, Function.update_of_ne (Ne.symm hn)]
  rw [leavesStep]
  cases hop : te.opType with
  | fileAdd => exact hset (Or.inl hop)
  | fileModify => exact hset (Or.inr hop)
  | fileDelete =>
    rw [stamp_updateStep_delete hw hop]
    by_cases hn : te.name = f
    · rw [if_pos hn, ← hn, Function.update_self]
    · rw [if_neg hn, Function.update_of_ne (Ne.symm hn)]
  | fileNone =>
    rw [updateStep_skip (Or.inl hop)]
    simp
  | other c =>
    rw [updateStep_skip (Or.inr ⟨c, hop⟩)]
    simp

theorem leavesStep_max (f : Name) (x : WithBot ℕ) (te : TransFileEntry) (h : ¬ (entryEffect f te).resets) :
    leavesStep f x te = max x (leavesStep f ⊥ te) := by
  rw [← apply_entryEffect, Effect.apply, if_neg h]
  rfl

theorem packetEffect_append (f : Name) (tft : TransFileTable) (te : TransFileEntry) :
    packetEffect f (tft ++ [te]) = (packetEffect f tft).comp (entryEffect f te) := by
  have hleaves : leaves f (tft ++ [te]) = leavesStep f (leaves f tft) te := by
    rw [leaves, List.foldl_append]
    rfl
  have hdel : deletes f (tft ++ [te]) = (deletes f tft || (entryEffect f te).resets) := by
    simp [deletes, entryEffect]
  rw [packetEffect, hleaves, hdel, Effect.comp]
  by_cases hr : (entryEffect f te).resets
  · have hstep : leavesStep f (leaves f tft) te = leavesStep f ⊥ te := by
      rw [← apply_entryEffect, ← apply_entryEffect, Effect.apply, Effect.apply, if_pos hr, if_pos hr]
    rw [if_pos hr, hstep, hr, Bool.or_true, ← hr]
    rfl
  · have hfalse : (entryEffect f te).resets = false := Bool.eq_false_iff.mpr hr
    rw [if_neg hr, leavesStep_max f _ te hr, hfalse, Bool.or_false]
    rfl

theorem foldl_leavesStep (f : Name) (tft : TransFileTable) (x : WithBot ℕ) :
    tft.foldl (leavesStep f) x = (packetEffect f tft).apply x := by
  induction tft using List.reverseRecOn with
  | nil => simp [packetEffect, deletes, leaves, Effect.apply]
  | append_singleton tft te ih =>
    rw [packetEffect_append, Effect.apply_comp, ← ih, List.foldl_append, apply_entryEffect]
    rfl

theorem stamp_peerFileUpdateTask {ft : FileTable} (hw : ft.Wf) (tft : TransFileTable) (f : Name) :
    (peerFileUpdateTask ft tft).ft.stamp f = tft.foldl (leavesStep f) (ft.stamp f) := by
  induction tft using List.reverseRecOn with
  | nil => rfl
  | append_singleton tft te ih =>
    rw [List.foldl_append, ← ih, peerFileUpdateTask, List.foldl_append]
    exact stamp_updateStep (peerFileUpdateTask_wf hw tft) te f

theorem stamp_handlePackets {ft : FileTable} (hw : ft.Wf) (packets : List TransFileTable) (f : Name) :
    (handlePackets ft packets).stamp f = packets.foldl (fun x tft => (packetEffect f tft).apply x) (ft.stamp f) := by
  induction packets generalizing ft with
  | nil => rfl
  | cons tft packets ih =>
    rw [handlePackets, List.foldl_cons, List.foldl_cons, ← foldl_leavesStep, ← stamp_peerFileUpdateTask hw]
    exact ih (peerFileUpdateTask_wf hw tft)

/-- **Order of one peer's updates.** Whatever order the tasks run in, the tracker ends with the names and
timestamps of the sending order, exactly when no packet leaves a name with a greater timestamp than a packet of
the list that deletes that name. -/
theorem order_irrelevant_iff (ft : FileTable) (hw : ft.Wf) (packets : List TransFileTable) :
    (∀ order : List TransFileTable, order.Perm packets →
        (handlePackets ft order).stamp = (handlePackets ft packets).stamp) ↔
      ∀ f, ∀ tft ∈ packets, deletes f tft → ∀ tft' ∈ packets, leaves f tft' ≤ leaves f tft := by
  have hname : ∀ f, (∀ order : List TransFileTable, order.Perm packets →
      (handlePackets ft order).stamp f = (handlePackets ft packets).stamp f) ↔
        ∀ tft ∈ packets, deletes f tft → ∀ tft' ∈ packets, leaves f tft' ≤ leaves f tft := by
    intro f
    simp only [stamp_handlePackets hw]
    exact Effect.foldl_perm_iff (packetEffect f) (ft.stamp f) packets
  constructor
  · intro h f
    exact (hname f).mp fun order hperm => congrFun (h order hperm) f
  · intro h order hperm
    funext f
    exact (hname f).mpr (h f) order hperm

/-- A packet that deletes `f` and adds it again with timestamp 5, and one that adds it with timestamp 3. -/
theorem order_irrelevant_delete_and_add :
    let f : Name := ⟨[102], by decide, by decide⟩
    let entry (op : OperationType) (t : ℕ) : TransFileEntry := ⟨f, t, op, .regular, [⟨1, P2P_PORT⟩]⟩
    let packets : List TransFileTable := [[entry .fileDelete 0, entry .fileAdd 5], [entry .fileAdd 3]]
    (handlePackets fileTableInit packets.reverse).stamp = (handlePackets fileTableInit packets).stamp ∧
      (handlePackets fileTableInit packets).stamp f = 5 := by
  intro f entry packets
  refine ⟨(order_irrelevant_iff _ FileTable.wf_init packets).mpr ?_ _ (List.reverse_perm packets), by decide⟩
  intro f' tft htft hdel tft' htft'
  have hcases : f' = f := by
    obtain ⟨te, hte, hname⟩ := List.any_eq_true.mp hdel
    have hall : ∀ tft ∈ packets, ∀ te ∈ tft, te.name = f := by decide
    rw [← hall tft htft te hte]
    exact (of_decide_eq_true hname).1.symm
  subst hcases
  have hleaves : ∀ tft ∈ packets, deletes f tft → ∀ tft' ∈ packets, leaves f tft' ≤ leaves f tft := by decide
  exact hleaves tft htft hdel tft' htft'

/-- An add and a delete of the same file, in two packets: handled in the sending order the file is gone, the
other way round it stays. -/
theorem update_order_lost :
    let f : Name := ⟨[102], by decide, by decide⟩
    let entry (op : OperationType) (t : ℕ) : TransFileEntry := ⟨f, t, op, .regular, [⟨1, P2P_PORT⟩]⟩
    let packets : List TransFileTable := [[entry .fileAdd 1], [entry .fileDelete 0]]
    ∃ order : List TransFileTable, order.Perm packets ∧
      (handlePackets fileTableInit packets).stamp f = ⊥ ∧ (handlePackets fileTableInit order).stamp f = 1 := by
  intro f entry packets
  exact ⟨packets.reverse, List.reverse_perm packets, by decide, by decide⟩

end TeleSync
