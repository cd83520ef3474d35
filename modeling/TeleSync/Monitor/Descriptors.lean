import TeleSync.Monitor.Invariant
import TeleSync.Lib.Transition

/-!
# The array of descriptors and the list of targets

`watch_target_add` enters a new target into the list and, under its descriptor, into the array `targets`. Blocking and
unblocking write the descriptor that inotify gives them into the target and leave the array alone.

* `WatchEvent`, `watching` : the operations on the table one by one, each with what the system answers to it;
* `Linked` : what holds of the list in every run;
* `Agree` : list and array agree;
* `SameDescriptor` : a target that is watched again keeps its descriptor;
* `RunOf K c` : a call is a run of such operations; `runOf_fileMonitorBlock` and others;
* `watch_array_agrees_iff` : in a run list and array always agree exactly when descriptors never change.
-/

namespace TeleSync
open Program Transition

/-! ## Operations -/

/-- One operation and the answer to it; any other call leaves only a trace. -/
inductive WatchEvent where
  /-- `watch_target_add` -/
  | add (sysName logicName : CString) (wd : ℤ) (allocated : Bool)
  /-- `__file_monitor_block` -/
  | block (p : ℕ) (wd : ℤ)
  /-- `__file_monitor_unblock` and `file_monitor_unblock` -/
  | unblock (p : ℕ) (wd : ℤ)
  /-- `unwatch_and_free_target` -/
  | free (p : ℕ)
  /-- an event about a watched directory itself -/
  | self (wd : ℤ) (what : SelfEvent)
  | call (c : Call)
  deriving DecidableEq

/-- A system that always gives the same answers. -/
def answering (wd : ℤ) (allocated : Bool) : Kernel := ⟨fun _ _ _ => wd, fun _ _ => 0, fun _ => allocated⟩

/-- What the operation does. -/
def WatchEvent.run : WatchEvent → Monitor Unit
  | .add sysName logicName wd allocated => do
    let _ ← watchTargetAdd (answering wd allocated) sysName logicName
    pure ()
  | .block p wd => blockTarget (answering wd true) p
  | .unblock p wd => fileMonitorUnblock (answering wd true) p
  | .free p => unwatchAndFreeTarget p
  | .self wd what => handleEvent (answering 0 true) (.self wd what)
  | .call c => issue c

/-- Any operations in any order, as long as none of them crashes. -/
def watching : System MonitorTable WatchEvent where
  step m e :=
    match (e.run m).1 with
    | none => none
    | some _ => some (e.run m).2

theorem watching_step {m m' : MonitorTable} {e : WatchEvent} (h : e.run m = (some (), m')) :
    watching.step m e = some m' := by
  show (match (e.run m).1 with
    | none => none
    | some _ => some (e.run m).2) = some m'
  rw [h]

theorem run_of_step {m m' : MonitorTable} {e : WatchEvent} (h : watching.step m e = some m') :
    e.run m = (some (), m') := by
  have h' : (match (e.run m).1 with
    | none => none
    | some _ => some (e.run m).2) = some m' := h
  cases hr : e.run m with
  | mk o s =>
    rw [hr] at h'
    cases o with
    | none => cases h'
    | some u =>
      cases h'
      rfl

/-! ## What a step does -/

/-- The same table, but for the trace. -/
structure SameTargets (m m' : MonitorTable) : Prop where
  objs : m'.objs = m.objs
  head : m'.head = m.head
  targets : m'.targets = m.targets
  allocated : m'.allocated = m.allocated

theorem SameTargets.refl (m : MonitorTable) : SameTargets m m := ⟨rfl, rfl, rfl, rfl⟩

theorem sameTargets_log (m : MonitorTable) (c : Call) : SameTargets m (m.log c) := ⟨rfl, rfl, rfl, rfl⟩

/-- A target that is watched again gets the descriptor that it has. -/
def SameDescriptor (m : MonitorTable) : WatchEvent → Prop
  | .block p wd => ∀ t, m.objs p = some t → wd = t.wd
  | .unblock p wd => ∀ t, m.objs p = some t → wd = t.wd
  | _ => True

/-- The steps: nothing, a new target under a free descriptor, a target freed, or one watched again. -/
inductive StepEffect (m m' : MonitorTable) (e : WatchEvent) : Prop where
  | same (h : SameTargets m m') (hok : SameDescriptor m e)
  | insert (t : MonitorTarget) (hrange : 0 ≤ t.wd ∧ t.wd < WD_HASH_SIZE) (hfree : m.targets t.wd = none)
    (h : SameTargets (m.insert t) m') (hok : SameDescriptor m e)
  | free (p : ℕ) (t : MonitorTarget) (ht : m.objs p = some t) (hrange : 0 ≤ t.wd ∧ t.wd < WD_HASH_SIZE)
    (h : SameTargets (m.free p t.wd) m') (hok : SameDescriptor m e)
  | rewatch (p : ℕ) (wd : ℤ) (t : MonitorTarget) (ht : m.objs p = some t) (h : SameTargets (m.setWd p wd) m')
    (hok : SameDescriptor m e ↔ wd = t.wd)

/-- `watch_target_add` asks inotify and `calloc` once each. -/
theorem watchTargetAdd_congr {K L : Kernel} {sysName : CString} {m : MonitorTable}
    (hwatch : L.inotifyAddWatch m sysName .defaultWatch = K.inotifyAddWatch m sysName .defaultWatch)
    (hcalloc : L.calloc (m.log (.inotifyAddWatch sysName .defaultWatch)) =
      K.calloc (m.log (.inotifyAddWatch sysName .defaultWatch))) (logicName : CString) :
    watchTargetAdd L sysName logicName m = watchTargetAdd K sysName logicName m := by
  unfold watchTargetAdd
  by_cases hfits : NameFits sysName ∧ NameFits logicName
  · rw [Prog.bind_of_some (Prog.assert_of_pos hfits m), Prog.bind_of_some (Prog.assert_of_pos hfits m),
      Prog.bind_of_some (inotifyAddWatch_eq L sysName _ m), Prog.bind_of_some (inotifyAddWatch_eq K sysName _ m), hwatch]
    generalize K.inotifyAddWatch m sysName .defaultWatch = wd
    split_ifs with hwd
    · rfl
    · by_cases hroom : wd < WD_HASH_SIZE
      · rw [Prog.bind_of_some (Prog.assert_of_pos hroom _), Prog.bind_of_some (Prog.assert_of_pos hroom _)]
        have hused : ∀ m', (Prog.get fun m => m.targets wd : Monitor (Option ℕ)) m' = (some (m'.targets wd), m') :=
          fun _ => rfl
        rw [Prog.bind_of_some (hused _), Prog.bind_of_some (hused _)]
        cases (m.log (.inotifyAddWatch sysName .defaultWatch)).targets wd with
        | some p => rfl
        | none =>
          dsimp only
          rw [Prog.bind_of_some (calloc_eq L _), Prog.bind_of_some (calloc_eq K _), hcalloc]
      · rw [Prog.bind_of_none (Prog.assert_of_neg hroom _), Prog.bind_of_none (Prog.assert_of_neg hroom _)]
  · rw [Prog.bind_of_none (Prog.assert_of_neg hfits m), Prog.bind_of_none (Prog.assert_of_neg hfits m)]

theorem watchTargetAdd_cases {K : Kernel} {sysName logicName : CString} {m m' : MonitorTable} {r : Option ℕ}
    (h : watchTargetAdd K sysName logicName m = (some r, m')) :
    SameTargets m m' ∨ ∃ wd, (0 ≤ wd ∧ wd < WD_HASH_SIZE) ∧ m.targets wd = none ∧
      SameTargets (m.insert ⟨wd, sysName, logicName⟩) m' := by
  unfold watchTargetAdd at h
  obtain ⟨_, m₁, hassert, h₁⟩ := Prog.bind_eq_some h
  obtain ⟨-, rfl⟩ := Prog.assert_eq_some hassert
  obtain ⟨wd, m₂, hwatch, h₂⟩ := Prog.bind_eq_some h₁
  cases hwatch
  split_ifs at h₂ with hwd
  · cases h₂
    exact Or.inl (sameTargets_log _ _)
  · obtain ⟨_, m₃, hroom, h₃⟩ := Prog.bind_eq_some h₂
    obtain ⟨hlt, rfl⟩ := Prog.assert_eq_some hroom
    obtain ⟨used, m₄, hused, h₄⟩ := Prog.bind_eq_some h₃
    obtain ⟨hfree, rfl⟩ := Prog.get_eq_some hused
    cases used with
    | some p =>
      cases h₄
      exact Or.inl (sameTargets_log _ _)
    | none =>
      obtain ⟨ok, m₅, hcalloc, h₅⟩ := Prog.bind_eq_some h₄
      cases hcalloc
      split_ifs at h₅ with hok
      · cases h₅
        exact Or.inr ⟨_, ⟨not_lt.mp hwd, hlt⟩, hfree, rfl, rfl, rfl, rfl⟩
      · cases h₅
        exact Or.inl ⟨rfl, rfl, rfl, rfl⟩

theorem watchAgain_cases {K : Kernel} {mask : WatchMask} {p : ℕ} {m m' : MonitorTable} {u : Unit}
    (h : watchAgain K mask p m = (some u, m')) : ∃ t, m.objs p = some t ∧
      m' = (m.log (.inotifyAddWatch t.sysName mask)).setWd p (K.inotifyAddWatch m t.sysName mask) := by
  obtain ⟨t, m₁, hderef, -⟩ := Prog.bind_eq_some h
  have ht : m.objs p = some t := (Prod.mk.inj hderef).1
  rw [watchAgain_eq K mask ht] at h
  cases h
  exact ⟨t, ht, rfl⟩

theorem sameTargets_watchAgain (m : MonitorTable) (c : Call) (p : ℕ) (wd : ℤ) :
    SameTargets (m.setWd p wd) ((m.log c).setWd p wd) := ⟨rfl, rfl, rfl, rfl⟩

theorem unwatchAndFreeTarget_cases {p : ℕ} {m m' : MonitorTable} {u : Unit}
    (h : unwatchAndFreeTarget p m = (some u, m')) :
    ∃ t, m.objs p = some t ∧ (0 ≤ t.wd ∧ t.wd < WD_HASH_SIZE) ∧ SameTargets (m.free p t.wd) m' := by
  unfold unwatchAndFreeTarget at h
  obtain ⟨t, m₁, hderef, h₁⟩ := Prog.bind_eq_some h
  obtain ⟨ht, rfl⟩ := Prod.mk.inj hderef
  obtain ⟨_, m₂, hassert, h₂⟩ := Prog.bind_eq_some h₁
  obtain ⟨hrange, rfl⟩ := Prog.assert_eq_some hassert
  cases h₂
  exact ⟨t, ht, hrange, rfl, rfl, rfl, rfl⟩

theorem stepEffect {m m' : MonitorTable} {e : WatchEvent} (h : watching.step m e = some m') : StepEffect m m' e := by
  have hrun := run_of_step h
  cases e with
  | add sysName logicName wd allocated =>
    obtain ⟨r, m₁, hadd, hret⟩ := Prog.bind_eq_some hrun
    cases hret
    rcases watchTargetAdd_cases hadd with hsame | ⟨wd, hrange, hfree, hsame⟩
    · exact .same hsame trivial
    · exact .insert _ hrange hfree hsame trivial
  | block p wd =>
    obtain ⟨t, ht, rfl⟩ := watchAgain_cases hrun
    refine .rewatch p wd t ht (sameTargets_watchAgain _ _ _ _) ⟨fun hok => hok t ht, fun heq t' ht' => ?_⟩
    rw [ht] at ht'
    cases ht'
    exact heq
  | unblock p wd =>
    obtain ⟨t, ht, rfl⟩ := watchAgain_cases hrun
    refine .rewatch p wd t ht (sameTargets_watchAgain _ _ _ _) ⟨fun hok => hok t ht, fun heq t' ht' => ?_⟩
    rw [ht] at ht'
    cases ht'
    exact heq
  | free p =>
    obtain ⟨t, ht, hrange, hsame⟩ := unwatchAndFreeTarget_cases hrun
    exact .free p t ht hrange hsame trivial
  | self wd what =>
    obtain ⟨target, m₁, htarget, hrest⟩ := Prog.bind_eq_some hrun
    obtain ⟨_, m₂, hassert, hget⟩ := Prog.bind_eq_some htarget
    obtain ⟨-, rfl⟩ := Prog.assert_eq_some hassert
    obtain ⟨-, rfl⟩ := Prog.get_eq_some hget
    cases target with
    | none =>
      cases hrest
      exact .same (SameTargets.refl _) trivial
    | some p =>
      dsimp only at hrest
      split_ifs at hrest with hwhat
      · obtain ⟨t, ht, hrange, hsame⟩ := unwatchAndFreeTarget_cases hrest
        exact .free p t ht hrange hsame trivial
      · cases hrest
        exact .same (SameTargets.refl _) trivial
  | call c =>
    cases hrun
    exact .same (sameTargets_log m c) trivial

/-! ## The invariants -/

/-- The list holds the targets that are not freed, each of them once. -/
structure Linked (m : MonitorTable) : Prop where
  nodup : m.head.Nodup
  live : ∀ p, p ∈ m.head ↔ ∃ t, m.objs p = some t
  below : ∀ p ∈ m.head, p < m.allocated

/-- Every target of the list stands in the array under its descriptor, and there is nothing else in the array. -/
structure Agree (m : MonitorTable) : Prop where
  listed : ∀ p ∈ m.head, ∃ t, m.objs p = some t ∧ (0 ≤ t.wd ∧ t.wd < WD_HASH_SIZE) ∧ m.targets t.wd = some p
  array : ∀ w p, m.targets w = some p → p ∈ m.head ∧ ∃ t, m.objs p = some t ∧ t.wd = w

section Invariants
variable {m m' : MonitorTable} {p : ℕ} {t : MonitorTarget}

theorem linked_empty : Linked MonitorTable.empty where
  nodup := List.nodup_nil
  live _ := iff_of_false List.not_mem_nil fun ⟨t, ht⟩ => (Option.some_ne_none t ht.symm).elim
  below _ hp := absurd hp List.not_mem_nil

theorem agree_empty : Agree MonitorTable.empty where
  listed _ hp := absurd hp List.not_mem_nil
  array _ p hp := (Option.some_ne_none p hp.symm).elim

theorem Linked.same (h : Linked m) (hm : SameTargets m m') : Linked m' := by
  obtain ⟨hobjs, hhead, -, hallocated⟩ := hm
  refine ⟨?_, fun p => ?_, fun p hp => ?_⟩
  · rw [hhead]
    exact h.nodup
  · rw [hhead, hobjs]
    exact h.live p
  · rw [hallocated]
    exact h.below p (hhead ▸ hp)

theorem agree_same (hm : SameTargets m m') : Agree m' ↔ Agree m := by
  obtain ⟨hobjs, hhead, htargets, -⟩ := hm
  constructor
  · rintro ⟨hlisted, harray⟩
    rw [hobjs, hhead, htargets] at hlisted
    rw [hobjs, hhead, htargets] at harray
    exact ⟨hlisted, harray⟩
  · rintro ⟨hlisted, harray⟩
    refine ⟨?_, ?_⟩
    · rw [hobjs, hhead, htargets]
      exact hlisted
    · rw [hobjs, hhead, htargets]
      exact harray

theorem Linked.allocated_notMem (h : Linked m) : m.allocated ∉ m.head :=
  fun hmem => absurd (h.below _ hmem) (lt_irrefl _)

theorem Linked.insert (h : Linked m) (t : MonitorTarget) : Linked (m.insert t) where
  nodup := by
    show (m.head ++ [m.allocated]).Nodup
    rw [List.nodup_append]
    refine ⟨h.nodup, List.nodup_singleton _, fun a ha b hb heq => ?_⟩
    rw [List.mem_singleton.mp hb] at heq
    exact h.allocated_notMem (heq ▸ ha)
  live p := by
    show p ∈ m.head ++ [m.allocated] ↔ ∃ t', Function.update m.objs m.allocated (some t) p = some t'
    rw [List.mem_append, List.mem_singleton, Function.update_apply]
    split_ifs with hp
    · exact iff_of_true (Or.inr hp) ⟨t, rfl⟩
    · rw [← h.live p]
      exact or_iff_left hp
  below p hp := by
    show p < m.allocated + 1
    rcases List.mem_append.mp hp with hp | hp
    · have := h.below p hp
      omega
    · rw [List.mem_singleton.mp hp]
      omega

theorem Agree.insert (h : Agree m) (hl : Linked m) (hrange : 0 ≤ t.wd ∧ t.wd < WD_HASH_SIZE)
    (hfree : m.targets t.wd = none) : Agree (m.insert t) where
  listed p hp := by
    show ∃ t', Function.update m.objs m.allocated (some t) p = some t' ∧ (0 ≤ t'.wd ∧ t'.wd < WD_HASH_SIZE) ∧
      Function.update m.targets t.wd (some m.allocated) t'.wd = some p
    rcases List.mem_append.mp hp with hp | hp
    · obtain ⟨t', ht', hrange', htarget⟩ := h.listed p hp
      have hne : p ≠ m.allocated := fun heq => hl.allocated_notMem (heq ▸ hp)
      refine ⟨t', ?_, hrange', ?_⟩
      · rw [Function.update_of_ne hne]
        exact ht'
      · rw [Function.update_of_ne]
        · exact htarget
        · intro heq
          rw [heq, hfree] at htarget
          cases htarget
    · rw [List.mem_singleton.mp hp]
      exact ⟨t, Function.update_self .., hrange, Function.update_self ..⟩
  array w p hw := by
    have hw' : Function.update m.targets t.wd (some m.allocated) w = some p := hw
    show p ∈ m.head ++ [m.allocated] ∧ ∃ t', Function.update m.objs m.allocated (some t) p = some t' ∧ t'.wd = w
    rw [Function.update_apply] at hw'
    split_ifs at hw' with heq
    · cases hw'
      exact ⟨List.mem_append_right _ (List.mem_singleton_self _), t, Function.update_self .., heq.symm⟩
    · obtain ⟨hp, t', ht', hwd⟩ := h.array w p hw'
      have hne : p ≠ m.allocated := fun heq' => hl.allocated_notMem (heq' ▸ hp)
      refine ⟨List.mem_append_left _ hp, t', ?_, hwd⟩
      rw [Function.update_of_ne hne]
      exact ht'

theorem Linked.setWd (h : Linked m) (p : ℕ) (wd : ℤ) : Linked (m.setWd p wd) where
  nodup := h.nodup
  live q := by
    show q ∈ m.head ↔ ∃ t, (m.setWd p wd).objs q = some t
    rw [h.live q, MonitorTable.objs_setWd, Function.update_apply]
    split_ifs with hq
    · rw [hq]
      constructor
      · rintro ⟨t, ht⟩
        exact ⟨{ t with wd := wd }, by rw [ht]; rfl⟩
      · rintro ⟨t, ht⟩
        obtain ⟨t', ht', -⟩ := Option.map_eq_some_iff.mp ht
        exact ⟨t', ht'⟩
    · exact Iff.rfl
  below := h.below

/-- The array is out of step as soon as a listed target has another descriptor. -/
theorem agree_setWd_iff (h : Agree m) (hl : Linked m) (ht : m.objs p = some t) (wd : ℤ) :
    Agree (m.setWd p wd) ↔ wd = t.wd := by
  constructor
  · intro h'
    obtain ⟨t', ht', -, htarget⟩ := h.listed p ((hl.live p).mpr ⟨t, ht⟩)
    rw [ht] at ht'
    cases ht'
    obtain ⟨-, t', ht', hwd⟩ := h'.array t.wd p htarget
    rw [MonitorTable.objs_setWd, Function.update_self, ht] at ht'
    cases ht'
    exact hwd
  · rintro rfl
    have hsame : SameTargets m (m.setWd p t.wd) := by
      refine ⟨?_, rfl, rfl, rfl⟩
      rw [MonitorTable.objs_setWd, ht, Option.map_some]
      exact Function.update_eq_self_iff.mpr ht.symm
    exact (agree_same hsame).mpr h

theorem Linked.free (h : Linked m) (p : ℕ) (wd : ℤ) : Linked (m.free p wd) where
  nodup := h.nodup.erase p
  live q := by
    show q ∈ m.head.erase p ↔ ∃ t, (m.free p wd).objs q = some t
    rw [h.nodup.mem_erase_iff, h.live q, MonitorTable.objs_free, Function.update_apply]
    split_ifs with hq
    · refine iff_of_false (fun hne => hne.1 hq) ?_
      rintro ⟨t, ht⟩
      cases ht
    · exact and_iff_right hq
  below q hq := h.below q (List.mem_of_mem_erase hq)

theorem Agree.free (h : Agree m) (hl : Linked m) (ht : m.objs p = some t) : Agree (m.free p t.wd) where
  listed q hq := by
    show ∃ t', Function.update m.objs p none q = some t' ∧ (0 ≤ t'.wd ∧ t'.wd < WD_HASH_SIZE) ∧
      Function.update m.targets t.wd none t'.wd = some q
    obtain ⟨hne, hq⟩ := hl.nodup.mem_erase_iff.mp hq
    obtain ⟨t', ht', hrange, htarget⟩ := h.listed q hq
    refine ⟨t', ?_, hrange, ?_⟩
    · rw [Function.update_of_ne hne]
      exact ht'
    · rw [Function.update_of_ne]
      · exact htarget
      · intro heq
        obtain ⟨t'', ht'', -, htarget'⟩ := h.listed p ((hl.live p).mpr ⟨t, ht⟩)
        rw [ht] at ht''
        cases ht''
        rw [← heq, htarget] at htarget'
        exact hne (Option.some.inj htarget')
  array w q hw := by
    have hw' : Function.update m.targets t.wd none w = some q := hw
    show q ∈ m.head.erase p ∧ ∃ t', Function.update m.objs p none q = some t' ∧ t'.wd = w
    rw [Function.update_apply] at hw'
    split_ifs at hw' with heq
    obtain ⟨hq, t', ht', hwd⟩ := h.array w q hw'
    have hne : q ≠ p := by
      rintro rfl
      rw [ht] at ht'
      cases ht'
      exact heq hwd.symm
    refine ⟨hl.nodup.mem_erase_iff.mpr ⟨hne, hq⟩, t', ?_, hwd⟩
    rw [Function.update_of_ne hne]
    exact ht'

end Invariants

/-! ## Runs -/

theorem linked_step (m : MonitorTable) (e : WatchEvent) (m' : MonitorTable) (h : Linked m)
    (hs : watching.step m e = some m') : Linked m' := by
  cases stepEffect hs with
  | same hm => exact h.same hm
  | insert t _ _ hm => exact (h.insert t).same hm
  | free p t _ _ hm => exact (h.free p t.wd).same hm
  | rewatch p wd t _ hm => exact (h.setWd p wd).same hm

theorem agree_step (m : MonitorTable) (e : WatchEvent) (m' : MonitorTable) (hl : Linked m) (h : Agree m)
    (hs : watching.step m e = some m') : Agree m' ↔ SameDescriptor m e := by
  cases stepEffect hs with
  | same hm hok => exact iff_of_true ((agree_same hm).mpr h) hok
  | insert t hrange hfree hm hok => exact iff_of_true ((agree_same hm).mpr (h.insert hl hrange hfree)) hok
  | free p t ht _ hm hok => exact iff_of_true ((agree_same hm).mpr (h.free hl ht)) hok
  | rewatch p wd t ht hm hok => rw [agree_same hm, agree_setWd_iff h hl ht, hok]

theorem sameDescriptor_of_crash (m : MonitorTable) (e : WatchEvent) (hs : watching.step m e = none) :
    SameDescriptor m e := by
  cases e with
  | block p wd =>
    intro t ht
    have hrun : WatchEvent.run (.block p wd) m = _ := watchAgain_eq (answering wd true) .blockAll ht
    rw [watching_step hrun] at hs
    cases hs
  | unblock p wd =>
    intro t ht
    have hrun : WatchEvent.run (.unblock p wd) m = _ := watchAgain_eq (answering wd true) .defaultWatch ht
    rw [watching_step hrun] at hs
    cases hs
  | _ => trivial

theorem always_agree_iff (es : List WatchEvent) :
    watching.Always Agree MonitorTable.empty es ↔ watching.RunMeets SameDescriptor MonitorTable.empty es :=
  System.always_iff_runMeets_guarded (E := fun _ => True) linked_step
    (fun m e m' hl _ h hs => agree_step m e m' hl h hs) (fun m e _ _ _ hs => sameDescriptor_of_crash m e hs)
    (fun _ _ => trivial) linked_empty agree_empty

/-! ## The functions of the client as runs -/

/-- The answers are those of `K`. -/
def AnsweredBy (K : Kernel) (m : MonitorTable) : WatchEvent → Prop
  | .add sysName _ wd allocated => wd = K.inotifyAddWatch m sysName .defaultWatch ∧
      allocated = K.calloc (m.log (.inotifyAddWatch sysName .defaultWatch))
  | .block p wd => ∀ t, m.objs p = some t → wd = K.inotifyAddWatch m t.sysName .blockAll
  | .unblock p wd => ∀ t, m.objs p = some t → wd = K.inotifyAddWatch m t.sysName .defaultWatch
  | _ => True

/-- What the call does is a run of operations that `K` answers. -/
def RunOf {α : Type} (K : Kernel) (c : Monitor α) : Prop :=
  ∀ m a m', c m = (some a, m') → ∃ es, watching.run m es = some m' ∧ watching.RunMeets (AnsweredBy K) m es

namespace RunOf

variable {α β : Type} {K : Kernel} {c : Monitor α}

theorem still (h : ∀ m, (c m).2 = m) : RunOf K c := by
  intro m a m' hc
  have hm := h m
  rw [hc] at hm
  cases hm
  exact ⟨[], rfl, trivial⟩

theorem ret (a : α) : RunOf K (pure a : Monitor α) := still fun _ => rfl

theorem get (f : MonitorTable → α) : RunOf K (Prog.get f) := still fun _ => rfl

theorem deref (p : ℕ) : RunOf K (TeleSync.deref p) := still fun _ => rfl

theorem assert (b : Prop) [Decidable b] : RunOf K (Prog.assert b : Monitor Unit) := by
  refine still fun m => ?_
  by_cases hb : b
  · rw [Prog.assert_of_pos hb]
  · rw [Prog.assert_of_neg hb]

theorem crash : RunOf K (Prog.crash : Monitor α) := still fun _ => rfl

theorem bind {k : α → Monitor β} (hc : RunOf K c) (hk : ∀ a, RunOf K (k a)) : RunOf K (c >>= k) := by
  intro m b m' h
  obtain ⟨a, m₁, h₁, h₂⟩ := Prog.bind_eq_some h
  obtain ⟨es, hrun, hes⟩ := hc m a m₁ h₁
  obtain ⟨es', hrun', hes'⟩ := hk a m₁ b m' h₂
  exact ⟨es ++ es', System.run_append_eq_some.mpr ⟨m₁, hrun, hrun'⟩, hes.append hrun hes'⟩

theorem ite {b : Prop} [Decidable b] {c' : Monitor α} (ht : RunOf K c) (hf : RunOf K c') :
    RunOf K (if b then c else c') := by
  split_ifs
  · exact ht
  · exact hf

theorem single {m m' : MonitorTable} {e : WatchEvent} (h : e.run m = (some (), m')) (hK : AnsweredBy K m e) :
    ∃ es, watching.run m es = some m' ∧ watching.RunMeets (AnsweredBy K) m es :=
  ⟨[e], System.run_cons_eq_some.mpr ⟨m', watching_step h, rfl⟩, hK, fun _ _ => trivial⟩

theorem issue (c : Call) : RunOf K (TeleSync.issue c) := by
  rintro m a m' h
  cases h
  exact single (e := .call c) rfl trivial

theorem mkdir (path : CString) : RunOf K (TeleSync.mkdir K path) :=
  bind (get _) fun _ => bind (issue _) fun _ => ret _

theorem free (p : ℕ) : RunOf K (unwatchAndFreeTarget p) := fun _ _ _ h => single (e := .free p) h trivial

theorem block (p : ℕ) : RunOf K (blockTarget K p) := by
  intro m a m' h
  obtain ⟨t, ht, rfl⟩ := watchAgain_cases h
  refine single (e := .block p (K.inotifyAddWatch m t.sysName .blockAll)) (watchAgain_eq _ _ ht) fun t' ht' => ?_
  rw [ht] at ht'
  cases ht'
  rfl

theorem unblock (p : ℕ) : RunOf K (fileMonitorUnblock K p) := by
  intro m a m' h
  obtain ⟨t, ht, rfl⟩ := watchAgain_cases h
  refine single (e := .unblock p (K.inotifyAddWatch m t.sysName .defaultWatch)) (watchAgain_eq _ _ ht) fun t' ht' => ?_
  rw [ht] at ht'
  cases ht'
  rfl

theorem add (sysName logicName : CString) : RunOf K (watchTargetAdd K sysName logicName) := by
  intro m a m' h
  refine single (e := .add sysName logicName (K.inotifyAddWatch m sysName .defaultWatch)
    (K.calloc (m.log (.inotifyAddWatch sysName .defaultWatch)))) ?_ ⟨rfl, rfl⟩
  have hsame := watchTargetAdd_congr (K := K) (L := answering (K.inotifyAddWatch m sysName .defaultWatch)
    (K.calloc (m.log (.inotifyAddWatch sysName .defaultWatch)))) rfl rfl logicName
  show (watchTargetAdd _ sysName logicName >>= fun _ => pure ()) m = _
  rw [Prog.bind_of_some (hsame.trans h)]
  rfl

theorem makeDirs (cs : List CString) (p : ℕ) : RunOf K (TeleSync.makeDirs K p cs) := by
  induction cs generalizing p with
  | nil =>
    rw [TeleSync.makeDirs]
    exact ret _
  | cons c cs ih =>
    rw [TeleSync.makeDirs]
    refine bind (deref p) fun t => bind (block p) fun _ => bind (mkdir _) fun _ => bind (unblock p) fun _ => ?_
    refine bind (add _ _) fun next => ?_
    cases next with
    | none => exact crash
    | some q => exact ih q

theorem blockOut (target : Option ℕ) : RunOf K (TeleSync.blockOut K target) := by
  cases target with
  | none => exact crash
  | some p => exact bind (block p) fun _ => ret _

theorem fileMonitorBlock (name : CString) (del : Bool) : RunOf K (TeleSync.fileMonitorBlock K name del) := by
  refine ite (ret _) (bind (bind (assert _) fun _ => get _) fun target => ite (blockOut target) ?_)
  refine bind (get _) fun near => ?_
  cases near with
  | none => exact ret _
  | some p => exact bind (deref p) fun t => bind (makeDirs _ p) fun q => blockOut (some q)

theorem handleEvent (e : InotifyEvent) : RunOf K (TeleSync.handleEvent K e) := by
  have htarget : ∀ wd, RunOf K (eventTarget wd) := fun wd => bind (assert _) fun _ => get _
  cases e with
  | entry wd what isDir name =>
    refine bind (htarget wd) fun target => ?_
    cases target with
    | none => exact ret _
    | some p =>
      refine bind (deref p) fun t => bind (assert _) fun _ => ite (ret _) (ite ?_ (ret _))
      exact bind (add _ _) fun _ => ret _
  | self wd what =>
    refine bind (htarget wd) fun target => ?_
    cases target with
    | none => exact ret _
    | some p => exact ite (free p) (ret _)

end RunOf

/-! ## Agreement -/

/-- What follows: an event for a listed directory is not dropped, and a listed target can be removed. -/
theorem Agree.reaches {m : MonitorTable} (h : Agree m) {p : ℕ} (hp : p ∈ m.head) :
    ∃ t, m.objs p = some t ∧ eventTarget t.wd m = (some (some p), m) ∧ (unwatchAndFreeTarget p m).1 = some () := by
  obtain ⟨t, ht, hrange, htarget⟩ := h.listed p hp
  refine ⟨t, ht, ?_, ?_⟩
  · unfold eventTarget
    rw [Prog.bind_of_some (Prog.assert_of_pos hrange m), ← htarget]
    rfl
  · unfold unwatchAndFreeTarget
    rw [Prog.bind_of_some (deref_eq ht), Prog.bind_of_some (Prog.assert_of_pos hrange m)]
    rfl

/-- In a run, list and array agree in every state exactly when no target that is watched again gets another descriptor;
where they agree events are not dropped and removals stay in the array. Blocking a name and handling an event are runs. -/
theorem watch_array_agrees_iff (es : List WatchEvent) :
    (watching.Always Agree MonitorTable.empty es ↔ watching.RunMeets SameDescriptor MonitorTable.empty es) ∧
    (∀ m, Agree m → ∀ p ∈ m.head, ∃ t, m.objs p = some t ∧ eventTarget t.wd m = (some (some p), m) ∧
      (unwatchAndFreeTarget p m).1 = some ()) ∧
    (∀ K name del, RunOf K (fileMonitorBlock K name del)) ∧ ∀ K e, RunOf K (handleEvent K e) :=
  ⟨always_agree_iff es, fun _ h _ hp => h.reaches hp, fun _ name del => RunOf.fileMonitorBlock name del,
    fun _ e => RunOf.handleEvent e⟩

theorem watch_array_agrees_blocked :
    watching.Always Agree MonitorTable.empty [.add [47, 115] [49] 1 true, .block 0 1, .self 1 .deleteSelf] := by
  refine (watch_array_agrees_iff _).1.mpr ⟨trivial, fun m₁ h₁ => ⟨fun t ht => ?_, fun _ _ => ⟨trivial, ?_⟩⟩⟩
  · cases h₁
    cases ht
    rfl
  · exact fun _ _ => trivial

/-- The directory `/s` is watched under descriptor 1, is deleted and made again, and is then blocked under descriptor 2;
its target is listed, but an event for it is dropped. -/
theorem rewatched_target_lost :
    ¬ watching.Always Agree MonitorTable.empty [.add [47, 115] [49] 1 true, .block 0 2] ∧
    ∃ m, watching.run MonitorTable.empty [.add [47, 115] [49] 1 true, .block 0 2] = some m ∧
      m.head = [0] ∧ (m.objs 0).map MonitorTarget.wd = some 2 ∧ m.targets 2 = none := by
  have hrun : ∃ m, watching.run MonitorTable.empty [.add [47, 115] [49] 1 true, .block 0 2] = some m ∧
      m.head = [0] ∧ (m.objs 0).map MonitorTarget.wd = some 2 ∧ m.targets 2 = none :=
    ⟨_, rfl, by decide +kernel, by decide +kernel, by decide +kernel⟩
  refine ⟨fun h => ?_, hrun⟩
  obtain ⟨m, hm, hhead, hwd, htarget⟩ := hrun
  obtain ⟨t, ht, -, htarget'⟩ := (h.last hm).listed 0 (hhead ▸ List.mem_singleton_self 0)
  rw [ht, Option.map_some, Option.some.injEq] at hwd
  rw [hwd, htarget] at htarget'
  cases htarget'

end TeleSync
