import Mathlib

/-!
# Effects that raise or reset a level

An effect either raises a level to at least its own, or resets the level to its own whatever it was.

* `Effect.apply`, `Effect.comp` : the effect on a level, and of one effect after another (`apply_comp`), which
  changes nothing if it is the same one (`apply_apply`);
* `foldl_perm_iff` : a list of effects gives the same level in every order exactly when no member of it has
  a greater level than one that resets.
-/

/-- An effect on levels `α`. -/
structure Effect (α : Type*) where
  resets : Bool
  level : α
  deriving DecidableEq

namespace Effect

variable {α β : Type*} [LinearOrder α]

/-- The level after the effect. -/
def apply (e : Effect α) (x : α) : α := if e.resets then e.level else max x e.level

/-- `e`, then `e'`. -/
def comp (e e' : Effect α) : Effect α := if e'.resets then e' else ⟨e.resets, max e.level e'.level⟩

theorem apply_comp (e e' : Effect α) (x : α) : (e.comp e').apply x = e'.apply (e.apply x) := by
  unfold comp apply
  by_cases h' : e'.resets
  · simp [h']
  · by_cases h : e.resets
    · simp [h, h']
    · simp [h, h', max_assoc]

theorem apply_apply (e : Effect α) (x : α) : e.apply (e.apply x) = e.apply x := by
  unfold apply
  by_cases h : e.resets
  · simp [h]
  · simp [h]

/-- Effects commute when neither exceeds the other where that one resets. -/
theorem apply_comm {e e' : Effect α} (h : e.resets → e'.level ≤ e.level) (h' : e'.resets → e.level ≤ e'.level)
    (x : α) : e'.apply (e.apply x) = e.apply (e'.apply x) := by
  unfold apply
  by_cases he : e.resets
  · by_cases he' : e'.resets
    · simp [he, he', le_antisymm (h he) (h' he')]
    · simp [he, he', h he]
  · by_cases he' : e'.resets
    · simp [he, he', h' he']
    · simp [he, he', max_right_comm]

/-- A member with a greater level than one that resets shows after it, and not before it. -/
theorem apply_ne {e e' : Effect α} (he : e.resets) (hlt : e.level < e'.level) (x : α) :
    e'.apply (e.apply x) ≠ e.apply (e'.apply x) := by
  unfold apply
  by_cases he' : e'.resets
  · simp [he, he', hlt.ne']
  · simp [he, he', hlt.le, hlt.ne']

/-- Order does not matter exactly when nothing exceeds a reset. -/
theorem foldl_perm_iff (eff : β → Effect α) (x : α) (l : List β) :
    (∀ l' : List β, l'.Perm l → l'.foldl (fun x b => (eff b).apply x) x = l.foldl (fun x b => (eff b).apply x) x) ↔
      ∀ b ∈ l, (eff b).resets → ∀ b' ∈ l, (eff b').level ≤ (eff b).level := by
  constructor
  · intro h b hb hreset b' hb'
    by_contra hcon
    have hlt : (eff b).level < (eff b').level := not_le.mp hcon
    have hne : b' ≠ b := by
      rintro rfl
      exact lt_irrefl _ hlt
    -- bring both to the end, in either order
    obtain ⟨u, v, rfl⟩ := List.append_of_mem hb
    have hmem : b' ∈ u ++ v := by
      rcases List.mem_append.mp hb' with hu | hv
      · exact List.mem_append_left v hu
      · exact List.mem_append_right u ((List.mem_cons.mp hv).resolve_left hne)
    obtain ⟨u', v', huv⟩ := List.append_of_mem hmem
    have hperm : (u' ++ v' ++ [b, b']).Perm (u ++ b :: v) := by
      have h1 : (u ++ b :: v).Perm (b :: (u ++ v)) := List.perm_middle
      have h2 : (u' ++ b' :: v').Perm (b' :: (u' ++ v')) := List.perm_middle
      rw [huv] at h1
      exact List.perm_append_comm.trans (h1.trans (h2.cons b)).symm
    have hswap : (u' ++ v' ++ [b', b]).Perm (u ++ b :: v) :=
      ((List.Perm.swap b b' []).append_left (u' ++ v')).trans hperm
    have heq := (h _ hperm).trans (h _ hswap).symm
    simp only [List.foldl_append, List.foldl_cons, List.foldl_nil] at heq
    exact apply_ne hreset hlt _ heq
  · intro h l' hperm
    refine List.Perm.foldl_eq' hperm (fun b hb b' hb' y => ?_) x
    have hb := hperm.mem_iff.mp hb
    have hb' := hperm.mem_iff.mp hb'
    exact apply_comm (fun hr => h b hb hr b' hb') (fun hr => h b' hb' hr b hb) y

end Effect
