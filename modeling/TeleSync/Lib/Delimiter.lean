import Mathlib

/-!
# Words with a two-letter delimiter

`[x, y] <:+: l` says that the delimiter `x y` occurs in `l`:

* `pair_infix_cons` : an occurrence is at the head or in the tail;
* `exists_first` : an occurrence splits the word at the first one, before which there is none;
* `splitFirst` : what is before the first occurrence and what is after it;
* `not_pair_infix_tail`, `ne_of_not_pair_infix` : reading on in a word without one.
-/

namespace Delimiter

variable {α : Type*} {x y : α}

theorem pair_infix_cons {c : α} {l : List α} :
    [x, y] <:+: c :: l ↔ (c = x ∧ ∃ s, l = y :: s) ∨ [x, y] <:+: l := by
  rw [List.infix_cons_iff]
  refine or_congr_left ⟨?_, ?_⟩
  · rintro ⟨s, hs⟩
    obtain ⟨hc, hl⟩ := List.cons.inj hs
    exact ⟨hc.symm, s, hl.symm⟩
  · rintro ⟨rfl, s, rfl⟩
    exact ⟨s, rfl⟩

theorem not_pair_infix_tail {c : α} {l : List α} (h : ¬ [x, y] <:+: c :: l) : ¬ [x, y] <:+: l :=
  fun hl => h (pair_infix_cons.mpr (Or.inr hl))

theorem ne_of_not_pair_infix {c : α} {l : List α} (h : ¬ [x, y] <:+: x :: c :: l) : c ≠ y :=
  fun hc => h (pair_infix_cons.mpr (Or.inl ⟨rfl, l, by rw [hc]⟩))

/-- Two letters next to each other are not the delimiter. -/
theorem not_pair_of_unmarked {u v : α} (l r : List α) (h : ¬ [x, y] <:+: l ++ u :: v :: r) : ¬ (u = x ∧ v = y) := by
  rintro ⟨rfl, rfl⟩
  exact h ⟨l, r, by simp⟩

theorem exists_first {l : List α} (h : [x, y] <:+: l) :
    ∃ a b, l = a ++ x :: y :: b ∧ ¬ [x, y] <:+: a := by
  induction l with
  | nil => simp at h
  | cons c l ih =>
    by_cases hc : c = x ∧ ∃ s, l = y :: s
    · obtain ⟨rfl, s, rfl⟩ := hc
      exact ⟨[], s, rfl, by simp⟩
    · obtain ⟨a, b, rfl, ha⟩ := ih ((pair_infix_cons.mp h).resolve_left hc)
      refine ⟨c :: a, b, rfl, fun hca => ?_⟩
      rcases pair_infix_cons.mp hca with ⟨rfl, s, rfl⟩ | hl
      · exact hc ⟨rfl, s ++ c :: y :: b, rfl⟩
      · exact ha hl

/-! ## Cutting at the first occurrence -/

section Split
variable [DecidableEq α]

variable (x y) in
/-- The words before and after the first occurrence, if there is one. -/
def splitFirst : List α → Option (List α × List α)
  | [] => none
  | c :: l =>
    if c = x ∧ l.head? = some y then some ([], l.tail)
    else (splitFirst l).map fun p => (c :: p.1, p.2)

theorem splitFirst_eq_none {l : List α} : splitFirst x y l = none ↔ ¬ [x, y] <:+: l := by
  induction l with
  | nil => simp [splitFirst]
  | cons c l ih =>
    rw [splitFirst, pair_infix_cons]
    have hhead : l.head? = some y ↔ ∃ s, l = y :: s := List.head?_eq_some_iff
    split_ifs with hc
    · exact iff_of_false (by simp) (not_not.mpr (Or.inl ⟨hc.1, hhead.mp hc.2⟩))
    · rw [Option.map_eq_none_iff, ih, ← hhead]
      tauto

theorem splitFirst_eq_some {l a b : List α} (h : splitFirst x y l = some (a, b)) :
    l = a ++ x :: y :: b ∧ ¬ [x, y] <:+: a := by
  induction l generalizing a with
  | nil => cases h
  | cons c l ih =>
    rw [splitFirst] at h
    split_ifs at h with hc
    · cases h
      obtain ⟨s, rfl⟩ := List.head?_eq_some_iff.mp hc.2
      exact ⟨by rw [hc.1]; rfl, by simp⟩
    · obtain ⟨⟨a', b'⟩, hp, heq⟩ := Option.map_eq_some_iff.mp h
      cases heq
      obtain ⟨rfl, ha⟩ := ih hp
      refine ⟨rfl, fun hca => ?_⟩
      rcases pair_infix_cons.mp hca with ⟨rfl, s, rfl⟩ | hl
      · exact hc ⟨rfl, rfl⟩
      · exact ha hl

/-- Where there is none before it, the first occurrence is the one that is written there. -/
theorem splitFirst_append {a : List α} (hxy : x ≠ y) (h : ¬ [x, y] <:+: a) (b : List α) :
    splitFirst x y (a ++ x :: y :: b) = some (a, b) := by
  induction a with
  | nil => simp [splitFirst]
  | cons c a ih =>
    have hc : ¬ (c = x ∧ (a ++ x :: y :: b).head? = some y) := by
      rintro ⟨rfl, hhead⟩
      cases a with
      | nil => exact hxy (Option.some.inj hhead)
      | cons d a => exact ne_of_not_pair_infix h (Option.some.inj hhead)
    rw [List.cons_append, splitFirst, if_neg hc, ih (not_pair_infix_tail h)]
    rfl

end Split

end Delimiter
