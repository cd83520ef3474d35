import Mathlib

/-!
# Latest-version merge

A version is a stamp and a set of holders. Merging keeps the greatest stamp, with the holders of
every version that carries it.

* `Latest.merge` : one step of the merge;
* `Latest.IsMerge V r` : `r` is the merge of the versions in `V`, as a statement about `V` alone,
  so independent of the order and the number of times they are merged;
* `IsMerge.insert`, `isMerge_singleton` : the step computes it; `IsMerge.unique`.
-/

namespace Latest

variable {τ α : Type*} [LinearOrder τ]

/-- Merge a version into the one held: newer replaces, equal adds its holders, older is dropped. -/
noncomputable def merge (r v : τ × Set α) : τ × Set α :=
  if r.1 < v.1 then v else if v.1 = r.1 then (r.1, r.2 ∪ v.2) else r

/-- The greatest stamp in `V`, and the holders of the versions with that stamp. -/
structure IsMerge (V : Set (τ × Set α)) (r : τ × Set α) : Prop where
  greatest : IsGreatest (Prod.fst '' V) r.1
  holders : r.2 = {a | ∃ v ∈ V, v.1 = r.1 ∧ a ∈ v.2}

theorem IsMerge.unique {V : Set (τ × Set α)} {r r' : τ × Set α} (h : IsMerge V r) (h' : IsMerge V r') :
    r = r' := by
  have h1 : r.1 = r'.1 := h.greatest.unique h'.greatest
  apply Prod.ext h1
  rw [h.holders, h'.holders, h1]

theorem IsMerge.le {V : Set (τ × Set α)} {r v : τ × Set α} (h : IsMerge V r) (hv : v ∈ V) : v.1 ≤ r.1 :=
  h.greatest.2 ⟨v, hv, rfl⟩

theorem isMerge_singleton (v : τ × Set α) : IsMerge {v} v := by
  constructor
  · rw [Set.image_singleton]
    exact isGreatest_singleton
  · ext a
    simp

theorem IsMerge.insert {V : Set (τ × Set α)} {r : τ × Set α} (h : IsMerge V r) (v : τ × Set α) :
    IsMerge (insert v V) (merge r v) := by
  have hg : IsGreatest (Prod.fst '' (Insert.insert v V)) (max v.1 r.1) := by
    rw [Set.image_insert_eq]
    exact h.greatest.insert v.1
  unfold merge
  rcases lt_trichotomy r.1 v.1 with hlt | heq | hgt
  · rw [if_pos hlt]
    rw [max_eq_left hlt.le] at hg
    refine ⟨hg, ?_⟩
    ext a
    constructor
    · exact fun ha => ⟨v, Set.mem_insert _ _, rfl, ha⟩
    · rintro ⟨w, hw, hwv, ha⟩
      rcases hw with rfl | hw
      · exact ha
      · exact absurd (hwv ▸ h.le hw) (not_le.mpr hlt)
  · rw [if_neg heq.not_lt, if_pos heq.symm]
    rw [heq, max_self, ← heq] at hg
    refine ⟨hg, ?_⟩
    ext a
    rw [Set.mem_union, h.holders]
    constructor
    · rintro (⟨w, hw, hwr, ha⟩ | ha)
      · exact ⟨w, Set.mem_insert_of_mem _ hw, hwr, ha⟩
      · exact ⟨v, Set.mem_insert _ _, heq.symm, ha⟩
    · rintro ⟨w, hw, hwr, ha⟩
      rcases hw with rfl | hw
      · exact Or.inr ha
      · exact Or.inl ⟨w, hw, hwr, ha⟩
  · rw [if_neg (lt_asymm hgt), if_neg hgt.ne]
    rw [max_eq_right hgt.le] at hg
    refine ⟨hg, ?_⟩
    ext a
    rw [h.holders]
    constructor
    · rintro ⟨w, hw, hwr, ha⟩
      exact ⟨w, Set.mem_insert_of_mem _ hw, hwr, ha⟩
    · rintro ⟨w, hw, hwr, ha⟩
      rcases hw with rfl | hw
      · exact absurd hwr hgt.ne
      · exact ⟨w, hw, hwr, ha⟩

end Latest
