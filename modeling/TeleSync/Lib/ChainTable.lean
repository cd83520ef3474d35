import TeleSync.Lib.KeyedList

/-!
# Chained hash tables

A table of `m` buckets, each a chain with the newest entry first. A `Scheme` says which key an
entry carries and which bucket a key hashes to.

* `search`, `addHead`, `modify`, `erase`, `sweep` : the operations on the buckets;
* `toList` : the traversal of all buckets in order;
* `Wf` : every entry hangs in the bucket of its key and no chain repeats a key;
* `search_*` : each operation on a well-formed table as an operation on `search`, that is on the
  partial map from keys to entries the table stands for;
* `Wf.mem_toList`, `Wf.nodup_toList` : the traversal meets exactly the entries of that map, once each;
* `length_toList_*` : how many entries each operation links or unlinks;
* `Placed` : the half of `Wf` that also holds of a table with repeated keys.
-/

namespace ChainTable
open KeyedList

/-- The key of an entry and the bucket of a key. -/
structure Scheme (K E : Type*) (m : ℕ) where
  key : E → K
  hash : K → Fin m

variable {K E : Type*} [DecidableEq K] {m : ℕ}

/-- The chains, indexed by bucket. -/
abbrev Buckets (m : ℕ) (E : Type*) := Fin m → List E

namespace Scheme

variable (S : Scheme K E m)

/-! ## Operations -/

/-- Apply `f` to the first entry with key `k` of a chain. -/
def alter (k : K) (f : E → E) : List E → List E
  | [] => []
  | e :: l => if S.key e = k then f e :: l else e :: alter k f l

/-- Unlink the first entry with key `k` of a chain. -/
def unlink (k : K) (l : List E) : List E := l.eraseP (fun e => decide (S.key e = k))

/-- Look a key up in its bucket. -/
def search (b : Buckets m E) (k : K) : Option E := find S.key k (b (S.hash k))

/-- Link an entry at the head of bucket `i`. -/
def addHead (b : Buckets m E) (i : Fin m) (e : E) : Buckets m E := Function.update b i (e :: b i)

/-- Apply `f` in place to the entry that `search` finds. -/
def modify (b : Buckets m E) (k : K) (f : E → E) : Buckets m E :=
  Function.update b (S.hash k) (S.alter k f (b (S.hash k)))

/-- Unlink the entry that `search` finds. -/
def erase (b : Buckets m E) (k : K) : Buckets m E :=
  Function.update b (S.hash k) (S.unlink k (b (S.hash k)))

/-- Visit every entry, replacing it by `g`'s answer or unlinking it on `none`. -/
def sweep (b : Buckets m E) (g : E → Option E) : Buckets m E := fun i => (b i).filterMap g

/-- All entries, bucket by bucket. -/
@[irreducible] def toList (b : Buckets m E) : List E := (List.finRange m).flatMap b

/-- Every entry hangs in the bucket of its key. -/
def Placed (b : Buckets m E) : Prop := ∀ i, ∀ e ∈ b i, S.hash (S.key e) = i

/-- Entries are placed by their hash and keys do not repeat. -/
structure Wf (b : Buckets m E) : Prop where
  placed : S.Placed b
  nodup : ∀ i, ((b i).map S.key).Nodup

/-! ## One chain -/

variable {S}

theorem map_key_alter {f : E → E} (hf : ∀ e, S.key (f e) = S.key e) (k : K) (l : List E) :
    (S.alter k f l).map S.key = l.map S.key := by
  induction l with
  | nil => rfl
  | cons e l ih =>
    rw [alter]
    split_ifs
    · rw [List.map_cons, List.map_cons, hf]
    · rw [List.map_cons, List.map_cons, ih]

theorem find_alter {f : E → E} (hf : ∀ e, S.key (f e) = S.key e) (k k' : K) (l : List E) :
    find S.key k' (S.alter k f l) = if k' = k then (find S.key k l).map f else find S.key k' l := by
  induction l with
  | nil => simp [alter]
  | cons e l ih =>
    rw [alter]
    by_cases he : S.key e = k
    · rw [if_pos he, find_cons, find_cons, find_cons, hf, he]
      by_cases hk : k' = k
      · simp [hk]
      · simp [hk, Ne.symm hk]
    · rw [if_neg he, find_cons, ih, find_cons, find_cons, if_neg he]
      by_cases hk : k' = k
      · subst hk; simp [he]
      · simp [hk]

theorem alter_append {f : E → E} {k : K} {l₁ l₂ : List E} {e : E} (hl : ∀ a ∈ l₁, S.key a ≠ k) (he : S.key e = k) :
    S.alter k f (l₁ ++ e :: l₂) = l₁ ++ f e :: l₂ := by
  induction l₁ with
  | nil => exact if_pos he
  | cons a l₁ ih =>
    obtain ⟨ha, hl⟩ := List.forall_mem_cons.mp hl
    rw [List.cons_append, alter, if_neg ha, ih hl, List.cons_append]

theorem unlink_append {k : K} {l₁ l₂ : List E} {e : E} (hl : ∀ a ∈ l₁, S.key a ≠ k) (he : S.key e = k) :
    S.unlink k (l₁ ++ e :: l₂) = l₁ ++ l₂ := by
  rw [unlink, List.eraseP_append_right _ fun a ha => by simpa using hl a ha, List.eraseP_cons_of_pos (by simpa using he)]

theorem alter_eq_self {f : E → E} {k : K} {l : List E} :
    S.alter k f l = l ↔ ∀ e, find S.key k l = some e → f e = e := by
  induction l with
  | nil => exact iff_of_true rfl fun e he => by cases he
  | cons a l ih =>
    rw [alter, find_cons]
    split_ifs with ha
    · simp
    · simp [ih]

theorem map_key_unlink_sublist (k : K) (l : List E) :
    ((S.unlink k l).map S.key).Sublist (l.map S.key) :=
  List.eraseP_sublist.map S.key

theorem find_unlink {l : List E} (hl : (l.map S.key).Nodup) (k k' : K) :
    find S.key k' (S.unlink k l) = if k' = k then none else find S.key k' l := by
  induction l with
  | nil => simp [unlink]
  | cons e l ih =>
    rw [List.map_cons, List.nodup_cons] at hl
    by_cases he : S.key e = k
    · have hu : S.unlink k (e :: l) = l := by simp [unlink, he]
      rw [hu, find_cons, he]
      by_cases hk : k' = k
      · rw [if_pos hk, hk]
        exact find_eq_none.mpr (he ▸ hl.1)
      · rw [if_neg hk, if_neg (Ne.symm hk)]
    · have hu : S.unlink k (e :: l) = e :: S.unlink k l := by simp [unlink, he]
      rw [hu, find_cons, find_cons, ih hl.2]
      by_cases hk : k' = k
      · simp [hk, he]
      · simp [hk]

/-! ## The whole table -/

omit [DecidableEq K] in
theorem mem_addHead {b : Buckets m E} {i j : Fin m} {a e : E} : a ∈ addHead b i e j ↔ j = i ∧ a = e ∨ a ∈ b j := by
  unfold addHead
  by_cases hj : j = i
  · rw [hj, Function.update_self, List.mem_cons, and_iff_right rfl]
  · rw [Function.update_of_ne hj]
    exact (or_iff_right fun h => hj h.1).symm

omit [DecidableEq K] in
theorem map_addHead {E' : Type*} (f : E → E') (b : Buckets m E) (i : Fin m) (e : E) :
    (fun j => (addHead b i e j).map f) = addHead (fun j => (b j).map f) i (f e) := by
  funext j
  unfold addHead
  by_cases hj : j = i
  · rw [hj, Function.update_self, Function.update_self, List.map_cons]
  · rw [Function.update_of_ne hj, Function.update_of_ne hj]

theorem key_of_search {b : Buckets m E} {k : K} {e : E} (h : S.search b k = some e) : S.key e = k :=
  key_of_find h

omit [DecidableEq K] in
theorem wf_empty : S.Wf (fun _ => []) where
  placed _ _ h := absurd h List.not_mem_nil
  nodup _ := List.nodup_nil

theorem search_addHead (b : Buckets m E) (e : E) (k : K) :
    S.search (addHead b (S.hash (S.key e)) e) k = if S.key e = k then some e else S.search b k := by
  unfold search addHead
  by_cases hb : S.hash k = S.hash (S.key e)
  · rw [hb, Function.update_self, find_cons]
  · have hk : S.key e ≠ k := fun h => hb (by rw [h])
    rw [Function.update_of_ne hb, if_neg hk]

omit [DecidableEq K] in
theorem Placed.addHead {b : Buckets m E} (h : S.Placed b) (e : E) : S.Placed (addHead b (S.hash (S.key e)) e) := by
  intro i a ha
  unfold Scheme.addHead at ha
  by_cases hi : i = S.hash (S.key e)
  · subst hi
    rw [Function.update_self] at ha
    rcases List.mem_cons.mp ha with rfl | ha
    · rfl
    · exact h _ a ha
  · rw [Function.update_of_ne hi] at ha
    exact h i a ha

theorem Wf.addHead {b : Buckets m E} (h : S.Wf b) {e : E} (hs : S.search b (S.key e) = none) :
    S.Wf (addHead b (S.hash (S.key e)) e) := by
  refine ⟨h.placed.addHead e, fun i => ?_⟩
  unfold Scheme.addHead
  by_cases hi : i = S.hash (S.key e)
  · subst hi
    rw [Function.update_self, List.map_cons, List.nodup_cons]
    exact ⟨find_eq_none.mp hs, h.nodup _⟩
  · rw [Function.update_of_ne hi]
    exact h.nodup i

theorem search_modify {f : E → E} (hf : ∀ e, S.key (f e) = S.key e) (b : Buckets m E) (k k' : K) :
    S.search (S.modify b k f) k' = if k' = k then (S.search b k).map f else S.search b k' := by
  unfold search modify
  by_cases hb : S.hash k' = S.hash k
  · rw [hb, Function.update_self, find_alter hf]
  · have hk : k' ≠ k := fun h => hb (by rw [h])
    rw [Function.update_of_ne hb, if_neg hk]

/-- A change in place changes nothing exactly when it leaves the entry that is found as it is. -/
theorem modify_eq_self {f : E → E} {b : Buckets m E} {k : K} :
    S.modify b k f = b ↔ ∀ e, S.search b k = some e → f e = e := by
  rw [modify, Function.update_eq_self_iff]
  exact alter_eq_self

omit [DecidableEq K] in
/-- Placement and distinctness only depend on the keys of each chain. -/
theorem Wf.of_sublist {b b' : Buckets m E} (h : S.Wf b)
    (hs : ∀ i, ((b' i).map S.key).Sublist ((b i).map S.key)) : S.Wf b' := by
  refine ⟨fun i e he => ?_, fun i => (h.nodup i).sublist (hs i)⟩
  obtain ⟨a, ha, hae⟩ := List.mem_map.mp ((hs i).subset (List.mem_map_of_mem he))
  rw [← hae]
  exact h.placed i a ha

theorem map_key_modify {f : E → E} (hf : ∀ e, S.key (f e) = S.key e) (b : Buckets m E) (k : K) (i : Fin m) :
    (S.modify b k f i).map S.key = (b i).map S.key := by
  unfold Scheme.modify
  by_cases hi : i = S.hash k
  · rw [hi, Function.update_self, map_key_alter hf]
  · rw [Function.update_of_ne hi]

theorem Placed.modify {b : Buckets m E} (h : S.Placed b) {f : E → E} (hf : ∀ e, S.key (f e) = S.key e) (k : K) :
    S.Placed (S.modify b k f) := by
  intro i e he
  have hk : S.key e ∈ (b i).map S.key := map_key_modify hf b k i ▸ List.mem_map_of_mem he
  obtain ⟨a, ha, hae⟩ := List.mem_map.mp hk
  rw [← hae]
  exact h i a ha

theorem Wf.modify {b : Buckets m E} (h : S.Wf b) {f : E → E} (hf : ∀ e, S.key (f e) = S.key e) (k : K) :
    S.Wf (S.modify b k f) := by
  refine ⟨h.placed.modify hf k, fun i => ?_⟩
  rw [map_key_modify hf]
  exact h.nodup i

theorem search_erase {b : Buckets m E} (h : S.Wf b) (k k' : K) :
    S.search (S.erase b k) k' = if k' = k then none else S.search b k' := by
  unfold search erase
  by_cases hb : S.hash k' = S.hash k
  · rw [hb, Function.update_self, find_unlink (h.nodup _)]
  · have hk : k' ≠ k := fun h => hb (by rw [h])
    rw [Function.update_of_ne hb, if_neg hk]

theorem Wf.erase {b : Buckets m E} (h : S.Wf b) (k : K) : S.Wf (S.erase b k) := by
  refine h.of_sublist fun i => ?_
  unfold Scheme.erase
  by_cases hi : i = S.hash k
  · rw [hi, Function.update_self]
    exact map_key_unlink_sublist k _
  · rw [Function.update_of_ne hi]

theorem search_sweep {g : E → Option E} (hg : ∀ e e', g e = some e' → S.key e' = S.key e)
    {b : Buckets m E} (h : S.Wf b) (k : K) : S.search (sweep b g) k = (S.search b k).bind g :=
  find_filterMap hg (h.nodup _) k

omit [DecidableEq K] in
theorem Wf.sweep {b : Buckets m E} (h : S.Wf b) {g : E → Option E}
    (hg : ∀ e e', g e = some e' → S.key e' = S.key e) : S.Wf (sweep b g) :=
  h.of_sublist fun _ => map_key_filterMap_sublist hg _

/-! ## The traversal -/

theorem drop_finRange {i : ℕ} (hi : i < m) :
    (List.finRange m).drop i = ⟨i, hi⟩ :: (List.finRange m).drop (i + 1) := by
  rw [List.drop_eq_getElem_cons (by rwa [List.length_finRange]), List.getElem_finRange]
  rfl

theorem mem_toList {b : Buckets m E} {e : E} : e ∈ toList b ↔ ∃ i, e ∈ b i := by
  simp [toList]

theorem Placed.search_eq_none {b : Buckets m E} (h : S.Placed b) (k : K) :
    S.search b k = none ↔ k ∉ (toList b).map S.key := by
  unfold search
  rw [find_eq_none, not_iff_not]
  constructor
  · intro hk
    obtain ⟨e, he, rfl⟩ := List.mem_map.mp hk
    exact List.mem_map_of_mem (Scheme.mem_toList.mpr ⟨_, he⟩)
  · intro hk
    obtain ⟨e, he, rfl⟩ := List.mem_map.mp hk
    obtain ⟨i, hi⟩ := Scheme.mem_toList.mp he
    rw [h i e hi]
    exact List.mem_map_of_mem hi

theorem Wf.mem_toList {b : Buckets m E} (h : S.Wf b) {e : E} :
    e ∈ toList b ↔ S.search b (S.key e) = some e := by
  rw [Scheme.mem_toList]
  constructor
  · rintro ⟨i, hi⟩
    rw [search, h.placed i e hi]
    exact find_of_mem (h.nodup i) hi
  · intro he
    exact ⟨_, mem_of_find he⟩

omit [DecidableEq K] in
theorem Wf.nodup_toList {b : Buckets m E} (h : S.Wf b) : ((toList b).map S.key).Nodup := by
  rw [toList, List.map_flatMap, List.nodup_flatMap]
  refine ⟨fun i _ => h.nodup i, (List.nodup_finRange m).imp ?_⟩
  intro i j hij k hi hj
  obtain ⟨e, he, rfl⟩ := List.mem_map.mp hi
  obtain ⟨e', he', hk⟩ := List.mem_map.mp hj
  exact hij (by rw [← h.placed i e he, ← h.placed j e' he', hk])

theorem Wf.find_toList {b : Buckets m E} (h : S.Wf b) (k : K) : find S.key k (toList b) = S.search b k := by
  cases hs : S.search b k with
  | none =>
    refine find_eq_none.mpr fun hk => ?_
    obtain ⟨e, he, rfl⟩ := List.mem_map.mp hk
    rw [h.mem_toList.mp he] at hs
    cases hs
  | some e =>
    have hk := key_of_search hs
    exact (find_eq_some h.nodup_toList).mpr ⟨h.mem_toList.mpr (hk.symm ▸ hs), hk⟩

theorem map_key_toList_modify {f : E → E} (hf : ∀ e, S.key (f e) = S.key e) (b : Buckets m E) (k : K) :
    (toList (S.modify b k f)).map S.key = (toList b).map S.key := by
  rw [toList, toList, List.map_flatMap, List.map_flatMap]
  exact List.flatMap_congr fun i _ => map_key_modify hf b k i

/-! ## The number of entries -/

omit [DecidableEq K] in
theorem length_toList (b : Buckets m E) : (toList b).length = ∑ i, (b i).length := by
  rw [toList, List.length_flatMap, ← List.ofFn_eq_map, List.sum_ofFn]

omit [DecidableEq K] in
theorem length_toList_update (b : Buckets m E) (i : Fin m) (l : List E) :
    (toList (Function.update b i l)).length + (b i).length = (toList b).length + l.length := by
  have hrest : ∑ j ∈ Finset.univ.erase i, (Function.update b i l j).length =
      ∑ j ∈ Finset.univ.erase i, (b j).length := by
    refine Finset.sum_congr rfl fun j hj => ?_
    rw [Function.update_of_ne (Finset.ne_of_mem_erase hj)]
  have hupd := Finset.sum_erase_add Finset.univ (fun j => (Function.update b i l j).length) (Finset.mem_univ i)
  have hold := Finset.sum_erase_add Finset.univ (fun j => (b j).length) (Finset.mem_univ i)
  simp only [Function.update_self] at hupd
  rw [length_toList, length_toList]
  omega

omit [DecidableEq K] in
theorem toList_addHead_perm (b : Buckets m E) (i : Fin m) (e : E) : (toList (addHead b i e)).Perm (e :: toList b) := by
  obtain ⟨l, l', hsplit⟩ := List.append_of_mem (List.mem_finRange i)
  have hnodup := List.nodup_finRange m
  rw [hsplit, List.nodup_append, List.nodup_cons] at hnodup
  have hrest : ∀ is : List (Fin m), i ∉ is → is.flatMap (addHead b i e) = is.flatMap b := by
    intro is hi
    refine List.flatMap_congr fun j hj => Function.update_of_ne ?_ _ _
    rintro rfl
    exact hi hj
  have hl : i ∉ l := fun hi => hnodup.2.2 i hi i List.mem_cons_self rfl
  rw [toList, toList, hsplit, List.flatMap_append, List.flatMap_append, List.flatMap_cons, List.flatMap_cons,
    hrest l hl, hrest l' hnodup.2.1.1]
  have hself : addHead b i e i = e :: b i := Function.update_self _ _ _
  rw [hself, List.cons_append]
  exact List.perm_middle

omit [DecidableEq K] in
theorem length_toList_addHead (b : Buckets m E) (i : Fin m) (e : E) :
    (toList (addHead b i e)).length = (toList b).length + 1 :=
  (toList_addHead_perm b i e).length_eq

theorem length_alter (k : K) (f : E → E) (l : List E) : (S.alter k f l).length = l.length := by
  induction l with
  | nil => rfl
  | cons e l ih =>
    rw [alter]
    split_ifs
    · rfl
    · rw [List.length_cons, List.length_cons, ih]

theorem length_toList_modify (b : Buckets m E) (k : K) (f : E → E) :
    (toList (S.modify b k f)).length = (toList b).length := by
  have h := length_toList_update b (S.hash k) (S.alter k f (b (S.hash k)))
  rw [length_alter] at h
  unfold modify
  omega

theorem length_toList_erase {b : Buckets m E} {k : K} {e : E} (h : S.search b k = some e) :
    (toList (S.erase b k)).length + 1 = (toList b).length := by
  have hlen := length_toList_update b (S.hash k) (S.unlink k (b (S.hash k)))
  have hmem := mem_of_find h
  have hpos := List.length_pos_of_mem hmem
  have hunlink : (S.unlink k (b (S.hash k))).length = (b (S.hash k)).length - 1 := by
    apply List.length_eraseP_of_mem hmem
    rw [decide_eq_true_eq]
    exact key_of_search h
  unfold erase
  omega

omit [DecidableEq K] in
theorem toList_sweep (b : Buckets m E) (g : E → Option E) : toList (sweep b g) = (toList b).filterMap g := by
  rw [toList, toList, List.filterMap_flatMap]
  rfl

end Scheme

end ChainTable
