import Mathlib

/-!
# Lists searched by key

`find key k l` is the first entry of `l` with key `k`. In a list without repeated keys every entry is
the one its key finds, `filterMap` acts on the entry found (`find_filterMap`), erasing by key removes all
entries with it (`eraseP_eq_filter`), erasing an entry leaves what is on either side of it
(`erase_append_cons`), and a fold that works on one key per entry acts once on each key (`view_foldl`).
A fold that appends the entries with a new key appends the first entry of each key (`foldl_addNew`).
-/

namespace KeyedList

variable {K E E' σ V : Type*} [DecidableEq K]

/-- The first entry with key `k`. -/
def find (key : E → K) (k : K) (l : List E) : Option E := l.find? (fun e => decide (key e = k))

variable {key : E → K} {key' : E' → K}

@[simp] theorem find_nil (k : K) : find key k [] = none := rfl

theorem find_cons (k : K) (e : E) (l : List E) :
    find key k (e :: l) = if key e = k then some e else find key k l := by
  by_cases h : key e = k <;> simp [find, h]

theorem find_eq_none {k : K} {l : List E} : find key k l = none ↔ k ∉ l.map key := by
  simp [find, List.find?_eq_none]

theorem key_of_find {k : K} {l : List E} {e : E} (h : find key k l = some e) : key e = k := by
  simpa using List.find?_some h

theorem mem_of_find {k : K} {l : List E} {e : E} (h : find key k l = some e) : e ∈ l :=
  List.mem_of_find?_eq_some h

theorem find_of_mem {l : List E} (hl : (l.map key).Nodup) {e : E} (he : e ∈ l) :
    find key (key e) l = some e := by
  induction l with
  | nil => cases he
  | cons a l ih =>
    rw [List.map_cons, List.nodup_cons] at hl
    rw [find_cons]
    rcases List.mem_cons.mp he with rfl | he
    · rw [if_pos rfl]
    · have hne : key a ≠ key e := fun h => hl.1 (h ▸ List.mem_map_of_mem he)
      rw [if_neg hne, ih hl.2 he]

theorem find_eq_some {l : List E} (hl : (l.map key).Nodup) {k : K} {e : E} :
    find key k l = some e ↔ e ∈ l ∧ key e = k := by
  constructor
  · exact fun h => ⟨mem_of_find h, key_of_find h⟩
  · rintro ⟨he, rfl⟩
    exact find_of_mem hl he

/-- Where keys do not repeat, one erased entry is all there is. -/
theorem eraseP_eq_filter {l : List E} (hl : (l.map key).Nodup) (k : K) :
    l.eraseP (fun e => key e == k) = l.filter fun e => key e != k := by
  induction l with
  | nil => rfl
  | cons a l ih =>
    rw [List.map_cons, List.nodup_cons] at hl
    by_cases ha : key a = k
    · have hrest : l.filter (fun e => key e != k) = l := by
        apply List.filter_eq_self.mpr
        intro e he
        have hne : key e ≠ k := fun heq => hl.1 (ha.trans heq.symm ▸ List.mem_map_of_mem he)
        simpa using hne
      rw [List.eraseP_cons_of_pos (by simpa using ha), List.filter_cons_of_neg (by simpa using ha), hrest]
    · rw [List.eraseP_cons_of_neg (by simpa using ha), List.filter_cons_of_pos (by simpa using ha), ih hl.2]

theorem erase_append_cons [DecidableEq E] {l₁ l₂ : List E} {e : E} (hl : (l₁ ++ e :: l₂).Nodup) :
    (l₁ ++ e :: l₂).erase e = l₁ ++ l₂ := by
  have he : e ∉ l₁ := fun h => List.disjoint_of_nodup_append hl h List.mem_cons_self
  rw [List.erase_append_right _ he, List.erase_cons_head]

omit [DecidableEq K] in
theorem map_key_filterMap_sublist {g : E → Option E'} (hg : ∀ e e', g e = some e' → key' e' = key e)
    (l : List E) : ((l.filterMap g).map key').Sublist (l.map key) := by
  induction l with
  | nil => exact List.Sublist.refl _
  | cons e l ih =>
    cases he : g e with
    | none => rw [List.filterMap_cons_none he]; exact ih.cons _
    | some e' =>
      rw [List.filterMap_cons_some he, List.map_cons, List.map_cons, hg e e' he]
      exact ih.cons_cons _

theorem find_filterMap {g : E → Option E'} (hg : ∀ e e', g e = some e' → key' e' = key e)
    {l : List E} (hl : (l.map key).Nodup) (k : K) :
    find key' k (l.filterMap g) = (find key k l).bind g := by
  induction l with
  | nil => rfl
  | cons e l ih =>
    rw [List.map_cons, List.nodup_cons] at hl
    have hrest : key e = k → find key' k (l.filterMap g) = none := by
      rintro rfl
      exact find_eq_none.mpr fun h => hl.1 ((map_key_filterMap_sublist hg l).subset h)
    cases he : g e with
    | none =>
      rw [List.filterMap_cons_none he, find_cons]
      split_ifs with hk
      · rw [hrest hk, Option.bind_some, he]
      · exact ih hl.2
    | some e' =>
      rw [List.filterMap_cons_some he, find_cons, find_cons, hg e e' he]
      split_ifs with hk
      · rw [Option.bind_some, he]
      · exact ih hl.2

/-- A fold whose steps each rewrite the value at their entry's key, seen at one key. -/
theorem view_foldl (view : σ → K → V) (step : σ → E → σ) (F : E → V → V)
    (hstep : ∀ s e, view (step s e) = Function.update (view s) (key e) (F e (view s (key e))))
    {l : List E} (hl : (l.map key).Nodup) (s : σ) (k : K) :
    view (l.foldl step s) k = ((find key k l).map fun e => F e (view s k)).getD (view s k) := by
  induction l generalizing s with
  | nil => rfl
  | cons e l ih =>
    rw [List.map_cons, List.nodup_cons] at hl
    rw [List.foldl_cons, ih hl.2, hstep, find_cons]
    by_cases hk : key e = k
    · subst hk
      rw [find_eq_none.mpr hl.1, if_pos rfl, Function.update_self]
      rfl
    · rw [if_neg hk, Function.update_of_ne (Ne.symm hk)]

/-! ## First entries -/

section FirstEntries
variable {r : E → E → Bool}

theorem eraseDupsBy_sublist (l : List E) : (l.eraseDupsBy r).Sublist l := by
  induction hn : l.length using Nat.strong_induction_on generalizing l with
  | _ n ih =>
    cases l with
    | nil => exact List.Sublist.refl _
    | cons a l =>
      rw [List.eraseDupsBy_cons]
      have hlen : (l.filter fun b => r b a = false).length < n := by
        rw [← hn]
        exact Nat.lt_succ_of_le (List.length_filter_le _ l)
      exact ((ih _ hlen _ rfl).trans List.filter_sublist).cons_cons a

theorem eraseDupsBy_eq_nil {l : List E} : l.eraseDupsBy r = [] ↔ l = [] := by
  cases l with
  | nil => simp
  | cons a l => simp [List.eraseDupsBy_cons]

theorem eraseDupsBy_of_pairwise {l : List E} (h : l.Pairwise fun a b => r b a = false) : l.eraseDupsBy r = l := by
  induction l with
  | nil => rfl
  | cons a l ih =>
    obtain ⟨ha, hl⟩ := List.pairwise_cons.mp h
    rw [List.eraseDupsBy_cons, List.filter_eq_self.mpr fun b hb => decide_eq_true (ha b hb), ih hl]

theorem foldl_addNew (l head : List E) :
    l.foldl (fun m e => if key e ∈ m.map key then m else m ++ [e]) head =
      head ++ (l.filter fun e => key e ∉ head.map key).eraseDupsBy fun a b => key a == key b := by
  induction l generalizing head with
  | nil => exact (List.append_nil head).symm
  | cons e l ih =>
    rw [List.foldl_cons, ih]
    by_cases he : key e ∈ head.map key
    · rw [if_pos he, List.filter_cons_of_neg (by simpa using he)]
    · rw [if_neg he, List.filter_cons_of_pos (by simpa using he), List.eraseDupsBy_cons, List.append_assoc,
        List.singleton_append, List.filter_filter]
      congr 3
      refine List.filter_congr fun a _ => ?_
      rw [List.map_append, List.map_singleton]
      simp [or_comm]

end FirstEntries

end KeyedList
