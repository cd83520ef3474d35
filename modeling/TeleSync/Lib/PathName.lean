import Mathlib

/-!
# Paths as words with a separator

* `intercalate_append`, `eq_dropLast_append_getLast`, `component_append_inj` : a word and its components;
* `extend w cs` : the word `w` with components `cs` added to it;
* `resolve` : the components that are left when `.` and `..` (here `cur` and `up`) are resolved lexically, and whether
  the word starts at the root;
* `Below dir w` : `w` resolves to something strictly below `dir`;
* `below_extend` : proper components lead below.
-/

namespace PathName

variable {α : Type*} [DecidableEq α] {sep : α}

/-! ## Components -/

omit [DecidableEq α] in
theorem intercalate_append {l l' : List (List α)} (h : l ≠ []) (h' : l' ≠ []) :
    [sep].intercalate (l ++ l') = [sep].intercalate l ++ sep :: [sep].intercalate l' := by
  induction l with
  | nil => exact absurd rfl h
  | cons c l ih =>
    cases l with
    | nil => simp [List.intercalate_cons_of_ne_nil h']
    | cons d l =>
      have hrest : d :: l ++ l' ≠ [] := List.cons_ne_nil _ _
      rw [List.cons_append, List.intercalate_cons_of_ne_nil hrest, ih (List.cons_ne_nil d l),
        List.intercalate_cons_cons]
      simp

theorem sep_notMem_of_mem_splitOn {w c : List α} (h : c ∈ w.splitOn sep) : sep ∉ c := by
  induction w generalizing c with
  | nil => simp at h; simp [h]
  | cons a w ih =>
    rw [List.splitOn_cons_eq_if_modifyHead] at h
    split_ifs at h with ha
    · rcases List.mem_cons.mp h with rfl | h
      · exact List.not_mem_nil
      · exact ih h
    · obtain ⟨d, l, hdl⟩ := List.exists_cons_of_ne_nil (List.splitOn_ne_nil sep w)
      rw [hdl, List.modifyHead_cons] at h
      rw [hdl] at ih
      rcases List.mem_cons.mp h with rfl | h
      · intro hmem
        rcases List.mem_cons.mp hmem with rfl | hmem
        · exact ha (beq_self_eq_true sep)
        · exact ih List.mem_cons_self hmem
      · exact ih (List.mem_cons_of_mem d h)

/-- The first component of a word and what follows it are determined by the word. -/
theorem component_append_inj {c c' s s' : List α} (hc : sep ∉ c) (hc' : sep ∉ c') (hs : s = [] ∨ s.head? = some sep)
    (hs' : s' = [] ∨ s'.head? = some sep) (h : c ++ s = c' ++ s') : c = c' ∧ s = s' := by
  have htake : ∀ d r : List α, sep ∉ d → r = [] ∨ r.head? = some sep → (d ++ r).takeWhile (· != sep) = d := by
    intro d r hd hr
    have hall : ∀ b ∈ d, (b != sep) = true := by
      intro b hb
      exact bne_iff_ne.mpr fun heq => hd (heq ▸ hb)
    rw [List.takeWhile_append_of_pos hall]
    rcases hr with rfl | hr
    · simp
    · obtain ⟨r', rfl⟩ := List.head?_eq_some_iff.mp hr
      simp
  have heq : c = c' := by
    rw [← htake c s hc hs, h, htake c' s' hc' hs']
  rw [heq] at h
  exact ⟨heq, List.append_cancel_left h⟩

theorem dropLast_splitOn_ne_nil {w : List α} (h : sep ∈ w) : (w.splitOn sep).dropLast ≠ [] := by
  obtain ⟨a, b, rfl⟩ := List.append_of_mem h
  rw [List.splitOn_append_cons_self, List.dropLast_append_of_ne_nil (List.splitOn_ne_nil sep b)]
  intro hnil
  exact List.splitOn_ne_nil sep a (List.append_eq_nil_iff.mp hnil).1

theorem eq_dropLast_append_getLast {w : List α} (h : sep ∈ w) :
    w = [sep].intercalate (w.splitOn sep).dropLast ++
      sep :: (w.splitOn sep).getLast (List.splitOn_ne_nil sep w) := by
  have hsplit := List.dropLast_append_getLast (List.splitOn_ne_nil sep w)
  have hw : [sep].intercalate (w.splitOn sep) = w := List.intercalate_splitOn sep
  conv_lhs => rw [← hw, ← hsplit]
  rw [intercalate_append (dropLast_splitOn_ne_nil h) (List.cons_ne_nil _ _), List.intercalate_singleton]

theorem getLast_splitOn_append (a b : List α) :
    ((a ++ sep :: b).splitOn sep).getLast (List.splitOn_ne_nil _ _) =
      (b.splitOn sep).getLast (List.splitOn_ne_nil _ _) := by
  have h := List.splitOn_append_cons_self (a := sep) a b
  rw [List.getLast_congr _ _ h]
  · exact List.getLast_append_of_ne_nil _ (List.splitOn_ne_nil sep b)
  · rw [← h]
    exact List.splitOn_ne_nil _ _

variable (sep) in
/-- The word with components added. -/
def extend (w : List α) (cs : List (List α)) : List α := w ++ cs.flatMap (sep :: ·)

omit [DecidableEq α] in
theorem extend_singleton (w c : List α) : extend sep w [c] = w ++ sep :: c := by
  simp [extend]

omit [DecidableEq α] in
theorem extend_cons (w c : List α) (cs : List (List α)) : extend sep w (c :: cs) = extend sep (w ++ sep :: c) cs := by
  simp [extend]

omit [DecidableEq α] in
theorem extend_append_singleton (w : List α) (cs : List (List α)) (c : List α) :
    extend sep w cs ++ sep :: c = extend sep w (cs ++ [c]) := by
  simp [extend]

omit [DecidableEq α] in
theorem intercalate_cons (c : List α) (cs : List (List α)) : [sep].intercalate (c :: cs) = extend sep c cs := by
  induction cs generalizing c with
  | nil => simp [extend]
  | cons d cs ih =>
    rw [List.intercalate_cons_cons, ih d]
    simp [extend]

omit [DecidableEq α] in
theorem extend_eq_append (w : List α) {cs : List (List α)} (h : cs ≠ []) :
    extend sep w cs = w ++ sep :: [sep].intercalate cs := by
  obtain ⟨c, cs, rfl⟩ := List.exists_cons_of_ne_nil h
  rw [intercalate_cons]
  simp [extend]

omit [DecidableEq α] in
theorem mem_intercalate {c : List α} {cs : List (List α)} (hc : c ∈ cs) {a : α} (ha : a ∈ c) :
    a ∈ [sep].intercalate cs := by
  cases cs with
  | nil => cases hc
  | cons d cs =>
    rw [intercalate_cons, extend]
    rcases List.mem_cons.mp hc with rfl | hc
    · exact List.mem_append_left _ ha
    · exact List.mem_append_right _ (List.mem_flatMap.mpr ⟨c, hc, List.mem_cons_of_mem sep ha⟩)

variable (sep) in
theorem length_splitOn_le (w : List α) : (w.splitOn sep).length ≤ w.length + 1 := by
  obtain ⟨c, cs, hsplit⟩ := List.exists_cons_of_ne_nil (List.splitOn_ne_nil sep w)
  have hlen : ∀ cs : List (List α), cs.length ≤ (cs.flatMap (sep :: ·)).length := by
    intro cs
    induction cs with
    | nil => exact le_rfl
    | cons d cs ih =>
      rw [List.flatMap_cons, List.length_append, List.length_cons, List.length_cons]
      omega
  have hw : [sep].intercalate (w.splitOn sep) = w := List.intercalate_splitOn sep
  rw [hsplit, intercalate_cons] at hw
  rw [hsplit, List.length_cons, ← hw, extend, List.length_append]
  have := hlen cs
  omega

theorem splitOn_extend (w : List α) {cs : List (List α)} (h : ∀ c ∈ cs, sep ∉ c) :
    (extend sep w cs).splitOn sep = w.splitOn sep ++ cs := by
  induction cs using List.reverseRecOn with
  | nil => simp [extend]
  | append_singleton cs c ih =>
    have hc : sep ∉ c := h c (List.mem_append_right _ (List.mem_singleton_self c))
    rw [← extend_append_singleton, List.splitOn_append_cons_self,
      ih fun d hd => h d (List.mem_append_left _ hd), List.splitOn_eq_singleton hc, List.append_assoc]

/-! ## Resolution -/

section Resolve
variable (sep) (cur up : List α)

/-- One more component, on the components so far with the last one first. -/
def resolveStep (rooted : Bool) (st : List (List α)) (c : List α) : List (List α) :=
  if c = [] ∨ c = cur then st
  else if c = up then
    match st with
    | [] => if rooted then [] else [up]
    | d :: rest => if d = up then up :: st else rest
  else c :: st

/-- Whether the word starts at the root, and its components once resolved. -/
def resolve (w : List α) : Bool × List (List α) :=
  (w.head? == some sep, ((w.splitOn sep).foldl (resolveStep cur up (w.head? == some sep)) []).reverse)

/-- A component that leads one level down. -/
def Proper (c : List α) : Prop := c ≠ [] ∧ c ≠ cur ∧ c ≠ up ∧ sep ∉ c

instance (c : List α) : Decidable (Proper sep cur up c) :=
  inferInstanceAs (Decidable (c ≠ [] ∧ c ≠ cur ∧ c ≠ up ∧ sep ∉ c))

/-- `w` resolves to a place strictly below the directory `dir`. -/
def Below (dir w : List α) : Prop :=
  ∃ rel, rel ≠ [] ∧ up ∉ rel ∧
    resolve sep cur up w = ((resolve sep cur up (dir ++ [sep])).1, (resolve sep cur up (dir ++ [sep])).2 ++ rel)

variable {sep cur up}

theorem foldl_resolveStep_proper {cs : List (List α)} (h : ∀ c ∈ cs, Proper sep cur up c) (rooted : Bool)
    (st : List (List α)) : cs.foldl (resolveStep cur up rooted) st = cs.reverse ++ st := by
  induction cs generalizing st with
  | nil => rfl
  | cons c cs ih =>
    obtain ⟨hne, hcur, hup, -⟩ := h c List.mem_cons_self
    have hstep : resolveStep cur up rooted st c = c :: st := by
      unfold resolveStep
      rw [if_neg (not_or.mpr ⟨hne, hcur⟩), if_neg hup]
    rw [List.foldl_cons, hstep, ih fun d hd => h d (List.mem_cons_of_mem c hd)]
    simp

theorem below_extend {dir : List α} {cs : List (List α)} (hne : cs ≠ []) (h : ∀ c ∈ cs, Proper sep cur up c) :
    Below sep cur up dir (extend sep dir cs) := by
  refine ⟨cs, hne, fun hup => (h up hup).2.2.1 rfl, ?_⟩
  have hrooted : ((extend sep dir cs).head? == some sep) = ((dir ++ [sep]).head? == some sep) := by
    obtain ⟨c, cs', rfl⟩ := List.exists_cons_of_ne_nil hne
    cases dir with
    | nil => simp [extend]
    | cons a dir => simp [extend]
  have hdir : (dir ++ [sep]).splitOn sep = dir.splitOn sep ++ [[]] := by
    rw [List.splitOn_append_cons_self, List.splitOn_nil]
  have hskip : ∀ b st, resolveStep cur up b st [] = st := by
    intro b st
    unfold resolveStep
    rw [if_pos (Or.inl rfl)]
  unfold resolve
  rw [hrooted, splitOn_extend dir fun c hc => (h c hc).2.2.2, List.foldl_append, hdir, List.foldl_append,
    List.foldl_cons, List.foldl_nil, hskip, foldl_resolveStep_proper h]
  simp

end Resolve

end PathName
