import Mathlib

/-!
# Terminated strings in a buffer

A buffer is a list, a pointer into it a position. The string at a position ends before the first terminator.

* `str nul buf p` : the string at `p`;
* `index`, `rindex` : the position of the first and of the last occurrence of a character in it;
* `str_eq`, `index_eq_some`, `index_eq_none`, `rindex_eq_some` : what they are for a string that is written out;
* `set_cut` : writing to one place of a buffer that is written out.
-/

namespace CText

variable {α : Type*} [DecidableEq α] (nul : α)

def str (buf : List α) (p : ℕ) : List α := (buf.drop p).takeWhile (· ≠ nul)

def index (buf : List α) (p : ℕ) (c : α) : Option ℕ := ((str nul buf p).idxOf? c).map (p + ·)

def rindex (buf : List α) (p : ℕ) (c : α) : Option ℕ :=
  ((str nul buf p).reverse.idxOf? c).map fun k => p + ((str nul buf p).length - 1 - k)

section
variable {nul} {w rest : List α} {c : α}

theorem str_eq (pre rest : List α) (h : nul ∉ w) : str nul (pre ++ (w ++ nul :: rest)) pre.length = w := by
  have hall : ∀ a ∈ w, decide (a ≠ nul) = true := by
    intro a ha
    exact decide_eq_true fun heq => h (heq ▸ ha)
  rw [str, List.drop_left, List.takeWhile_append_of_pos hall]
  simp

theorem idxOf?_append {a : List α} (h : c ∉ a) (b : List α) : (a ++ c :: b).idxOf? c = some a.length := by
  induction a with
  | nil => simp [List.idxOf?_cons]
  | cons d a ih =>
    rw [List.mem_cons, not_or] at h
    rw [List.cons_append, List.idxOf?_cons, if_neg, ih h.2]
    · simp
    · simpa using fun heq => h.1 heq.symm

theorem idxOf?_eq_none {a : List α} (h : c ∉ a) : a.idxOf? c = none := List.idxOf?_eq_none_iff.mpr h

theorem index_eq_some (pre rest : List α) {a b : List α} (h : nul ∉ a ++ c :: b) (ha : c ∉ a) :
    index nul (pre ++ (a ++ c :: b ++ nul :: rest)) pre.length c = some (pre.length + a.length) := by
  rw [index, str_eq pre rest h, idxOf?_append ha]
  rfl

theorem index_eq_none (pre rest : List α) (h : nul ∉ w) (hc : c ∉ w) :
    index nul (pre ++ (w ++ nul :: rest)) pre.length c = none := by
  rw [index, str_eq pre rest h, idxOf?_eq_none hc]
  rfl

theorem rindex_eq_some (pre rest : List α) {a b : List α} (h : nul ∉ a ++ c :: b) (hb : c ∉ b) :
    rindex nul (pre ++ (a ++ c :: b ++ nul :: rest)) pre.length c = some (pre.length + a.length) := by
  have hrev : c ∉ b.reverse := by rwa [List.mem_reverse]
  rw [rindex, str_eq pre rest h, List.reverse_append, List.reverse_cons, List.append_assoc, List.singleton_append,
    idxOf?_append hrev]
  simp

end

omit [DecidableEq α] in
theorem set_cut (a b : List α) (c d : α) : (a ++ c :: b).set a.length d = a ++ d :: b := by
  simp

end CText
