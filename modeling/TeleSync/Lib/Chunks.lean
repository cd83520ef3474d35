import Mathlib

/-!
# A sequence in chunks of equal length

A sequence of length `L` is cut into `count L c` chunks of length `c`, the last one shorter when `c` does
not divide `L`.

* `count`, `size` : how many chunks there are, and how long chunk `p` is; `start_add_size` : where it ends;
* `Tiles` : ranges that follow each other from one position to another, as the chunks do (`tiles_chunks`);
* `patch file off buf` : `file` with `buf` written at `off`, filled up with a default where it was shorter;
* `Agree F file lo hi` : `file` and `F` agree on the positions from `lo` to `hi`; a patch with the slice of
  `F` that belongs there gives agreement on it (`agree_patch`) and keeps it elsewhere (`Agree.patch`);
* `eq_of_agree` : a sequence that is not too long and agrees on every chunk is the whole.
-/

namespace Chunks

/-! ## Counting -/

/-- The number of chunks of length `c`. -/
def count (L c : ℕ) : ℕ := (L + c - 1) / c

/-- The length of chunk `p`: whatever is left for the last one. -/
def size (L c p : ℕ) : ℕ := if p = count L c - 1 then L - c * (count L c - 1) else c

section Counting
variable {L c p : ℕ}

theorem start_lt (hc : 0 < c) (hp : p < count L c) : p * c < L := by
  have h := (Nat.le_div_iff_mul_le hc).mp (Nat.succ_le_of_lt hp)
  rw [Nat.succ_mul] at h
  omega

theorem le_count_mul (hc : 0 < c) : L ≤ count L c * c := by
  have h := Nat.lt_div_mul_add hc (a := L + c - 1)
  rw [count]
  omega

theorem start_add_size (hc : 0 < c) (hp : p < count L c) : p * c + size L c p = min ((p + 1) * c) L := by
  have hstart := start_lt hc hp
  have hend := le_count_mul (L := L) hc
  rw [Nat.succ_mul, size]
  by_cases hlast : p = count L c - 1
  · have hcount : count L c = p + 1 := by omega
    rw [if_pos hlast, hcount, Nat.add_sub_cancel, Nat.mul_comm c p]
    rw [hcount, Nat.succ_mul] at hend
    omega
  · have hnext := start_lt hc (show p + 1 < count L c by omega)
    rw [Nat.succ_mul] at hnext
    rw [if_neg hlast]
    omega

theorem size_pos (hc : 0 < c) (hp : p < count L c) : 0 < size L c p := by
  have h := start_add_size hc hp
  have hstart := start_lt hc hp
  rw [Nat.succ_mul] at h
  omega

theorem size_le (hc : 0 < c) (hp : p < count L c) : size L c p ≤ c := by
  have h := start_add_size hc hp
  rw [Nat.succ_mul] at h
  omega

theorem start_add_size_le (hc : 0 < c) (hp : p < count L c) : p * c + size L c p ≤ L := by
  rw [start_add_size hc hp]
  exact min_le_right _ _

theorem div_lt_count (hc : 0 < c) {k : ℕ} (hk : k < L) : k / c < count L c := by
  apply Nat.div_lt_of_lt_mul
  rw [Nat.mul_comm]
  exact lt_of_lt_of_le hk (le_count_mul hc)

end Counting

/-! ## Ranges -/

/-- The ranges, each an offset and a length, follow each other from `lo` to `hi` and have between 1 and `c` positions
each. -/
def Tiles (c : ℕ) (lo hi : ℤ) : List (ℤ × ℕ) → Prop
  | [] => lo = hi
  | (off, len) :: ranges => off = lo ∧ 0 < len ∧ len ≤ c ∧ Tiles c (lo + len) hi ranges

theorem Tiles.end_unique {c : ℕ} {lo hi hi' : ℤ} {ranges : List (ℤ × ℕ)} (h : Tiles c lo hi ranges)
    (h' : Tiles c lo hi' ranges) : hi = hi' := by
  induction ranges generalizing lo with
  | nil => exact h.symm.trans h'
  | cons r ranges ih => exact ih h.2.2.2 h'.2.2.2

/-- Ranges that go on where others end. -/
theorem Tiles.append {c : ℕ} {lo mid hi : ℤ} {ranges ranges' : List (ℤ × ℕ)} (h : Tiles c lo mid ranges)
    (h' : Tiles c mid hi ranges') : Tiles c lo hi (ranges ++ ranges') := by
  induction ranges generalizing lo with
  | nil =>
    rw [show lo = mid from h]
    exact h'
  | cons r ranges ih =>
    obtain ⟨hoff, hpos, hle, hrest⟩ := h
    exact ⟨hoff, hpos, hle, ih hrest⟩

theorem tiles_range' {L c : ℕ} (hc : 0 < c) (p n : ℕ) (hpn : p + n = count L c) :
    Tiles c (min (p * c) L : ℕ) L ((List.range' p n).map fun q => (((q * c : ℕ) : ℤ), size L c q)) := by
  induction n generalizing p with
  | zero =>
    have hend := le_count_mul (L := L) hc
    have hp : p = count L c := hpn
    rw [hp, min_eq_right hend]
    rfl
  | succ n ih =>
    have hp : p < count L c := by omega
    have hnext := ih (p + 1) (by omega)
    rw [← start_add_size hc hp] at hnext
    rw [min_eq_left (start_lt hc hp).le]
    refine ⟨rfl, size_pos hc hp, size_le hc hp, ?_⟩
    rwa [← Nat.cast_add]

theorem tiles_chunks {L c : ℕ} (hc : 0 < c) :
    Tiles c 0 L ((List.range (count L c)).map fun p => (((p * c : ℕ) : ℤ), size L c p)) := by
  have h := tiles_range' (L := L) hc 0 (count L c) (Nat.zero_add _)
  rw [← List.range_eq_range', Nat.zero_mul, Nat.zero_min] at h
  exact h

/-! ## Writing -/

variable {α : Type*}

/-- `buf` written over `file` from position `off` on. -/
def patch [Inhabited α] (file : List α) (off : ℕ) (buf : List α) : List α :=
  (file ++ List.replicate (off - file.length) default).take off ++ buf ++ file.drop (off + buf.length)

section Writing
variable [Inhabited α] {file buf : List α} {off k : ℕ}

theorem length_patch (file : List α) (off : ℕ) (buf : List α) :
    (patch file off buf).length = max file.length (off + buf.length) := by
  simp only [patch, List.length_append, List.length_take, List.length_replicate, List.length_drop]
  omega

private theorem length_filled (file : List α) (off : ℕ) :
    ((file ++ List.replicate (off - file.length) default).take off).length = off := by
  rw [List.length_take, List.length_append, List.length_replicate]
  omega

theorem getElem?_patch_inside (hlo : off ≤ k) (hhi : k < off + buf.length) :
    (patch file off buf)[k]? = buf[k - off]? := by
  have hlen := length_filled file off
  rw [patch, List.append_assoc, List.getElem?_append_right (by omega), hlen, List.getElem?_append_left (by omega)]

theorem getElem?_patch_outside (hk : k < file.length) (hout : k < off ∨ off + buf.length ≤ k) :
    (patch file off buf)[k]? = file[k]? := by
  have hlen := length_filled file off
  rw [patch, List.append_assoc]
  rcases hout with hlo | hhi
  · rw [List.getElem?_append_left (by omega), List.getElem?_take_of_lt hlo, List.getElem?_append_left hk]
  · rw [List.getElem?_append_right (by omega), hlen, List.getElem?_append_right (by omega), List.getElem?_drop]
    congr 1
    omega

end Writing

/-! ## Agreement -/

/-- `file` and `F` agree on the positions of `F` from `lo` to `hi`. -/
def Agree (F file : List α) (lo hi : ℕ) : Prop := ∀ k, lo ≤ k → k < hi → k < F.length → file[k]? = F[k]?

section Agreement
variable [Inhabited α] {F file : List α} {lo hi off n : ℕ}

theorem agree_patch (file : List α) (hin : off + n ≤ F.length) :
    Agree F (patch file off ((F.drop off).take n)) off (off + n) := by
  intro k hlo hhi hk
  have hlen : ((F.drop off).take n).length = n := by
    rw [List.length_take, List.length_drop]
    omega
  rw [getElem?_patch_inside hlo (by omega), List.getElem?_take_of_lt (by omega), List.getElem?_drop,
    Nat.add_sub_cancel' hlo]

theorem Agree.patch (h : Agree F file lo hi) {buf : List α} (hout : hi ≤ off ∨ off + buf.length ≤ lo) :
    Agree F (patch file off buf) lo hi := by
  intro k hlo hhi hk
  have hfile := h k hlo hhi hk
  have hlt : k < file.length := by
    by_contra hge
    rw [List.getElem?_eq_none (by omega), List.getElem?_eq_getElem hk] at hfile
    cases hfile
  rw [getElem?_patch_outside hlt (by omega), hfile]

omit [Inhabited α] in
theorem eq_of_agree {c : ℕ} (hc : 0 < c) (hlen : file.length ≤ F.length)
    (h : ∀ p < count F.length c, Agree F file (p * c) ((p + 1) * c)) : file = F := by
  apply List.ext_getElem?
  intro k
  by_cases hk : k < F.length
  · refine h (k / c) (div_lt_count hc hk) k (Nat.div_mul_le_self k c) ?_ hk
    rw [Nat.succ_mul]
    exact Nat.lt_div_mul_add hc
  · rw [List.getElem?_eq_none (by omega), List.getElem?_eq_none (by omega)]

end Agreement

end Chunks
