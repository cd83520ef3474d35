import Mathlib

/-!
# C objects as bytes

* `CType` : size and alignment of a C type; `CType.struct`, `CType.array` and `CType.offset` place the
  fields of a struct, each at the next multiple of its alignment;
* `Mem` : the bytes of an object and what follows it, by offset; `slice` the bytes of a field;
* `memcpy` : copy bytes between objects;
* `AgreeOn` : two memories have the same bytes in a range; `AgreeOn.slice`, `AgreeOn.read` : then they
  have the same fields there;
* `read`, `write` : little-endian unsigned integers, with `read_write_self`.
-/

namespace Memory

/-! ## Layout -/

/-- Size and alignment. -/
structure CType where
  size : ℕ
  align : ℕ

namespace CType

/-- An integer type of `k` bytes, aligned to its size. -/
def int (k : ℕ) : CType := ⟨k, k⟩

def array (t : CType) (k : ℕ) : CType := ⟨t.size * k, t.align⟩

/-- The next multiple of `a`. -/
def alignUp (n a : ℕ) : ℕ := (n + a - 1) / a * a

/-- The offsets of fields laid out from `n` on, and the end of the last one. -/
def place (n : ℕ) : List CType → List ℕ × ℕ
  | [] => ([], n)
  | t :: ts =>
    let off := alignUp n t.align
    let r := place (off + t.size) ts
    (off :: r.1, r.2)

/-- The offset of field `k`. -/
def offset (fields : List CType) (k : ℕ) : ℕ := (place 0 fields).1.getD k 0

/-- The struct with these fields; its size is a multiple of its alignment. -/
def struct (fields : List CType) : CType :=
  let a := (fields.map CType.align).foldr max 1
  ⟨alignUp (place 0 fields).2 a, a⟩

end CType

/-! ## Bytes -/

/-- The bytes from an object's address on. -/
abbrev Mem := ℕ → UInt8

/-- A zeroed object. -/
def zeroed : Mem := fun _ => 0

/-- A zeroed buffer after `bs` was written to its front. -/
def ofBytes (bs : List UInt8) : Mem := fun i => bs.getD i 0

/-- The `len` bytes at `off`. -/
def slice (m : Mem) (off len : ℕ) : List UInt8 := (List.range len).map fun i => m (off + i)

/-- Copy `len` bytes from offset `s` of `src` to offset `d` of `dst`. -/
def memcpy (dst : Mem) (d : ℕ) (src : Mem) (s len : ℕ) : Mem :=
  fun i => if d ≤ i ∧ i < d + len then src (s + (i - d)) else dst i

@[simp] theorem length_slice (m : Mem) (off len : ℕ) : (slice m off len).length = len := by
  simp [slice]

theorem ofBytes_slice_append {m : Mem} {len : ℕ} (bs : List UInt8) {i : ℕ} (hi : i < len) :
    ofBytes (slice m 0 len ++ bs) i = m i := by
  rw [ofBytes, List.getD_eq_getElem?_getD, List.getElem?_append_left (by simpa using hi)]
  simp [slice, hi]

theorem memcpy_inside (dst src : Mem) {d s len i : ℕ} (h1 : d ≤ i) (h2 : i < d + len) :
    memcpy dst d src s len i = src (s + (i - d)) :=
  if_pos ⟨h1, h2⟩

theorem memcpy_outside (dst src : Mem) {d s len i : ℕ} (h : i < d ∨ d + len ≤ i) :
    memcpy dst d src s len i = dst i :=
  if_neg (by omega)

/-! ## Ranges on which two memories agree -/

/-- `m` and `m'` have the same bytes from `a` up to `b`. -/
def AgreeOn (m m' : Mem) (a b : ℕ) : Prop := ∀ i, a ≤ i → i < b → m i = m' i

theorem AgreeOn.mono {m m' : Mem} {a b a' b' : ℕ} (h : AgreeOn m m' a b) (ha : a ≤ a') (hb : b' ≤ b) :
    AgreeOn m m' a' b' :=
  fun i h1 h2 => h i (ha.trans h1) (h2.trans_le hb)

theorem AgreeOn.trans {m m' m'' : Mem} {a b : ℕ} (h : AgreeOn m m' a b) (h' : AgreeOn m' m'' a b) :
    AgreeOn m m'' a b :=
  fun i h1 h2 => (h i h1 h2).trans (h' i h1 h2)

theorem AgreeOn.slice {m m' : Mem} {a b : ℕ} (h : AgreeOn m m' a b) {off len : ℕ} (ha : a ≤ off)
    (hb : off + len ≤ b) : slice m off len = slice m' off len := by
  refine List.map_congr_left fun i hi => h _ (by omega) ?_
  have := List.mem_range.mp hi
  omega

theorem agreeOn_memcpy (dst src : Mem) (len : ℕ) : AgreeOn (memcpy dst 0 src 0 len) src 0 len := by
  intro i h1 h2
  rw [memcpy_inside dst src h1 (by omega)]
  simp

theorem agreeOn_memcpy_outside (dst src : Mem) {d s len a b : ℕ} (h : b ≤ d ∨ d + len ≤ a) :
    AgreeOn (memcpy dst d src s len) dst a b :=
  fun _ h1 h2 => memcpy_outside dst src (by omega)

/-! ## Little-endian integers -/

/-- The number with these digits to base 256, the lowest first. -/
def leValue : List UInt8 → ℕ
  | [] => 0
  | b :: bs => b.toNat + 256 * leValue bs

/-- The unsigned integer of `k` bytes at `off`. -/
def read (m : Mem) (off k : ℕ) : ℕ := leValue (slice m off k)

/-- Store the low `k` bytes of `v` at `off`. -/
def write (m : Mem) (off k v : ℕ) : Mem :=
  fun i => if off ≤ i ∧ i < off + k then UInt8.ofNat (v / 256 ^ (i - off)) else m i

theorem leValue_digits (k v : ℕ) :
    leValue ((List.range k).map fun i => UInt8.ofNat (v / 256 ^ i)) = v % 256 ^ k := by
  induction k generalizing v with
  | zero => simp [leValue, Nat.mod_one]
  | succ k ih =>
    have htail : ((List.range k).map Nat.succ).map (fun i => UInt8.ofNat (v / 256 ^ i)) =
        (List.range k).map fun i => UInt8.ofNat (v / 256 / 256 ^ i) := by
      rw [List.map_map]
      refine List.map_congr_left fun i _ => ?_
      rw [Function.comp_apply, Nat.pow_succ', Nat.div_div_eq_div_mul]
    rw [List.range_succ_eq_map, List.map_cons, htail, leValue, ih, pow_zero, Nat.div_one, Nat.pow_succ',
      Nat.mod_mul]
    simp

theorem read_write_self (m : Mem) (off k v : ℕ) : read (write m off k v) off k = v % 256 ^ k := by
  have hslice : slice (write m off k v) off k = (List.range k).map fun i => UInt8.ofNat (v / 256 ^ i) := by
    refine List.map_congr_left fun i hi => ?_
    rw [write, if_pos ⟨by omega, by have := List.mem_range.mp hi; omega⟩, Nat.add_sub_cancel_left]
  rw [read, hslice, leValue_digits]

theorem write_outside (m : Mem) {off k v i : ℕ} (h : i < off ∨ off + k ≤ i) : write m off k v i = m i :=
  if_neg (by omega)

theorem agreeOn_write (m : Mem) {off k v a b : ℕ} (h : b ≤ off ∨ off + k ≤ a) : AgreeOn (write m off k v) m a b :=
  fun _ h1 h2 => write_outside m (by omega)

theorem leValue_lt {l l' : List UInt8} (h : List.Forall₂ (fun b b' => b.toNat ≤ b'.toNat) l l') (hne : l ≠ l') :
    leValue l < leValue l' := by
  induction h with
  | nil => exact absurd rfl hne
  | @cons b b' l l' hb hl ih =>
    rw [leValue, leValue]
    by_cases heq : l = l'
    · subst heq
      have hbne : b.toNat ≠ b'.toNat := fun h => hne (by rw [UInt8.toNat_inj.mp h])
      omega
    · have hlt := ih heq
      omega

/-- Where some bytes are zero instead, the number is smaller, or the same if nothing changed. -/
theorem read_lt_of_zeros {m m' : Mem} {off k : ℕ} (h : ∀ i, off ≤ i → i < off + k → m i = m' i ∨ m i = 0)
    (hne : ¬ AgreeOn m m' off (off + k)) : read m off k < read m' off k := by
  apply leValue_lt
  · rw [slice, slice, List.forall₂_map_left_iff, List.forall₂_map_right_iff, List.forall₂_same]
    intro i hi
    rcases h (off + i) (Nat.le_add_right _ _) (Nat.add_lt_add_left (List.mem_range.mp hi) _) with heq | hzero
    · rw [heq]
    · rw [hzero]
      exact Nat.zero_le _
  · intro heq
    refine hne fun i h1 h2 => ?_
    have hi := List.map_inj_left.mp heq (i - off) (List.mem_range.mpr (by omega))
    rwa [Nat.add_sub_cancel' h1] at hi

theorem AgreeOn.read {m m' : Mem} {a b : ℕ} (h : AgreeOn m m' a b) {off k : ℕ} (ha : a ≤ off)
    (hb : off + k ≤ b) : read m off k = read m' off k := by
  rw [Memory.read, h.slice ha hb, Memory.read]

/-- A field of an object that is the same up to `len`. -/
theorem AgreeOn.read_field {m m' : Mem} {base len : ℕ} (h : AgreeOn m m' base (base + len)) {off k : ℕ}
    (hk : off + k ≤ len) : Memory.read m (base + off) k = Memory.read m' (base + off) k :=
  h.read (by omega) (by omega)

/-! ## Fields beside what is written -/

section Beside
variable (m src : Mem) {off k v d s len off' k' : ℕ}

theorem read_write_beside (h : off' + k' ≤ off ∨ off + k ≤ off') : read (write m off k v) off' k' = read m off' k' :=
  (agreeOn_write m h).read le_rfl le_rfl

theorem slice_write_beside (h : off' + k' ≤ off ∨ off + k ≤ off') : slice (write m off k v) off' k' = slice m off' k' :=
  (agreeOn_write m h).slice le_rfl le_rfl

theorem slice_add (a b : ℕ) : slice m off (a + b) = slice m off a ++ slice m (off + a) b := by
  simp only [slice, List.range_add, List.map_append, List.map_map]
  congr 1
  exact List.map_congr_left fun i _ => by rw [Function.comp_apply, Nat.add_assoc]

/-- `strcpy` of a string, read back up to its end. -/
theorem slice_memcpy_ofBytes (bs : List UInt8) :
    slice (memcpy m d (ofBytes bs) 0 (bs.length + 1)) d (bs.length + 1) = bs ++ [0] := by
  refine List.ext_getElem (by simp) fun i h1 h2 => ?_
  have hi : i < bs.length + 1 := by simpa using h1
  simp only [slice, List.getElem_map, List.getElem_range]
  rw [memcpy_inside _ _ (by omega) (by omega), ofBytes, List.getElem_append]
  split_ifs with hlt
  · simp [hlt]
  · simp [show bs.length ≤ i by omega]

theorem leValue_zeros {l : List UInt8} (h : ∀ b ∈ l, b = 0) : leValue l = 0 := by
  induction l with
  | nil => rfl
  | cons b l ih =>
    rw [List.forall_mem_cons] at h
    rw [leValue, ih h.2, h.1]
    rfl

theorem read_zeros (h : AgreeOn m zeroed off (off + k)) : read m off k = 0 := by
  rw [h.read le_rfl le_rfl]
  refine leValue_zeros fun b hb => ?_
  obtain ⟨i, -, rfl⟩ := List.mem_map.mp hb
  rfl

end Beside

end Memory
