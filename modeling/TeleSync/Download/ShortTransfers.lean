import TeleSync.Lib.Chunks

/-!
# Short transfers

`my_read` and `my_write` of `client/download.c` call `read` or `write` for what is left of the buffer until all of it
is transferred, an error comes, or too many calls in all have transferred nothing.

* `ioLoop` : the loop that both run; `myRead` starts it with ten retries, `myWrite` with none;
* `total`, `Going` : what the first `k` results transfer, and that the loop goes on after them;
* `MayReturn` : every call that is made is answered with `-1` or at most what it asked for;
* `ioLoop_at` : where the loop ends, by induction on the bytes and the retries that are left;
* `transfer_accounts` : both functions return, with every byte accounted for.
-/

namespace TeleSync

/-! ## The loop -/

/-- A call of `read` or `write` at `buf + off` for `count` bytes, with its result. -/
structure IoCall where
  off : ℤ
  count : ℤ
  ret : ℤ
  deriving DecidableEq

/-- The variables of the loop, and the calls made so far. -/
structure IoLoop where
  tryN : ℤ
  n : ℤ
  left : ℤ
  calls : List IoCall
  deriving DecidableEq

namespace IoLoop

/-- `left -= ret; n += ret;` -/
def advance (s : IoLoop) (ret : ℤ) : IoLoop := { s with left := s.left - ret, n := s.n + ret }

/-- The call for what is left. -/
def call (s : IoLoop) (ret : ℤ) : IoLoop := { s with calls := s.calls ++ [⟨s.n, s.left, ret⟩] }

/-- `try_n--` -/
def retry (s : IoLoop) : IoLoop := { s with tryN := s.tryN - 1 }

end IoLoop

/-- The loop, where call number `k` returns `rets k`; `none` when it takes `fuel` rounds or more. -/
def ioLoop (rets : ℕ → ℤ) (len : ℤ) : ℕ → IoLoop → Option IoLoop
  | 0, _ => none
  | fuel + 1, s =>
    if s.n < len then
      let ret := rets s.calls.length
      let s' := s.call ret
      if ret < 0 then some s'
      else if ret = 0 then
        -- the retries are counted down whether or not they are exhausted
        if s'.tryN = 0 then some s'.retry else ioLoop rets len fuel (s'.retry.advance ret)
      else ioLoop rets len fuel (s'.advance ret)
    else some s

/-- `my_read`; it returns the `n` of the last state. -/
def myRead (rets : ℕ → ℤ) (len : ℤ) (fuel : ℕ) : Option IoLoop := ioLoop rets len fuel ⟨10, 0, len, []⟩

/-- `my_write` -/
def myWrite (rets : ℕ → ℤ) (len : ℤ) (fuel : ℕ) : Option IoLoop := ioLoop rets len fuel ⟨0, 0, len, []⟩

/-! ## Results in turn -/

section Results
variable (rets : ℕ → ℤ)

/-- What the first `k` results transfer. -/
def total (k : ℕ) : ℤ := ∑ i ∈ Finset.range k, rets i

/-- None of the first `k` results is an error, and fewer than `limit` of them are zero. -/
def Going (limit k : ℕ) : Prop := (∀ i < k, 0 ≤ rets i) ∧ Nat.count (fun i => rets i = 0) k < limit

/-- As long as the loop goes on and bytes are missing, the next result is `-1` or at most what is left. -/
def MayReturn (limit : ℕ) (len : ℤ) : Prop :=
  ∀ k, Going rets limit k → total rets k < len → -1 ≤ rets k ∧ rets k ≤ len - total rets k

/-- The first `m` calls. -/
def callsUpTo (len : ℤ) (m : ℕ) : List IoCall :=
  (List.range m).map fun i => ⟨total rets i, len - total rets i, rets i⟩

/-- The loop after the first `k` results. -/
def loopAt (limit : ℕ) (len : ℤ) (k : ℕ) : IoLoop where
  tryN := limit - 1 - Nat.count (fun i => rets i = 0) k
  n := total rets k
  left := len - total rets k
  calls := callsUpTo rets len k

end Results

variable {rets : ℕ → ℤ} {limit k m : ℕ} {len : ℤ}

theorem total_succ : total rets (k + 1) = total rets k + rets k := Finset.sum_range_succ rets k

theorem total_mono (h : ∀ i < m, 0 ≤ rets i) (hk : k ≤ m) : total rets k ≤ total rets m := by
  apply Finset.sum_le_sum_of_subset_of_nonneg (Finset.range_subset_range.mpr hk)
  intro i hi _
  exact h i (Finset.mem_range.mp hi)

theorem total_nonneg (h : ∀ i < k, 0 ≤ rets i) : 0 ≤ total rets k :=
  total_mono h (Nat.zero_le k)

theorem Going.of_le (h : Going rets limit m) (hk : k ≤ m) : Going rets limit k :=
  ⟨fun i hi => h.1 i (hi.trans_le hk), (Nat.count_monotone _ hk).trans_lt h.2⟩

theorem callsUpTo_succ :
    callsUpTo rets len (k + 1) = callsUpTo rets len k ++ [⟨total rets k, len - total rets k, rets k⟩] := by
  rw [callsUpTo, List.range_succ, List.map_append, List.map_singleton]
  rfl

@[simp] theorem length_callsUpTo : (callsUpTo rets len k).length = k := by
  rw [callsUpTo, List.length_map, List.length_range]

/-- The loop comes to call number `k`, or ends before it with everything transferred. -/
structure Reached (rets : ℕ → ℤ) (limit : ℕ) (len : ℤ) (k : ℕ) : Prop where
  going : Going rets limit k
  short : ∀ i < k, total rets i < len
  le : total rets k ≤ len

theorem Reached.start (hlimit : 0 < limit) (hlen : 0 ≤ len) : Reached rets limit len 0 where
  going := ⟨fun i hi => absurd hi i.not_lt_zero, by rwa [Nat.count_zero]⟩
  short i hi := absurd hi i.not_lt_zero
  le := hlen

theorem Reached.succ (h : Reached rets limit len k) (hlt : total rets k < len) (hret : MayReturn rets limit len)
    (hnonneg : 0 ≤ rets k) (hzero : ¬ (rets k = 0 ∧ Nat.count (fun i => rets i = 0) k + 1 = limit)) :
    Reached rets limit len (k + 1) := by
  refine ⟨⟨fun i hi => ?_, ?_⟩, fun i hi => ?_, ?_⟩
  · rcases Nat.lt_succ_iff_lt_or_eq.mp hi with hik | rfl
    · exact h.going.1 i hik
    · exact hnonneg
  · have hcount := h.going.2
    rw [Nat.count_succ]
    split_ifs with h0
    · have hne := not_and.mp hzero h0
      omega
    · exact hcount
  · rcases Nat.lt_succ_iff_lt_or_eq.mp hi with hik | rfl
    · exact h.short i hik
    · exact hlt
  · have hbounds := hret k h.going hlt
    rw [total_succ]
    omega

/-! ## Where the loop ends -/

/-- How the loop ends at call number `k`: all is transferred before it, or it fails, or it is the last of `limit` calls
that transfer nothing. -/
inductive EndsAt (rets : ℕ → ℤ) (limit : ℕ) (len : ℤ) (k : ℕ) : IoLoop → Prop
  | whole (h : total rets k = len) : EndsAt rets limit len k (loopAt rets limit len k)
  | error (hlt : total rets k < len) (h : rets k < 0) :
    EndsAt rets limit len k ((loopAt rets limit len k).call (rets k))
  | exhausted (hlt : total rets k < len) (h : rets k = 0) (hzero : Nat.count (fun i => rets i = 0) k + 1 = limit) :
    EndsAt rets limit len k ((loopAt rets limit len k).call (rets k)).retry

theorem loopAt_call : ((loopAt rets limit len k).call (rets k)).calls = callsUpTo rets len (k + 1) :=
  callsUpTo_succ.symm

theorem ioLoop_round (hlt : total rets k < len) (fuel : ℕ) :
    ioLoop rets len (fuel + 1) (loopAt rets limit len k) =
      if rets k < 0 then some ((loopAt rets limit len k).call (rets k))
      else if rets k = 0 then
        if Nat.count (fun i => rets i = 0) k + 1 = limit then some ((loopAt rets limit len k).call (rets k)).retry
        else ioLoop rets len fuel (loopAt rets limit len (k + 1))
      else ioLoop rets len fuel (loopAt rets limit len (k + 1)) := by
  have hlen : (loopAt rets limit len k).calls.length = k := length_callsUpTo
  have htry : ((loopAt rets limit len k).call (rets k)).tryN = 0 ↔ Nat.count (fun i => rets i = 0) k + 1 = limit := by
    show (limit : ℤ) - 1 - Nat.count (fun i => rets i = 0) k = 0 ↔ _
    omega
  have hnext : rets k ≠ 0 → ((loopAt rets limit len k).call (rets k)).advance (rets k)
      = loopAt rets limit len (k + 1) := by
    intro hne
    simp only [IoLoop.advance, IoLoop.call, loopAt, callsUpTo_succ, total_succ, Nat.count_succ, if_neg hne, sub_sub,
      Nat.add_zero]
  have hretry : rets k = 0 → ((loopAt rets limit len k).call (rets k)).retry.advance (rets k)
      = loopAt rets limit len (k + 1) := by
    intro h0
    simp only [IoLoop.advance, IoLoop.call, IoLoop.retry, loopAt, callsUpTo_succ, total_succ, Nat.count_succ,
      if_pos h0, sub_sub, add_assoc, Nat.cast_add, Nat.cast_one]
  rw [ioLoop, if_pos (show (loopAt rets limit len k).n < len from hlt), hlen]
  by_cases hneg : rets k < 0
  · rw [if_pos hneg, if_pos hneg]
  · rw [if_neg hneg, if_neg hneg]
    by_cases h0 : rets k = 0
    · rw [if_pos h0, if_pos h0, hretry h0]
      exact if_congr htry rfl rfl
    · rw [if_neg h0, if_neg h0, hnext h0]

theorem EndsAt.ioLoop_eq {out : IoLoop} (h : EndsAt rets limit len k out) (fuel : ℕ) :
    ioLoop rets len (fuel + 1) (loopAt rets limit len k) = some out := by
  cases h with
  | whole h =>
    have hdone : ¬ (loopAt rets limit len k).n < len := h.ge.not_gt
    rw [ioLoop, if_neg hdone]
  | error hlt h => rw [ioLoop_round hlt, if_pos h]
  | exhausted hlt h hzero =>
    have hneg : ¬ rets k < 0 := h.ge.not_gt
    rw [ioLoop_round hlt, if_neg hneg, if_pos h, if_pos hzero]

/-- Every round that does not end the loop transfers a byte or uses up a retry. -/
theorem ioLoop_at (hret : MayReturn rets limit len) (rounds : ℕ) (h : Reached rets limit len k)
    (hrounds : (len - total rets k) + (limit - Nat.count (fun i => rets i = 0) k : ℤ) ≤ rounds) :
    ∃ j out, Reached rets limit len j ∧ EndsAt rets limit len j out ∧
      ∀ fuel, rounds ≤ fuel → ioLoop rets len fuel (loopAt rets limit len k) = some out := by
  induction rounds generalizing k with
  | zero =>
    have hcount := h.going.2
    have hle := h.le
    push_cast at hrounds
    omega
  | succ rounds ih =>
    have hends : ∀ out, EndsAt rets limit len k out → ∀ fuel, rounds + 1 ≤ fuel →
        ioLoop rets len fuel (loopAt rets limit len k) = some out := by
      intro out hend fuel hfuel
      obtain ⟨fuel, rfl⟩ := Nat.exists_eq_add_of_le' (Nat.one_le_of_lt hfuel)
      exact hend.ioLoop_eq fuel
    rcases h.le.lt_or_eq with hlt | heq
    · by_cases hneg : rets k < 0
      · have hend := @EndsAt.error rets limit len k hlt hneg
        exact ⟨k, _, h, hend, hends _ hend⟩
      by_cases hlast : rets k = 0 ∧ Nat.count (fun i => rets i = 0) k + 1 = limit
      · have hend := EndsAt.exhausted hlt hlast.1 hlast.2
        exact ⟨k, _, h, hend, hends _ hend⟩
      -- the loop goes on: a zero leaves one retry fewer, anything else fewer bytes
      have hmeasure : (len - total rets (k + 1)) + (limit - Nat.count (fun i => rets i = 0) (k + 1) : ℤ) ≤ rounds := by
        rw [total_succ, Nat.count_succ]
        split_ifs with h0
        · push_cast at hrounds ⊢
          omega
        · push_cast at hrounds ⊢
          omega
      obtain ⟨j, out, hj, hend, hrun⟩ := ih (h.succ hlt hret (not_lt.mp hneg) hlast) hmeasure
      refine ⟨j, out, hj, hend, fun fuel hfuel => ?_⟩
      obtain ⟨fuel, rfl⟩ := Nat.exists_eq_add_of_le' (Nat.one_le_of_lt hfuel)
      rw [ioLoop_round hlt, if_neg hneg, hrun fuel (Nat.le_of_succ_le_succ hfuel)]
      split_ifs with h0 hzero
      · exact absurd ⟨h0, hzero⟩ hlast
      · rfl
      · rfl
    · have hend := @EndsAt.whole rets limit len k heq
      exact ⟨k, _, h, hend, hends _ hend⟩

/-! ## Every byte -/

theorem callsUpTo_rets : (callsUpTo rets len m).map IoCall.ret = (List.range m).map rets := by
  rw [callsUpTo, List.map_map]
  rfl

theorem mem_callsUpTo {c : IoCall} (hc : c ∈ callsUpTo rets len m) :
    ∃ i < m, c = ⟨total rets i, len - total rets i, rets i⟩ := by
  obtain ⟨i, hi, rfl⟩ := List.mem_map.mp hc
  exact ⟨i, List.mem_range.mp hi, rfl⟩

theorem consumed_eq_total (h : ∀ i < k, 0 ≤ rets i) :
    (((List.range k).map rets).filter fun r => 0 ≤ r).sum = total rets k := by
  induction k with
  | zero => rfl
  | succ k ih =>
    have hk : 0 ≤ rets k := h k k.lt_succ_self
    rw [List.range_succ, List.map_append, List.filter_append, List.sum_append,
      ih fun i hi => h i (hi.trans k.lt_succ_self), total_succ]
    simp [hk]

theorem tiles_callsUpTo (h : ∀ i < k, 0 ≤ rets i) (hle : total rets k ≤ len) :
    Chunks.Tiles len.toNat 0 (total rets k)
      (((callsUpTo rets len k).filter fun c => 0 < c.ret).map fun c => (c.off, c.ret.toNat)) := by
  induction k with
  | zero => rfl
  | succ k ih =>
    have hpre : ∀ i < k, 0 ≤ rets i := fun i hi => h i (hi.trans k.lt_succ_self)
    have hnonneg := total_nonneg hpre
    have hk : 0 ≤ rets k := h k k.lt_succ_self
    rw [total_succ] at hle ⊢
    rw [callsUpTo_succ, List.filter_append, List.map_append]
    apply (ih hpre (by omega)).append
    by_cases hpos : 0 < rets k
    · rw [List.filter_cons_of_pos (by simpa using hpos)]
      refine ⟨rfl, ?_, ?_, ?_⟩
      · show 0 < (rets k).toNat
        omega
      · show (rets k).toNat ≤ len.toNat
        omega
      · show total rets k + (rets k).toNat = total rets k + rets k
        rw [Int.toNat_of_nonneg hk]
    · rw [List.filter_cons_of_neg (by simpa using hpos)]
      show total rets k = total rets k + rets k
      omega

section End
variable {out : IoLoop}

/-- A call that ends the loop transfers nothing, so it adds nothing to `n`. -/
theorem EndsAt.calls (h : EndsAt rets limit len k out) :
    out.n = total rets k ∧ (out.calls = callsUpTo rets len k ∨
      out.calls = callsUpTo rets len (k + 1) ∧ rets k ≤ 0 ∧ total rets k < len) := by
  cases h with
  | whole h => exact ⟨rfl, .inl rfl⟩
  | error hlt h => exact ⟨rfl, .inr ⟨loopAt_call, h.le, hlt⟩⟩
  | exhausted hlt h => exact ⟨rfl, .inr ⟨loopAt_call, h.le, hlt⟩⟩

theorem EndsAt.calls_eq (h : EndsAt rets limit len k out) : out.calls = callsUpTo rets len out.calls.length := by
  rcases h.calls.2 with hcalls | ⟨hcalls, -, -⟩
  · rw [hcalls, length_callsUpTo]
  · rw [hcalls, length_callsUpTo]

theorem EndsAt.consumed (h : EndsAt rets limit len k out) (hk : Reached rets limit len k) :
    out.n = ((out.calls.map IoCall.ret).filter fun r => 0 ≤ r).sum := by
  rw [h.calls.1, ← consumed_eq_total hk.going.1]
  rcases h.calls.2 with hcalls | ⟨hcalls, hret, -⟩
  · rw [hcalls, callsUpTo_rets]
  · rw [hcalls, callsUpTo_rets, List.range_succ, List.map_append, List.filter_append, List.sum_append]
    rcases hret.lt_or_eq with hneg | h0
    · simp [hneg]
    · simp [h0]

theorem EndsAt.tiles (h : EndsAt rets limit len k out) (hk : Reached rets limit len k) :
    Chunks.Tiles len.toNat 0 out.n
      ((out.calls.filter fun c => 0 < c.ret).map fun c => (c.off, c.ret.toNat)) := by
  rw [h.calls.1]
  have htiles := tiles_callsUpTo hk.going.1 hk.le
  rcases h.calls.2 with hcalls | ⟨hcalls, hret, -⟩
  · rwa [hcalls]
  · rwa [hcalls, callsUpTo_succ, List.filter_append, List.filter_cons_of_neg (by simpa using hret), List.filter_nil,
      List.append_nil]

/-- Every call that is made starts inside the buffer and asks for what is left of it. -/
theorem EndsAt.inside (h : EndsAt rets limit len k out) (hk : Reached rets limit len k) {c : IoCall}
    (hc : c ∈ out.calls) : 0 ≤ c.off ∧ 0 < c.count ∧ c.off + c.count = len := by
  have hmade : ∃ i ≤ k, total rets i < len ∧ c = ⟨total rets i, len - total rets i, rets i⟩ := by
    rcases h.calls.2 with hcalls | ⟨hcalls, -, hlt⟩
    · obtain ⟨i, hi, rfl⟩ := mem_callsUpTo (hcalls ▸ hc)
      exact ⟨i, hi.le, hk.short i hi, rfl⟩
    · obtain ⟨i, hi, rfl⟩ := mem_callsUpTo (hcalls ▸ hc)
      rcases Nat.lt_succ_iff_lt_or_eq.mp hi with hik | rfl
      · exact ⟨i, hik.le, hk.short i hik, rfl⟩
      · exact ⟨i, le_rfl, hlt, rfl⟩
  obtain ⟨i, hi, hlt, rfl⟩ := hmade
  exact ⟨total_nonneg fun a ha => hk.going.1 a (ha.trans_le hi), sub_pos.mpr hlt, add_sub_cancel _ _⟩

/-- The loop gets to the end of the buffer when the results alone, taken in turn, do so before an error and before the
last zero. -/
theorem EndsAt.whole_iff (h : EndsAt rets limit len k out) (hk : Reached rets limit len k) :
    out.n = len ↔ ∃ j, Going rets limit j ∧ total rets j = len := by
  rw [h.calls.1]
  constructor
  · exact fun heq => ⟨k, hk.going, heq⟩
  · rintro ⟨j, hj, heq⟩
    rcases Nat.lt_or_ge k j with hkj | hjk
    · cases h with
      | whole h => exact h
      | error hlt hneg => exact absurd (hj.1 k hkj) hneg.not_ge
      | exhausted hlt h0 hlast =>
        have hcount := (hj.of_le (Nat.succ_le_of_lt hkj)).2
        rw [Nat.count_succ, if_pos h0] at hcount
        omega
    · have hmono := total_mono hk.going.1 hjk
      cases h with
      | whole h => exact h
      | error hlt => omega
      | exhausted hlt => omega

end End

/-- `my_read` gives up at the eleventh result that is zero, `my_write` at the first. Either returns, whatever the
results are, and has then transferred exactly the first `n` bytes of the buffer, by calls that each ask for all the
rest. -/
theorem transfer_accounts {f : (ℕ → ℤ) → ℤ → ℕ → Option IoLoop} {limit : ℕ}
    (hf : f = myRead ∧ limit = 11 ∨ f = myWrite ∧ limit = 1) (rets : ℕ → ℤ) {len : ℤ} (hlen : 0 ≤ len)
    (hret : MayReturn rets limit len) :
    ∃ out, (∀ fuel, len.toNat + limit ≤ fuel → f rets len fuel = some out) ∧
      0 ≤ out.n ∧ out.n ≤ len ∧
      out.calls.map IoCall.ret = (List.range out.calls.length).map rets ∧
      out.n = ((out.calls.map IoCall.ret).filter fun r => 0 ≤ r).sum ∧
      out.calls = callsUpTo rets len out.calls.length ∧
      (∀ c ∈ out.calls, 0 ≤ c.off ∧ 0 < c.count ∧ c.off + c.count = len) ∧
      Chunks.Tiles len.toNat 0 out.n
        ((out.calls.filter fun c => 0 < c.ret).map fun c => (c.off, c.ret.toNat)) ∧
      (out.n = len ↔
        ∃ k, (∀ i < k, 0 ≤ rets i) ∧ Nat.count (fun i => rets i = 0) k < limit ∧ total rets k = len) := by
  have hstart : ∀ fuel, f rets len fuel = ioLoop rets len fuel (loopAt rets limit len 0) := by
    intro fuel
    rcases hf with ⟨rfl, rfl⟩ | ⟨rfl, rfl⟩ <;> rw [loopAt, total, Finset.sum_range_zero, sub_zero] <;> rfl
  have hreached : Reached rets limit len 0 := .start (by omega) hlen
  have hrounds : (len - total rets 0) + (limit - Nat.count (fun i => rets i = 0) 0 : ℤ) ≤ (len.toNat + limit : ℕ) := by
    rw [total, Finset.sum_range_zero, Nat.count_zero]
    push_cast
    omega
  obtain ⟨k, out, hk, hend, hrun⟩ := ioLoop_at hret (len.toNat + limit) hreached hrounds
  refine ⟨out, fun fuel hfuel => (hstart fuel).trans (hrun fuel hfuel), ?_, ?_, ?_, hend.consumed hk, hend.calls_eq,
    fun c hc => hend.inside hk hc, hend.tiles hk, (hend.whole_iff hk).trans ?_⟩
  · rw [hend.calls.1]
    exact total_nonneg hk.going.1
  · rw [hend.calls.1]
    exact hk.le
  · conv_lhs => rw [hend.calls_eq, callsUpTo_rets]
  · exact exists_congr fun j => and_assoc

/-- A read of three bytes that gets two, then nothing, then an error. -/
theorem transfer_accounts_two_of_three :
    let rets : ℕ → ℤ := fun k => [2, 0].getD k (-1)
    MayReturn rets 11 3 ∧
      myRead rets 3 14 = some ⟨9, 2, 1, [⟨0, 3, 2⟩, ⟨2, 1, 0⟩, ⟨2, 1, -1⟩]⟩ ∧
      ¬ ∃ k, (∀ i < k, 0 ≤ rets i) ∧ Nat.count (fun i => rets i = 0) k < 11 ∧ total rets k = 3 := by
  intro rets
  have hret : MayReturn rets 11 3 := by
    intro k _ hlt
    match k with
    | 0 => decide
    | 1 => decide
    | k + 2 => exact ⟨le_rfl, show (-1 : ℤ) ≤ 3 - total rets (k + 2) by omega⟩
  have hrun : myRead rets 3 14 = some ⟨9, 2, 1, [⟨0, 3, 2⟩, ⟨2, 1, 0⟩, ⟨2, 1, -1⟩]⟩ := by decide
  obtain ⟨out, hout, -, -, -, -, -, -, -, hwhole⟩ :=
    transfer_accounts (.inl ⟨rfl, rfl⟩) rets (show (0 : ℤ) ≤ 3 by decide) hret
  refine ⟨hret, hrun, fun h => ?_⟩
  have h3 := hwhole.mpr h
  rw [← Option.some.inj (hrun.symm.trans (hout 14 (by decide)))] at h3
  exact absurd h3 (by decide)

end TeleSync
