import TeleSync.Lib.Transition
import TeleSync.Wire.Segment

/-!
# Threads that send on one connection

`send_segment` takes no lock and calls `send()` three times, so the buffers of threads that share a
connection interleave on it in any order:

* `Connection` : how many of its sends each thread has made, and the bytes sent so far;
* `senders` : the next `send()` of any thread as a step;
* `StartsAlone` : no thread starts a segment while another one is open, which nothing in the callers
  ensures;
* `Orderly` : under it the stream is whole segments and at most one open one behind them;
* `concurrent_segments` : such runs deliver every packet, and all runs do only when there is at most
  one packet.
-/

namespace TeleSync
open Transition

variable {ι : Type}

/-! ## The connection and its receiver -/

/-- Threads `ι` that each send one segment, and the bytes their `send()` calls have appended. -/
structure Connection (ι : Type) where
  sent : ι → ℕ
  stream : Bytes

namespace Connection

/-- Nothing sent yet. -/
def fresh : Connection ι := ⟨fun _ => 0, []⟩

/-- Every thread has made its three sends. -/
def Complete (s : Connection ι) : Prop := ∀ i, s.sent i = 3

instance [Fintype ι] (s : Connection ι) : Decidable s.Complete :=
  inferInstanceAs (Decidable (∀ i, s.sent i = 3))

/-- The threads whose segment is on the connection with its end marker. -/
def finished [Fintype ι] (s : Connection ι) : Finset ι := Finset.univ.filter fun i => s.sent i = 3

end Connection

/-- As many calls as segments were finished return these, each once, in some order, and leave nothing
unread once all threads are done. -/
def Delivers [Fintype ι] (payload : ι → Bytes) (s : Connection ι) : Prop :=
  let r := recvSegments s.finished.card s.stream
  (r.1 : Multiset (ℤ × Bytes)) = s.finished.val.map (fun i => delivered (payload i)) ∧
    (s.Complete → r.2 = [])

instance [Fintype ι] (payload : ι → Bytes) (s : Connection ι) : Decidable (Delivers payload s) :=
  inferInstanceAs (Decidable (_ ∧ (_ → _)))

/-- Whole segments of the finished threads, then what an open one has sent. -/
structure Orderly (payload : ι → Bytes) (s : Connection ι) (done : List ι) : Prop where
  nodup : done.Nodup
  mem_done : ∀ i, i ∈ done ↔ s.sent i = 3
  stream : ((∀ j, s.sent j = 0 ∨ s.sent j = 3) ∧ s.stream = done.flatMap fun j => sendSegment (payload j)) ∨
    ∃ i, (s.sent i = 1 ∨ s.sent i = 2) ∧ (∀ j, j ≠ i → s.sent j = 0 ∨ s.sent j = 3) ∧
      s.stream = (done.flatMap fun j => sendSegment (payload j)) ++
        ((segmentSends (payload i)).take (s.sent i)).flatten

theorem Orderly.delivers [Fintype ι] {payload : ι → Bytes} {s : Connection ι} {done : List ι}
    (h : Orderly payload s done)
    (hclean : ∀ i, ¬ endMarker <:+: payload i) : Delivers payload s := by
  have hfin : s.finished = ⟨done, h.nodup⟩ := by
    ext i
    rw [Connection.finished, Finset.mem_filter]
    exact ⟨fun hi => (h.mem_done i).mpr hi.2, fun hi => ⟨Finset.mem_univ i, (h.mem_done i).mp hi⟩⟩
  have hrecv : ∀ rest, recvSegments done.length ((done.flatMap fun j => sendSegment (payload j)) ++ rest) =
      (done.map fun j => delivered (payload j), rest) := by
    intro rest
    have hps : ∀ p ∈ done.map payload, ¬ endMarker <:+: p := by
      intro p hp
      obtain ⟨j, -, rfl⟩ := List.mem_map.mp hp
      exact hclean j
    have := recvSegments_append hps rest
    simpa [List.flatMap_map, Function.comp_def] using this
  unfold Delivers
  rw [hfin]
  dsimp only [Finset.card, Multiset.coe_card]
  rcases h.stream with ⟨-, hs⟩ | ⟨i, hi, -, hs⟩
  · have := hrecv []
    rw [List.append_nil, ← hs] at this
    rw [this]
    exact ⟨rfl, fun _ => rfl⟩
  · rw [hs, hrecv]
    refine ⟨rfl, fun hall => ?_⟩
    have := hall i
    omega

/-! ## The senders -/

variable [DecidableEq ι]

namespace Connection

/-- Thread `i` appends a buffer. -/
def push (s : Connection ι) (i : ι) (buf : Bytes) : Connection ι :=
  ⟨Function.update s.sent i (s.sent i + 1), s.stream ++ buf⟩

theorem sent_push_self (s : Connection ι) (i : ι) (buf : Bytes) : (s.push i buf).sent i = s.sent i + 1 :=
  Function.update_self _ _ _

theorem sent_push_of_ne (s : Connection ι) {i j : ι} (h : j ≠ i) (buf : Bytes) :
    (s.push i buf).sent j = s.sent j :=
  Function.update_of_ne h _ _

end Connection

/-- The threads with the payloads of their packets. -/
def senders (payload : ι → Bytes) : System (Connection ι) ι where
  step s i := (segmentSends (payload i))[s.sent i]?.map (s.push i)

/-- Thread `i` does not start a segment while another is open. -/
def StartsAlone (s : Connection ι) (i : ι) : Prop := s.sent i = 0 → ∀ j, s.sent j = 0 ∨ s.sent j = 3

instance [Fintype ι] (s : Connection ι) (i : ι) : Decidable (StartsAlone s i) :=
  inferInstanceAs (Decidable (_ → _))

section Steps
variable {payload : ι → Bytes} {s s' : Connection ι} {i : ι}

theorem senders_step_cases (h : (senders payload).step s i = some s') :
    (s.sent i = 0 ∧ s' = s.push i startMarker) ∨ (s.sent i = 1 ∧ s' = s.push i (payload i)) ∨
      (s.sent i = 2 ∧ s' = s.push i endMarker) := by
  obtain ⟨buf, hbuf, rfl⟩ := Option.map_eq_some_iff.mp h
  obtain ⟨hlt, rfl⟩ := List.getElem?_eq_some_iff.mp hbuf
  have hlt : s.sent i < 3 := hlt
  have hk : s.sent i = 0 ∨ s.sent i = 1 ∨ s.sent i = 2 := by omega
  rcases hk with hk | hk | hk
  · exact Or.inl ⟨hk, by simp [hk, segmentSends]⟩
  · exact Or.inr (Or.inl ⟨hk, by simp [hk, segmentSends]⟩)
  · exact Or.inr (Or.inr ⟨hk, by simp [hk, segmentSends]⟩)

theorem senders_step_of_lt (payload : ι → Bytes) (h : s.sent i < 3) :
    ∃ buf, (senders payload).step s i = some (s.push i buf) :=
  ⟨(segmentSends (payload i))[s.sent i], by simp [senders, segmentSends, h]⟩

/-! ## Runs in which segments start alone -/

theorem Orderly.open_self {done : List ι} (h : Orderly payload s done) (hi : s.sent i = 1 ∨ s.sent i = 2) :
    (∀ j, j ≠ i → s.sent j = 0 ∨ s.sent j = 3) ∧
      s.stream = (done.flatMap fun j => sendSegment (payload j)) ++
        ((segmentSends (payload i)).take (s.sent i)).flatten := by
  rcases h.stream with ⟨hall, -⟩ | ⟨k, -, hothers, hs⟩
  · have := hall i
    omega
  · have hik : i = k := by
      by_contra hne
      have := hothers i hne
      omega
    subst hik
    exact ⟨hothers, hs⟩

theorem Orderly.push_open {done : List ι} (h : Orderly payload s done) {buf : Bytes} (hlt : s.sent i < 2)
    (hothers : ∀ j, j ≠ i → s.sent j = 0 ∨ s.sent j = 3)
    (hstream : s.stream ++ buf = (done.flatMap fun j => sendSegment (payload j)) ++
      ((segmentSends (payload i)).take (s.sent i + 1)).flatten) : Orderly payload (s.push i buf) done := by
  refine ⟨h.nodup, fun j => ?_, Or.inr ⟨i, ?_, fun j hj => ?_, ?_⟩⟩
  · rw [h.mem_done]
    by_cases hj : j = i
    · subst hj
      rw [s.sent_push_self]
      omega
    · rw [s.sent_push_of_ne hj]
  · rw [s.sent_push_self]
    omega
  · rw [s.sent_push_of_ne hj]
    exact hothers j hj
  · rw [s.sent_push_self]
    exact hstream

theorem Orderly.push_end {done : List ι} (h : Orderly payload s done) (hk : s.sent i = 2) :
    Orderly payload (s.push i endMarker) (done ++ [i]) := by
  obtain ⟨hothers, hstream⟩ := h.open_self (Or.inr hk)
  have hnot : i ∉ done := by
    rw [h.mem_done]
    omega
  refine ⟨?_, fun j => ?_, Or.inl ⟨fun j => ?_, ?_⟩⟩
  · exact List.nodup_append.mpr ⟨h.nodup, List.nodup_singleton i, by
      rintro a ha b hb rfl
      exact hnot (List.mem_singleton.mp hb ▸ ha)⟩
  · by_cases hj : j = i
    · subst hj
      rw [s.sent_push_self, hk]
      simp
    · rw [s.sent_push_of_ne hj, ← h.mem_done]
      simp [hj]
  · by_cases hj : j = i
    · subst hj
      rw [s.sent_push_self]
      omega
    · rw [s.sent_push_of_ne hj]
      exact hothers j hj
  · rw [Connection.push, hstream, hk]
    simp [segmentSends, sendSegment]

theorem Orderly.step {done : List ι} (h : Orderly payload s done) (halone : StartsAlone s i)
    (hs : (senders payload).step s i = some s') : ∃ done', Orderly payload s' done' := by
  rcases senders_step_cases hs with ⟨hk, rfl⟩ | ⟨hk, rfl⟩ | ⟨hk, rfl⟩
  · have hclosed : s.stream = done.flatMap fun j => sendSegment (payload j) := by
      rcases h.stream with ⟨-, hs⟩ | ⟨k, hk', -⟩
      · exact hs
      · have := halone hk k
        omega
    refine ⟨done, h.push_open (by omega) (fun j _ => halone hk j) ?_⟩
    rw [hk, hclosed]
    simp [segmentSends]
  · obtain ⟨hothers, hstream⟩ := h.open_self (Or.inl hk)
    refine ⟨done, h.push_open (by omega) hothers ?_⟩
    rw [hstream, hk]
    simp [segmentSends]
  · exact ⟨_, h.push_end hk⟩

variable [Fintype ι]

theorem delivers_of_startsAlone (hclean : ∀ i, ¬ endMarker <:+: payload i) {es : List ι}
    (hok : (senders payload).RunMeets StartsAlone .fresh es)
    (hrun : (senders payload).run .fresh es = some s) : Delivers payload s := by
  have hfresh : Orderly payload Connection.fresh [] :=
    ⟨List.nodup_nil, by simp [Connection.fresh], Or.inl ⟨fun _ => Or.inl rfl, rfl⟩⟩
  obtain ⟨done, h⟩ := System.runMeets_invariant (I := fun s => ∃ done, Orderly payload s done)
    (fun t e t' ⟨done, ht⟩ hok hstep => ht.step hok hstep) ⟨[], hfresh⟩ hok hrun
  exact h.delivers hclean

/-! ## Runs in which they do not -/

/-- Whatever was sent so far, the threads can go on and finish. -/
theorem exists_complete (payload : ι → Bytes) (h : ∀ j, s.sent j ≤ 3) :
    ∃ es t, (senders payload).run s es = some t ∧ t.Complete ∧ s.stream <+: t.stream := by
  have hwork : ∀ t : Connection ι, ((∀ j, t.sent j ≤ 3) ∧ s.stream <+: t.stream) → ¬ t.Complete →
      ∃ j t', (senders payload).step t j = some t' ∧ ((∀ k, t'.sent k ≤ 3) ∧ s.stream <+: t'.stream) ∧
        ∑ k, (3 - t'.sent k) < ∑ k, (3 - t.sent k) := by
    rintro t ⟨hle, hpre⟩ hnot
    obtain ⟨j, hj⟩ := not_forall.mp hnot
    have hlt : t.sent j < 3 := lt_of_le_of_ne (hle j) hj
    obtain ⟨buf, hstep⟩ := senders_step_of_lt payload hlt
    have hsent : ∀ k, k ≠ j → (t.push j buf).sent k = t.sent k := fun k hk => t.sent_push_of_ne hk buf
    refine ⟨j, _, hstep, ⟨fun k => ?_, hpre.trans (List.prefix_append _ _)⟩, ?_⟩
    · by_cases hk : k = j
      · rw [hk, t.sent_push_self]
        omega
      · rw [hsent k hk]
        exact hle k
    · refine Finset.sum_lt_sum (fun k _ => ?_) ⟨j, Finset.mem_univ j, ?_⟩
      · by_cases hk : k = j
        · rw [hk, t.sent_push_self]
          omega
        · rw [hsent k hk]
      · rw [t.sent_push_self]
        omega
  obtain ⟨es, t, hrun, ⟨-, hpre⟩, hdone⟩ :=
    System.exists_run_of_measure (fun t : Connection ι => ∑ j, (3 - t.sent j)) hwork ⟨h, List.prefix_refl _⟩
  exact ⟨es, t, hrun, hdone, hpre⟩

/-- A start marker in front adds no end marker. -/
theorem not_marked_startMarker_append {p : Bytes} (h : ¬ endMarker <:+: p) :
    ¬ endMarker <:+: startMarker ++ p := by
  intro hm
  rcases Delimiter.pair_infix_cons.mp hm with ⟨-, s, hs⟩ | hm
  · have := (List.cons.inj hs).1
    revert this
    decide
  · rcases Delimiter.pair_infix_cons.mp hm with ⟨hc, -⟩ | hm
    · revert hc
      decide
    · exact h hm

/-- A thread that starts before a longest segment does makes the receiver return a segment that nobody
sent. -/
theorem exists_not_delivers (hclean : ∀ i, ¬ endMarker <:+: payload i) (hcard : 1 < Fintype.card ι) :
    ∃ es t, (senders payload).run .fresh es = some t ∧ t.Complete ∧ ¬ Delivers payload t := by
  have : Nonempty ι := Fintype.card_pos_iff.mp (by omega)
  obtain ⟨i, hmax⟩ := Finite.exists_max fun i => (payload i).length
  obtain ⟨j, hji⟩ := Fintype.exists_ne_of_one_lt_card hcard i
  let s₁ : Connection ι := (((Connection.fresh.push j startMarker).push i startMarker).push i (payload i)).push i
    endMarker
  have hrun₁ : (senders payload).run .fresh [j, i, i, i] = some s₁ := by
    simp [System.run, senders, segmentSends, Connection.fresh, Connection.push, hji.symm, s₁]
  have hle : ∀ k, s₁.sent k ≤ 3 := by
    intro k
    by_cases hki : k = i
    · subst hki
      simp [s₁, Connection.push, Connection.fresh, hji.symm]
    · by_cases hkj : k = j
      · subst hkj
        simp [s₁, Connection.push, Connection.fresh, hki]
      · simp [s₁, Connection.push, Connection.fresh, hki, hkj]
  obtain ⟨es, t, hrun, hdone, rest, hstream⟩ := exists_complete payload hle
  refine ⟨_, t, System.run_append_eq_some.mpr ⟨s₁, hrun₁, hrun⟩, hdone, fun hdel => ?_⟩
  obtain ⟨hperm, -⟩ := hdel
  have hfin : t.finished = Finset.univ := Finset.filter_true_of_mem fun k _ => hdone k
  obtain ⟨n, hn⟩ := Nat.exists_eq_succ_of_ne_zero (show Fintype.card ι ≠ 0 by omega)
  have hs : t.stream = startMarker ++ (startMarker ++ payload i ++ endMarker ++ rest) := by
    rw [← hstream]
    simp [s₁, Connection.push, Connection.fresh]
  rw [hfin, Finset.card_univ, hn, recvSegments, hs,
    recvSegment_first (not_marked_startMarker_append (hclean i))] at hperm
  have hmem : (((startMarker ++ payload i).length + 2 : ℤ), startMarker ++ payload i ++ endMarker) ∈
      (Finset.univ : Finset ι).val.map fun k => delivered (payload k) := by
    rw [← hperm]
    exact List.mem_cons_self
  obtain ⟨k, -, hk⟩ := Multiset.mem_map.mp hmem
  have hlen := congrArg (fun r : ℤ × Bytes => r.2.length) hk
  have hk' := hmax k
  simp [delivered, startMarker, endMarker] at hlen hk'
  omega

/-- **Concurrent senders on one connection.** For packets without an end marker in them: in every run
in which no thread starts a segment while another is open, the receiver gets every finished segment
once. All runs that finish deliver their packets if and only if there is at most one. -/
theorem concurrent_segments (payload : ι → Bytes) (hclean : ∀ i, ¬ endMarker <:+: payload i) :
    (∀ es s, (senders payload).RunMeets StartsAlone .fresh es → (senders payload).run .fresh es = some s →
      Delivers payload s) ∧
    ((∀ es s, (senders payload).run .fresh es = some s → s.Complete → Delivers payload s) ↔
      Fintype.card ι ≤ 1) := by
  refine ⟨fun es s hok hrun => delivers_of_startsAlone hclean hok hrun, fun hall => ?_, fun hcard => ?_⟩
  · by_contra hgt
    obtain ⟨es, t, hrun, hdone, hnot⟩ := exists_not_delivers hclean (not_le.mp hgt)
    exact hnot (hall es t hrun hdone)
  · intro es s hrun _
    have halone : ∀ (t : Connection ι) i, StartsAlone t i := fun t i hi j =>
      Or.inl (Fintype.card_le_one_iff.mp hcard j i ▸ hi)
    exact delivers_of_startsAlone hclean (System.runMeets_of_forall halone _ _) hrun

end Steps

/-- Two packets, the second sent after the first. -/
theorem concurrent_segments_in_turn :
    let payload : Fin 2 → Bytes := ![[0x61], [0x62, 0x63]]
    ∃ s, (senders payload).run .fresh [0, 0, 0, 1, 1, 1] = some s ∧ s.Complete ∧ Delivers payload s := by
  intro payload
  have hclean : ∀ i, ¬ endMarker <:+: payload i := by decide
  have hok : (senders payload).RunMeets StartsAlone .fresh [0, 0, 0, 1, 1, 1] := by decide
  have hrun := Option.some_get (show ((senders payload).run .fresh [0, 0, 0, 1, 1, 1]).isSome by decide)
  exact ⟨_, hrun.symm, by decide, (concurrent_segments payload hclean).1 _ _ hok hrun.symm⟩

/-- A keep-alive that starts inside another segment: the receiver gets a packet that nobody sent. -/
theorem concurrent_segments_mixed :
    let payload : Fin 2 → Bytes := ![[0x61], [0x62]]
    (∀ i, ¬ endMarker <:+: payload i) ∧
      ∃ s, (senders payload).run .fresh [0, 1, 1, 1, 0, 0] = some s ∧ s.Complete ∧ ¬ Delivers payload s := by
  intro payload
  have hrun := Option.some_get (show ((senders payload).run .fresh [0, 1, 1, 1, 0, 0]).isSome by decide)
  exact ⟨by decide, _, hrun.symm, by decide, by decide⟩

end TeleSync
