import TeleSync.Wire.Packet

/-!
# Receiving from the middle of a stream

Once a payload has been cut by an end marker inside it, `recv_segment` goes on in the middle of a payload. What it does
on any bytes:

* `scanSegment` : the reference, which cuts the stream at the first start marker and then at the first end marker;
* `bangs` : the '!' right before a start marker; after a '!' the automaton takes the next '!' for garbage;
* `recvSegment_scan_iff` : it finds what the reference finds exactly when their number is even, or there is no end
  marker to be found;
* `infix_open` : in a stream of segments, what follows a start marker has an end marker after one payload at most;
* `stored_le` : so no call stores more than a payload and its end marker, wherever it starts.
-/

namespace TeleSync
open Delimiter Memory

/-! ## The reference -/

/-- The bytes between the first start marker and the first end marker after it, with that marker, and what follows. -/
def scanSegment (stream : Bytes) : Option (Bytes × Bytes) :=
  (splitFirst 0x21 0x26 stream).bind fun opened =>
    (splitFirst 0x21 0x23 opened.2).map fun closed => (closed.1 ++ endMarker, closed.2)

/-- `recv_segment` returns what the reference finds, and -1 where it finds nothing. -/
def MatchesScan (stream : Bytes) : Prop :=
  match scanSegment stream with
  | some (buf, rest) => recvSegment stream = ⟨buf.length, buf, rest⟩
  | none => (recvSegment stream).ret = -1

/-- How many '!' a word ends with. -/
def bangs (g : Bytes) : ℕ := (g.rtakeWhile (· == 0x21)).length

/-- No '!' is taken for another one, or nothing can be found after the first start marker. -/
def InStep (stream : Bytes) : Prop :=
  ∀ g t, splitFirst 0x21 0x26 stream = some (g, t) → Even (bangs g) ∨ splitFirst 0x21 0x23 t = none

/-! ## Before a start marker -/

theorem bangs_concat (g : Bytes) (c : UInt8) : bangs (g ++ [c]) = if c = 0x21 then bangs g + 1 else 0 := by
  rw [bangs, List.rtakeWhile_concat]
  by_cases hc : c = 0x21
  · simp [hc, bangs]
  · simp [hc]

theorem exists_concat_of_bangs {g : Bytes} (h : bangs g ≠ 0) : ∃ g', g = g' ++ [0x21] := by
  induction g using List.reverseRecOn with
  | nil => exact absurd rfl h
  | append_singleton g c _ =>
    rw [bangs_concat] at h
    split_ifs at h with hc
    · exact ⟨g, by rw [hc]⟩
    · exact absurd rfl h

/-- Bytes without a start marker leave the automaton at its start, or behind a '!' if they end with an odd number of
them. -/
theorem recvLoop_garbage {g : Bytes} (h : ¬ startMarker <:+: g) (buf s : Bytes) :
    recvLoop .idle buf (g ++ s) = recvLoop (if Even (bangs g) then .idle else .startBang) buf s := by
  induction g using List.reverseRecOn generalizing s with
  | nil => rfl
  | append_singleton g c ih =>
    have hg : ¬ startMarker <:+: g := fun hin => h (hin.trans (List.prefix_append g [c]).isInfix)
    rw [List.append_assoc, List.singleton_append, ih hg, bangs_concat]
    by_cases heven : Even (bangs g)
    · rw [if_pos heven, recvLoop]
      by_cases hc : c = 0x21
      · rw [if_pos hc, if_pos hc, if_neg (Nat.not_even_iff_odd.mpr heven.add_one)]
      · rw [if_neg hc, if_neg hc, if_pos Even.zero]
    · -- the '!' before `c` counts as seen, and `c` is not a '&'
      have hne : c ≠ 0x26 := by
        rintro rfl
        obtain ⟨g', rfl⟩ := exists_concat_of_bangs (fun hzero => heven (hzero ▸ Even.zero))
        exact h ⟨g', [], by simp [startMarker]⟩
      rw [if_neg heven, recvLoop, if_neg hne]
      by_cases hc : c = 0x21
      · rw [if_pos hc, if_pos (Nat.not_even_iff_odd.mp heven).add_one]
      · rw [if_neg hc, if_pos Even.zero]

/-- A start marker after such bytes opens a segment if the '!' are even in number, and is missed otherwise. -/
theorem recvSegment_garbage {g : Bytes} (h : ¬ startMarker <:+: g) (t : Bytes) :
    recvSegment (g ++ startMarker ++ t) = recvLoop (if Even (bangs g) then .segment else .idle) [] t := by
  rw [recvSegment, List.append_assoc, recvLoop_garbage h]
  split_ifs <;> rfl

/-! ## What a call takes -/

/-- How many bytes of a start marker are still to come. -/
def RecvState.toOpen : RecvState → ℕ
  | .idle => 2
  | .startBang => 1
  | .segment => 0
  | .endBang => 0

/-- What was read of an end marker. -/
def RecvState.seen : RecvState → Bytes
  | .endBang => [0x21]
  | _ => []

/-- At least a start marker is neither stored nor left. -/
theorem length_recvLoop (st : RecvState) (buf s : Bytes) (h : (recvLoop st buf s).ret ≠ -1) :
    (recvLoop st buf s).buf.length + (recvLoop st buf s).rest.length + st.toOpen ≤ buf.length + s.length := by
  fun_induction recvLoop st buf s with
  | case1 => exact absurd rfl h
  | case2 buf s ih =>
    have := ih h
    simp only [RecvState.toOpen, List.length_cons] at this ⊢
    omega
  | case3 buf c s _ ih =>
    have := ih h
    simp only [RecvState.toOpen, List.length_cons] at this ⊢
    omega
  | case4 buf s ih =>
    have := ih h
    simp only [RecvState.toOpen, List.length_cons] at this ⊢
    omega
  | case5 buf c s _ ih =>
    have := ih h
    simp only [RecvState.toOpen, List.length_cons] at this ⊢
    omega
  | case6 buf s ih =>
    have := ih h
    simp only [RecvState.toOpen, List.length_append, List.length_cons, List.length_nil] at this ⊢
    omega
  | case7 buf c s _ ih =>
    have := ih h
    simp only [RecvState.toOpen, List.length_append, List.length_cons, List.length_nil] at this ⊢
    omega
  | case8 buf s =>
    simp only [RecvState.toOpen, List.length_append, List.length_cons, List.length_nil]
    omega
  | case9 buf s _ ih =>
    have := ih h
    simp only [RecvState.toOpen, List.length_append, List.length_cons, List.length_nil] at this ⊢
    omega
  | case10 buf c s _ _ ih =>
    have := ih h
    simp only [RecvState.toOpen, List.length_append, List.length_cons, List.length_nil] at this ⊢
    omega

/-- Without an end marker nothing is returned. -/
theorem recvLoop_unended (st : RecvState) (buf s : Bytes) (h : ¬ endMarker <:+: st.seen ++ s) :
    (recvLoop st buf s).ret = -1 := by
  fun_induction recvLoop st buf s with
  | case1 => rfl
  | case2 buf s ih => exact ih (not_pair_infix_tail h)
  | case3 buf c s _ ih => exact ih (not_pair_infix_tail h)
  | case4 buf s ih => exact ih (not_pair_infix_tail h)
  | case5 buf c s _ ih => exact ih (not_pair_infix_tail h)
  | case6 buf s ih => exact ih h
  | case7 buf c s _ ih => exact ih (not_pair_infix_tail h)
  | case8 buf s => exact absurd rfl <| ne_of_not_pair_infix h
  | case9 buf s _ ih => exact ih (not_pair_infix_tail h)
  | case10 buf c s _ _ ih => exact ih (not_pair_infix_tail (not_pair_infix_tail h))

theorem rest_suffix_recvLoop (st : RecvState) (buf s : Bytes) : (recvLoop st buf s).rest <:+ s := by
  fun_induction recvLoop st buf s with
  | case1 => exact List.suffix_rfl
  | case2 buf s ih => exact ih.trans (List.suffix_cons _ _)
  | case3 buf c s _ ih => exact ih.trans (List.suffix_cons _ _)
  | case4 buf s ih => exact ih.trans (List.suffix_cons _ _)
  | case5 buf c s _ ih => exact ih.trans (List.suffix_cons _ _)
  | case6 buf s ih => exact ih.trans (List.suffix_cons _ _)
  | case7 buf c s _ ih => exact ih.trans (List.suffix_cons _ _)
  | case8 buf s => exact List.suffix_cons _ _
  | case9 buf s _ ih => exact ih.trans (List.suffix_cons _ _)
  | case10 buf c s _ _ ih => exact ih.trans (List.suffix_cons _ _)

/-! ## The same as the reference -/

theorem scanSegment_append {g : Bytes} (h : ¬ startMarker <:+: g) (t : Bytes) :
    scanSegment (g ++ startMarker ++ t) =
      (splitFirst 0x21 0x23 t).map fun closed => (closed.1 ++ endMarker, closed.2) := by
  have hopen : splitFirst 0x21 0x26 (g ++ startMarker ++ t) = some (g, t) := by
    rw [List.append_assoc]
    exact splitFirst_append (by decide) h t
  unfold scanSegment
  rw [hopen]
  rfl

theorem recvLoop_idle_ne (a rest : Bytes) (n : ℤ) (hn : 0 ≤ n) :
    recvLoop .idle [] (a ++ endMarker ++ rest) ≠ ⟨n, a ++ endMarker, rest⟩ := by
  intro heq
  have hlen := length_recvLoop .idle [] (a ++ endMarker ++ rest) (by rw [heq]; dsimp only; omega)
  rw [heq] at hlen
  simp only [RecvState.toOpen, List.length_append, List.length_nil] at hlen
  omega

theorem matchesScan_append {g : Bytes} (h : ¬ startMarker <:+: g) (t : Bytes) :
    MatchesScan (g ++ startMarker ++ t) ↔ Even (bangs g) ∨ splitFirst 0x21 0x23 t = none := by
  unfold MatchesScan
  rw [scanSegment_append h, recvSegment_garbage h]
  cases ht : splitFirst 0x21 0x23 t with
  | none =>
    have hend : ¬ endMarker <:+: t := splitFirst_eq_none.mp ht
    refine iff_of_true ?_ (Or.inr rfl)
    show (recvLoop _ [] t).ret = -1
    split_ifs
    · exact recvLoop_unended .segment [] t hend
    · exact recvLoop_unended .idle [] t hend
  | some closed =>
    obtain ⟨a, rest⟩ := closed
    obtain ⟨rfl, ha⟩ := splitFirst_eq_some ht
    have hsplit : a ++ 0x21 :: 0x23 :: rest = a ++ endMarker ++ rest := by simp [endMarker]
    rw [hsplit]
    show recvLoop _ [] (a ++ endMarker ++ rest) = ⟨_, _, _⟩ ↔ _
    by_cases heven : Even (bangs g)
    · rw [if_pos heven, (recvLoop_first a rest).1 ha]
      exact iff_of_true rfl (Or.inl heven)
    · rw [if_neg heven]
      refine iff_of_false (recvLoop_idle_ne a rest _ (by omega)) ?_
      rintro (hgood | hnone)
      · exact heven hgood
      · cases hnone

/-- **`recv_segment` and its reference scanner.** On any stream, the two agree if and only if the first start marker has
an even number of '!' right before it, or no end marker after it; so after garbage without a start marker the next
segment is received exactly when the garbage ends with an even number of '!'. -/
theorem recvSegment_scan_iff (s : Bytes) :
    (MatchesScan s ↔ InStep s) ∧
      ∀ g p rest, ¬ startMarker <:+: g → ¬ endMarker <:+: p →
        (recvSegment (g ++ sendSegment p ++ rest) = ⟨p.length + 2, p ++ endMarker, rest⟩ ↔ Even (bangs g)) := by
  refine ⟨?_, fun g p rest hg hp => ?_⟩
  · cases hs : splitFirst 0x21 0x26 s with
    | none =>
      have hopen : ¬ startMarker <:+: s := splitFirst_eq_none.mp hs
      have hscan : scanSegment s = none := by
        unfold scanSegment
        rw [hs]
        rfl
      refine iff_of_true ?_ fun g t hgt => ?_
      · unfold MatchesScan
        rw [hscan]
        show (recvSegment s).ret = -1
        have hgarbage := recvLoop_garbage hopen [] []
        rw [List.append_nil] at hgarbage
        rw [recvSegment, hgarbage]
        split_ifs <;> rfl
      · rw [hs] at hgt
        cases hgt
    | some opened =>
      obtain ⟨g, t⟩ := opened
      obtain ⟨rfl, hg⟩ := splitFirst_eq_some hs
      have hsplit : g ++ 0x21 :: 0x26 :: t = g ++ startMarker ++ t := by simp [startMarker]
      unfold InStep
      rw [hs, hsplit, matchesScan_append hg]
      constructor
      · rintro h g' t' heq
        cases heq
        exact h
      · exact fun h => h g t rfl
  · have hsplit : g ++ sendSegment p ++ rest = g ++ startMarker ++ (p ++ endMarker ++ rest) := by
      simp [sendSegment_eq]
    rw [hsplit, recvSegment_garbage hg]
    by_cases heven : Even (bangs g)
    · rw [if_pos heven, (recvLoop_first p rest).1 hp]
      exact iff_of_true (by simp [endMarker]) heven
    · rw [if_neg heven]
      exact iff_of_false (recvLoop_idle_ne p rest _ (by omega)) heven

/-- Behind "a!!" the segment of "b" is found. -/
theorem recvSegment_scan_even_garbage :
    let g : Bytes := [0x61, 0x21, 0x21]
    MatchesScan (g ++ sendSegment [0x62]) ∧ recvSegment (g ++ sendSegment [0x62] ++ []) = ⟨3, [0x62] ++ endMarker, []⟩ := by
  intro g
  have hgarbage : ¬ startMarker <:+: g := by decide
  have hpayload : ¬ endMarker <:+: [0x62] := by decide
  have hscan := recvSegment_scan_iff (g ++ sendSegment [0x62])
  refine ⟨hscan.1.mpr ?_, (hscan.2 g [0x62] [] hgarbage hpayload).mpr (by decide)⟩
  intro g' t heq
  have hsplit : splitFirst 0x21 0x26 (g ++ sendSegment [0x62]) = some (g, [0x62] ++ endMarker) := by decide
  rw [hsplit] at heq
  cases heq
  exact Or.inl (by decide)

/-- The stream "!!&a!#": the reference finds "a!#", and `recv_segment` takes the second '!' for garbage. -/
theorem second_bang_skipped :
    let s : Bytes := [0x21] ++ sendSegment [0x61]
    scanSegment s = some ([0x61] ++ endMarker, []) ∧ recvSegment s = ⟨-1, [], []⟩ ∧ ¬ MatchesScan s := by
  intro s
  have hscan : scanSegment s = some ([0x61] ++ endMarker, []) := by decide
  have hrecv : recvSegment s = ⟨-1, [], []⟩ := by decide
  refine ⟨hscan, hrecv, fun h => ?_⟩
  unfold MatchesScan at h
  rw [hscan, hrecv] at h
  cases h

/-! ## How much a call stores -/

/-- Inside a segment, whose end marker comes after `q` at the latest. -/
theorem stored_in_segment {q rest : Bytes} (buf s : Bytes) (h : s <+: q ++ endMarker ++ rest) :
    (recvLoop .segment buf s).buf.length ≤ buf.length + q.length + 2 ∧
      (recvLoop .endBang buf s).buf.length ≤ buf.length + q.length + 2 := by
  induction q generalizing buf s with
  | nil =>
    rcases s with - | ⟨c, s⟩
    · exact ⟨by rw [recvLoop]; dsimp only; omega, by rw [recvLoop]; dsimp only; omega⟩
    · obtain ⟨rfl, hs⟩ := List.cons_prefix_cons.mp h
      -- after the '!' of the end marker
      have hbang : (recvLoop .endBang (buf ++ [0x21]) s).buf.length ≤ buf.length + 2 := by
        rcases s with - | ⟨d, s⟩
        · rw [recvLoop, List.length_append]
          exact Nat.add_le_add_left (by decide) _
        · obtain ⟨rfl, -⟩ := List.cons_prefix_cons.mp hs
          rw [recvLoop, if_pos rfl]
          simp
      rw [recvLoop, if_pos rfl, recvLoop, if_neg (by decide), if_pos rfl]
      exact ⟨hbang, hbang⟩
  | cons d q ih =>
    rcases s with - | ⟨c, s⟩
    · exact ⟨by rw [recvLoop]; dsimp only; omega, by rw [recvLoop]; dsimp only; omega⟩
    · obtain ⟨rfl, hs⟩ := List.cons_prefix_cons.mp h
      obtain ⟨hsegment, hbang⟩ := ih (buf ++ [c]) s hs
      rw [List.length_append, List.length_singleton] at hsegment hbang
      rw [List.length_cons]
      constructor
      · rw [recvLoop]
        split_ifs
        · omega
        · omega
      · rw [recvLoop]
        split_ifs
        · rw [List.length_append, List.length_singleton]
          omega
        · omega
        · omega

/-- What follows a start marker anywhere in a stream of segments: an end marker, after `L` bytes at most. -/
theorem infix_open {L : ℕ} {ps : List Bytes} (hps : ∀ p ∈ ps, p.length ≤ L) {u v : Bytes}
    (h : ps.flatMap sendSegment = u ++ startMarker ++ v) :
    ∃ q rest, v = q ++ endMarker ++ rest ∧ q.length ≤ L := by
  induction ps generalizing u with
  | nil => simp [startMarker] at h
  | cons p ps ih =>
    rw [List.forall_mem_cons] at hps
    rw [List.flatMap_cons, sendSegment_eq, List.append_assoc, List.append_assoc, List.append_assoc] at h
    rcases u with - | ⟨b, - | ⟨b', u⟩⟩
    · -- the start marker of this segment
      exact ⟨p, ps.flatMap sendSegment, by simpa [startMarker] using h.symm, hps.1⟩
    · simp [startMarker] at h
    · have h : p ++ (endMarker ++ ps.flatMap sendSegment) = u ++ (startMarker ++ v) := by
        simp only [startMarker, List.cons_append, List.nil_append, List.cons.injEq] at h ⊢
        exact h.2.2
      rcases List.append_eq_append_iff.mp h with ⟨w, rfl, hw⟩ | ⟨w, rfl, hw⟩
      · -- behind the payload, so behind its end marker
        rcases w with - | ⟨c, - | ⟨c', w⟩⟩
        · simp [startMarker, endMarker] at hw
        · simp [startMarker, endMarker] at hw
        · refine ih hps.2 (u := w) ?_
          simp only [endMarker, List.cons_append, List.nil_append, List.cons.injEq] at hw
          rw [hw.2.2, List.append_assoc]
      · -- inside the payload
        rw [List.length_append] at hps
        rcases w with - | ⟨c, - | ⟨c', w⟩⟩
        · simp [startMarker, endMarker] at hw
        · simp [startMarker, endMarker] at hw
        · refine ⟨w, ps.flatMap sendSegment, ?_, by simp only [List.length_cons] at hps; omega⟩
          simp only [startMarker, List.cons_append, List.nil_append, List.cons.injEq] at hw
          rw [hw.2.2, List.append_assoc]

/-- Bytes out of a stream of segments whose payloads have `L` bytes at most. -/
def OfSegments (L : ℕ) (s : Bytes) : Prop := ∃ ps : List Bytes, (∀ p ∈ ps, p.length ≤ L) ∧ s <:+: ps.flatMap sendSegment

theorem OfSegments.part {L : ℕ} {s t : Bytes} (h : OfSegments L s) (ht : t <:+: s) : OfSegments L t := by
  obtain ⟨ps, hps, hs⟩ := h
  exact ⟨ps, hps, ht.trans hs⟩

theorem OfSegments.capture {L : ℕ} {s : Bytes} (h : OfSegments L (startMarker ++ s)) :
    (recvLoop .segment [] s).buf.length ≤ L + 2 := by
  obtain ⟨ps, hps, u, w, hsplit⟩ := h
  rw [← List.append_assoc, List.append_assoc] at hsplit
  obtain ⟨q, rest, hq, hle⟩ := infix_open hps hsplit.symm
  have hprefix : s <+: q ++ endMarker ++ rest := ⟨w, hq⟩
  have hstored := (stored_in_segment [] s hprefix).1
  rw [List.length_nil] at hstored
  omega

theorem stored_le {L : ℕ} (s : Bytes) :
    (OfSegments L s → (recvLoop .idle [] s).buf.length ≤ L + 2) ∧
      (OfSegments L (0x21 :: s) → (recvLoop .startBang [] s).buf.length ≤ L + 2) := by
  induction s with
  | nil => exact ⟨fun _ => Nat.zero_le _, fun _ => Nat.zero_le _⟩
  | cons c s ih =>
    have hskip : OfSegments L (c :: s) → (recvLoop .idle [] s).buf.length ≤ L + 2 :=
      fun h => ih.1 (h.part (List.suffix_cons c s).isInfix)
    constructor
    · intro h
      rw [recvLoop]
      split_ifs with hc
      · exact ih.2 (hc ▸ h)
      · exact hskip h
    · intro h
      rw [recvLoop]
      split_ifs with hc
      · rw [hc] at h
        exact h.capture
      · exact hskip (h.part (List.suffix_cons _ _).isInfix)

theorem stored_recvSegments {L : ℕ} {s : Bytes} (h : OfSegments L s) (k : ℕ) :
    ∀ r ∈ (recvSegments k s).1, r.2.length ≤ L + 2 := by
  induction k generalizing s with
  | zero =>
    intro r hr
    cases hr
  | succ k ih =>
    rw [recvSegments, List.forall_mem_cons]
    exact ⟨(stored_le s).1 h, ih (h.part (rest_suffix_recvLoop .idle [] s).isInfix)⟩

/-! ## The buffers of the packet functions -/

def p2pPacketSize : ℕ := (CType.struct (ttopPacketHeaderFields ++ [(CType.int 1).array MAX_PKT_DATA_LEN])).size

theorem stored_packets {η : Type} (K : PacketKind η) {size : ℕ} (hsize : K.hdrSize + 65535 ≤ size) {pkts : List Mem}
    {s : Bytes} (hs : s <+: pkts.flatMap K.send) (k : ℕ) : ∀ r ∈ (recvSegments k s).1, r.2.length ≤ size + 2 := by
  apply stored_recvSegments
  refine ⟨pkts.map fun pkt => slice pkt 0 (K.packetLen pkt), fun p hp => ?_, ?_⟩
  · obtain ⟨pkt, -, rfl⟩ := List.mem_map.mp hp
    rw [length_slice, PacketKind.packetLen]
    have := (K.dataLen (K.hdr pkt)).toNat_lt
    omega
  · rw [List.flatMap_map]
    exact hs.isInfix

/-- **Receive buffers suffice.** On a stream of segments with payloads of `L` bytes at most, or on what has arrived of it,
no call stores more than `L + 2` bytes, whatever the payloads contain and wherever earlier calls have stopped; so the
buffers for packets, which have two bytes more than a packet, are never overrun. -/
theorem receive_buffers_suffice :
    (∀ (L : ℕ) (ps : List Bytes), (∀ p ∈ ps, p.length ≤ L) → ∀ s, s <+: ps.flatMap sendSegment → ∀ k,
      ∀ r ∈ (recvSegments k s).1, r.2.length ≤ L + 2) ∧
    (∀ (pkts : List Mem) (s : Bytes), s <+: pkts.flatMap sendPtotPacket → ∀ k,
      ∀ r ∈ (recvSegments k s).1, r.2.length ≤ ptotPacketSize + 2) ∧
    (∀ (pkts : List Mem) (s : Bytes), s <+: pkts.flatMap sendTtopPacket → ∀ k,
      ∀ r ∈ (recvSegments k s).1, r.2.length ≤ ttopPacketSize + 2) ∧
    ∀ (pkts : List Mem) (s : Bytes), s <+: pkts.flatMap sendP2pPacket → ∀ k,
      ∀ r ∈ (recvSegments k s).1, r.2.length ≤ p2pPacketSize + 2 := by
  refine ⟨fun L ps hps s hs k => ?_, fun pkts s hs k => ?_, fun pkts s hs k => ?_, fun pkts s hs k => ?_⟩
  · exact stored_recvSegments ⟨ps, hps, hs.isInfix⟩ k
  · exact stored_packets ptotPacket (by decide) hs k
  · exact stored_packets ttopPacket (by decide) hs k
  · exact stored_packets p2pPacket (by decide) hs k

/-- Payloads that are markers, in four calls. -/
theorem receive_buffers_suffice_markers :
    let ps : List Bytes := [endMarker ++ startMarker, startMarker ++ endMarker]
    (∀ p ∈ ps, p.length ≤ 4) ∧ ∀ r ∈ (recvSegments 4 (ps.flatMap sendSegment)).1, r.2.length ≤ 4 + 2 := by
  intro ps
  have hps : ∀ p ∈ ps, p.length ≤ 4 := by decide
  exact ⟨hps, receive_buffers_suffice.1 4 ps hps _ (List.prefix_refl _) 4⟩

end TeleSync
