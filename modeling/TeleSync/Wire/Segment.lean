import TeleSync.Lib.Delimiter

/-!
# Segments: a payload between markers

`send_segment` and `recv_segment` of `utility/segment.c`:

* `segmentSends` : the three buffers that `send_segment` passes to `send()`, `sendSegment` the bytes
  they put on an idle connection;
* `recvSegment` : the automaton of `recv_segment` on the bytes of the connection, with what it leaves
  unread;
* `recvSegment_first` : it stops at the first end marker after a start marker;
* `recvSegments_exact_iff` : segments come back as they were sent exactly when no payload has an end
  marker in it.

A call that runs out of bytes returns -1, as `recv_segment` does when the connection is closed.
-/

namespace TeleSync

/-- A string of bytes, in memory or on a connection. -/
abbrev Bytes := List UInt8

/-- `start_buf`: '!' and '&'. -/
def startMarker : Bytes := [0x21, 0x26]

/-- `end_buf`: '!' and '#'. -/
def endMarker : Bytes := [0x21, 0x23]

/-- The buffers that `send_segment` sends, one `send()` each. -/
def segmentSends (buf : Bytes) : List Bytes := [startMarker, buf, endMarker]

/-- `send_segment` on an idle connection. -/
def sendSegment (buf : Bytes) : Bytes := (segmentSends buf).flatten

/-- The values 0 to 3 of `state`. -/
inductive RecvState where
  | idle
  | startBang
  | segment
  | endBang

/-- What `recv_segment` returns, writes to `buf` and leaves on the connection. -/
structure RecvResult where
  ret : ℤ
  buf : Bytes
  rest : Bytes
  deriving DecidableEq

/-- The loop of `recv_segment`; `idx` is the length of `buf`. -/
def recvLoop : RecvState → Bytes → Bytes → RecvResult
  | _, buf, [] => ⟨-1, buf, []⟩
  | .idle, buf, c :: s => if c = 0x21 then recvLoop .startBang buf s else recvLoop .idle buf s
  | .startBang, buf, c :: s => if c = 0x26 then recvLoop .segment buf s else recvLoop .idle buf s
  | .segment, buf, c :: s =>
    if c = 0x21 then recvLoop .endBang (buf ++ [c]) s else recvLoop .segment (buf ++ [c]) s
  | .endBang, buf, c :: s =>
    if c = 0x23 then ⟨(buf ++ [c]).length, buf ++ [c], s⟩
    else if c = 0x21 then recvLoop .endBang (buf ++ [c]) s
    else recvLoop .segment (buf ++ [c]) s

/-- `recv_segment` on a connection with the given unread bytes. -/
def recvSegment (stream : Bytes) : RecvResult := recvLoop .idle [] stream

/-- `k` calls in a row. -/
def recvSegments : ℕ → Bytes → List (ℤ × Bytes) × Bytes
  | 0, stream => ([], stream)
  | k + 1, stream =>
    let r := recvSegment stream
    let q := recvSegments k r.rest
    ((r.ret, r.buf) :: q.1, q.2)

/-! ## One segment -/

theorem sendSegment_eq (p : Bytes) : sendSegment p = startMarker ++ (p ++ endMarker) := by
  simp [sendSegment, segmentSends]

/-- Inside a segment the automaton stops at the first end marker; after a '!' that holds as long as
the '!' does not begin one. -/
theorem recvLoop_first (a : Bytes) (s : Bytes) :
    (¬ endMarker <:+: a → ∀ buf, recvLoop .segment buf (a ++ endMarker ++ s) =
      ⟨(buf ++ a ++ endMarker).length, buf ++ a ++ endMarker, s⟩) ∧
    (¬ endMarker <:+: 0x21 :: a → ∀ buf, recvLoop .endBang buf (a ++ endMarker ++ s) =
      ⟨(buf ++ a ++ endMarker).length, buf ++ a ++ endMarker, s⟩) := by
  induction a with
  | nil => simp [endMarker, recvLoop]
  | cons c a ih =>
    obtain ⟨ihs, ihb⟩ := ih
    refine ⟨fun h buf => ?_, fun h buf => ?_⟩
    · rw [List.cons_append, List.cons_append, recvLoop]
      split_ifs with hc
      · rw [ihb (hc ▸ h)]
        simp
      · rw [ihs (Delimiter.not_pair_infix_tail h)]
        simp
    · have hne : c ≠ 0x23 := Delimiter.ne_of_not_pair_infix h
      rw [List.cons_append, List.cons_append, recvLoop, if_neg hne]
      split_ifs with hc
      · rw [ihb (hc ▸ Delimiter.not_pair_infix_tail h)]
        simp
      · rw [ihs (Delimiter.not_pair_infix_tail (Delimiter.not_pair_infix_tail h))]
        simp

theorem recvSegment_first {a : Bytes} (h : ¬ endMarker <:+: a) (s : Bytes) :
    recvSegment (startMarker ++ (a ++ endMarker ++ s)) = ⟨a.length + 2, a ++ endMarker, s⟩ := by
  have hopen : recvSegment (startMarker ++ (a ++ endMarker ++ s)) = recvLoop .segment [] (a ++ endMarker ++ s) :=
    rfl
  rw [hopen, (recvLoop_first a s).1 h, List.nil_append, List.length_append]
  rfl

theorem recvSegment_sendSegment {p : Bytes} (h : ¬ endMarker <:+: p) (s : Bytes) :
    recvSegment (sendSegment p ++ s) = ⟨p.length + 2, p ++ endMarker, s⟩ := by
  rw [sendSegment_eq, List.append_assoc]
  exact recvSegment_first h s

/-- A payload with an end marker in it comes back cut off. -/
theorem recvSegment_cut {p : Bytes} (h : endMarker <:+: p) (s : Bytes) :
    ∃ a b, p = a ++ endMarker ++ b ∧
      recvSegment (sendSegment p ++ s) = ⟨a.length + 2, a ++ endMarker, b ++ endMarker ++ s⟩ := by
  obtain ⟨a, b, rfl, ha⟩ := Delimiter.exists_first h
  refine ⟨a, b, by simp [endMarker], ?_⟩
  rw [← recvSegment_first ha, sendSegment_eq]
  simp [endMarker]

/-! ## All segments -/

/-- What the receiver of a payload should get from one call. -/
def delivered (p : Bytes) : ℤ × Bytes := (p.length + 2, p ++ endMarker)

theorem recvSegments_sendSegment {p : Bytes} (h : ¬ endMarker <:+: p) (k : ℕ) (s : Bytes) :
    recvSegments (k + 1) (sendSegment p ++ s) =
      (delivered p :: (recvSegments k s).1, (recvSegments k s).2) := by
  rw [recvSegments, recvSegment_sendSegment h]
  rfl

theorem recvSegments_append {ps : List Bytes} (h : ∀ p ∈ ps, ¬ endMarker <:+: p) (s : Bytes) :
    recvSegments ps.length (ps.flatMap sendSegment ++ s) = (ps.map delivered, s) := by
  induction ps with
  | nil => rfl
  | cons p ps ih =>
    rw [List.forall_mem_cons] at h
    rw [List.flatMap_cons, List.append_assoc, List.length_cons, recvSegments_sendSegment h.1, ih h.2]
    rfl

/-- **The exact domain of the framing.** As many calls as segments were sent return every payload
with its end marker and its length plus two, in order, and leave nothing unread, if and only if no
payload has an end marker in it. -/
theorem recvSegments_exact_iff (ps : List Bytes) :
    recvSegments ps.length (ps.flatMap sendSegment) = (ps.map delivered, []) ↔
      ∀ p ∈ ps, ¬ endMarker <:+: p := by
  induction ps with
  | nil => simp [recvSegments]
  | cons p ps ih =>
    rw [List.flatMap_cons, List.length_cons, List.map_cons, List.forall_mem_cons]
    by_cases hp : endMarker <:+: p
    · obtain ⟨a, b, rfl, hcut⟩ := recvSegment_cut hp (ps.flatMap sendSegment)
      refine iff_of_false (fun heq => ?_) fun hall => hall.1 hp
      rw [recvSegments, hcut] at heq
      have hret := congrArg Prod.fst (List.cons.inj (congrArg Prod.fst heq)).1
      simp [delivered, endMarker] at hret
      omega
    · rw [recvSegments_sendSegment hp, Prod.mk.injEq, List.cons.injEq, ← ih]
      simp only [hp, true_and, not_false_eq_true]
      rw [Prod.ext_iff]

end TeleSync
