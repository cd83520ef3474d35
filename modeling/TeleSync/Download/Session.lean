import TeleSync.Download.Reassembly
import TeleSync.Wire.Packet
import TeleSync.Lib.Delimiter

/-!
# Piece requests and replies over a connection

The loop of `piece_download_task` (`client/download.c`) and that of `do_upload` (`client/start.c`) at the two ends of one
connection. A request is a packet; the reply is the bare bytes of the piece:

* `pieceReqPacket`, `pieceReqBytes` : a request, in memory and on the connection;
* `Arrives` : the request comes out of its packet as it was put in: what follows the first end marker in it is zero;
* `PieceSession`, `pieceSession` : the two loops, step by step, with the bytes under way in both directions;
* `Stage` : what holds in every reachable state;
* `piece_session_ends` : every run comes to an end, with the pieces before the first one whose request does not arrive,
  and all of them exactly when all requests arrive.
-/

namespace TeleSync
open Transition Memory Delimiter

/-! ## Requests -/

/-- `struct p2p_piece_request`, in memory. -/
def PieceRequest.mem (req : PieceRequest) : Mem := write (write zeroed 0 4 req.pieceId.toNat) 4 4 req.len.toNat

/-- `sizeof(struct p2p_piece_request)` -/
def pieceRequestSize : ℕ := (CType.struct [.int 4, .int 4]).size

/-- The packet for a request. -/
def pieceReqPacket (req : PieceRequest) : Mem := p2pPacketFill (p2pPacketInit .pieceReq) req.mem pieceRequestSize

/-- Its bytes on the connection, between the markers. -/
def pieceReqBytes (req : PieceRequest) : Bytes :=
    slice (pieceReqPacket req) 0 (p2pPacket.packetLen (pieceReqPacket req))

/-- `memcpy(&req, pkt->data, pkt->data_len)` where `data_len` is the size of `req`. -/
def pieceRequestAt (pkt : Mem) : PieceRequest where
  pieceId := .ofNat (read pkt ttopPacketHeaderSize 4)
  len := .ofNat (read pkt (ttopPacketHeaderSize + 4) 4)

/-- After the first '!#' in the packet there are only zeros. -/
def Arrives (req : PieceRequest) : Prop :=
  ∀ b ∈ (splitFirst 0x21 0x23 (pieceReqBytes req)).elim [] Prod.snd, b = (0 : UInt8)

instance (req : PieceRequest) : Decidable (Arrives req) := inferInstanceAs (Decidable (∀ b ∈ _, b = (0 : UInt8)))

/-! ## The two loops -/

/-- `piece_download_task`, from `get_new_piece` on. -/
inductive PieceThread where
  | looking
  /-- in `my_read`, with what has come so far -/
  | reading (req : PieceRequest) (pieceBuf : Bytes)
  | ended (ret : ℤ)
  deriving DecidableEq

/-- `do_upload`, from `accept` on. -/
inductive Uploader where
  | receiving
  /-- in `my_write`, with what is left -/
  | sending (left : Bytes)
  | closed
  /-- a `data_len` that is not the size of a request: `req` is not written, or written over its end -/
  | undefined
  deriving DecidableEq

/-- The requests to come, the pieces that the thread has finished, and the connection between them. -/
structure PieceSession where
  todo : List PieceRequest
  thread : PieceThread
  up : Bytes
  uploader : Uploader
  pkt : Mem
  down : Bytes
  pieces : List (PieceRequest × Bytes)

inductive SessionEvent where
  | next
  | receive
  | write (n : ℕ)
  | written
  | read (n : ℕ)
  | finish
  | readFail
  deriving DecidableEq

/-- What `do_upload` makes of a packet. -/
def uploaderTakes (F : Bytes) (pieceLen : Int32) (pkt : Mem) : Uploader :=
  if (p2pPacketHeader pkt).type ≠ .ofNat P2pPacketType.pieceReq.ctorIdx then .closed
  else if (p2pPacketHeader pkt).dataLen.toNat ≠ pieceRequestSize then .undefined
  else
    match uploadPiece F pieceLen (pieceRequestAt pkt) with
    | none => .closed
    | some pieceBuf => .sending pieceBuf

/-- One step of either loop. `recv_p2p_packet` returns once a segment is there, or when the connection is closed. -/
def pieceSessionStep (F : Bytes) (pieceLen : Int32) (s : PieceSession) : SessionEvent → Option PieceSession
  | .next =>
    match s.thread, s.todo with
    | .looking, [] => some { s with thread := .ended 0 }
    | .looking, req :: todo =>
      some { s with todo := todo, thread := .reading req [], up := s.up ++ sendP2pPacket (pieceReqPacket req) }
    | _, _ => none
  | .receive =>
    let r := recvP2pPacket s.pkt s.up
    match s.uploader, s.thread with
    | .receiving, .ended _ =>
      if 0 < r.ret then some { s with up := r.rest, pkt := r.pkt, uploader := uploaderTakes F pieceLen r.pkt }
      else some { s with uploader := .closed }
    | .receiving, _ =>
      if 0 < r.ret then some { s with up := r.rest, pkt := r.pkt, uploader := uploaderTakes F pieceLen r.pkt }
      else none
    | _, _ => none
  | .write n =>
    match s.uploader with
    | .sending left =>
      if 0 < n ∧ n ≤ left.length then
        some { s with uploader := .sending (left.drop n), down := s.down ++ left.take n }
      else none
    | _ => none
  | .written => if s.uploader = .sending [] then some { s with uploader := .receiving } else none
  | .read n =>
    match s.thread with
    | .reading req pieceBuf =>
      if 0 < n ∧ n ≤ s.down.length ∧ pieceBuf.length + n ≤ req.len.toNat then
        some { s with thread := .reading req (pieceBuf ++ s.down.take n), down := s.down.drop n }
      else none
    | _ => none
  | .finish =>
    match s.thread with
    | .reading req pieceBuf =>
      if pieceBuf.length = req.len.toNat then
        some { s with thread := .looking, pieces := s.pieces ++ [(req, pieceBuf)] }
      else none
    | _ => none
  | .readFail =>
    match s.thread with
    | .reading req pieceBuf =>
      if pieceBuf.length ≠ req.len.toNat ∧ s.down = [] ∧ s.uploader = .closed then
        some { s with thread := .ended (-1) }
      else none
    | _ => none

def pieceSession (F : Bytes) (pieceLen : Int32) : System PieceSession SessionEvent where
  step := pieceSessionStep F pieceLen

/-- The thread will be given these pieces. -/
def PieceSession.start (reqs : List PieceRequest) (pkt : Mem) : PieceSession :=
    ⟨reqs, .looking, [], .receiving, pkt, [], []⟩

/-! ## The bytes of a request -/

section Bytes
variable {req : PieceRequest} {F : Bytes} {pieceLen : Int32}

theorem sendP2pPacket_pieceReq (req : PieceRequest) :
    sendP2pPacket (pieceReqPacket req) = sendSegment (pieceReqBytes req) := rfl

theorem length_pieceReqBytes (req : PieceRequest) : (pieceReqBytes req).length = 12 := rfl

theorem pieceReqBytes_eq (req : PieceRequest) : pieceReqBytes req = 2 :: 0 :: 8 :: 0 :: slice req.mem 0 8 := rfl

theorem ofBytes_pieceReqBytes (req : PieceRequest) (bs : Bytes) :
    AgreeOn (ofBytes (pieceReqBytes req ++ bs)) (pieceReqPacket req) 0 12 := fun _ _ hi => ofBytes_slice_append bs hi

theorem read_len (req : PieceRequest) : read (pieceReqPacket req) (ttopPacketHeaderSize + 4) 4 = req.len.toNat := by
  have hlen : read (pieceReqPacket req) (ttopPacketHeaderSize + 4) 4 = req.len.toNat % 256 ^ 4 := by
    rw [← read_write_self (write zeroed 0 4 req.pieceId.toNat) 4 4]
    rfl
  exact hlen.trans (Nat.mod_eq_of_lt req.len.toNat_lt)

theorem pieceRequestAt_pieceReqPacket (req : PieceRequest) : pieceRequestAt (pieceReqPacket req) = req := by
  have hmem : AgreeOn (write zeroed 0 4 req.pieceId.toNat) req.mem 0 4 :=
    fun i h1 h2 => (agreeOn_write _ (.inl le_rfl) i h1 h2).symm
  have hid : read (pieceReqPacket req) ttopPacketHeaderSize 4 = req.pieceId.toNat % 256 ^ 4 := by
    rw [← read_write_self zeroed 0 4, hmem.read le_rfl le_rfl]
    rfl
  unfold pieceRequestAt
  rw [hid, read_len]
  congr 1
  · exact UInt32.ofNat_mod_size.trans UInt32.ofNat_toNat
  · exact UInt32.ofNat_toNat

theorem pieceRequestAt_congr {m m' : Mem} (h : AgreeOn m m' 0 12) : pieceRequestAt m = pieceRequestAt m' := by
  unfold pieceRequestAt
  rw [h.read (Nat.zero_le _) (by decide), h.read (Nat.zero_le _) (by decide)]

/-- What `do_upload` makes of a packet depends on its header and the request in it. -/
theorem uploaderTakes_congr {m m' : Mem} (h : AgreeOn m m' 0 12) :
    uploaderTakes F pieceLen m = uploaderTakes F pieceLen m' := by
  have hhdr := p2pPacket.hdr_congr (h.mono le_rfl (show p2pPacket.hdrSize ≤ 12 by decide))
  have hheader : p2pPacketHeader m = p2pPacketHeader m' := hhdr
  unfold uploaderTakes
  rw [hheader, pieceRequestAt_congr h]

theorem uploaderTakes_pieceReqPacket {pieceBuf : Bytes} (h : uploadPiece F pieceLen req = some pieceBuf) :
    uploaderTakes F pieceLen (pieceReqPacket req) = .sending pieceBuf := by
  have htype : (p2pPacketHeader (pieceReqPacket req)).type = .ofNat P2pPacketType.pieceReq.ctorIdx := rfl
  have hlen : (p2pPacketHeader (pieceReqPacket req)).dataLen.toNat = pieceRequestSize := rfl
  unfold uploaderTakes
  rw [if_neg (not_not.mpr htype), if_neg (not_not.mpr hlen), pieceRequestAt_pieceReqPacket, h]

theorem length_of_uploadPiece {pieceBuf : Bytes} (h : uploadPiece F pieceLen req = some pieceBuf) :
    pieceBuf.length = req.len.toNat := by
  simp only [uploadPiece] at h
  split_ifs at h with hlen
  obtain rfl := Option.some.inj h
  exact hlen

theorem length_left_of_takes {m : Mem} {left : Bytes} (h : uploaderTakes F pieceLen m = .sending left) :
    left.length = (pieceRequestAt m).len.toNat := by
  unfold uploaderTakes at h
  split_ifs at h
  split at h
  · cases h
  · next hbuf =>
    cases h
    exact length_of_uploadPiece hbuf

/-! ## One call of `recv_p2p_packet` -/

/-- Bytes that `recv_segment` passes over. -/
def Skipped (z : Bytes) : Prop := ∀ s, recvSegment (z ++ s) = recvSegment s

theorem skipped_nil : Skipped [] := fun _ => rfl

/-- What is left of a request that was cut, if it is zero. -/
theorem skipped_zeros {b : Bytes} (h : ∀ x ∈ b, x = 0) : Skipped (b ++ endMarker) := by
  intro s
  induction b with
  | nil => rfl
  | cons x b ih =>
    obtain ⟨rfl, hb⟩ := List.forall_mem_cons.mp h
    exact ih hb

theorem recvP2pPacket_skipped {z a : Bytes} (hz : Skipped z) (ha : ¬ endMarker <:+: a) (pkt : Mem) (s : Bytes) :
    recvP2pPacket pkt (z ++ (startMarker ++ (a ++ endMarker ++ s))) =
      ⟨a.length + 2, memcpy pkt 0 (ofBytes (a ++ endMarker)) 0 ttopPacketSize, s⟩ := by
  show p2pPacket.recv pkt _ = _
  rw [PacketKind.recv, hz, recvSegment_first ha]
  exact if_neg (by dsimp only; omega)

/-- A request is stored up to its first end marker. -/
theorem agreeOn_recv_skipped {z a : Bytes} (hz : Skipped z) (ha : ¬ endMarker <:+: a) (pkt : Mem) (s : Bytes) :
    AgreeOn (recvP2pPacket pkt (z ++ (startMarker ++ (a ++ endMarker ++ s)))).pkt (ofBytes (a ++ endMarker)) 0 12 := by
  have hagree : AgreeOn (memcpy pkt 0 (ofBytes (a ++ endMarker)) 0 ttopPacketSize) (ofBytes (a ++ endMarker)) 0 12 :=
    (agreeOn_memcpy _ _ _).mono le_rfl (by decide)
  have hpkt : (recvP2pPacket pkt (z ++ (startMarker ++ (a ++ endMarker ++ s)))).pkt =
      memcpy pkt 0 (ofBytes (a ++ endMarker)) 0 ttopPacketSize := by
    rw [recvP2pPacket_skipped hz ha]
  rwa [hpkt]

theorem recvP2pPacket_skipped_only {z : Bytes} (hz : Skipped z) (pkt : Mem) : (recvP2pPacket pkt z).ret = -1 := by
  have hseg := hz []
  rw [List.append_nil] at hseg
  show (p2pPacket.recv pkt z).ret = _
  rw [PacketKind.recv, hseg]
  rfl

theorem length_recvLoop_le (st : RecvState) (buf s : Bytes) :
    (recvLoop st buf s).buf.length + (recvLoop st buf s).rest.length ≤ buf.length + s.length := by
  induction s generalizing st buf with
  | nil => cases st <;> exact le_rfl
  | cons c s ih =>
    have hskip : ∀ st', (recvLoop st' buf s).buf.length + (recvLoop st' buf s).rest.length ≤ buf.length + (s.length + 1) :=
      fun st' => (ih st' buf).trans (by omega)
    have hstore : ∀ st', (recvLoop st' (buf ++ [c]) s).buf.length + (recvLoop st' (buf ++ [c]) s).rest.length ≤
        buf.length + (s.length + 1) := by
      intro st'
      refine (ih st' (buf ++ [c])).trans ?_
      rw [List.length_append, List.length_singleton]
      omega
    cases st with
    | idle =>
      rw [recvLoop]
      split_ifs
      · exact hskip _
      · exact hskip _
    | startBang =>
      rw [recvLoop]
      split_ifs
      · exact hskip _
      · exact hskip _
    | segment =>
      rw [recvLoop]
      split_ifs
      · exact hstore _
      · exact hstore _
    | endBang =>
      rw [recvLoop]
      split_ifs
      · show (buf ++ [c]).length + s.length ≤ buf.length + (s.length + 1)
        rw [List.length_append, List.length_singleton]
        omega
      · exact hstore _
      · exact hstore _

theorem length_recvP2pPacket (pkt : Mem) (s : Bytes) : (recvP2pPacket pkt s).rest.length ≤ s.length := by
  have hle := length_recvLoop_le .idle [] s
  rw [List.length_nil] at hle
  show (p2pPacket.recv pkt s).rest.length ≤ _
  rw [PacketKind.recv]
  split_ifs
  · exact (Nat.le_add_left _ _).trans (hle.trans_eq (Nat.zero_add _))
  · exact (Nat.le_add_left _ _).trans (hle.trans_eq (Nat.zero_add _))

theorem recvP2pPacket_of_pos {pkt : Mem} {s : Bytes} (h : 0 < (recvP2pPacket pkt s).ret) :
    (recvP2pPacket pkt s).pkt = memcpy pkt 0 (ofBytes (recvSegment s).buf) 0 p2pPacket.recvSize := by
  have hpos : 0 < (p2pPacket.recv pkt s).ret := h
  by_cases hret : (recvSegment s).ret < 0
  · rw [PacketKind.recv, if_pos hret] at hpos
    exact absurd (show (0 : ℤ) < -1 from hpos) (by decide)
  · have hrecv : p2pPacket.recv pkt s = ⟨(recvSegment s).ret, memcpy pkt 0 (ofBytes (recvSegment s).buf) 0 p2pPacket.recvSize,
        (recvSegment s).rest⟩ := if_neg hret
    exact congrArg PacketResult.pkt hrecv

/-- A packet that is too short for a whole request asks for nothing. -/
theorem len_of_short {pkt : Mem} {s : Bytes} (hs : s.length ≤ 8) (hret : 0 < (recvP2pPacket pkt s).ret) :
    (pieceRequestAt (recvP2pPacket pkt s).pkt).len.toNat = 0 := by
  have hle := length_recvLoop_le .idle [] s
  rw [List.length_nil] at hle
  have hagree : AgreeOn (recvP2pPacket pkt s).pkt zeroed 8 12 := by
    intro i h1 h2
    rw [recvP2pPacket_of_pos hret, memcpy_inside _ _ (Nat.zero_le _) (lt_of_lt_of_le h2 (by decide)), ofBytes]
    apply List.getD_eq_default
    show (recvLoop .idle [] s).buf.length ≤ _
    omega
  have hread : read (recvP2pPacket pkt s).pkt (ttopPacketHeaderSize + 4) 4 = read zeroed (ttopPacketHeaderSize + 4) 4 :=
    hagree.read (by decide) (by decide)
  unfold pieceRequestAt
  rw [hread]
  rfl

/-! ## Requests that arrive, and others -/

/-- What is received for a request, and what is left behind on the connection. -/
def cutRequest (req : PieceRequest) : Bytes × Bytes :=
  match splitFirst 0x21 0x23 (pieceReqBytes req) with
  | none => (pieceReqBytes req, [])
  | some (a, b) => (a, b ++ endMarker)

/-- A request on the connection. -/
theorem sendSegment_cutRequest (req : PieceRequest) :
    sendSegment (pieceReqBytes req) = startMarker ++ ((cutRequest req).1 ++ endMarker ++ (cutRequest req).2) ∧
      ¬ endMarker <:+: (cutRequest req).1 := by
  rw [sendSegment_eq, cutRequest]
  cases hs : splitFirst 0x21 0x23 (pieceReqBytes req) with
  | none => exact ⟨by simp, splitFirst_eq_none.mp hs⟩
  | some p =>
    obtain ⟨a, b⟩ := p
    obtain ⟨heq, ha⟩ := splitFirst_eq_some hs
    refine ⟨?_, ha⟩
    rw [heq]
    simp [endMarker]

theorem ofBytes_append_zeros (l : Bytes) {b : Bytes} (h : ∀ x ∈ b, x = 0) : ofBytes (l ++ b) = ofBytes l := by
  funext i
  simp only [ofBytes, List.getD_eq_getElem?_getD]
  rcases lt_or_ge i l.length with hi | hi
  · rw [List.getElem?_append_left hi]
  · rw [List.getElem?_append_right hi, List.getElem?_eq_none hi]
    cases hb : b[i - l.length]? with
    | none => rfl
    | some x => exact h x (List.mem_of_getElem? hb)

theorem Arrives.cut (h : Arrives req) :
    AgreeOn (ofBytes ((cutRequest req).1 ++ endMarker)) (pieceReqPacket req) 0 12 ∧ Skipped (cutRequest req).2 := by
  unfold Arrives at h
  rw [cutRequest]
  cases hs : splitFirst 0x21 0x23 (pieceReqBytes req) with
  | none => exact ⟨ofBytes_pieceReqBytes req endMarker, skipped_nil⟩
  | some p =>
    obtain ⟨a, b⟩ := p
    rw [hs] at h
    have hzero : ∀ x ∈ b, x = 0 := h
    obtain ⟨heq, -⟩ := splitFirst_eq_some hs
    refine ⟨?_, skipped_zeros hzero⟩
    have hwhole := ofBytes_pieceReqBytes req []
    have hbytes : pieceReqBytes req ++ [] = a ++ endMarker ++ b := by
      rw [heq]
      simp [endMarker]
    rwa [hbytes, ofBytes_append_zeros _ hzero] at hwhole

/-- The other requests lose something of their length. -/
theorem lt_of_not_arrives (h : ¬ Arrives req) (hpos : 0 < req.len.toNat) :
    (pieceRequestAt (ofBytes ((cutRequest req).1 ++ endMarker))).len.toNat < req.len.toNat ∧
      (cutRequest req).2.length ≤ 8 := by
  unfold Arrives at h
  rw [cutRequest]
  cases hs : splitFirst 0x21 0x23 (pieceReqBytes req) with
  | none =>
    rw [hs] at h
    exact absurd (fun x hx => absurd hx List.not_mem_nil) h
  | some p =>
    obtain ⟨a, b⟩ := p
    rw [hs] at h
    have hzero : ¬ ∀ x ∈ b, x = 0 := h
    obtain ⟨heq, -⟩ := splitFirst_eq_some hs
    have hlen : a.length + (b.length + 2) = 12 := by
      have := congrArg List.length heq
      rw [length_pieceReqBytes, List.length_append, List.length_cons, List.length_cons] at this
      omega
    have hfour : 4 ≤ a.length := by
      rw [pieceReqBytes_eq] at heq
      rcases a with - | ⟨x₀, - | ⟨x₁, - | ⟨x₂, - | ⟨x₃, a⟩⟩⟩⟩
      · simp at heq
      · simp at heq
      · simp at heq
      · simp at heq
      · exact Nat.le_add_left 4 a.length
    have hbytes : pieceReqBytes req ++ [] = (a ++ endMarker) ++ b := by
      rw [heq]
      simp [endMarker]
    have hwhole := ofBytes_pieceReqBytes req []
    rw [hbytes] at hwhole
    have hcutlen : (a ++ endMarker).length = a.length + 2 := List.length_append
    have hbefore : ∀ i < a.length + 2, ofBytes (a ++ endMarker) i = ofBytes ((a ++ endMarker) ++ b) i := by
      intro i hi
      simp only [ofBytes, List.getD_eq_getElem?_getD]
      rw [List.getElem?_append_left (hi.trans_eq hcutlen.symm)]
    have hafter : ∀ i, a.length + 2 ≤ i → ofBytes (a ++ endMarker) i = 0 :=
      fun i hi => List.getD_eq_default _ _ (hcutlen.trans_le hi)
    have hlt : read (ofBytes (a ++ endMarker)) (ttopPacketHeaderSize + 4) 4 < req.len.toNat := by
      rw [← read_len req]
      apply read_lt_of_zeros
      · intro i _ h2
        rcases lt_or_ge i (a.length + 2) with hi | hi
        · exact .inl ((hbefore i hi).trans (hwhole i (Nat.zero_le _) (h2.trans_le (by decide))))
        · exact .inr (hafter i hi)
      · intro hagree
        rcases Nat.lt_or_ge 8 (a.length + 2) with hcut | hcut
        · -- the bytes that were cut off are zero
          refine hzero fun x hx => ?_
          obtain ⟨j, hj, rfl⟩ := List.mem_iff_getElem.mp hx
          have h1 := hagree (a.length + 2 + j) (by show 8 ≤ _; omega) (by show _ < 12; omega)
          rw [hafter _ (Nat.le_add_right _ _), ← hwhole _ (Nat.zero_le _) (by omega), ofBytes, List.getD_eq_getElem?_getD,
            List.getElem?_append_right (by omega), hcutlen, Nat.add_sub_cancel_left, List.getElem?_eq_getElem hj] at h1
          exact h1.symm
        · -- nothing of the length is left
          have hagree' : AgreeOn (pieceReqPacket req) zeroed 8 12 :=
            fun i h1 h2 => (hagree i h1 h2).symm.trans (hafter i (hcut.trans h1))
          have hread : read _ (ttopPacketHeaderSize + 4) 4 = _ := hagree'.read (by decide) (by decide)
          rw [read_len] at hread
          exact hpos.ne' hread
    refine ⟨?_, ?_⟩
    · show (UInt32.ofNat (read (ofBytes (a ++ endMarker)) (ttopPacketHeaderSize + 4) 4)).toNat < _
      rwa [UInt32.toNat_ofNat_of_lt' (hlt.trans req.len.toNat_lt)]
    · show (b ++ endMarker).length ≤ 8
      rw [List.length_append]
      show b.length + 2 ≤ 8
      omega

end Bytes

/-! ## The invariant -/

/-- The uploader has `left` to send for a request that it has received. -/
def Uploader.Serves (left : Bytes) (u : Uploader) : Prop := u = .sending left ∨ u = .receiving ∧ left = []

def Uploader.left : Uploader → Bytes
  | .receiving => []
  | .sending left => left
  | .closed => []
  | .undefined => []

/-- The requests whose pieces the thread has finished. -/
def PieceSession.answered (s : PieceSession) : List PieceRequest := s.pieces.map Prod.fst

/-- Where the session stands. -/
inductive Stage (F : Bytes) (pieceLen : Int32) (reqs : List PieceRequest) (s : PieceSession) : Prop where
  | looking (hreqs : reqs = s.answered ++ s.todo) (hthread : s.thread = .looking) (hup : Skipped s.up)
    (hserves : s.uploader.Serves []) (hdown : s.down = [])
  /-- the request is on its way -/
  | asked (req : PieceRequest) (z : Bytes) (hreqs : reqs = s.answered ++ req :: s.todo)
    (hthread : s.thread = .reading req []) (hz : Skipped z) (hup : s.up = z ++ sendP2pPacket (pieceReqPacket req))
    (hserves : s.uploader.Serves []) (hdown : s.down = [])
  /-- the piece is on its way -/
  | served (req : PieceRequest) (pieceBuf left : Bytes) (harrives : Arrives req)
    (hreqs : reqs = s.answered ++ req :: s.todo) (hthread : s.thread = .reading req pieceBuf) (hup : Skipped s.up)
    (hserves : s.uploader.Serves left) (hpiece : uploadPiece F pieceLen req = some (pieceBuf ++ s.down ++ left))
  /-- what is on its way is not enough, and no request is -/
  | short (req : PieceRequest) (pieceBuf : Bytes) (harrives : ¬ Arrives req)
    (hreqs : reqs = s.answered ++ req :: s.todo) (hthread : s.thread = .reading req pieceBuf) (hup : s.up.length ≤ 8)
    (hlen : pieceBuf.length + s.down.length + s.uploader.left.length < req.len.toNat)
  | lost (req : PieceRequest) (harrives : ¬ Arrives req) (hreqs : reqs = s.answered ++ req :: s.todo)
    (hthread : s.thread = .ended (-1))
  | done (hreqs : reqs = s.answered) (hthread : s.thread = .ended 0)

/-- What holds in every reachable state. -/
structure InSession (F : Bytes) (pieceLen : Int32) (reqs : List PieceRequest) (s : PieceSession) : Prop where
  stage : Stage F pieceLen reqs s
  right : ∀ p ∈ s.pieces, Arrives p.1 ∧ uploadPiece F pieceLen p.1 = some p.2

/-- The requests that a thread makes: pieces of the file that are not empty. -/
def Answerable (F : Bytes) (pieceLen : Int32) (req : PieceRequest) : Prop :=
  0 < req.len.toNat ∧ ∃ pieceBuf, uploadPiece F pieceLen req = some pieceBuf

section Steps
variable {F : Bytes} {pieceLen : Int32} {reqs : List PieceRequest} {s s' : PieceSession}

theorem InSession.next (h : InSession F pieceLen reqs s) (hs : pieceSessionStep F pieceLen s .next = some s') :
    InSession F pieceLen reqs s' := by
  obtain ⟨hstage, hright⟩ := h
  cases hstage with
  | looking hreqs hthread hup hserves hdown =>
    cases htodo : s.todo with
    | nil =>
      simp only [pieceSessionStep, hthread, htodo] at hs
      obtain rfl := Option.some.inj hs
      refine ⟨.done ?_ rfl, hright⟩
      rw [hreqs, htodo, List.append_nil]
      rfl
    | cons req todo =>
      simp only [pieceSessionStep, hthread, htodo] at hs
      obtain rfl := Option.some.inj hs
      refine ⟨.asked req s.up ?_ rfl hup rfl hserves hdown, hright⟩
      rw [hreqs, htodo]
      rfl
  | asked req z hreqs hthread => simp [pieceSessionStep, hthread] at hs
  | served req pieceBuf left harrives hreqs hthread => simp [pieceSessionStep, hthread] at hs
  | short req pieceBuf harrives hreqs hthread => simp [pieceSessionStep, hthread] at hs
  | lost req harrives hreqs hthread => simp [pieceSessionStep, hthread] at hs
  | done hreqs hthread => simp [pieceSessionStep, hthread] at hs

/-- The uploader has read a packet while the thread waits. -/
theorem receive_eq {s s' : PieceSession} (hs : pieceSessionStep F pieceLen s .receive = some s') :
    s.uploader = .receiving ∧ (0 < (recvP2pPacket s.pkt s.up).ret ∧
        s' = { s with up := (recvP2pPacket s.pkt s.up).rest, pkt := (recvP2pPacket s.pkt s.up).pkt
                      uploader := uploaderTakes F pieceLen (recvP2pPacket s.pkt s.up).pkt } ∨
      (∃ ret, s.thread = .ended ret) ∧ s' = { s with uploader := .closed }) := by
  simp only [pieceSessionStep] at hs
  cases hu : s.uploader with
  | receiving =>
    refine ⟨rfl, ?_⟩
    cases ht : s.thread with
    | ended ret =>
      rw [hu, ht] at hs
      dsimp only at hs
      split_ifs at hs with hret
      · exact .inl ⟨hret, (Option.some.inj hs).symm⟩
      · exact .inr ⟨⟨ret, rfl⟩, (Option.some.inj hs).symm⟩
    | looking =>
      rw [hu, ht] at hs
      dsimp only at hs
      split_ifs at hs with hret
      exact .inl ⟨hret, (Option.some.inj hs).symm⟩
    | reading req pieceBuf =>
      rw [hu, ht] at hs
      dsimp only at hs
      split_ifs at hs with hret
      exact .inl ⟨hret, (Option.some.inj hs).symm⟩
  | sending left => rw [hu] at hs; cases hs
  | closed => rw [hu] at hs; cases hs
  | undefined => rw [hu] at hs; cases hs

theorem left_of_takes (F : Bytes) (pieceLen : Int32) (m : Mem) :
    (uploaderTakes F pieceLen m).left.length ≤ (pieceRequestAt m).len.toNat := by
  cases h : uploaderTakes F pieceLen m with
  | sending left => exact (length_left_of_takes h).le
  | receiving => exact Nat.zero_le _
  | closed => exact Nat.zero_le _
  | undefined => exact Nat.zero_le _

theorem InSession.receive (hreqs₀ : ∀ req ∈ reqs, Answerable F pieceLen req) (h : InSession F pieceLen reqs s)
    (hs : pieceSessionStep F pieceLen s .receive = some s') : InSession F pieceLen reqs s' := by
  obtain ⟨hstage, hright⟩ := h
  obtain ⟨huploader, ⟨hret, rfl⟩ | ⟨⟨ret, hended⟩, rfl⟩⟩ := receive_eq hs
  · cases hstage with
    | looking hreqs hthread hup =>
      rw [recvP2pPacket_skipped_only hup] at hret
      exact absurd hret (by decide)
    | asked req z hreqs hthread hz hup hserves hdown =>
      obtain ⟨hframe, hclean⟩ := sendSegment_cutRequest req
      have hrecv := recvP2pPacket_skipped hz hclean s.pkt (cutRequest req).2
      have hagree := agreeOn_recv_skipped hz hclean s.pkt (cutRequest req).2
      rw [← hframe, ← sendP2pPacket_pieceReq, ← hup] at hrecv hagree
      obtain ⟨hpos, pieceBuf, hpiece⟩ := hreqs₀ req (by rw [hreqs]; exact List.mem_append_right _ List.mem_cons_self)
      by_cases harrives : Arrives req
      · obtain ⟨hsame, hskip⟩ := harrives.cut
        refine ⟨.served req [] pieceBuf harrives hreqs hthread ?_ (.inl ?_) ?_, hright⟩
        · rw [hrecv]
          exact hskip
        · show uploaderTakes F pieceLen _ = _
          rw [uploaderTakes_congr (hagree.trans hsame), uploaderTakes_pieceReqPacket hpiece]
        · rw [hpiece, List.nil_append, hdown, List.nil_append]
      · obtain ⟨hlt, hrest⟩ := lt_of_not_arrives harrives hpos
        refine ⟨.short req [] harrives hreqs hthread ?_ ?_, hright⟩
        · rw [hrecv]
          exact hrest
        · have hleft := left_of_takes F pieceLen (recvP2pPacket s.pkt s.up).pkt
          rw [pieceRequestAt_congr hagree] at hleft
          rw [hdown, List.length_nil, Nat.zero_add]
          exact hleft.trans_lt hlt
    | served req pieceBuf left harrives hreqs hthread hup =>
      rw [recvP2pPacket_skipped_only hup] at hret
      exact absurd hret (by decide)
    | short req pieceBuf harrives hreqs hthread hup hlen =>
      refine ⟨.short req pieceBuf harrives hreqs hthread ((length_recvP2pPacket s.pkt s.up).trans hup) ?_, hright⟩
      have hleft := left_of_takes F pieceLen (recvP2pPacket s.pkt s.up).pkt
      rw [len_of_short hup hret] at hleft
      dsimp only
      omega
    | lost req harrives hreqs hthread => exact ⟨.lost req harrives hreqs hthread, hright⟩
    | done hreqs hthread => exact ⟨.done hreqs hthread, hright⟩
  · cases hstage with
    | looking hreqs hthread => rw [hthread] at hended; cases hended
    | asked req z hreqs hthread => rw [hthread] at hended; cases hended
    | served req pieceBuf left harrives hreqs hthread => rw [hthread] at hended; cases hended
    | short req pieceBuf harrives hreqs hthread => rw [hthread] at hended; cases hended
    | lost req harrives hreqs hthread => exact ⟨.lost req harrives hreqs hthread, hright⟩
    | done hreqs hthread => exact ⟨.done hreqs hthread, hright⟩

theorem InSession.write {n : ℕ} (h : InSession F pieceLen reqs s)
    (hs : pieceSessionStep F pieceLen s (.write n) = some s') :
    InSession F pieceLen reqs s' := by
  obtain ⟨hstage, hright⟩ := h
  simp only [pieceSessionStep] at hs
  cases hu : s.uploader with
  | receiving => rw [hu] at hs; cases hs
  | closed => rw [hu] at hs; cases hs
  | undefined => rw [hu] at hs; cases hs
  | sending left =>
    rw [hu] at hs
    obtain ⟨⟨hpos, hn⟩, hs⟩ := Option.ite_none_right_eq_some.mp hs
    obtain rfl := Option.some.inj hs
    have hne : left ≠ [] := List.ne_nil_of_length_pos (hpos.trans_le hn)
    have hidle : ¬ s.uploader.Serves [] := by
      rintro (heq | ⟨heq, -⟩)
      · rw [hu] at heq
        exact hne (Uploader.sending.inj heq)
      · rw [hu] at heq
        cases heq
    cases hstage with
    | looking hreqs hthread hup hserves => exact absurd hserves hidle
    | asked req z hreqs hthread hz hup hserves => exact absurd hserves hidle
    | served req pieceBuf left' harrives hreqs hthread hup hserves hpiece =>
      rcases hserves with heq | ⟨heq, -⟩
      · obtain rfl := Uploader.sending.inj (hu.symm.trans heq)
        refine ⟨.served req pieceBuf (left.drop n) harrives hreqs hthread hup (.inl rfl) ?_, hright⟩
        rw [hpiece]
        simp
      · rw [hu] at heq
        cases heq
    | short req pieceBuf harrives hreqs hthread hup hlen =>
      refine ⟨.short req pieceBuf harrives hreqs hthread hup ?_, hright⟩
      rw [hu] at hlen
      simp only [Uploader.left, List.length_append, List.length_take, List.length_drop] at hlen ⊢
      omega
    | lost req harrives hreqs hthread => exact ⟨.lost req harrives hreqs hthread, hright⟩
    | done hreqs hthread => exact ⟨.done hreqs hthread, hright⟩

theorem InSession.written (h : InSession F pieceLen reqs s) (hs : pieceSessionStep F pieceLen s .written = some s') :
    InSession F pieceLen reqs s' := by
  obtain ⟨hstage, hright⟩ := h
  obtain ⟨hu, hs⟩ := Option.ite_none_right_eq_some.mp hs
  obtain rfl := Option.some.inj hs
  cases hstage with
  | looking hreqs hthread hup hserves hdown => exact ⟨.looking hreqs hthread hup (.inr ⟨rfl, rfl⟩) hdown, hright⟩
  | asked req z hreqs hthread hz hup hserves hdown =>
    exact ⟨.asked req z hreqs hthread hz hup (.inr ⟨rfl, rfl⟩) hdown, hright⟩
  | served req pieceBuf left harrives hreqs hthread hup hserves hpiece =>
    rcases hserves with heq | ⟨heq, -⟩
    · obtain rfl := Uploader.sending.inj (hu.symm.trans heq)
      exact ⟨.served req pieceBuf [] harrives hreqs hthread hup (.inr ⟨rfl, rfl⟩) hpiece, hright⟩
    · rw [hu] at heq
      cases heq
  | short req pieceBuf harrives hreqs hthread hup hlen =>
    refine ⟨.short req pieceBuf harrives hreqs hthread hup ?_, hright⟩
    rw [hu] at hlen
    exact hlen
  | lost req harrives hreqs hthread => exact ⟨.lost req harrives hreqs hthread, hright⟩
  | done hreqs hthread => exact ⟨.done hreqs hthread, hright⟩

theorem InSession.read {n : ℕ} (h : InSession F pieceLen reqs s)
    (hs : pieceSessionStep F pieceLen s (.read n) = some s') :
    InSession F pieceLen reqs s' := by
  obtain ⟨hstage, hright⟩ := h
  simp only [pieceSessionStep] at hs
  cases hstage with
  | looking hreqs hthread => rw [hthread] at hs; cases hs
  | lost req harrives hreqs hthread => rw [hthread] at hs; cases hs
  | done hreqs hthread => rw [hthread] at hs; cases hs
  | asked req z hreqs hthread hz hup hserves hdown =>
    rw [hthread] at hs
    obtain ⟨⟨hpos, hn, -⟩, -⟩ := Option.ite_none_right_eq_some.mp hs
    rw [hdown] at hn
    exact absurd (hpos.trans_le hn) (lt_irrefl 0)
  | served req pieceBuf left harrives hreqs hthread hup hserves hpiece =>
    rw [hthread] at hs
    obtain ⟨-, hs⟩ := Option.ite_none_right_eq_some.mp hs
    obtain rfl := Option.some.inj hs
    refine ⟨.served req _ left harrives hreqs rfl hup hserves ?_, hright⟩
    rw [hpiece]
    simp
  | short req pieceBuf harrives hreqs hthread hup hlen =>
    rw [hthread] at hs
    obtain ⟨⟨-, hn, -⟩, hs⟩ := Option.ite_none_right_eq_some.mp hs
    obtain rfl := Option.some.inj hs
    refine ⟨.short req _ harrives hreqs rfl hup ?_, hright⟩
    simp only [List.length_append, List.length_take, List.length_drop]
    omega

theorem InSession.finish (hreqs₀ : ∀ req ∈ reqs, Answerable F pieceLen req) (h : InSession F pieceLen reqs s)
    (hs : pieceSessionStep F pieceLen s .finish = some s') : InSession F pieceLen reqs s' := by
  obtain ⟨hstage, hright⟩ := h
  simp only [pieceSessionStep] at hs
  cases hstage with
  | looking hreqs hthread => rw [hthread] at hs; cases hs
  | lost req harrives hreqs hthread => rw [hthread] at hs; cases hs
  | done hreqs hthread => rw [hthread] at hs; cases hs
  | asked req z hreqs hthread =>
    rw [hthread] at hs
    obtain ⟨hlen, -⟩ := Option.ite_none_right_eq_some.mp hs
    have hpos := (hreqs₀ req (by rw [hreqs]; exact List.mem_append_right _ List.mem_cons_self)).1
    exact absurd hlen hpos.ne
  | short req pieceBuf harrives hreqs hthread hup hlen =>
    rw [hthread] at hs
    obtain ⟨heq, -⟩ := Option.ite_none_right_eq_some.mp hs
    omega
  | served req pieceBuf left harrives hreqs hthread hup hserves hpiece =>
    rw [hthread] at hs
    obtain ⟨hlen, hs⟩ := Option.ite_none_right_eq_some.mp hs
    obtain rfl := Option.some.inj hs
    -- the whole piece has come, and nothing is left
    have hall := length_of_uploadPiece hpiece
    rw [List.length_append, List.length_append] at hall
    have hdown : s.down = [] := List.eq_nil_of_length_eq_zero (by omega)
    have hleft : left = [] := List.eq_nil_of_length_eq_zero (by omega)
    subst hleft
    rw [hdown, List.append_nil, List.append_nil] at hpiece
    refine ⟨.looking ?_ rfl hup hserves hdown, fun p hp => ?_⟩
    · rw [hreqs]
      simp [PieceSession.answered]
    · rcases List.mem_append.mp hp with hp | hp
      · exact hright p hp
      · obtain rfl := List.mem_singleton.mp hp
        exact ⟨harrives, hpiece⟩

theorem InSession.readFail (h : InSession F pieceLen reqs s) (hs : pieceSessionStep F pieceLen s .readFail = some s') :
    InSession F pieceLen reqs s' := by
  obtain ⟨hstage, hright⟩ := h
  simp only [pieceSessionStep] at hs
  have hclosed : ∀ left, s.uploader = .closed → ¬ s.uploader.Serves left := by
    rintro left hu (heq | ⟨heq, -⟩) <;> rw [hu] at heq <;> cases heq
  cases hstage with
  | looking hreqs hthread => rw [hthread] at hs; cases hs
  | lost req harrives hreqs hthread => rw [hthread] at hs; cases hs
  | done hreqs hthread => rw [hthread] at hs; cases hs
  | asked req z hreqs hthread hz hup hserves =>
    rw [hthread] at hs
    obtain ⟨⟨-, -, hu⟩, -⟩ := Option.ite_none_right_eq_some.mp hs
    exact absurd hserves (hclosed [] hu)
  | served req pieceBuf left harrives hreqs hthread hup hserves =>
    rw [hthread] at hs
    obtain ⟨⟨-, -, hu⟩, -⟩ := Option.ite_none_right_eq_some.mp hs
    exact absurd hserves (hclosed left hu)
  | short req pieceBuf harrives hreqs hthread hup hlen =>
    rw [hthread] at hs
    obtain ⟨-, hs⟩ := Option.ite_none_right_eq_some.mp hs
    obtain rfl := Option.some.inj hs
    exact ⟨.lost req harrives hreqs rfl, hright⟩

theorem InSession.step (hreqs₀ : ∀ req ∈ reqs, Answerable F pieceLen req) (h : InSession F pieceLen reqs s)
    {e : SessionEvent} (hs : (pieceSession F pieceLen).step s e = some s') : InSession F pieceLen reqs s' := by
  cases e with
  | next => exact h.next hs
  | receive => exact h.receive hreqs₀ hs
  | write n => exact h.write hs
  | written => exact h.written hs
  | read n => exact h.read hs
  | finish => exact h.finish hreqs₀ hs
  | readFail => exact h.readFail hs

theorem inSession_start (reqs : List PieceRequest) (pkt : Mem) : InSession F pieceLen reqs (.start reqs pkt) :=
  ⟨.looking rfl rfl skipped_nil (.inr ⟨rfl, rfl⟩) rfl, fun _ hp => absurd hp List.not_mem_nil⟩

end Steps

/-! ## The end of a run -/

section End
variable {F : Bytes} {pieceLen : Int32} {reqs : List PieceRequest} {s s' : PieceSession}

/-- Where nothing can go on, the thread has all pieces or waits for one whose request has not arrived. -/
theorem InSession.stuck (h : InSession F pieceLen reqs s) (hend : ∀ e, (pieceSession F pieceLen).step s e = none) :
    (reqs = s.answered ∧ s.thread = .ended 0) ∨
      ∃ req, ¬ Arrives req ∧ reqs = s.answered ++ req :: s.todo ∧ s.thread ≠ .ended 0 := by
  have hwritten : s.uploader ≠ .sending [] := by
    intro hu
    have hnone := hend .written
    simp [pieceSession, pieceSessionStep, hu] at hnone
  cases h.stage with
  | done hreqs hthread => exact .inl ⟨hreqs, hthread⟩
  | lost req harrives hreqs hthread =>
    refine .inr ⟨req, harrives, hreqs, ?_⟩
    rw [hthread]
    simp
  | short req pieceBuf harrives hreqs hthread =>
    refine .inr ⟨req, harrives, hreqs, ?_⟩
    rw [hthread]
    simp
  | looking hreqs hthread =>
    have hnone := hend .next
    cases htodo : s.todo <;> simp [pieceSession, pieceSessionStep, hthread, htodo] at hnone
  | asked req z hreqs hthread hz hup hserves =>
    have hu : s.uploader = .receiving := (hserves.resolve_left hwritten).1
    obtain ⟨hframe, hclean⟩ := sendSegment_cutRequest req
    have hrecv := recvP2pPacket_skipped hz hclean s.pkt (cutRequest req).2
    rw [← hframe, ← sendP2pPacket_pieceReq, ← hup] at hrecv
    have hret : 0 < (recvP2pPacket s.pkt s.up).ret := by
      rw [hrecv]
      show (0 : ℤ) < ((cutRequest req).1.length : ℤ) + 2
      omega
    have hnone := hend .receive
    simp [pieceSession, pieceSessionStep, hu, hthread, hret] at hnone
  | served req pieceBuf left harrives hreqs hthread hup hserves hpiece =>
    exfalso
    have hall := length_of_uploadPiece hpiece
    rw [List.length_append, List.length_append] at hall
    have hleft : left = [] := by
      by_contra hne
      have hpos := List.length_pos_of_ne_nil hne
      have hu := hserves.resolve_right fun hr => hne hr.2
      have hnone := hend (.write 1)
      simp only [pieceSession, pieceSessionStep, hu, if_pos (show 0 < 1 ∧ 1 ≤ left.length from ⟨one_pos, hpos⟩)] at hnone
      cases hnone
    rw [hleft, List.length_nil] at hall
    rcases eq_or_ne s.down [] with hdown | hdown
    · rw [hdown, List.length_nil] at hall
      have hnone := hend .finish
      simp only [pieceSession, pieceSessionStep, hthread, if_pos (show pieceBuf.length = req.len.toNat by omega)] at hnone
      cases hnone
    · have hpos := List.length_pos_of_ne_nil hdown
      have hnone := hend (.read 1)
      simp only [pieceSession, pieceSessionStep, hthread, if_pos (show 0 < 1 ∧ 1 ≤ s.down.length ∧
        pieceBuf.length + 1 ≤ req.len.toNat from ⟨one_pos, hpos, by omega⟩)] at hnone
      cases hnone

theorem length_rest_recvLoop (st : RecvState) (buf s : Bytes) : (recvLoop st buf s).rest.length ≤ s.length - 1 := by
  induction s generalizing st buf with
  | nil => cases st <;> exact le_rfl
  | cons c s ih =>
    have hle : ∀ st' buf', (recvLoop st' buf' s).rest.length ≤ s.length :=
      fun st' buf' => (ih st' buf').trans (Nat.sub_le _ _)
    cases st <;> rw [recvLoop] <;> split_ifs <;> first | exact hle _ _ | exact le_rfl

theorem length_rest_lt {pkt : Mem} {up : Bytes} (hret : 0 < (recvP2pPacket pkt up).ret) :
    (recvP2pPacket pkt up).rest.length < up.length := by
  have hle := length_rest_recvLoop .idle [] up
  have hne : up ≠ [] := by
    rintro rfl
    rw [recvP2pPacket_skipped_only skipped_nil] at hret
    exact absurd hret (by decide)
  have hpos := List.length_pos_of_ne_nil hne
  have hrest : (p2pPacket.recv pkt up).rest = (recvSegment up).rest := by
    rw [PacketKind.recv]
    split_ifs <;> rfl
  have heq : (recvP2pPacket pkt up).rest = (recvLoop .idle [] up).rest := hrest
  rw [heq]
  omega

/-- Bounds the steps that are left: a byte of a request may bring the whole file. -/
def PieceSession.work (F : Bytes) (s : PieceSession) : ℕ :=
  let uploader := match s.uploader with
    | .receiving => 1
    | .sending left => 2 * left.length + 2
    | .closed => 0
    | .undefined => 0
  let thread := match s.thread with
    | .looking => 1
    | .reading _ _ => 2
    | .ended _ => 0
  s.todo.length * (16 * (2 * F.length + 2) + 3) + s.up.length * (2 * F.length + 2) + uploader + s.down.length + thread

theorem left_length_le (F : Bytes) (pieceLen : Int32) (m : Mem) :
    (uploaderTakes F pieceLen m).left.length ≤ F.length := by
  unfold uploaderTakes
  split_ifs
  · exact Nat.zero_le _
  · exact Nat.zero_le _
  · split
    · exact Nat.zero_le _
    · next pieceBuf hpiece =>
      simp only [uploadPiece] at hpiece
      split_ifs at hpiece
      obtain rfl := Option.some.inj hpiece
      rw [Uploader.left, List.length_take, List.length_drop]
      omega

theorem work_step {e : SessionEvent} (hs : (pieceSession F pieceLen).step s e = some s') : s'.work F < s.work F := by
  cases e with
  | next =>
    simp only [pieceSession, pieceSessionStep] at hs
    split at hs
    · next hthread htodo =>
      obtain rfl := Option.some.inj hs
      simp only [PieceSession.work, hthread]
      omega
    · next req todo hthread htodo =>
      obtain rfl := Option.some.inj hs
      have hlen : (sendP2pPacket (pieceReqPacket req)).length = 16 := rfl
      simp only [PieceSession.work, hthread, htodo, List.length_append, List.length_cons, hlen]
      ring_nf
      omega
    · cases hs
  | receive =>
    obtain ⟨hu, ⟨hret, rfl⟩ | ⟨⟨ret, hended⟩, rfl⟩⟩ := receive_eq hs
    · have hlt := length_rest_lt hret
      have hleft := left_length_le F pieceLen (recvP2pPacket s.pkt s.up).pkt
      have hbytes : (recvP2pPacket s.pkt s.up).rest.length * (2 * F.length + 2) + (2 * F.length + 2) ≤
          s.up.length * (2 * F.length + 2) := by
        rw [← Nat.succ_mul]
        exact Nat.mul_le_mul_right _ hlt
      cases ht : uploaderTakes F pieceLen (recvP2pPacket s.pkt s.up).pkt with
      | sending left =>
        rw [ht] at hleft
        simp only [PieceSession.work, hu, Uploader.left] at hleft ⊢
        omega
      | receiving =>
        simp only [PieceSession.work, hu]
        omega
      | closed =>
        simp only [PieceSession.work, hu]
        omega
      | undefined =>
        simp only [PieceSession.work, hu]
        omega
    · simp only [PieceSession.work, hu]
      omega
  | write n =>
    simp only [pieceSession, pieceSessionStep] at hs
    split at hs
    · next left hu =>
      obtain ⟨⟨hpos, hn⟩, hs⟩ := Option.ite_none_right_eq_some.mp hs
      obtain rfl := Option.some.inj hs
      simp only [PieceSession.work, hu, List.length_append, List.length_take, List.length_drop]
      omega
    · cases hs
  | written =>
    obtain ⟨hu, hs⟩ := Option.ite_none_right_eq_some.mp hs
    obtain rfl := Option.some.inj hs
    simp only [PieceSession.work, hu, List.length_nil]
    omega
  | read n =>
    simp only [pieceSession, pieceSessionStep] at hs
    split at hs
    · next req pieceBuf hthread =>
      obtain ⟨⟨hpos, hn, -⟩, hs⟩ := Option.ite_none_right_eq_some.mp hs
      obtain rfl := Option.some.inj hs
      simp only [PieceSession.work, hthread, List.length_drop]
      omega
    · cases hs
  | finish =>
    simp only [pieceSession, pieceSessionStep] at hs
    split at hs
    · next req pieceBuf hthread =>
      obtain ⟨-, hs⟩ := Option.ite_none_right_eq_some.mp hs
      obtain rfl := Option.some.inj hs
      simp only [PieceSession.work, hthread]
      omega
    · cases hs
  | readFail =>
    simp only [pieceSession, pieceSessionStep] at hs
    split at hs
    · next req pieceBuf hthread =>
      obtain ⟨-, hs⟩ := Option.ite_none_right_eq_some.mp hs
      obtain rfl := Option.some.inj hs
      simp only [PieceSession.work, hthread]
      omega
    · cases hs

theorem takeWhile_answered {l : List PieceRequest} {req : PieceRequest} {todo : List PieceRequest}
    (hl : ∀ r ∈ l, Arrives r) (h : ¬ Arrives req) : (l ++ req :: todo).takeWhile (fun r => Arrives r) = l := by
  rw [List.takeWhile_append_of_pos (by simpa using hl), List.takeWhile_cons_of_neg (by simpa using h), List.append_nil]

theorem session_outcome (F : Bytes) (pieceLen : Int32) (reqs : List PieceRequest) (pkt : Mem)
    (hreqs : ∀ req ∈ reqs, Answerable F pieceLen req) {es : List SessionEvent}
    (hrun : (pieceSession F pieceLen).run (.start reqs pkt) es = some s) :
    es.length ≤ reqs.length * (16 * (2 * F.length + 2) + 3) + 2 ∧
      ((∀ e, (pieceSession F pieceLen).step s e = none) →
        s.pieces.map (fun p => (p.1, some p.2)) =
            (reqs.takeWhile fun req => Arrives req).map (fun req => (req, uploadPiece F pieceLen req)) ∧
          (s.thread = .ended 0 ↔ ∀ req ∈ reqs, Arrives req)) := by
  have hinv : InSession F pieceLen reqs s :=
    System.run_invariant (fun s e s' h hs => h.step hreqs hs) (inSession_start reqs pkt) hrun
  have hwork : es.length + s.work F ≤ (PieceSession.start reqs pkt).work F :=
    System.length_run_add_le (PieceSession.work F) (fun s e s' (_ : True) hs => ⟨trivial, work_step hs⟩) trivial hrun
  have hstart : (PieceSession.start reqs pkt).work F = reqs.length * (16 * (2 * F.length + 2) + 3) + 2 := by
    simp [PieceSession.work, PieceSession.start]
  refine ⟨by omega, fun hend => ?_⟩
  have harrives : ∀ req ∈ s.answered, Arrives req := by
    intro req hreq
    obtain ⟨p, hp, rfl⟩ := List.mem_map.mp hreq
    exact (hinv.right p hp).1
  have hpieces : s.pieces.map (fun p => (p.1, some p.2)) = s.answered.map fun req => (req, uploadPiece F pieceLen req) := by
    rw [PieceSession.answered, List.map_map]
    exact List.map_congr_left fun p hp => Prod.ext rfl (hinv.right p hp).2.symm
  rw [hpieces]
  rcases hinv.stuck hend with ⟨hall, hthread⟩ | ⟨req, hreq, hall, hthread⟩
  · rw [hall, List.takeWhile_eq_self_iff.mpr (by simpa using harrives)]
    exact ⟨rfl, fun _ => harrives, fun _ => hthread⟩
  · rw [hall, takeWhile_answered harrives hreq]
    refine ⟨rfl, fun h => absurd h hthread, fun h => absurd (h req ?_) hreq⟩
    exact List.mem_append_right _ List.mem_cons_self

theorem answerable_request {inp : DownloadInput} (hfit : Fits inp F) {p : ℕ}
    (hp : p < Chunks.count F.length inp.chunk) :
    Answerable F inp.pieceLen (inp.request p) := by
  refine ⟨?_, _, hfit.uploadPiece_eq hp⟩
  rw [hfit.request_len hp]
  exact Chunks.size_pos hfit.chunk_pos hp

/-- The two loops over one connection, in any order of steps, where the thread takes the pieces `ps` of the file `F`; its
sizes are within the range of `int`, and its length is known as it is (`Fits`). Every run ends, and then the thread has
the pieces before the first one whose request does not arrive, each with its bytes. It gets through exactly when all
requests arrive. -/
theorem piece_session_ends (inp : DownloadInput) (F : Bytes) (hfit : Fits inp F) (ps : List ℕ)
    (hps : ∀ p ∈ ps, p < Chunks.count F.length inp.chunk) (pkt : Mem) {es : List SessionEvent}
    (hrun : (pieceSession F inp.pieceLen).run (.start (ps.map inp.request) pkt) es = some s) :
    es.length ≤ ps.length * (16 * (2 * F.length + 2) + 3) + 2 ∧
      ((∀ e, (pieceSession F inp.pieceLen).step s e = none) →
        s.pieces = (ps.takeWhile fun p => Arrives (inp.request p)).map (fun p =>
            (inp.request p, (F.drop (p * inp.chunk)).take (Chunks.size F.length inp.chunk p))) ∧
          (s.thread = .ended 0 ↔ ∀ p ∈ ps, Arrives (inp.request p))) := by
  have hreqs : ∀ req ∈ ps.map inp.request, Answerable F inp.pieceLen req := by
    intro req hreq
    obtain ⟨p, hp, rfl⟩ := List.mem_map.mp hreq
    exact answerable_request hfit (hps p hp)
  obtain ⟨hlen, hdone⟩ := session_outcome F inp.pieceLen (ps.map inp.request) pkt hreqs hrun
  rw [List.length_map] at hlen
  refine ⟨hlen, fun hend => ?_⟩
  obtain ⟨hpieces, hthread⟩ := hdone hend
  refine ⟨?_, hthread.trans List.forall_mem_map⟩
  have hinj : Function.Injective fun p : PieceRequest × Bytes => (p.1, some p.2) := by
    rintro ⟨req, buf⟩ ⟨req', buf'⟩ heq
    cases heq
    rfl
  apply List.map_injective_iff.mpr hinj
  rw [hpieces, List.takeWhile_map, List.map_map, List.map_map]
  refine List.map_congr_left fun p hp => Prod.ext rfl ?_
  exact hfit.uploadPiece_eq (hps p (List.takeWhile_subset _ hp))

/-- The two pieces of a file of three bytes. -/
theorem piece_session_ends_two_pieces :
    let inp : DownloadInput := ⟨9, [⟨1, P2P_PORT⟩], 2, true, some 3, true, true, 1, by decide⟩
    ∃ es s, (pieceSession [7, 8, 9] inp.pieceLen).run (.start ([0, 1].map inp.request) zeroed) es = some s ∧
      s.thread = .ended 0 ∧ s.pieces.map Prod.snd = [[7, 8], [9]] := by
  intro inp
  have hfit : Fits inp [7, 8, 9] := ⟨by decide, by decide, rfl⟩
  have hreqs : [0, 1].map inp.request = [⟨0, 2⟩, ⟨1, 1⟩] := by decide
  have hrun : ∃ s, (pieceSession [7, 8, 9] 2).run (.start [⟨0, 2⟩, ⟨1, 1⟩] zeroed)
      [.next, .receive, .write 2, .written, .read 1, .read 1, .finish, .next, .receive, .write 1, .read 1, .written,
        .finish, .next, .receive] = some s ∧ ∀ e, (pieceSession [7, 8, 9] 2).step s e = none := by
    refine ⟨_, rfl, fun e => ?_⟩
    cases e <;> rfl
  rw [← hreqs] at hrun
  obtain ⟨s, hrun, hend⟩ := hrun
  obtain ⟨-, hdone⟩ := piece_session_ends inp [7, 8, 9] hfit [0, 1] (by decide) zeroed hrun
  obtain ⟨hpieces, hthread⟩ := hdone hend
  have harrives : ∀ p ∈ [0, 1], Arrives (inp.request p) := by decide +kernel
  refine ⟨_, s, hrun, hthread.mpr harrives, ?_⟩
  rw [hpieces, List.takeWhile_eq_self_iff.mpr (by simpa using harrives)]
  decide

end End

/-- The first request of a large file with pieces of 128 kB that does not arrive. -/
example : ¬ Arrives ⟨8993, 131072⟩ := by decide

end TeleSync
