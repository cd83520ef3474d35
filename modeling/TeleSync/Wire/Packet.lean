import TeleSync.Basic
import TeleSync.Lib.Memory
import TeleSync.Wire.Segment

/-!
# Packets

The three packet types (`packet_def.h`, `client/packet.h`) and the functions that build, send and
receive them. A packet is the memory of its struct, which is what goes into a segment:

* `PtotPacketHeader`, `TtopPacketHeader`, `P2pPacketHeader` : the header fields, read at the offsets
  the struct layout gives them;
* `PacketKind` : what the three kinds share: a header that names the length of the data behind it;
* `PacketKind.send`, `PacketKind.recv` : the header and `data_len` bytes go out as one segment, and
  come back into a zeroed buffer that is copied over the receiver's packet;
* `packets_round_trip_iff` : a packet arrives as it was sent exactly when no end marker shows up in
  its bytes.
-/

namespace TeleSync
open Memory

/-! ## Kinds of packets -/

/-- A packet type with headers in `η`. The header lies in the first `hdrSize` bytes, and the copy that
the receiver makes is large enough for header and data. -/
structure PacketKind (η : Type) where
  hdrSize : ℕ
  hdr : Mem → η
  dataLen : η → UInt16
  recvSize : ℕ
  hdr_congr : ∀ {m m' : Mem}, AgreeOn m m' 0 hdrSize → hdr m = hdr m'
  recvSize_ge : hdrSize + 2 ^ 16 ≤ recvSize

/-- What a `recv_*_packet` call returns, leaves in the packet and leaves on the connection. -/
structure PacketResult where
  ret : ℤ
  pkt : Mem
  rest : Bytes

namespace PacketKind

variable {η : Type} (K : PacketKind η)

/-- `*_packet_len`: the header and the data it announces. -/
def packetLen (pkt : Mem) : ℕ := K.hdrSize + (K.dataLen (K.hdr pkt)).toNat

def send (pkt : Mem) : Bytes := sendSegment (slice pkt 0 (K.packetLen pkt))

def recv (pkt : Mem) (stream : Bytes) : PacketResult :=
  let r := recvSegment stream
  if r.ret < 0 then ⟨-1, pkt, r.rest⟩
  else ⟨r.ret, memcpy pkt 0 (ofBytes r.buf) 0 K.recvSize, r.rest⟩

end PacketKind

/-! ## The three kinds -/

/-- The fields of `struct ptot_packet_header`. -/
def ptotPacketHeaderFields : List CType :=
  [(CType.int 1).array MAX_NAME_LEN, .int 2, .int 4, .int 2, .int 2]

/-- The fields of `struct ttop_packet_header`, which are also the first two of `struct p2p_packet`. -/
def ttopPacketHeaderFields : List CType := [.int 2, .int 2]

structure PtotPacketHeader where
  protocolName : Bytes
  type : UInt16
  ip : UInt32
  port : UInt16
  dataLen : UInt16

structure TtopPacketHeader where
  type : UInt16
  dataLen : UInt16

structure P2pPacketHeader where
  type : UInt16
  dataLen : UInt16

def ptotPacketHeader (pkt : Mem) : PtotPacketHeader where
  protocolName := slice pkt (CType.offset ptotPacketHeaderFields 0) MAX_NAME_LEN
  type := .ofNat (read pkt (CType.offset ptotPacketHeaderFields 1) 2)
  ip := .ofNat (read pkt (CType.offset ptotPacketHeaderFields 2) 4)
  port := .ofNat (read pkt (CType.offset ptotPacketHeaderFields 3) 2)
  dataLen := .ofNat (read pkt (CType.offset ptotPacketHeaderFields 4) 2)

def ttopPacketHeader (pkt : Mem) : TtopPacketHeader where
  type := .ofNat (read pkt (CType.offset ttopPacketHeaderFields 0) 2)
  dataLen := .ofNat (read pkt (CType.offset ttopPacketHeaderFields 1) 2)

def p2pPacketHeader (pkt : Mem) : P2pPacketHeader where
  type := .ofNat (read pkt (CType.offset ttopPacketHeaderFields 0) 2)
  dataLen := .ofNat (read pkt (CType.offset ttopPacketHeaderFields 1) 2)

def ptotPacketHeaderSize : ℕ := (CType.struct ptotPacketHeaderFields).size
def ttopPacketHeaderSize : ℕ := (CType.struct ttopPacketHeaderFields).size
def ptotPacketSize : ℕ := ptotPacketHeaderSize + MAX_PKT_DATA_LEN
def ttopPacketSize : ℕ := ttopPacketHeaderSize + MAX_PKT_DATA_LEN

/-- `struct ptot_packet`. -/
def ptotPacket : PacketKind PtotPacketHeader where
  hdrSize := ptotPacketHeaderSize
  hdr := ptotPacketHeader
  dataLen := PtotPacketHeader.dataLen
  recvSize := ptotPacketSize
  hdr_congr h := by
    simp only [ptotPacketHeader, PtotPacketHeader.mk.injEq]
    refine ⟨h.slice ?_ ?_, congrArg _ (h.read ?_ ?_), congrArg _ (h.read ?_ ?_), congrArg _ (h.read ?_ ?_),
      congrArg _ (h.read ?_ ?_)⟩ <;> decide
  recvSize_ge := by decide

/-- `struct ttop_packet`. -/
def ttopPacket : PacketKind TtopPacketHeader where
  hdrSize := ttopPacketHeaderSize
  hdr := ttopPacketHeader
  dataLen := TtopPacketHeader.dataLen
  recvSize := ttopPacketSize
  hdr_congr h := by
    simp only [ttopPacketHeader, TtopPacketHeader.mk.injEq]
    refine ⟨congrArg _ (h.read ?_ ?_), congrArg _ (h.read ?_ ?_)⟩ <;> decide
  recvSize_ge := by decide

/-- `struct p2p_packet`, of which `recv_p2p_packet` copies `sizeof(struct ttop_packet)` bytes. -/
def p2pPacket : PacketKind P2pPacketHeader where
  hdrSize := ttopPacketHeaderSize
  hdr := p2pPacketHeader
  dataLen := P2pPacketHeader.dataLen
  recvSize := ttopPacketSize
  hdr_congr h := by
    simp only [p2pPacketHeader, P2pPacketHeader.mk.injEq]
    refine ⟨congrArg _ (h.read ?_ ?_), congrArg _ (h.read ?_ ?_)⟩ <;> decide
  recvSize_ge := by decide

def sendPtotPacket (pkt : Mem) : Bytes := ptotPacket.send pkt
def recvPtotPacket (pkt : Mem) (stream : Bytes) : PacketResult := ptotPacket.recv pkt stream
def sendTtopPacket (pkt : Mem) : Bytes := ttopPacket.send pkt
def recvTtopPacket (pkt : Mem) (stream : Bytes) : PacketResult := ttopPacket.recv pkt stream
def sendP2pPacket (pkt : Mem) : Bytes := p2pPacket.send pkt
def recvP2pPacket (pkt : Mem) (stream : Bytes) : PacketResult := p2pPacket.recv pkt stream

/-! ## Building packets -/

/-- `enum p2p_packet_type`. -/
inductive P2pPacketType where
  | fileLenReq
  | portReq
  | pieceReq
  | finish
  | fileLenRet
  | portRet
  | pieceRet

/-- `enum ptot_packet_type`. -/
inductive PtotPacketType where
  | register
  | keepAlive
  | fileUpdate
  | sync

/-- `ptot_packet_init` of the peer with address `myIp`. -/
def ptotPacketInit (myIp : UInt32) (type : PtotPacketType) : Mem :=
  let pkt := write zeroed (CType.offset ptotPacketHeaderFields 1) 2 type.ctorIdx
  let pkt := write pkt (CType.offset ptotPacketHeaderFields 2) 4 myIp.toNat
  write pkt (CType.offset ptotPacketHeaderFields 3) 2 P2P_PORT.toNat

def ptotPacketFill (pkt buf : Mem) (len : ℕ) : Mem :=
  let pkt := memcpy pkt ptotPacketHeaderSize buf 0 len
  write pkt (CType.offset ptotPacketHeaderFields 4) 2 len

def p2pPacketInit (type : P2pPacketType) : Mem :=
  write zeroed (CType.offset ttopPacketHeaderFields 0) 2 type.ctorIdx

def p2pPacketFill (pkt buf : Mem) (len : ℕ) : Mem :=
  let pkt := write pkt (CType.offset ttopPacketHeaderFields 1) 2 len
  memcpy pkt ttopPacketHeaderSize buf 0 len

/-- A packet that `ptot_packet_init` and `ptot_packet_fill` build carries its type, the peer's address and
port, and its length. -/
theorem ptotPacketHeader_fill_init (myIp : UInt32) (type : PtotPacketType) (buf : Mem) (len : ℕ) :
    ptotPacketHeader (ptotPacketFill (ptotPacketInit myIp type) buf len) =
      ⟨List.replicate MAX_NAME_LEN 0, .ofNat type.ctorIdx, myIp, P2P_PORT, .ofNat len⟩ := by
  have hfill : AgreeOn (ptotPacketFill (ptotPacketInit myIp type) buf len) (ptotPacketInit myIp type) 0 138 :=
    (agreeOn_write _ (Or.inl (by decide))).trans (agreeOn_memcpy_outside _ _ (Or.inl (by decide)))
  let typed := write zeroed (CType.offset ptotPacketHeaderFields 1) 2 type.ctorIdx
  let addressed := write typed (CType.offset ptotPacketHeaderFields 2) 4 myIp.toNat
  have hport : AgreeOn (ptotPacketInit myIp type) addressed 0 136 := agreeOn_write _ (Or.inl (by decide))
  have hip : AgreeOn addressed typed 0 132 := agreeOn_write _ (Or.inl (by decide))
  have htype : AgreeOn typed zeroed 0 128 := agreeOn_write _ (Or.inl (by decide))
  rw [ptotPacketHeader, PtotPacketHeader.mk.injEq]
  refine ⟨?_, ?_, ?_, ?_, ?_⟩
  · rw [hfill.slice (by decide) (by decide), hport.slice (by decide) (by decide), hip.slice (by decide) (by decide),
      htype.slice (by decide) (by decide)]
    decide
  · rw [hfill.read (by decide) (by decide), hport.read (by decide) (by decide), hip.read (by decide) (by decide),
      read_write_self]
    exact UInt16.ofNat_mod_size
  · rw [hfill.read (by decide) (by decide), hport.read (by decide) (by decide), read_write_self]
    exact UInt32.ofNat_mod_size.trans UInt32.ofNat_toNat
  · rw [hfill.read (by decide) (by decide), ptotPacketInit, read_write_self]
    decide
  · rw [ptotPacketFill, read_write_self]
    exact UInt16.ofNat_mod_size

/-! ## Round trips -/

namespace PacketKind

variable {η : Type} (K : PacketKind η)

/-- A packet sent on an idle connection and received over `pkt₀` arrives: a positive count, the header
and the data that were sent, and nothing left to read. -/
structure RoundTrips (send : Mem → Bytes) (recv : Mem → Bytes → PacketResult) (pkt pkt₀ : Mem) : Prop where
  ret_pos : 0 < (recv pkt₀ (send pkt)).ret
  hdr : K.hdr (recv pkt₀ (send pkt)).pkt = K.hdr pkt
  data : slice (recv pkt₀ (send pkt)).pkt K.hdrSize (K.dataLen (K.hdr pkt)).toNat =
    slice pkt K.hdrSize (K.dataLen (K.hdr pkt)).toNat
  rest : (recv pkt₀ (send pkt)).rest = []

theorem packetLen_le (pkt : Mem) : K.packetLen pkt ≤ K.recvSize := by
  have h1 := (K.dataLen (K.hdr pkt)).toNat_lt
  have h2 := K.recvSize_ge
  unfold packetLen
  omega

/-- After a segment that was not cut, the packet has the bytes that were sent. -/
theorem agreeOn_recv (pkt pkt₀ : Mem) (bs : Bytes) :
    AgreeOn (memcpy pkt₀ 0 (ofBytes (slice pkt 0 (K.packetLen pkt) ++ bs)) 0 K.recvSize) pkt 0
      (K.packetLen pkt) :=
  ((agreeOn_memcpy _ _ _).mono le_rfl (K.packetLen_le pkt)).trans fun _ _ hi => ofBytes_slice_append bs hi

theorem recv_send {pkt : Mem} (h : ¬ endMarker <:+: slice pkt 0 (K.packetLen pkt)) (pkt₀ : Mem) :
    K.recv pkt₀ (K.send pkt) = ⟨K.packetLen pkt + 2,
      memcpy pkt₀ 0 (ofBytes (slice pkt 0 (K.packetLen pkt) ++ endMarker)) 0 K.recvSize, []⟩ := by
  have hseg := recvSegment_sendSegment h []
  rw [List.append_nil, length_slice] at hseg
  rw [recv, send, hseg]
  exact if_neg (by dsimp only; omega)

theorem roundTrips_iff_unmarked (pkt pkt₀ : Mem) :
    K.RoundTrips K.send K.recv pkt pkt₀ ↔ ¬ endMarker <:+: slice pkt 0 (K.packetLen pkt) := by
  constructor
  · rintro ⟨-, -, -, hrest⟩ hmark
    obtain ⟨a, b, -, hcut⟩ := recvSegment_cut hmark []
    rw [List.append_nil] at hcut
    rw [recv, send, hcut] at hrest
    dsimp only at hrest
    split_ifs at hrest <;> simp [endMarker] at hrest
  · intro hclean
    have hrecv := K.recv_send hclean pkt₀
    have hagree := K.agreeOn_recv pkt pkt₀ endMarker
    refine ⟨?_, ?_, ?_, ?_⟩
    · rw [hrecv]
      dsimp only
      omega
    · rw [hrecv]
      exact K.hdr_congr (hagree.mono le_rfl (Nat.le_add_right _ _))
    · rw [hrecv]
      exact hagree.slice (Nat.zero_le _) le_rfl
    · rw [hrecv]

end PacketKind

/-- **Packet round trip.** A packet of each kind arrives with the header and data it was sent with, in
one call that leaves nothing unread, if and only if the bytes '!' and '#' are nowhere next to each
other in its header and data. -/
theorem packets_round_trip_iff (pkt pkt₀ : Mem) :
    (ptotPacket.RoundTrips sendPtotPacket recvPtotPacket pkt pkt₀ ↔
      ¬ endMarker <:+: slice pkt 0 (ptotPacket.packetLen pkt)) ∧
    (ttopPacket.RoundTrips sendTtopPacket recvTtopPacket pkt pkt₀ ↔
      ¬ endMarker <:+: slice pkt 0 (ttopPacket.packetLen pkt)) ∧
    (p2pPacket.RoundTrips sendP2pPacket recvP2pPacket pkt pkt₀ ↔
      ¬ endMarker <:+: slice pkt 0 (p2pPacket.packetLen pkt)) :=
  ⟨ptotPacket.roundTrips_iff_unmarked pkt pkt₀, ttopPacket.roundTrips_iff_unmarked pkt pkt₀,
    p2pPacket.roundTrips_iff_unmarked pkt pkt₀⟩

/-- The request for the length of the file "1/!#" does not arrive. -/
theorem file_len_req_marked_name_lost :
    let pkt := p2pPacketFill (p2pPacketInit .fileLenReq) (ofBytes [0x31, 0x2f, 0x21, 0x23, 0]) 5
    ¬ p2pPacket.RoundTrips sendP2pPacket recvP2pPacket pkt zeroed := by
  intro pkt h
  exact (p2pPacket.roundTrips_iff_unmarked pkt zeroed).mp h (by decide)

end TeleSync
