import TeleSync.Sync.Threads
import TeleSync.Wire.Channel
import TeleSync.Wire.TableImage

/-!
# The packets of tracker and clients as bytes

* `ttopImage`, `ptotImage` : the packet that the code fills, with a table from memory;
* `ttopPacketAt`, `clientPacketAt` : what the code finds in a packet that it has read;
* `IsTtop`, `IsPtot` : a packet in memory stands for one of the model, and is found again as that
  (`IsTtop.ttopPacketAt`, `IsPtot.clientPacketAt`).
-/

namespace TeleSync.Threads
open Memory Transition

/-! ## Filling packets -/

/-- `struct ttop_control_info` in memory. -/
def ctrInfoImage (c : TtopControlInfo) : Mem :=
  write (write zeroed 0 4 c.interval.toUInt32.toNat) 4 4 c.pieceLen.toUInt32.toNat

def ctrInfoAt (m : Mem) : TtopControlInfo :=
  ⟨(UInt32.ofNat (read m 0 4)).toInt32, (UInt32.ofNat (read m 4 4)).toInt32⟩

/-- How `peer_register_handler_task` fills its `TRACKER_ACCEPT`. -/
def acceptPacket (pkt : Mem) (ctrInfo : TtopControlInfo) : Mem :=
  let pkt := write pkt (CType.offset ttopPacketHeaderFields 0) 2 0
  let pkt := write pkt (CType.offset ttopPacketHeaderFields 1) 2 8
  memcpy pkt ttopPacketHeaderSize (ctrInfoImage ctrInfo) 0 (ttopPacketHeader pkt).dataLen.toNat

/-- The packet over what was at `pkt`, with the table at `t` where it has one. -/
def ttopImage (pkt t : Mem) : TtopPacket → Mem
  | .accept ctrInfo => acceptPacket pkt ctrInfo
  | .broadcast _ => ttopPacketFill pkt 1 t
  | .sync _ => ttopPacketFill pkt 2 t

/-- The packet of the client with address `myIp`. -/
def ptotImage (myIp : UInt32) (t : Mem) : ClientPacket → Mem
  | .register _ => ptotPacketInit myIp .register
  | .sync _ => ptotPacketFill (ptotPacketInit myIp .sync) t (transTableLen t)
  | .update _ => ptotPacketFill (ptotPacketInit myIp .fileUpdate) t (transTableLen t)

def ttopTable : TtopPacket → TransFileTable
  | .accept _ => []
  | .broadcast tft => tft
  | .sync tft => tft

def ptotTable : ClientPacket → TransFileTable
  | .register _ => []
  | .sync tft => tft
  | .update tft => tft

/-! ## Taking packets apart -/

/-- The packet that a client has read; `dst` is where `memcpy` puts its data, but for the table of a
`TRACKER_BROADCAST`, which `calloc` gives. -/
def ttopPacketAt (dst pkt : Mem) : Option TtopPacket :=
  if (ttopPacketHeader pkt).type = 0 then some (.accept (ctrInfoAt (receiveTable ttopPacket dst pkt)))
  else if (ttopPacketHeader pkt).type = 1 then (tableOf (receiveTable ttopPacket zeroed pkt)).map .broadcast
  else if (ttopPacketHeader pkt).type = 2 then (tableOf (receiveTable ttopPacket dst pkt)).map .sync
  else none

/-- The packet that `receiver_task` has read. -/
def clientPacketAt (pkt : Mem) : Option ClientPacket :=
  if (ptotPacketHeader pkt).type = .ofNat PtotPacketType.register.ctorIdx then
    some (.register ⟨(ptotPacketHeader pkt).ip, (ptotPacketHeader pkt).port⟩)
  else if (ptotPacketHeader pkt).type = .ofNat PtotPacketType.sync.ctorIdx then
    (tableOf (receivedTable pkt)).map .sync
  else if (ptotPacketHeader pkt).type = .ofNat PtotPacketType.fileUpdate.ctorIdx then
    (tableOf (receivedTable pkt)).map .update
  else none

/-- The packet was filled from a memory that holds its table, and the table comes through. -/
def IsTtop (pkt : Mem) (p : TtopPacket) : Prop :=
  InPacket (ttopTable p) ∧ ∃ pkt₀ t, HoldsTable t (ttopTable p) ∧ pkt = ttopImage pkt₀ t p

def IsPtot (pkt : Mem) (p : ClientPacket) : Prop :=
  InPacket (ptotTable p) ∧ ∃ myIp t, HoldsTable t (ptotTable p) ∧ pkt = ptotImage myIp t p ∧
    ∀ peerid, p = .register peerid → peerid = ⟨myIp, P2P_PORT⟩

section Found
variable {pkt m : Mem}

theorem Carries.congr {η : Type} {K : PacketKind η} {t : Mem} {len : ℕ} (h : Carries K pkt t len)
    (hagree : AgreeOn m pkt 0 (K.packetLen pkt)) : Carries K m t len := by
  have hhdr : K.hdr m = K.hdr pkt := K.hdr_congr (hagree.mono le_rfl (Nat.le_add_right _ _))
  refine ⟨by rw [hhdr, h.dataLen], fun i hi => ?_⟩
  rw [hagree _ (Nat.zero_le _) (by rw [PacketKind.packetLen, h.dataLen]; omega)]
  exact h.data i hi

theorem transTableLen_holds {t : Mem} {tft : TransFileTable} (h : HoldsTable t tft) (hin : InPacket tft) :
    transTableLen t = 4 + tft.length * 272 ∧ transTableLen t < 2 ^ 16 := by
  have hle := hin.length
  have hlen := transTableLen_eq h.n (by omega)
  exact ⟨hlen, by omega⟩

/-! ## From the tracker -/

theorem ttopPacketHeader_type (pkt t : Mem) {type : ℕ} (h : type < 2 ^ 16) :
    (ttopPacketHeader (ttopPacketFill pkt type t)).type = .ofNat type := by
  have hkept : ∀ m : Mem, ∀ len, AgreeOn (memcpy m ttopPacketHeaderSize t 0 len) m 0 4 := fun m len =>
    agreeOn_memcpy_outside m t (Or.inl (by decide))
  rw [ttopPacketFill, ttopPacketHeader]
  dsimp only
  rw [(hkept _ _).read (Nat.zero_le _) (by decide), read_write_beside _ (by decide), read_write_self,
    Nat.mod_eq_of_lt (by omega)]

theorem tableOf_received {t : Mem} {tft : TransFileTable} {pkt₀ : Mem} {type : ℕ} (ht : HoldsTable t tft)
    (hin : InPacket tft)
    (hagree : AgreeOn m (ttopPacketFill pkt₀ type t) 0 (ttopPacket.packetLen (ttopPacketFill pkt₀ type t))) (dst : Mem) :
    tableOf (receiveTable ttopPacket dst m) = some tft := by
  obtain ⟨hlen, hlt⟩ := transTableLen_holds ht hin
  have hcarries := ttopPacketFill_carries pkt₀ t type hlt
  rw [hlen] at hcarries
  exact (ht.received hin (Carries.congr hcarries hagree) dst).tableOf

theorem ofNat_mod_word (x : UInt32) : UInt32.ofNat (x.toNat % 256 ^ 4) = x := UInt32.ofNat_mod_size.trans UInt32.ofNat_toNat

theorem ctrInfoAt_image (c : TtopControlInfo) : ctrInfoAt (ctrInfoImage c) = c := by
  obtain ⟨interval, pieceLen⟩ := c
  rw [ctrInfoAt, ctrInfoImage, read_write_beside _ (by decide), read_write_self, read_write_self, ofNat_mod_word,
    ofNat_mod_word]
  rfl

theorem acceptPacket_carries (pkt : Mem) (c : TtopControlInfo) :
    (ttopPacketHeader (acceptPacket pkt c)).type = 0 ∧ Carries ttopPacket (acceptPacket pkt c) (ctrInfoImage c) 8 := by
  let typed := write pkt (CType.offset ttopPacketHeaderFields 0) 2 0
  let sized := write typed (CType.offset ttopPacketHeaderFields 1) 2 8
  have hlen : (ttopPacketHeader sized).dataLen.toNat = 8 := toNat_read_write _ _ (by decide)
  have hfill : acceptPacket pkt c = memcpy sized ttopPacketHeaderSize (ctrInfoImage c) 0 8 := by
    rw [← hlen]
    rfl
  have hkept : AgreeOn (acceptPacket pkt c) sized 0 4 := by
    rw [hfill]
    exact agreeOn_memcpy_outside _ _ (Or.inl (by decide))
  have hhdr : ttopPacketHeader (acceptPacket pkt c) = ttopPacketHeader sized := ttopPacket.hdr_congr hkept
  refine ⟨?_, ?_, fun i hi => ?_⟩
  · rw [hhdr, ttopPacketHeader]
    dsimp only
    rw [read_write_beside _ (by decide), read_write_self]
    rfl
  · exact (congrArg (fun η : TtopPacketHeader => η.dataLen.toNat) hhdr).trans hlen
  · show acceptPacket pkt c (ttopPacketHeaderSize + i) = _
    rw [hfill, memcpy_inside _ _ (Nat.le_add_right _ _) (Nat.add_lt_add_left hi _), Nat.add_sub_cancel_left, Nat.zero_add]

/-- A packet that was read up to its `packet_len` is found as what it was sent for. -/
theorem IsTtop.ttopPacketAt {p : TtopPacket} (h : IsTtop pkt p) (hagree : AgreeOn m pkt 0 (ttopPacket.packetLen pkt))
    (dst : Mem) : ttopPacketAt dst m = some p := by
  obtain ⟨hin, pkt₀, t, ht, rfl⟩ := h
  have hhdr := ttopPacket.hdr_congr (hagree.mono le_rfl (Nat.le_add_right _ _))
  have htype : (ttopPacketHeader m).type = (ttopPacketHeader (ttopImage pkt₀ t p)).type :=
    congrArg TtopPacketHeader.type hhdr
  unfold Threads.ttopPacketAt
  cases p with
  | accept ctrInfo =>
    obtain ⟨htype', hcarries⟩ := acceptPacket_carries pkt₀ ctrInfo
    have hm := Carries.congr hcarries hagree
    have hdata : AgreeOn (receiveTable ttopPacket dst m) (ctrInfoImage ctrInfo) 0 8 := by
      intro i _ hi
      rw [receiveTable, hm.dataLen, memcpy_inside _ _ (Nat.zero_le _) (by omega), Nat.sub_zero]
      exact hm.data i hi
    have hinfo : ctrInfoAt (receiveTable ttopPacket dst m) = ctrInfo := by
      rw [ctrInfoAt, hdata.read (by omega) (by omega), hdata.read (by omega) (by omega)]
      exact ctrInfoAt_image ctrInfo
    rw [if_pos (htype.trans htype'), hinfo]
  | broadcast tft =>
    have htype' : (ttopPacketHeader m).type = 1 := htype.trans (ttopPacketHeader_type pkt₀ t (by decide))
    rw [if_neg (by rw [htype']; decide), if_pos htype', tableOf_received ht hin hagree]
    rfl
  | sync tft =>
    have htype' : (ttopPacketHeader m).type = 2 := htype.trans (ttopPacketHeader_type pkt₀ t (by decide))
    rw [if_neg (by rw [htype']; decide), if_neg (by rw [htype']; decide), if_pos htype', tableOf_received ht hin hagree]
    rfl

/-! ## To the tracker -/

theorem tableOf_receivedTable {t : Mem} {tft : TransFileTable} {pkt₀ : Mem} (ht : HoldsTable t tft) (hin : InPacket tft)
    (hagree : AgreeOn m (ptotPacketFill pkt₀ t (transTableLen t)) 0
      (ptotPacket.packetLen (ptotPacketFill pkt₀ t (transTableLen t)))) : tableOf (receivedTable m) = some tft := by
  obtain ⟨hlen, hlt⟩ := transTableLen_holds ht hin
  have hcarries := ptotPacketFill_carries pkt₀ t hlt
  rw [hlen] at hcarries hagree
  exact (ht.received hin (Carries.congr hcarries hagree) zeroed).tableOf

theorem ptotPacketHeader_init (myIp : UInt32) :
    (ptotPacketHeader (ptotPacketInit myIp .register)).type = .ofNat PtotPacketType.register.ctorIdx ∧
      (ptotPacketHeader (ptotPacketInit myIp .register)).ip = myIp ∧
      (ptotPacketHeader (ptotPacketInit myIp .register)).port = P2P_PORT := by
  rw [ptotPacketInit, ptotPacketHeader]
  dsimp only
  refine ⟨?_, ?_, ?_⟩
  · rw [read_write_beside _ (by decide), read_write_beside _ (by decide), read_write_self]
    rfl
  · rw [read_write_beside _ (by decide), read_write_self, ofNat_mod_word]
  · rw [read_write_self]
    rfl

theorem IsPtot.clientPacketAt {p : ClientPacket} (h : IsPtot pkt p)
    (hagree : AgreeOn m pkt 0 (ptotPacket.packetLen pkt)) : clientPacketAt m = some p := by
  obtain ⟨hin, myIp, t, ht, rfl, hpeer⟩ := h
  have hhdr : ptotPacketHeader m = ptotPacketHeader (ptotImage myIp t p) :=
    ptotPacket.hdr_congr (hagree.mono le_rfl (Nat.le_add_right _ _))
  unfold Threads.clientPacketAt
  rw [hhdr]
  cases p with
  | register peerid =>
    obtain ⟨htype, hip, hport⟩ := ptotPacketHeader_init myIp
    rw [ptotImage, if_pos htype, hip, hport, hpeer peerid rfl]
  | sync tft =>
    have hfill := ptotPacketHeader_fill_init myIp .sync t (transTableLen t)
    rw [ptotImage, hfill]
    dsimp only
    rw [if_neg (by decide), if_pos rfl, tableOf_receivedTable ht hin hagree]
    rfl
  | update tft =>
    have hfill := ptotPacketHeader_fill_init myIp .fileUpdate t (transTableLen t)
    rw [ptotImage, hfill]
    dsimp only
    rw [if_neg (by decide), if_neg (by decide), if_pos rfl, tableOf_receivedTable ht hin hagree]
    rfl

end Found

end TeleSync.Threads
