import TeleSync.Wire.Packet

/-!
# File tables in packets

A `trans_file_table` goes into a packet as the first `trans_table_len` bytes of its struct
(`trans_file_table.h`). That macro counts an `int` and the entries, but the entries begin at offset 8,
behind padding, so the last four bytes of the last entry stay behind:

* `tableN`, `entryAt` : the fields of a table in memory, at the offsets of the x86-64 layout;
* `ttopPacketFill`, `ptotPacketFill` : the table goes into the packet; `receiveTable` : it is copied
  over the destination table;
* `AgreeUpToLast` : what the copy does to the destination;
* `table_round_trip_iff` : the port of a sixteenth owner of the last entry is all that can be lost.
-/

namespace TeleSync
open Memory

/-! ## The table in memory -/

/-- The fields of `struct peer_id`. -/
def peerIdFields : List CType := [.int 4, .int 2]

/-- The fields of `struct trans_file_entry`. -/
def transFileEntryFields : List CType :=
  [(CType.int 1).array MAX_NAME_LEN, .int 8, .int 2, .int 2, .int 2,
    (CType.struct peerIdFields).array MAX_PEER_ENTRIES]

/-- The fields of `struct trans_file_table`. -/
def transFileTableFields : List CType :=
  [.int 4, (CType.struct transFileEntryFields).array MAX_FILE_ENTRIES]

def transFileEntrySize : ℕ := (CType.struct transFileEntryFields).size

theorem transFileEntrySize_eq : transFileEntrySize = 272 := by decide

/-- Where entry `i` of a table begins. -/
def entryOffset (i : ℕ) : ℕ := CType.offset transFileTableFields 1 + i * transFileEntrySize

theorem entryOffset_eq (i : ℕ) : entryOffset i = 8 + i * 272 := by
  rw [entryOffset, transFileEntrySize_eq]
  rfl

/-- Where owner `j` of entry `i` begins. -/
def ownerOffset (i j : ℕ) : ℕ :=
  entryOffset i + CType.offset transFileEntryFields 5 + j * (CType.struct peerIdFields).size

theorem ownerOffset_eq (i j : ℕ) : ownerOffset i j = 8 + i * 272 + 144 + j * 8 := by
  rw [ownerOffset, entryOffset_eq]
  rfl

/-- The signed field `n`. -/
def tableN (t : Mem) : ℤ := (BitVec.ofNat 32 (read t (CType.offset transFileTableFields 0) 4)).toInt

def ownerN (t : Mem) (i : ℕ) : UInt16 := .ofNat (read t (entryOffset i + CType.offset transFileEntryFields 4) 2)

def ownerPort (t : Mem) (i j : ℕ) : UInt16 := .ofNat (read t (ownerOffset i j + CType.offset peerIdFields 1) 2)

def ownerAt (t : Mem) (i j : ℕ) : PeerId where
  ip := .ofNat (read t (ownerOffset i j + CType.offset peerIdFields 0) 4)
  port := ownerPort t i j

/-- The fields of an entry, with the owners that `owner_n` counts. -/
structure EntryFields where
  name : Bytes
  timestamp : UInt64
  opType : UInt16
  fileType : UInt16
  ownerN : UInt16
  owners : List PeerId

def entryAt (t : Mem) (i : ℕ) : EntryFields where
  name := slice t (entryOffset i + CType.offset transFileEntryFields 0) MAX_NAME_LEN
  timestamp := .ofNat (read t (entryOffset i + CType.offset transFileEntryFields 1) 8)
  opType := .ofNat (read t (entryOffset i + CType.offset transFileEntryFields 2) 2)
  fileType := .ofNat (read t (entryOffset i + CType.offset transFileEntryFields 3) 2)
  ownerN := ownerN t i
  owners := (List.range (ownerN t i).toNat).map (ownerAt t i)

/-- The macro `trans_table_len`, in `size_t` arithmetic. -/
def transTableLen (t : Mem) : ℕ := (((CType.int 4).size + tableN t * transFileEntrySize) % 2 ^ 64).toNat

/-! ## Sending and receiving a table -/

/-- How `broadcast_update` and `sync_task` fill a `ttop_packet`. -/
def ttopPacketFill (pkt : Mem) (type : ℕ) (tft : Mem) : Mem :=
  let pkt := write pkt (CType.offset ttopPacketHeaderFields 0) 2 type
  let pkt := write pkt (CType.offset ttopPacketHeaderFields 1) 2 (transTableLen tft)
  memcpy pkt ttopPacketHeaderSize tft 0 (ttopPacketHeader pkt).dataLen.toNat

/-- The receiver copies `data_len` bytes into its table. -/
def receiveTable {η : Type} (K : PacketKind η) (dst pkt : Mem) : Mem :=
  memcpy dst 0 pkt K.hdrSize (K.dataLen (K.hdr pkt)).toNat

/-- The packet holds the first `len` bytes of a table, and says so. -/
structure Carries {η : Type} (K : PacketKind η) (pkt t : Mem) (len : ℕ) : Prop where
  dataLen : (K.dataLen (K.hdr pkt)).toNat = len
  data : ∀ i < len, pkt (K.hdrSize + i) = t i

theorem toNat_read_write (m : Mem) (off : ℕ) {v : ℕ} (h : v < 2 ^ 16) :
    (UInt16.ofNat (read (write m off 2 v) off 2)).toNat = v := by
  rw [read_write_self, UInt16.toNat_ofNat', Nat.mod_mod_of_dvd _ (by decide)]
  exact Nat.mod_eq_of_lt h

theorem ptotPacketFill_carries (pkt t : Mem) {len : ℕ} (h : len < 2 ^ 16) :
    Carries ptotPacket (ptotPacketFill pkt t len) t len := by
  refine ⟨?_, fun i hi => ?_⟩
  · exact toNat_read_write _ _ h
  · have hafter : CType.offset ptotPacketHeaderFields 4 + 2 ≤ ptotPacketHeaderSize := by decide
    show write _ _ _ _ (ptotPacketHeaderSize + i) = t i
    rw [write_outside _ (Or.inr (by omega)), memcpy_inside _ _ (by omega) (by omega)]
    simp

theorem ttopPacketFill_carries (pkt t : Mem) (type : ℕ) (h : transTableLen t < 2 ^ 16) :
    Carries ttopPacket (ttopPacketFill pkt type t) t (transTableLen t) := by
  have hlen : ∀ m : Mem, (ttopPacketHeader (write m (CType.offset ttopPacketHeaderFields 1) 2
      (transTableLen t))).dataLen.toNat = transTableLen t :=
    fun m => toNat_read_write m _ h
  refine ⟨?_, fun i hi => ?_⟩
  · rw [← hlen (write pkt (CType.offset ttopPacketHeaderFields 0) 2 type)]
    refine congrArg (fun η : TtopPacketHeader => η.dataLen.toNat) (ttopPacket.hdr_congr fun i _ hi => ?_)
    exact memcpy_outside _ _ (Or.inl hi)
  · show memcpy _ _ _ _ _ (ttopPacketHeaderSize + i) = t i
    rw [hlen, memcpy_inside _ _ (by omega) (by omega)]
    simp

/-! ## What arrives -/

/-- The table `r` after `4 + n * 272` bytes of `t` were copied over `dst`. -/
structure AgreeUpToLast (r t dst : Mem) (n : ℕ) : Prop where
  copied : AgreeOn r t 0 (4 + n * 272)
  kept : ∀ i, 4 + n * 272 ≤ i → r i = dst i

theorem Carries.agreeUpToLast {η : Type} {K : PacketKind η} {pkt t : Mem} {n : ℕ}
    (h : Carries K pkt t (4 + n * 272)) (dst : Mem) : AgreeUpToLast (receiveTable K dst pkt) t dst n := by
  refine ⟨fun i _ hi => ?_, fun i hi => ?_⟩
  · rw [receiveTable, h.dataLen, memcpy_inside _ _ (by omega) (by omega)]
    exact h.data i hi
  · rw [receiveTable, h.dataLen, memcpy_outside _ _ (Or.inr (by omega))]

section Entry
variable {r t : Mem} {i : ℕ}

theorem ownerPort_of_agree {a b j : ℕ} (h : AgreeOn r t a b) (ha : a ≤ 156 + i * 272 + j * 8)
    (hb : 158 + i * 272 + j * 8 ≤ b) : ownerPort r i j = ownerPort t i j := by
  have hoff : CType.offset peerIdFields 1 = 4 := by decide
  unfold ownerPort
  rw [h.read]
  · rw [ownerOffset_eq]
    omega
  · rw [ownerOffset_eq]
    omega

/-- The sixteenth owner's port is the one field in the last four bytes of an entry. -/
theorem ownerAt_of_agree (h : AgreeOn r t (entryOffset i) (entryOffset i + 268)) {j : ℕ} (hj : j < 16)
    (hport : j = 15 → ownerPort r i j = ownerPort t i j) : ownerAt r i j = ownerAt t i j := by
  have hip : read r (ownerOffset i j) 4 = read t (ownerOffset i j) 4 := by
    rw [ownerOffset_eq, ← entryOffset_eq, add_assoc]
    exact h.read_field (by omega)
  have hp : ownerPort r i j = ownerPort t i j := by
    by_cases hlast : j = 15
    · exact hport hlast
    · rw [entryOffset_eq] at h
      exact ownerPort_of_agree h (by omega) (by omega)
  rw [ownerAt, ownerAt, hp]
  exact congrArg (fun v => PeerId.mk (UInt32.ofNat v) (ownerPort t i j)) hip

theorem ownerN_of_agree (h : AgreeOn r t (entryOffset i) (entryOffset i + 268)) : ownerN r i = ownerN t i :=
  congrArg _ (h.read_field (by decide))

/-- An entry of which all but the last four bytes arrived is whole unless it has sixteen owners. -/
theorem entryAt_eq_iff (h : AgreeOn r t (entryOffset i) (entryOffset i + 268)) (hmax : (ownerN t i).toNat ≤ 16) :
    entryAt r i = entryAt t i ↔ ((ownerN t i).toNat < 16 ∨ ownerPort r i 15 = ownerPort t i 15) := by
  have hn := ownerN_of_agree h
  constructor
  · intro heq
    by_contra hcon
    obtain ⟨hge, hne⟩ := not_or.mp hcon
    have howners := congrArg EntryFields.owners heq
    have hlast : ownerAt r i 15 = ownerAt t i 15 := by
      refine List.map_inj_left.mp ?_ 15 (List.mem_range.mpr (by omega : 15 < (ownerN t i).toNat))
      simp only [entryAt, hn] at howners
      exact howners
    exact hne (congrArg PeerId.port hlast)
  · intro hport
    have howners : (List.range (ownerN r i).toNat).map (ownerAt r i) =
        (List.range (ownerN t i).toNat).map (ownerAt t i) := by
      rw [hn]
      refine List.map_congr_left fun j hj => ?_
      have hj := List.mem_range.mp hj
      refine ownerAt_of_agree h (by omega) fun hlast => ?_
      subst hlast
      exact hport.resolve_left (by omega)
    rw [entryAt, entryAt, howners, hn, EntryFields.mk.injEq]
    refine ⟨h.slice ?_ ?_, congrArg _ (h.read_field ?_), congrArg _ (h.read_field ?_), congrArg _ (h.read_field ?_),
      rfl, rfl⟩
    · omega
    · have : CType.offset transFileEntryFields 0 + MAX_NAME_LEN ≤ 268 := by decide
      omega
    · decide
    · decide
    · decide

end Entry

/-- The same `n`, and the same fields in every entry below `n`. -/
def SameTable (r t : Mem) : Prop := tableN r = tableN t ∧ ∀ i < (tableN t).toNat, entryAt r i = entryAt t i

/-- What has to be in order with the last entry: it leaves an owner slot free, or the destination already
had the port of the last owner. -/
def LastPortSafe (t dst : Mem) : Prop :=
  tableN t = 0 ∨ (ownerN t ((tableN t).toNat - 1)).toNat < MAX_PEER_ENTRIES ∨
    ownerPort dst ((tableN t).toNat - 1) 15 = ownerPort t ((tableN t).toNat - 1) 15

instance (t dst : Mem) : Decidable (LastPortSafe t dst) := inferInstanceAs (Decidable (_ ∨ _ ∨ _))

theorem AgreeUpToLast.sameTable_iff {r t dst : Mem} {n : ℕ} (h : AgreeUpToLast r t dst n) (hn : tableN t = n)
    (howners : ∀ i < n, (ownerN t i).toNat ≤ 16) : SameTable r t ↔ LastPortSafe t dst := by
  have hcount : tableN r = tableN t :=
    congrArg (fun v => (BitVec.ofNat 32 v).toInt) (h.copied.read (by decide) (by
      have : CType.offset transFileTableFields 0 = 0 := by decide
      omega))
  have hagree : ∀ i < n, AgreeOn r t (entryOffset i) (entryOffset i + 268) := by
    intro i hi
    apply h.copied.mono (Nat.zero_le _)
    rw [entryOffset_eq]
    omega
  have hbefore : ∀ i, i + 1 < n → entryAt r i = entryAt t i := by
    intro i hi
    exact (entryAt_eq_iff (hagree i (by omega)) (howners i (by omega))).mpr
      (Or.inr (ownerPort_of_agree h.copied (Nat.zero_le _) (by omega)))
  unfold SameTable LastPortSafe
  rw [hcount, hn, Int.toNat_natCast]
  by_cases h0 : n = 0
  · subst h0
    simp
  · have hlast : ownerPort r (n - 1) 15 = ownerPort dst (n - 1) 15 :=
      ownerPort_of_agree (a := 4 + n * 272) (b := 4 + n * 272 + 4) (fun i hi _ => h.kept i hi) (by omega)
        (by omega)
    have hentry := entryAt_eq_iff (hagree (n - 1) (by omega)) (howners (n - 1) (by omega))
    rw [hlast] at hentry
    constructor
    · rintro ⟨-, hall⟩
      exact Or.inr (hentry.mp (hall (n - 1) (by omega)))
    · intro hsafe
      refine ⟨rfl, fun i hi => ?_⟩
      by_cases hi' : i + 1 < n
      · exact hbefore i hi'
      · have hi'' : i = n - 1 := by omega
        rw [hi'']
        exact hentry.mpr (hsafe.resolve_left (by omega))

theorem transTableLen_eq {t : Mem} {n : ℕ} (hn : tableN t = n) (hle : n ≤ 4096) :
    transTableLen t = 4 + n * 272 := by
  rw [transTableLen, hn, transFileEntrySize_eq]
  have : (CType.int 4).size = 4 := rfl
  rw [this]
  omega

/-- **Table encoding round trip.** A table that fits into a packet, sent to the tracker or to a peer and
copied over `dst`, comes back with the same entries if and only if it is empty, its last entry has
fewer than sixteen owners, or `dst` happens to hold the port of the sixteenth already. -/
theorem table_round_trip_iff (t dst pkt : Mem) (type : ℕ) (h0 : 0 ≤ tableN t) (h240 : tableN t ≤ 240)
    (howners : ∀ i < (tableN t).toNat, (ownerN t i).toNat ≤ MAX_PEER_ENTRIES) :
    (SameTable (receiveTable ptotPacket dst (ptotPacketFill pkt t (transTableLen t))) t ↔ LastPortSafe t dst) ∧
      (SameTable (receiveTable ttopPacket dst (ttopPacketFill pkt type t)) t ↔ LastPortSafe t dst) := by
  obtain ⟨n, hn⟩ := Int.eq_ofNat_of_zero_le h0
  rw [hn, Int.toNat_natCast] at howners
  have hlen := transTableLen_eq hn (by omega)
  have hfits : transTableLen t < 2 ^ 16 := by omega
  have hptot := ptotPacketFill_carries pkt t hfits
  have httop := ttopPacketFill_carries pkt t type hfits
  rw [hlen] at hptot httop
  rw [hlen]
  exact ⟨(hptot.agreeUpToLast dst).sameTable_iff hn howners, (httop.agreeUpToLast dst).sameTable_iff hn howners⟩

/-- A table in zeroed memory with one entry of `owners` owners, the last of which listens on `port`. -/
def oneEntryTable (owners : ℕ) (port : UInt16) : Mem :=
  let t := write zeroed (CType.offset transFileTableFields 0) 4 1
  let t := write t (entryOffset 0 + CType.offset transFileEntryFields 4) 2 owners
  write t (ownerOffset 0 (owners - 1) + CType.offset peerIdFields 1) 2 port.toNat

/-- Fifteen owners arrive in a fresh table. -/
theorem table_round_trip_fifteen_owners :
    let t := oneEntryTable 15 P2P_PORT
    SameTable (receiveTable ptotPacket zeroed (ptotPacketFill zeroed t (transTableLen t))) t :=
  (table_round_trip_iff (oneEntryTable 15 P2P_PORT) zeroed zeroed 0 (by decide) (by decide)
    (by decide)).1.mpr (by decide)

/-- Of sixteen owners, the last one's port is lost: the copy has 0 there. -/
theorem table_sixteenth_port_lost :
    let t := oneEntryTable 16 P2P_PORT
    let r := receiveTable ptotPacket zeroed (ptotPacketFill zeroed t (transTableLen t))
    tableN t = 1 ∧ (ownerN t 0).toNat = 16 ∧ ¬ SameTable r t := by
  intro t r
  have hn : tableN t = (1 : ℕ) := by decide
  have hlen : transTableLen t = 4 + 1 * 272 := transTableLen_eq hn (by decide)
  refine ⟨hn, by decide, fun hsame => ?_⟩
  have hcarries := ptotPacketFill_carries zeroed t (show 4 + 1 * 272 < 2 ^ 16 by decide)
  have hr : AgreeUpToLast r t zeroed 1 := by
    simp only [r, hlen]
    exact hcarries.agreeUpToLast zeroed
  exact absurd ((hr.sameTable_iff hn (by decide)).mp hsame) (by decide)

end TeleSync
