import TeleSync.Wire.Received
import TeleSync.Lib.CText

/-!
# Tables written to memory

The fields of a `trans_file_table`, as `trans_entry_fill_from` (`file_table.c`) and its callers write them into the
array of entries, and what a receiver reads there once the table has been through a packet.

* `fillOwnerMem`, `transEntryFillFromMem`, `appendEntryMem` : one owner, one entry, one more entry of a table, as bytes;
* `HoldsTable t tft` : the memory `t` holds the table `tft`, with anything in between;
* `tableImage`, `holds_tableImage` : writing the entries one after another gives such a memory;
* `InPacket`, `HoldsTable.receive` : which tables come through a packet as they are.
-/

namespace TeleSync
open Memory

/-! ## Codes and offsets -/

def opTypeCode : OperationType → UInt16
  | .fileNone => 0
  | .fileAdd => 1
  | .fileDelete => 2
  | .fileModify => 3
  | .other code => code

def fileTypeCode : FileType → UInt16
  | .regular => 0
  | .directory => 1
  | .softLink => 2
  | .other code => code

@[simp] theorem offset_name : CType.offset transFileEntryFields 0 = 0 := rfl
@[simp] theorem offset_timestamp : CType.offset transFileEntryFields 1 = 128 := rfl
@[simp] theorem offset_opType : CType.offset transFileEntryFields 2 = 136 := rfl
@[simp] theorem offset_fileType : CType.offset transFileEntryFields 3 = 138 := rfl
@[simp] theorem offset_ownerN : CType.offset transFileEntryFields 4 = 140 := rfl
@[simp] theorem offset_ip : CType.offset peerIdFields 0 = 0 := rfl
@[simp] theorem offset_port : CType.offset peerIdFields 1 = 4 := rfl
@[simp] theorem offset_n : CType.offset transFileTableFields 0 = 0 := rfl

/-! ## Writing a table -/

/-- The loop of `trans_entry_fill_from`: `te->owners[te->owner_n]` is filled and counted. -/
def fillOwnerMem (i : ℕ) (t : Mem) (p : PeerId) : Mem :=
  let j := (ownerN t i).toNat
  let t := write t (ownerOffset i j + CType.offset peerIdFields 0) 4 p.ip.toNat
  let t := write t (ownerOffset i j + CType.offset peerIdFields 1) 2 p.port.toNat
  write t (entryOffset i + CType.offset transFileEntryFields 4) 2 (j + 1)

/-- `trans_entry_fill_from` for entry `i` of a table: `bzero`, `strcpy`, the fields and the owners. -/
def transEntryFillFromMem (t : Mem) (i : ℕ) (fe : FileEntry) : Mem :=
  let t := memcpy t (entryOffset i) zeroed 0 transFileEntrySize
  let t := memcpy t (entryOffset i + CType.offset transFileEntryFields 0) (ofBytes fe.name.bytes) 0
    (fe.name.bytes.length + 1)
  let t := write t (entryOffset i + CType.offset transFileEntryFields 1) 8 fe.timestamp
  let t := write t (entryOffset i + CType.offset transFileEntryFields 3) 2 (fileTypeCode fe.type).toNat
  fe.owners.foldl (fillOwnerMem i) t

/-- An entry is filled at `tft->entries + tft->n`, its `op_type` is set and `n` goes up. -/
def appendEntryMem (t : Mem) (te : TransFileEntry) : Mem :=
  let i := (tableN t).toNat
  let t := transEntryFillFromMem t i ⟨⟨te.timestamp, te.fileType, te.owners⟩, te.name⟩
  let t := write t (entryOffset i + CType.offset transFileEntryFields 2) 2 (opTypeCode te.opType).toNat
  write t (CType.offset transFileTableFields 0) 4 (i + 1)

/-- A zeroed table with these entries. -/
def tableImage (tft : TransFileTable) : Mem := tft.foldl appendEntryMem zeroed

/-- The memory holds the table. -/
structure HoldsTable (t : Mem) (tft : TransFileTable) : Prop where
  n : tableN t = tft.length
  entries : ∀ i te, tft[i]? = some te → transEntryAt t i = some te

/-- The values of an entry are values of its fields. -/
structure InFields (te : TransFileEntry) : Prop where
  timestamp : te.timestamp < 2 ^ 64
  opType : operationType (opTypeCode te.opType) = te.opType
  fileType : fileType (fileTypeCode te.fileType) = te.fileType
  owners : te.owners.length ≤ MAX_PEER_ENTRIES

/-! ## One owner -/

section Owners
variable {t t' : Mem} {i : ℕ} {l : List PeerId} {p : PeerId}

/-- Entry `i` of the memory has these owners. -/
structure HoldsOwners (t : Mem) (i : ℕ) (l : List PeerId) : Prop where
  count : (ownerN t i).toNat = l.length
  owners : ∀ j p, l[j]? = some p → ownerAt t i j = p

theorem HoldsOwners.eq (h : HoldsOwners t i l) : (List.range (ownerN t i).toNat).map (ownerAt t i) = l := by
  rw [h.count]
  refine List.ext_getElem? fun j => ?_
  rw [List.getElem?_map]
  by_cases hj : j < l.length
  · rw [List.getElem?_range hj, Option.map_some, h.owners j _ (List.getElem?_eq_getElem hj), List.getElem?_eq_getElem hj]
  · rw [List.getElem?_eq_none (by simpa using hj), List.getElem?_eq_none (by simpa using hj), Option.map_none]

theorem HoldsOwners.congr (h : HoldsOwners t i l) (hle : l.length ≤ MAX_PEER_ENTRIES)
    (hagree : AgreeOn t' t (entryOffset i + 140) (entryOffset i + 272)) : HoldsOwners t' i l := by
  have hmax : MAX_PEER_ENTRIES = 16 := rfl
  refine ⟨?_, fun j p hp => ?_⟩
  · rw [← h.count, ownerN, ownerN, offset_ownerN, hagree.read (by omega) (by omega)]
  · obtain ⟨hj, -⟩ := List.getElem?_eq_some_iff.mp hp
    have hoff : ownerOffset i j = entryOffset i + 144 + j * 8 := by rw [ownerOffset_eq, entryOffset_eq]
    rw [← h.owners j p hp, ownerAt, ownerAt, ownerPort, ownerPort, offset_ip, offset_port,
      hagree.read (by omega) (by omega), hagree.read (by omega) (by omega)]

theorem fillOwnerMem_beside (hlt : (ownerN t i).toNat < MAX_PEER_ENTRIES) {a b : ℕ}
    (h : b ≤ entryOffset i + 140 ∨ entryOffset i + 272 ≤ a) : AgreeOn (fillOwnerMem i t p) t a b := by
  have hmax : MAX_PEER_ENTRIES = 16 := rfl
  have hoff : ownerOffset i (ownerN t i).toNat = entryOffset i + 144 + (ownerN t i).toNat * 8 := by
    rw [ownerOffset_eq, entryOffset_eq]
  unfold fillOwnerMem
  simp only [offset_ip, offset_port, offset_ownerN]
  refine (agreeOn_write _ ?_).trans ((agreeOn_write _ ?_).trans (agreeOn_write _ ?_))
  · omega
  · omega
  · omega

theorem HoldsOwners.fillOwnerMem (h : HoldsOwners t i l) (hlt : l.length < MAX_PEER_ENTRIES) :
    HoldsOwners (fillOwnerMem i t p) i (l ++ [p]) := by
  have hmax : MAX_PEER_ENTRIES = 16 := rfl
  have hoff : ∀ j, ownerOffset i j = entryOffset i + 144 + j * 8 := fun j => by rw [ownerOffset_eq, entryOffset_eq]
  refine ⟨?_, fun j q hq => ?_⟩
  · rw [TeleSync.fillOwnerMem, ownerN, read_write_self, h.count, List.length_append, List.length_singleton]
    simp
    omega
  · rw [ownerAt, ownerPort, TeleSync.fillOwnerMem]
    simp only [h.count, hoff, offset_ip, offset_port, offset_ownerN]
    by_cases hj : j < l.length
    · rw [List.getElem?_append_left hj] at hq
      rw [← h.owners j q hq, ownerAt, ownerPort, hoff, offset_ip, offset_port]
      simp (disch := omega) only [read_write_beside]
    · have hlen : j = l.length := by
        obtain ⟨hlen, -⟩ := List.getElem?_eq_some_iff.mp hq
        rw [List.length_append, List.length_singleton] at hlen
        omega
      subst hlen
      obtain rfl : p = q := by simpa using hq
      simp (disch := omega) only [read_write_beside, read_write_self]
      simp

theorem HoldsOwners.foldl (h : HoldsOwners t i l) (l' : List PeerId) (hle : l.length + l'.length ≤ MAX_PEER_ENTRIES) :
    HoldsOwners (l'.foldl (TeleSync.fillOwnerMem i) t) i (l ++ l') ∧
      ∀ a b, b ≤ entryOffset i + 140 ∨ entryOffset i + 272 ≤ a → AgreeOn (l'.foldl (TeleSync.fillOwnerMem i) t) t a b := by
  induction l' generalizing t l with
  | nil =>
    rw [List.append_nil]
    exact ⟨h, fun _ _ _ _ _ _ => rfl⟩
  | cons p l' ih =>
    rw [List.length_cons] at hle
    obtain ⟨howners, hbeside⟩ := ih (h.fillOwnerMem (p := p) (by omega)) (by
      rw [List.length_append, List.length_singleton]
      omega)
    rw [List.append_assoc, List.singleton_append] at howners
    exact ⟨howners, fun a b hab => (hbeside a b hab).trans (fillOwnerMem_beside (by rw [h.count]; omega) hab)⟩

end Owners

/-! ## One entry -/

section Entry
variable {t t' : Mem} {i : ℕ} {te : TransFileEntry}

theorem nameAt_eq {name : Name} (h : slice t (entryOffset i) (name.bytes.length + 1) = name.bytes ++ [0]) :
    nameAt t i = some name := by
  have hlt := name.length_lt
  have hmax : MAX_NAME_LEN = name.bytes.length + 1 + (MAX_NAME_LEN - (name.bytes.length + 1)) := by omega
  have hstr : (slice t (entryOffset i) MAX_NAME_LEN).takeWhile (· ≠ 0) = name.bytes := by
    rw [hmax, slice_add, h, List.append_assoc]
    exact CText.str_eq [] _ name.nul_free
  have hname : (entryAt t i).name.takeWhile (· ≠ 0) = name.bytes := hstr
  unfold nameAt
  simp only [hname, dif_pos hlt]

/-- All fields of an entry at once. -/
structure HoldsEntry (t : Mem) (i : ℕ) (te : TransFileEntry) : Prop where
  name : slice t (entryOffset i) (te.name.bytes.length + 1) = te.name.bytes ++ [0]
  timestamp : read t (entryOffset i + 128) 8 = te.timestamp
  opType : read t (entryOffset i + 136) 2 = (opTypeCode te.opType).toNat
  fileType : read t (entryOffset i + 138) 2 = (fileTypeCode te.fileType).toNat
  owners : HoldsOwners t i te.owners

theorem HoldsEntry.transEntryAt (h : HoldsEntry t i te) (hte : InFields te) : transEntryAt t i = some te := by
  have htime : (entryAt t i).timestamp.toNat = te.timestamp := by
    rw [entryAt, offset_timestamp, h.timestamp]
    exact UInt64.toNat_ofNat_of_lt hte.timestamp
  have hop : opTypeAt t i = te.opType := by
    rw [opTypeAt, entryAt, offset_opType, h.opType, UInt16.ofNat_toNat, hte.opType]
  have htype : TeleSync.fileType (entryAt t i).fileType = te.fileType := by
    rw [entryAt, offset_fileType, h.fileType, UInt16.ofNat_toNat, hte.fileType]
  have howners : (entryAt t i).owners = te.owners := h.owners.eq
  rw [TeleSync.transEntryAt, nameAt_eq h.name, htime, hop, htype, howners]
  rfl

theorem HoldsEntry.congr (h : HoldsEntry t i te) (hle : te.owners.length ≤ MAX_PEER_ENTRIES)
    (hagree : AgreeOn t' t (entryOffset i) (entryOffset i + 272)) : HoldsEntry t' i te where
  name := by
    have hlt := te.name.length_lt
    have hmax : MAX_NAME_LEN = 128 := rfl
    rw [hagree.slice le_rfl (by omega)]
    exact h.name
  timestamp := (hagree.read (by omega) (by omega)).trans h.timestamp
  opType := (hagree.read (by omega) (by omega)).trans h.opType
  fileType := (hagree.read (by omega) (by omega)).trans h.fileType
  owners := h.owners.congr hle (hagree.mono (by omega) le_rfl)

/-- `trans_entry_fill_from` fills its entry and nothing else; `op_type` is left zero. -/
theorem transEntryFillFromMem_holds (t : Mem) (i : ℕ) (fe : FileEntry) (htime : fe.timestamp < 2 ^ 64)
    (howners : fe.owners.length ≤ MAX_PEER_ENTRIES) :
    HoldsEntry (transEntryFillFromMem t i fe) i (TeleSync.transEntryFillFrom fe) ∧
      ∀ a b, b ≤ entryOffset i ∨ entryOffset i + 272 ≤ a → AgreeOn (transEntryFillFromMem t i fe) t a b := by
  have hlt := fe.name.length_lt
  have hmax : MAX_NAME_LEN = 128 := rfl
  have hsize := transFileEntrySize_eq
  let cleared := memcpy t (entryOffset i) zeroed 0 transFileEntrySize
  let named := memcpy cleared (entryOffset i) (ofBytes fe.name.bytes) 0 (fe.name.bytes.length + 1)
  let stamped := write named (entryOffset i + 128) 8 fe.timestamp
  let typed := write stamped (entryOffset i + 138) 2 (fileTypeCode fe.type).toNat
  have hfill : transEntryFillFromMem t i fe = fe.owners.foldl (fillOwnerMem i) typed := rfl
  have hzero : AgreeOn cleared zeroed (entryOffset i) (entryOffset i + 272) := fun k h1 h2 =>
    memcpy_inside _ _ h1 (by omega)
  have hnamed : AgreeOn named cleared (entryOffset i + 128) (entryOffset i + 272) :=
    agreeOn_memcpy_outside _ _ (Or.inr (by omega))
  have hnone : HoldsOwners typed i [] := by
    have hn : read typed (entryOffset i + 140) 2 = 0 := by
      simp only [typed, stamped]
      simp (disch := omega) only [read_write_beside]
      rw [hnamed.read (by omega) (by omega)]
      exact read_zeros _ (hzero.mono (by omega) (by omega))
    refine ⟨?_, fun j p hp => by simp at hp⟩
    rw [ownerN, offset_ownerN, hn]
    rfl
  obtain ⟨hown, hbeside⟩ := hnone.foldl fe.owners (by simpa using howners)
  rw [← hfill, List.nil_append] at hown
  rw [← hfill] at hbeside
  have hfields : AgreeOn (transEntryFillFromMem t i fe) typed (entryOffset i) (entryOffset i + 140) :=
    hbeside _ _ (Or.inl le_rfl)
  refine ⟨⟨?_, ?_, ?_, ?_, hown⟩, fun a b hab => ?_⟩
  · show slice _ _ (fe.name.bytes.length + 1) = fe.name.bytes ++ [0]
    rw [hfields.slice le_rfl (by omega), slice_write_beside _ (by omega), slice_write_beside _ (by omega)]
    exact slice_memcpy_ofBytes _ _
  · rw [hfields.read (by omega) (by omega), read_write_beside _ (by omega), read_write_self]
    exact Nat.mod_eq_of_lt htime
  · rw [hfields.read (by omega) (by omega), read_write_beside _ (by omega), read_write_beside _ (by omega),
      hnamed.read (by omega) (by omega)]
    exact read_zeros _ (hzero.mono (by omega) (by omega))
  · rw [hfields.read (by omega) (by omega), read_write_self]
    exact Nat.mod_eq_of_lt (fileTypeCode fe.type).toNat_lt
  · refine (hbeside a b (by omega)).trans ((agreeOn_write _ (by omega)).trans ((agreeOn_write _ (by omega)).trans ?_))
    exact (agreeOn_memcpy_outside _ _ (by omega)).trans (agreeOn_memcpy_outside _ _ (by omega))

end Entry

/-! ## The whole table -/

section Table
variable {t t' : Mem} {tft : TransFileTable} {te : TransFileEntry}

theorem tableN_write_n (t : Mem) {n : ℕ} (h : n ≤ MAX_FILE_ENTRIES) :
    tableN (write t (CType.offset transFileTableFields 0) 4 n) = n := by
  have hmax : MAX_FILE_ENTRIES = 4096 := rfl
  rw [tableN, read_write_self, BitVec.toInt_ofNat', Nat.mod_eq_of_lt (by omega), Int.bmod_eq_of_le (by omega) (by omega)]

/-- The memory holds the table, with all its bytes where the fields are. -/
structure HoldsEntries (t : Mem) (tft : TransFileTable) : Prop where
  n : tableN t = tft.length
  entries : ∀ i te, tft[i]? = some te → HoldsEntry t i te

theorem HoldsEntries.appendEntryMem (h : HoldsEntries t tft) (hroom : tft.length < MAX_FILE_ENTRIES)
    (hall : ∀ te' ∈ tft, InFields te') (hte : InFields te) : HoldsEntries (appendEntryMem t te) (tft ++ [te]) := by
  have hn : (tableN t).toNat = tft.length := by rw [h.n, Int.toNat_natCast]
  obtain ⟨hfilled, hbeside⟩ := transEntryFillFromMem_holds t tft.length
    ⟨⟨te.timestamp, te.fileType, te.owners⟩, te.name⟩ hte.timestamp hte.owners
  let filled := transEntryFillFromMem t tft.length ⟨⟨te.timestamp, te.fileType, te.owners⟩, te.name⟩
  let coded := write filled (entryOffset tft.length + 136) 2 (opTypeCode te.opType).toNat
  have happend : TeleSync.appendEntryMem t te = write coded (CType.offset transFileTableFields 0) 4 (tft.length + 1) := by
    unfold TeleSync.appendEntryMem
    rw [hn]
    rfl
  have hcount : ∀ a b, 4 ≤ a → AgreeOn (TeleSync.appendEntryMem t te) coded a b := by
    intro a b ha
    rw [happend]
    exact agreeOn_write _ (Or.inr ha)
  refine ⟨?_, fun i te' hi => ?_⟩
  · rw [happend, tableN_write_n _ (by omega)]
    simp
  · by_cases hlt : i < tft.length
    · rw [List.getElem?_append_left hlt] at hi
      have hother := entryOffset_eq i
      have hlast := entryOffset_eq tft.length
      refine (h.entries i te' hi).congr (hall te' (List.mem_of_getElem? hi)).owners ?_
      refine (hcount _ _ (by omega)).trans ((agreeOn_write _ (by omega)).trans (hbeside _ _ (by omega)))
    · have hlen : i = tft.length := by
        obtain ⟨hlen, -⟩ := List.getElem?_eq_some_iff.mp hi
        rw [List.length_append, List.length_singleton] at hlen
        omega
      subst hlen
      obtain rfl : te = te' := by simpa using hi
      have hlt' := te.name.length_lt
      have hmax : MAX_NAME_LEN = 128 := rfl
      have hlast := entryOffset_eq tft.length
      refine ⟨?_, ?_, ?_, ?_, ?_⟩
      · rw [(hcount _ _ (by omega)).slice le_rfl le_rfl, slice_write_beside _ (by omega)]
        exact hfilled.name
      · rw [(hcount _ _ (by omega)).read le_rfl le_rfl, read_write_beside _ (by omega)]
        exact hfilled.timestamp
      · rw [(hcount _ _ (by omega)).read le_rfl le_rfl, read_write_self]
        exact Nat.mod_eq_of_lt (opTypeCode te.opType).toNat_lt
      · rw [(hcount _ _ (by omega)).read le_rfl le_rfl, read_write_beside _ (by omega)]
        exact hfilled.fileType
      · exact hfilled.owners.congr hte.owners ((hcount _ _ (by omega)).trans (agreeOn_write _ (by omega)))

theorem holdsEntries_tableImage (hroom : tft.length ≤ MAX_FILE_ENTRIES) (hall : ∀ te ∈ tft, InFields te) :
    HoldsEntries (tableImage tft) tft := by
  induction tft using List.reverseRecOn with
  | nil => exact ⟨by decide, fun i te h => by simp at h⟩
  | append_singleton tft te ih =>
    rw [List.length_append, List.length_singleton] at hroom
    rw [List.forall_mem_append, List.forall_mem_singleton] at hall
    rw [tableImage, List.foldl_append]
    exact (ih (by omega) hall.1).appendEntryMem (by omega) hall.1 hall.2

theorem holdsTable_tableImage (hroom : tft.length ≤ MAX_FILE_ENTRIES) (hall : ∀ te ∈ tft, InFields te) :
    HoldsTable (tableImage tft) tft := by
  obtain ⟨hn, hentries⟩ := holdsEntries_tableImage hroom hall
  exact ⟨hn, fun i te h => (hentries i te h).transEntryAt (hall te (List.mem_of_getElem? h))⟩

theorem mapM_range_eq {f : ℕ → Option TransFileEntry} (h : ∀ i te, tft[i]? = some te → f i = some te) :
    (List.range tft.length).mapM f = some tft := by
  induction tft using List.reverseRecOn with
  | nil => rfl
  | append_singleton tft te ih =>
    have hinit : ∀ i te', tft[i]? = some te' → f i = some te' := by
      intro i te' hi
      obtain ⟨hlt, -⟩ := List.getElem?_eq_some_iff.mp hi
      exact h i te' (by rw [List.getElem?_append_left hlt, hi])
    have hlast : f tft.length = some te := h tft.length te (by simp)
    rw [List.length_append, List.length_singleton, List.range_succ, List.mapM_append, ih hinit]
    simp [hlast]

/-- The entries of a table, if all their names have an end. -/
def tableOf (t : Mem) : Option TransFileTable := (List.range (tableN t).toNat).mapM (transEntryAt t)

theorem HoldsTable.tableOf (h : HoldsTable t tft) : tableOf t = some tft := by
  rw [TeleSync.tableOf, h.n, Int.toNat_natCast]
  exact mapM_range_eq h.entries

theorem HoldsTable.congr (h : HoldsTable t tft) (hsame : SameTable t' t) : HoldsTable t' tft := by
  obtain ⟨hn, hentries⟩ := hsame
  refine ⟨hn.trans h.n, fun i te hi => ?_⟩
  obtain ⟨hlt, -⟩ := List.getElem?_eq_some_iff.mp hi
  have hentry : entryAt t' i = entryAt t i := hentries i (by rw [h.n, Int.toNat_natCast]; exact hlt)
  rw [← h.entries i te hi]
  simp only [transEntryAt, nameAt, opTypeAt, hentry]

/-- A table goes through a packet as it is if it fits and its last entry has an owner slot free. -/
structure InPacket (tft : TransFileTable) : Prop where
  length : tft.length ≤ 240
  owners : ∀ te ∈ tft, te.owners.length ≤ MAX_PEER_ENTRIES
  last : ∀ te ∈ tft.getLast?, te.owners.length < MAX_PEER_ENTRIES

theorem HoldsTable.ownerN_eq (h : HoldsTable t tft) {i : ℕ} (hi : tft[i]? = some te) :
    (ownerN t i).toNat = te.owners.length := by
  obtain ⟨name, -, rfl⟩ := Option.map_eq_some_iff.mp (h.entries i te hi)
  simp [entryAt]

theorem HoldsTable.received {η : Type} {K : PacketKind η} {pkt : Mem} (h : HoldsTable t tft) (hin : InPacket tft)
    (hcarries : Carries K pkt t (4 + tft.length * 272)) (dst : Mem) : HoldsTable (receiveTable K dst pkt) tft := by
  refine h.congr (((hcarries.agreeUpToLast dst).sameTable_iff h.n fun i hi => ?_).mpr ?_)
  · rw [h.ownerN_eq (List.getElem?_eq_getElem hi)]
    exact hin.owners _ (List.getElem_mem hi)
  · rw [LastPortSafe, h.n, Int.toNat_natCast]
    rcases List.eq_nil_or_concat tft with rfl | ⟨init, te, rfl⟩
    · exact Or.inl rfl
    · refine Or.inr (Or.inl ?_)
      have hi : (init.concat te)[(init.concat te).length - 1]? = some te := by simp
      rw [h.ownerN_eq hi]
      exact hin.last te (by simp)

end Table

end TeleSync
