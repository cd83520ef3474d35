import TeleSync.Basic
import TeleSync.Lib.ChainTable

/-!
# The file table

`file_table.c` over the hash table of `hash.h`.

* `elfHash`, `hash32`, `hashMin` : the hash functions, at the widths of the source;
* `alreadyInOwners` .. `peerIdListRemoveMyself` : owner lists;
* `fileEntryFillFrom`, `fileEntryUpdate`, `transEntryFillFrom`, `hasSameOwners` : single entries;
* `fileTableInit`, `fileTableFind`, `fileTableAdd`, `fileTableUpdate`, `fileTableDelete`,
  `fileTableDeleteOwner`, `transTableFillFrom` : the table.

Allocations succeed. A pointer to an entry of a table is the name it is found under: writing through
it is `FileTable.modify`.
-/

namespace TeleSync
open ChainTable

/-! ## Hash functions -/

/-- One round of the loop of `ELFhash`; `char` is signed. -/
def elfHashStep (h : BitVec 64) (c : UInt8) : BitVec 64 :=
  let h := (h <<< 4) + c.toBitVec.signExtend 64
  let g := h &&& 0xf0000000#64
  let h := if g ≠ 0 then h ^^^ (g >>> 24) else h
  h &&& ~~~g

/-- `ELFhash`, an `unsigned long`. -/
def elfHash (key : Name) : BitVec 64 := key.bytes.foldl elfHashStep 0

def GOLDEN_RATIO_PRIME_32 : BitVec 64 := 0x9e370001#64

/-- `hash_32`: the product is an `unsigned long`, its low 32 bits are kept. -/
def hash32 (val : BitVec 32) (bits : ℕ) : BitVec 32 :=
  let hash := (val.setWidth 64 * GOLDEN_RATIO_PRIME_32).setWidth 32
  hash >>> (32 - bits)

/-- `HASH_SIZE` of the file table. -/
abbrev HASH_SIZE : ℕ := 2 ^ FILE_HASH_BITS

theorem hash32_lt (val : BitVec 32) : (hash32 val FILE_HASH_BITS).toNat < HASH_SIZE := by
  rw [hash32, BitVec.toNat_ushiftRight, Nat.shiftRight_eq_div_pow]
  apply Nat.div_lt_of_lt_mul
  have h := ((val.setWidth 64 * GOLDEN_RATIO_PRIME_32).setWidth 32).isLt
  rwa [← pow_add]

/-- `hash_min` for the file table: the bucket of a `uint32_t` key. -/
def hashMin (val : BitVec 32) : Fin HASH_SIZE := ⟨(hash32 val FILE_HASH_BITS).toNat, hash32_lt val⟩

/-- The bucket `file_entry_add` links to: the `unsigned long` key becomes a `uint32_t`. -/
def addBucket (name : Name) : Fin HASH_SIZE := hashMin ((elfHash name).setWidth 32)

/-- The bucket `__file_table_search` looks in: the key is first stored in an `int`, whose value is
then converted to a `uint32_t`. -/
def searchBucket (name : Name) : Fin HASH_SIZE :=
  let key : ℤ := ((elfHash name).setWidth 32).toInt
  hashMin (BitVec.ofInt 32 key)

/-- Going through a signed `int` loses nothing. -/
theorem addBucket_eq_searchBucket (name : Name) : addBucket name = searchBucket name := by
  rw [addBucket, searchBucket, BitVec.ofInt_toInt]

/-! ## Owner lists -/

/-- `already_in_owners` -/
def alreadyInOwners (head : List PeerId) (owner : PeerId) : Bool := head.any fun p => p.ip == owner.ip

/-- `__peer_id_list_add` -/
def peerIdListAdd (ownerH : List PeerId) (te : TransFileEntry) : List PeerId :=
  te.owners.foldl (fun head p => if alreadyInOwners head p then head else head ++ [p]) ownerH

/-- `__peer_id_list_replace`: destroy the list, then add. -/
def peerIdListReplace (fe : FileEntry) (te : TransFileEntry) : FileEntry :=
  { fe with owners := peerIdListAdd [] te }

/-- `peer_id_list_remove_myself`: the first node with our address. -/
def peerIdListRemoveMyself (myIp : UInt32) (fe : FileEntry) : FileEntry :=
  { fe with owners := fe.owners.eraseP fun p => p.ip == myIp }

/-! ## Entries -/

/-- `file_entry_fill_from` on a fresh entry. -/
def fileEntryFillFrom (te : TransFileEntry) : FileEntry :=
  { name := te.name, timestamp := te.timestamp, type := te.fileType, owners := peerIdListAdd [] te }

/-- `trans_entry_fill_from` -/
def transEntryFillFrom (fe : FileEntry) : TransFileEntry :=
  { name := fe.name, timestamp := fe.timestamp, opType := .fileNone, fileType := fe.type,
    owners := fe.owners }

/-- `file_entry_update`, with its return value. -/
def fileEntryUpdate (fe : FileEntry) (te : TransFileEntry) : FileEntry × ℤ :=
  if te.timestamp > fe.timestamp then
    (peerIdListReplace { fe with timestamp := te.timestamp } te, 0)
  else if te.timestamp = fe.timestamp then
    ({ fe with owners := peerIdListAdd fe.owners te }, 0)
  else (fe, -1)

/-- `file_entry_update_timestamp` -/
def fileEntryUpdateTimestamp (fe : FileEntry) (timestamp : ℕ) : FileEntry :=
  { fe with timestamp := timestamp }

/-- `has_same_owners` -/
def hasSameOwners (fe : FileEntry) (te : TransFileEntry) : Bool :=
  fe.owners.length == te.owners.length &&
    (fe.owners.zip te.owners).all fun (p, o) => p.ip == o.ip && p.port == o.port

/-! ## The table -/

/-- `struct file_table`. -/
structure FileTable where
  n : ℤ
  fileHtable : Buckets HASH_SIZE FileEntry

/-- Entries are keyed by name and hashed as the search does. -/
def scheme : Scheme Name FileEntry HASH_SIZE := ⟨FileEntry.name, searchBucket⟩

/-- `file_table_init` -/
def fileTableInit : FileTable := ⟨0, fun _ => []⟩

/-- `__file_table_search` -/
def fileTableSearch (table : FileTable) (name : Name) : Option FileEntry :=
  scheme.search table.fileHtable name

/-- Write through the pointer that `__file_table_search` returns for `name`. -/
def FileTable.modify (table : FileTable) (name : Name) (f : FileEntry → FileEntry) : FileTable :=
  { table with fileHtable := scheme.modify table.fileHtable name f }

/-- The entries in the order of `hash_for_each`. -/
def FileTable.entries (table : FileTable) : List FileEntry := Scheme.toList table.fileHtable

/-- `file_entry_add` -/
def fileEntryAdd (table : FileTable) (fe : FileEntry) : FileTable :=
  ⟨table.n + 1, Scheme.addHead table.fileHtable (addBucket fe.name) fe⟩

/-- `file_entry_delete` of the entry found under `name`. -/
def fileEntryDelete (table : FileTable) (name : Name) : FileTable :=
  ⟨table.n - 1, scheme.erase table.fileHtable name⟩

/-- `file_table_find` -/
def fileTableFind (table : FileTable) (te : TransFileEntry) : Option FileEntry :=
  fileTableSearch table te.name

/-- `file_table_add`, with the entry it returns. -/
def fileTableAdd (table : FileTable) (te : TransFileEntry) : FileTable × FileEntry :=
  match fileTableSearch table te.name with
  | none =>
    let fe := fileEntryFillFrom te
    (fileEntryAdd table fe, fe)
  | some fe =>
    (table.modify te.name fun fe => (fileEntryUpdate fe te).1, (fileEntryUpdate fe te).1)

/-- `file_table_update`, with its return value. -/
def fileTableUpdate (table : FileTable) (te : TransFileEntry) : FileTable × ℤ :=
  match fileTableSearch table te.name with
  | none => (table, -1)
  | some _ => (table.modify te.name fun fe => (fileEntryUpdate fe te).1, 0)

/-- `file_table_delete`, with its return value. -/
def fileTableDelete (table : FileTable) (te : TransFileEntry) : FileTable × ℤ :=
  match fileTableSearch table te.name with
  | none => (table, -1)
  | some _ => (fileEntryDelete table te.name, 0)

/-- The body of the loop of `file_table_delete_owner`: drop `ip` from the owners, and the entry once
it has none. -/
def dropOwner (ip : UInt32) (fe : FileEntry) : Option FileEntry :=
  let owners := fe.owners.filter fun p => p.ip != ip
  if owners.isEmpty then none else some { fe with owners := owners }

/-- `file_table_delete_owner`; the counter is left alone. -/
def fileTableDeleteOwner (table : FileTable) (ip : UInt32) : FileTable :=
  { table with fileHtable := Scheme.sweep table.fileHtable (dropOwner ip) }

/-- `trans_table_fill_from` -/
def transTableFillFrom (ft : FileTable) : TransFileTable := ft.entries.map transEntryFillFrom

end TeleSync
