import Mathlib

/-!
# Names, owners and entries

The data that trackers and peers exchange and keep (`consts.h`, `trans_file_table.h`,
`file_table.h`):

* `Name` : a C string that fits `char name[MAX_NAME_LEN]`;
* `PeerId` : the address of an owner;
* `TransFileEntry` : one file as it travels in a packet, with the operation it asks for;
* `FileRecord`, `FileEntry` : what a file table keeps for a name.

File timestamps are only compared and copied, so they are natural numbers; a `trans_file_table` is
the list of its first `n` entries and the owners of an entry the list of its first `owner_n`.
-/

namespace TeleSync

def MAX_PEER_ENTRIES : ℕ := 16
def FILE_HASH_BITS : ℕ := 12
def MAX_FILE_ENTRIES : ℕ := 4096
def MAX_NAME_LEN : ℕ := 128
def MAX_PKT_DATA_LEN : ℕ := 65536
def P2P_PORT : UInt16 := 4192

/-- A NUL-terminated string in a `char[MAX_NAME_LEN]`, without its terminator. -/
structure Name where
  bytes : List UInt8
  nul_free : 0 ∉ bytes
  length_lt : bytes.length < MAX_NAME_LEN
  deriving DecidableEq

/-- The string in a zeroed name array. -/
def Name.empty : Name := ⟨[], List.not_mem_nil, by decide⟩

/-- `struct peer_id`, and the payload of a `struct peer_id_list` node. -/
structure PeerId where
  ip : UInt32
  port : UInt16
  deriving DecidableEq

/-- `enum file_type`; `other` stands for the 16-bit values outside the enumeration. -/
inductive FileType where
  | regular
  | directory
  | softLink
  | other (code : UInt16)
  deriving DecidableEq

/-- `enum operation_type`; `other` stands for the 16-bit values outside the enumeration, which every
`switch` sends to its `default`. -/
inductive OperationType where
  | fileNone
  | fileAdd
  | fileDelete
  | fileModify
  | other (code : UInt16)
  deriving DecidableEq

/-- `struct trans_file_entry`. -/
structure TransFileEntry where
  name : Name
  timestamp : ℕ
  opType : OperationType
  fileType : FileType
  owners : List PeerId
  deriving DecidableEq

/-- The entry after `bzero`. -/
def TransFileEntry.zero : TransFileEntry := ⟨Name.empty, 0, .fileNone, .regular, []⟩

/-- `struct trans_file_table`. -/
abbrev TransFileTable := List TransFileEntry

/-- What a table keeps for a name. -/
structure FileRecord where
  timestamp : ℕ
  type : FileType
  owners : List PeerId
  deriving DecidableEq

/-- `struct file_entry`. -/
structure FileEntry extends FileRecord where
  name : Name
  deriving DecidableEq

/-- The addresses in an owner list. -/
def ips (owners : List PeerId) : Set UInt32 := {ip | ∃ p ∈ owners, p.ip = ip}

theorem mem_ips {owners : List PeerId} {ip : UInt32} : ip ∈ ips owners ↔ ∃ p ∈ owners, p.ip = ip :=
  Iff.rfl

@[simp] theorem ips_nil : ips [] = ∅ := by
  ext ip
  simp [mem_ips]

end TeleSync
