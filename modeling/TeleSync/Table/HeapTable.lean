import TeleSync.Table.Counter
import TeleSync.Table.HashChains
import TeleSync.Table.CircularLists

/-!
# The file table in memory

`file_table.c` with its pointers: entries and owners are allocated one by one and freed again, entries hang in hash
chains, and the owners of an entry in a circular list.

* `Mem` : a table and what is allocated for it;
* `Allocator` : what `calloc` answers;
* `Mem.listAddTail` .. `Mem.freePeer` : the list operations and `free`, on memory that is allocated;
* `alreadyInOwners` .. `peerIdListRemoveMyself` : owner lists;
* `fileEntryUpdate` .. `transEntryFillFrom` : single entries;
* `fileTableSearch` .. `transTableFillFrom` : the table;
* `HeapCall`, `heapStep` : the calls.

A function answers `none` when it follows a null pointer, touches memory that is not allocated, frees something twice,
or takes a loop `fuel` rounds or more.
-/

namespace TeleSync.HeapTable
open ChainTable

/-! ## Memory -/

/-- The address of a `list_head`: `owner_head` of an entry, or `l` of a `peer_id_list`. -/
inductive Cell (α β : Type) where
  | head (fe : α)
  | elm (p : β)
  deriving DecidableEq

/-- `struct file_entry` without its links. -/
structure EntryData where
  name : Name
  timestamp : ℕ
  type : FileType
  deriving DecidableEq

/-- A `struct file_table`, the entries and owners that are allocated, the number of `calloc`s so far and whether one of
them failed. -/
structure Mem (α β : Type) where
  n : ℤ
  chains : PointerChain.Heap (Fin HASH_SIZE) α
  lists : Ring.Heap (Cell α β)
  entries : α → Option EntryData
  peers : β → Option PeerId
  calls : ℕ
  failed : Bool

/-- What the `calloc`s answer, in any order: null, or memory that is not allocated. -/
structure Allocator (α β : Type) where
  entry : ℕ → (α → Option EntryData) → Option α
  peer : ℕ → (β → Option PeerId) → Option β
  entry_fresh : ∀ {k entries fe}, entry k entries = some fe → entries fe = none
  peer_fresh : ∀ {k peers p}, peer k peers = some p → peers p = none

variable {α β : Type} [DecidableEq α] [DecidableEq β]

namespace Mem

def liveCell (m : Mem α β) : Cell α β → Bool
  | .head fe => (m.entries fe).isSome
  | .elm p => (m.peers p).isSome

def liveEntry (m : Mem α β) (fe : α) : Bool := (m.entries fe).isSome

/-- A function of `list.c` that touches the cells. -/
def withLists (m : Mem α β) (cells : List (Option (Cell α β))) (r : Option (Ring.Heap (Cell α β) × ℤ)) :
    Option (Mem α β) :=
  if cells.all fun c => c.all m.liveCell then r.map fun r => { m with lists := r.1 } else none

/-- `list_add_tail(&fe->owner_head, &p->l)` -/
def listAddTail (m : Mem α β) (fe : α) (p : β) : Option (Mem α β) :=
  m.withLists [some (.head fe), some (.elm p), m.lists.prev (.head fe)]
    (ListHead.listAddTail (some (.head fe)) (some (.elm p)) m.lists)

/-- `list_del(&p->l)` -/
def listDel (m : Mem α β) (p : β) : Option (Mem α β) :=
  m.withLists [some (.elm p), m.lists.prev (.elm p), m.lists.next (.elm p)]
    (ListHead.listDel (some (.elm p)) m.lists)

/-- The next cell of a list. -/
def listNext (m : Mem α β) (c : Cell α β) : Option (Option (Cell α β)) :=
  if m.liveCell c then some (m.lists.next c) else none

/-- A function of `hash.h` that touches the nodes. -/
def withChains (m : Mem α β) (nodes : List (Option α)) (chains : PointerChain.Heap (Fin HASH_SIZE) α) :
    Option (Mem α β) :=
  if nodes.all fun fe => fe.all m.liveEntry then some { m with chains := chains } else none

/-- The node that a pointer is part of. -/
def slotNode : PointerChain.Slot (Fin HASH_SIZE) α → Option α
  | .first _ => none
  | .next fe => some fe

/-- `hash_add` to bucket `i`. -/
def hashAdd (m : Mem α β) (fe : α) (i : Fin HASH_SIZE) : Option (Mem α β) :=
  m.withChains [some fe, m.chains.ptr (.first i)] (Hlist.hlistAddHead fe i m.chains)

/-- `hash_del` -/
def hashDel (m : Mem α β) (fe : α) : Option (Mem α β) :=
  m.withChains [some fe, (m.chains.pprev fe).bind slotNode, m.chains.ptr (.next fe)] (Hlist.hashDel fe m.chains)

/-- The next node of a chain. -/
def hlistNext (m : Mem α β) (fe : α) : Option (Option α) :=
  if m.liveEntry fe then some (m.chains.ptr (.next fe)) else none

/-- `calloc` has answered `p`. All is zero, so both pointers are null as `INIT_LIST_ELM` makes them. -/
def callocPeer (m : Mem α β) (p : β) : Mem α β :=
  { m with
    lists := ListHead.initListElm (.elm p) m.lists
    peers := Function.update m.peers p (some ⟨0, 0⟩)
    calls := m.calls + 1 }

/-- `file_entry_alloc`, for which `calloc` has answered `fe`. -/
def fileEntryAlloc (m : Mem α β) (fe : α) : Mem α β :=
  { m with
    chains := Hlist.initHlistNode fe m.chains
    lists := ListHead.initListHead (.head fe) m.lists
    entries := Function.update m.entries fe (some ⟨Name.empty, 0, .regular⟩)
    calls := m.calls + 1 }

/-- A `calloc` answers null, and the code says so. -/
def callocFails (m : Mem α β) : Mem α β := { m with calls := m.calls + 1, failed := true }

def setPeer (m : Mem α β) (p : β) (owner : PeerId) : Option (Mem α β) :=
  (m.peers p).map fun _ => { m with peers := Function.update m.peers p (some owner) }

def setEntry (m : Mem α β) (fe : α) (f : EntryData → EntryData) : Option (Mem α β) :=
  (m.entries fe).map fun d => { m with entries := Function.update m.entries fe (some (f d)) }

/-- `free` of an owner. -/
def freePeer (m : Mem α β) (p : β) : Option (Mem α β) :=
  (m.peers p).map fun _ => { m with peers := Function.update m.peers p none }

/-- `free` of an entry. -/
def freeEntry (m : Mem α β) (fe : α) : Option (Mem α β) :=
  (m.entries fe).map fun _ => { m with entries := Function.update m.entries fe none }

/-- `file_table_init`, whatever the memory held before. -/
def fileTableInit (chains : PointerChain.Heap (Fin HASH_SIZE) α) (lists : Ring.Heap (Cell α β)) : Mem α β :=
  ⟨0, Hlist.hashInit chains, lists, fun _ => none, fun _ => none, 0, false⟩

end Mem

/-! ## Owner lists -/

section Functions
variable (A : Allocator α β) (fuel : ℕ)

/-- The loop of `already_in_owners` for the owners of `fe`. -/
def alreadyInOwners (m : Mem α β) (fe : α) (ip : UInt32) : ℕ → Option (Cell α β) → Option Bool
  | 0, _ => none
  | fuel + 1, pos =>
    if pos = some (.head fe) then some false
    else match pos with
      | some (.elm p) => do
        let q ← m.peers p
        if q.ip = ip then return true
        else alreadyInOwners m fe ip fuel (m.lists.next (.elm p))
      | _ => none

/-- `__peer_id_list_add`; an owner that is there already is allocated all the same, and left behind. -/
def peerIdListAdd (fe : α) : List PeerId → Mem α β → Option (Mem α β)
  | [], m => some m
  | owner :: owners, m =>
    match A.peer m.calls m.peers with
    | none => some m.callocFails
    | some p => do
      let m ← (m.callocPeer p).setPeer p owner
      let pos ← m.listNext (.head fe)
      let m ← if ← alreadyInOwners m fe owner.ip fuel pos then some m else m.listAddTail fe p
      peerIdListAdd fe owners m

/-- The rounds of `list_for_each_safe` over the owners of `fe`, with `list_del` and `free` of those in `del`. -/
def ownersSafeLoop (del : PeerId → Bool) (fe : α) : ℕ → Cell α β → Option (Cell α β) → Mem α β → Option (Mem α β)
  | 0, _, _, _ => none
  | fuel + 1, pos, tmp, m =>
    if pos = .head fe then some m
    else match pos with
      | .elm p => do
        let q ← m.peers p
        let m ← if del q then (m.listDel p).bind fun m => m.freePeer p else some m
        let pos ← tmp
        let tmp ← m.listNext pos
        ownersSafeLoop del fe fuel pos tmp m
      | .head _ => none

def ownersSafe (del : PeerId → Bool) (fe : α) (m : Mem α β) : Option (Mem α β) := do
  let pos ← (← m.listNext (.head fe))
  let tmp ← m.listNext pos
  ownersSafeLoop del fe fuel pos tmp m

/-- `__peer_id_list_destroy` -/
def peerIdListDestroy (fe : α) (m : Mem α β) : Option (Mem α β) := ownersSafe fuel (fun _ => true) fe m

/-- `__peer_id_list_replace` -/
def peerIdListReplace (fe : α) (te : TransFileEntry) (m : Mem α β) : Option (Mem α β) := do
  let m ← peerIdListDestroy fuel fe m
  peerIdListAdd A fuel fe te.owners m

/-- The loop of `peer_id_list_remove_myself`. -/
def removeMyselfLoop (myIp : UInt32) (fe : α) (m : Mem α β) : ℕ → Option (Cell α β) → Option (Mem α β)
  | 0, _ => none
  | fuel + 1, pos =>
    if pos = some (.head fe) then some m
    else match pos with
      | some (.elm p) => do
        let q ← m.peers p
        if q.ip = myIp then (m.listDel p).bind fun m => m.freePeer p
        else removeMyselfLoop myIp fe m fuel (m.lists.next (.elm p))
      | _ => none

/-- `peer_id_list_remove_myself` -/
def peerIdListRemoveMyself (myIp : UInt32) (fe : α) (m : Mem α β) : Option (Mem α β) := do
  let pos ← m.listNext (.head fe)
  removeMyselfLoop myIp fe m fuel pos

/-! ## Entries -/

/-- `file_entry_fill_from` -/
def fileEntryFillFrom (fe : α) (te : TransFileEntry) (m : Mem α β) : Option (Mem α β) := do
  let m ← m.setEntry fe fun _ => ⟨te.name, te.timestamp, te.fileType⟩
  peerIdListAdd A fuel fe te.owners m

/-- The loop of `trans_entry_fill_from`, with the owners so far. -/
def fillOwners (m : Mem α β) (fe : α) : ℕ → Option (Cell α β) → List PeerId → Option (List PeerId)
  | 0, _, _ => none
  | fuel + 1, pos, owners =>
    if pos = some (.head fe) then some owners
    else match pos with
      | some (.elm p) => do
        let q ← m.peers p
        fillOwners m fe fuel (m.lists.next (.elm p)) (owners ++ [q])
      | _ => none

/-- `trans_entry_fill_from` -/
def transEntryFillFrom (fe : α) (m : Mem α β) : Option TransFileEntry := do
  let d ← m.entries fe
  let pos ← m.listNext (.head fe)
  let owners ← fillOwners m fe fuel pos []
  return ⟨d.name, d.timestamp, .fileNone, d.type, owners⟩

/-- `file_entry_update`, with its return value. -/
def fileEntryUpdate (fe : α) (te : TransFileEntry) (m : Mem α β) : Option (Mem α β × ℤ) := do
  let d ← m.entries fe
  if te.timestamp > d.timestamp then
    let m ← m.setEntry fe fun d => { d with timestamp := te.timestamp }
    let m ← peerIdListReplace A fuel fe te m
    return (m, 0)
  else if te.timestamp = d.timestamp then
    let m ← peerIdListAdd A fuel fe te.owners m
    return (m, 0)
  else return (m, -1)

/-- `file_entry_add` -/
def fileEntryAdd (fe : α) (m : Mem α β) : Option (Mem α β) := do
  let d ← m.entries fe
  let m ← m.hashAdd fe (addBucket d.name)
  return { m with n := m.n + 1 }

/-- `file_entry_delete` -/
def fileEntryDelete (fe : α) (m : Mem α β) : Option (Mem α β) := do
  let m ← peerIdListDestroy fuel fe m
  let m ← m.hashDel fe
  let m ← m.freeEntry fe
  return { m with n := m.n - 1 }

/-! ## The table -/

/-- The loop of `__file_table_search`. -/
def searchChain (m : Mem α β) (name : Name) : ℕ → Option α → Option (Option α)
  | 0, _ => none
  | _ + 1, none => some none
  | fuel + 1, some fe => do
    let d ← m.entries fe
    if d.name = name then return some fe
    else searchChain m name fuel (m.chains.ptr (.next fe))

/-- `__file_table_search` -/
def fileTableSearch (name : Name) (m : Mem α β) : Option (Option α) :=
  searchChain m name fuel (m.chains.ptr (.first (searchBucket name)))

/-- `file_table_add`, with the entry that it returns. -/
def fileTableAdd (te : TransFileEntry) (m : Mem α β) : Option (Mem α β × Option α) := do
  match ← fileTableSearch fuel te.name m with
  | some fe =>
    let (m, _) ← fileEntryUpdate A fuel fe te m
    return (m, some fe)
  | none =>
    match A.entry m.calls m.entries with
    | none => return (m.callocFails, none)
    | some fe =>
      let m ← fileEntryFillFrom A fuel fe te (m.fileEntryAlloc fe)
      let m ← fileEntryAdd fe m
      return (m, some fe)

/-- `file_table_update`, with its return value. -/
def fileTableUpdate (te : TransFileEntry) (m : Mem α β) : Option (Mem α β × ℤ) := do
  match ← fileTableSearch fuel te.name m with
  | none => return (m, -1)
  | some fe =>
    let (m, _) ← fileEntryUpdate A fuel fe te m
    return (m, 0)

/-- `file_table_delete`, with its return value. -/
def fileTableDelete (te : TransFileEntry) (m : Mem α β) : Option (Mem α β × ℤ) := do
  match ← fileTableSearch fuel te.name m with
  | none => return (m, -1)
  | some fe =>
    let m ← fileEntryDelete fuel fe m
    return (m, 0)

/-- The inner loop of `hash_for_each_safe`; the memory is part of the state `σ` of the body. -/
def hlistForEachEntrySafe {σ : Type} (mem : σ → Mem α β) (body : α → σ → Option σ) : ℕ → Option α → σ → Option σ
  | 0, _, _ => none
  | _ + 1, none, s => some s
  | fuel + 1, some pos, s => do
    let n ← (mem s).hlistNext pos
    let s ← body pos s
    hlistForEachEntrySafe mem body fuel n s

/-- `hash_for_each_safe` -/
def hashForEachSafe {σ : Type} (mem : σ → Mem α β) (body : α → σ → Option σ) (s : σ) : Option σ :=
  (List.finRange HASH_SIZE).foldlM (fun s bkt =>
    hlistForEachEntrySafe mem body fuel ((mem s).chains.ptr (.first bkt)) s) s

/-- The body of the loop of `file_table_delete_owner`. -/
def dropOwner (ip : UInt32) (fe : α) (m : Mem α β) : Option (Mem α β) := do
  let m ← ownersSafe fuel (fun p => p.ip == ip) fe m
  if (← m.listNext (.head fe)) = some (.head fe) then
    let m ← m.hashDel fe
    m.freeEntry fe
  else return m

/-- `file_table_delete_owner` -/
def fileTableDeleteOwner (ip : UInt32) (m : Mem α β) : Option (Mem α β) :=
  hashForEachSafe fuel id (dropOwner fuel ip) m

/-- `file_table_destroy` -/
def fileTableDestroy (m : Mem α β) : Option (Mem α β) := hashForEachSafe fuel id (fileEntryDelete fuel) m

/-- The body of the loop of `trans_table_fill_from`, with the entries so far. -/
def fillEntry (fe : α) (s : Mem α β × TransFileTable) : Option (Mem α β × TransFileTable) := do
  let te ← transEntryFillFrom fuel fe s.1
  return (s.1, s.2 ++ [te])

/-- `trans_table_fill_from` -/
def transTableFillFrom (m : Mem α β) : Option TransFileTable :=
  (hashForEachSafe fuel Prod.fst (fillEntry fuel) (m, [])).map Prod.snd

/-! ## Calls -/

/-- The calls of `file_table.h` as tracker and clients make them: a pointer to an entry comes from a search or from
`file_table_add` right before it is used. -/
inductive HeapCall where
  | find (te : TransFileEntry)
  | add (te : TransFileEntry)
  | update (te : TransFileEntry)
  | delete (te : TransFileEntry)
  | deleteOwner (ip : UInt32)
  | destroy
  | fill
  /-- `peer_id_list_replace` -/
  | replace (te : TransFileEntry)
  /-- `peer_id_list_remove_myself` -/
  | removeMyself (myIp : UInt32) (te : TransFileEntry)
  /-- `file_entry_update_timestamp` -/
  | updateTimestamp (te : TransFileEntry)
  deriving DecidableEq

/-- What a call answers: an entry as `trans_entry_fill_from` reads it, a table, a return value, or nothing. -/
inductive HeapAnswer where
  | entry (te : Option TransFileEntry)
  | table (tft : TransFileTable)
  | ret (code : ℤ)
  | void
  deriving DecidableEq

/-- Read the entry that a call returned. -/
def answerEntry (m : Mem α β) : Option α → Option (Mem α β × HeapAnswer)
  | none => some (m, .entry none)
  | some fe => (transEntryFillFrom fuel fe m).map fun te => (m, .entry (some te))

/-- Use the entry of a name, if there is one. -/
def atEntry (name : Name) (f : α → Mem α β → Option (Mem α β)) (m : Mem α β) : Option (Mem α β × HeapAnswer) := do
  match ← fileTableSearch fuel name m with
  | none => return (m, .void)
  | some fe => (f fe m).map fun m => (m, .void)

def heapStep (m : Mem α β) : HeapCall → Option (Mem α β × HeapAnswer)
  | .find te => (fileTableSearch fuel te.name m).bind (answerEntry fuel m)
  | .add te => (fileTableAdd A fuel te m).bind fun r => answerEntry fuel r.1 r.2
  | .update te => (fileTableUpdate A fuel te m).map fun r => (r.1, .ret r.2)
  | .delete te => (fileTableDelete fuel te m).map fun r => (r.1, .ret r.2)
  | .deleteOwner ip => (fileTableDeleteOwner fuel ip m).map fun m => (m, .void)
  | .destroy => (fileTableDestroy fuel m).map fun m => (m, .void)
  | .fill => (transTableFillFrom fuel m).map fun tft => (m, .table tft)
  | .replace te => atEntry fuel te.name (fun fe => peerIdListReplace A fuel fe te) m
  | .removeMyself myIp te => atEntry fuel te.name (peerIdListRemoveMyself fuel myIp) m
  | .updateTimestamp te =>
    atEntry fuel te.name (fun fe m => m.setEntry fe fun d => { d with timestamp := te.timestamp }) m

end Functions

end TeleSync.HeapTable
