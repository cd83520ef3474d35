import TeleSync.Tracker.Handshake
import TeleSync.Sync.Network

/-!
# The tracker's threads and its clients, lock by lock

The tracker of `server/start.c` with one thread for each packet, cut where the threads take and leave the locks, and
clients that connect, register, scan, synchronise and then live on (`client/start.c`).

* `ClientPacket`, `Thread` : what the clients send, and how far the thread for a packet has come;
* `Thread.advance` : the next step of a thread, with the packets that it sends;
* `ClientPhase`, `Cluster` : how far a client has come, and the whole system;
* `ClusterEvent`, `cluster` : its steps, in any order;
* `Orderly` : what a run without deletes respects.

A thread may run late, so packets of one connection may be handled in any order. Keep-alives and clients that leave are
not part of it.
-/

namespace TeleSync.Threads
open Transition

/-! ## The tracker -/

/-- A packet to the tracker. -/
inductive ClientPacket where
  | register (peerid : PeerId)
  | sync (tft : TransFileTable)
  | update (tft : TransFileTable)
  deriving DecidableEq

/-- A thread of the tracker, by what it does next; `conn` is its connection. -/
inductive Thread where
  /-- `peer_register_handler_task`, before it sends the `TRACKER_ACCEPT` -/
  | register (conn : ℤ) (peerid : PeerId)
  /-- and before `peer_table_add` -/
  | addPeer (conn : ℤ) (peerid : PeerId)
  /-- the first loop of `sync_task`: bucket `bkt` comes next, after the entries `chain` of the one before -/
  | reply (conn : ℤ) (tft : TransFileTable) (bkt : ℕ) (chain : List Name) (peerTft : TransFileTable)
  /-- before the `trans_entry_fill_from` of that loop -/
  | replyFill (conn : ℤ) (tft : TransFileTable) (name : Name) (opType : OperationType) (bkt : ℕ) (chain : List Name)
    (peerTft : TransFileTable)
  /-- the second loop of `sync_task` -/
  | merge (conn : ℤ) (tft : TransFileTable) (broadTft : TransFileTable)
  /-- before the `file_table_add` of that loop -/
  | mergeAdd (conn : ℤ) (te : TransFileEntry) (tft : TransFileTable) (broadTft : TransFileTable)
  /-- before its `file_table_update`; `older` if the entry that was found is -/
  | mergeUpdate (conn : ℤ) (te : TransFileEntry) (older : Bool) (tft : TransFileTable) (broadTft : TransFileTable)
  /-- the loop of `peer_file_update_task` -/
  | update (conn : ℤ) (tft : TransFileTable) (newTft : TransFileTable)
  /-- before the `file_table_add` for a `FILE_MODIFY` -/
  | updateAdd (conn : ℤ) (te : TransFileEntry) (tft : TransFileTable) (newTft : TransFileTable)
  /-- before its `file_entry_update` -/
  | updateMerge (conn : ℤ) (te : TransFileEntry) (tft : TransFileTable) (newTft : TransFileTable)
  /-- before the `trans_entry_fill_from` of that loop -/
  | updateFill (conn : ℤ) (name : Name) (opType : OperationType) (tft : TransFileTable) (newTft : TransFileTable)
  deriving DecidableEq

/-- The thread that `receiver_task` starts for a packet. -/
def ClientPacket.thread (conn : ℤ) : ClientPacket → Thread
  | .register peerid => .register conn peerid
  | .sync tft => .reply conn tft 0 [] []
  | .update tft => .update conn tft []

/-- What a step of a thread leaves: the tables, the packets it has sent and the rest of the thread. -/
structure Advance where
  tracker : Tracker
  sent : List (ℤ × TtopPacket)
  rest : Option Thread

/-- The names in a bucket, in the order of its chain. -/
def chainOf (ft : FileTable) (bkt : Fin HASH_SIZE) : List Name := (ft.fileHtable bkt).map FileEntry.name

/-- One step of a thread; `now` is the clock for `peer_entry_alloc`. An entry that has gone while a pointer to it is
held ends the model. -/
def Thread.advance (ctrInfo : TtopControlInfo) (t : Tracker) (now : BitVec 64) : Thread → Option Advance
  | .register conn peerid => some ⟨t, [(conn, .accept ctrInfo)], some (.addPeer conn peerid)⟩
  | .addPeer conn peerid => some ⟨t.addPeer conn peerid now, [], none⟩
  | .reply conn tft bkt [] peerTft =>
    if h : bkt < HASH_SIZE then some ⟨t, [], some (.reply conn tft (bkt + 1) (chainOf t.ft ⟨bkt, h⟩) peerTft)⟩
    else some ⟨t, [(conn, .sync peerTft)], some (.merge conn tft [])⟩
  | .reply conn tft bkt (name :: chain) peerTft =>
    (fileTableSearch t.ft name).map fun fe =>
      match syncReplyEntry tft fe with
      | none => ⟨t, [], some (.reply conn tft bkt chain peerTft)⟩
      | some te => ⟨t, [], some (.replyFill conn tft name te.opType bkt chain peerTft)⟩
  | .replyFill conn tft name opType bkt chain peerTft =>
    (fileTableSearch t.ft name).map fun fe =>
      ⟨t, [], some (.reply conn tft bkt chain (peerTft ++ [{ transEntryFillFrom fe with opType := opType }]))⟩
  | .merge conn [] broadTft => some ⟨t, t.broadcast broadTft conn, none⟩
  | .merge conn (te :: tft) broadTft =>
    match fileTableFind t.ft te with
    | none => some ⟨t, [], some (.mergeAdd conn te tft broadTft)⟩
    | some fe => some ⟨t, [], some (.mergeUpdate conn te (decide (fe.timestamp < te.timestamp)) tft broadTft)⟩
  | .mergeAdd conn te tft broadTft =>
    some ⟨{ t with ft := (fileTableAdd t.ft te).1 }, [],
      some (.merge conn tft (broadTft ++ [{ te with opType := .fileAdd }]))⟩
  | .mergeUpdate conn te older tft broadTft =>
    some ⟨{ t with ft := (fileTableUpdate t.ft te).1 }, [],
      some (.merge conn tft (if older then broadTft ++ [{ te with opType := .fileModify }] else broadTft))⟩
  | .update conn [] newTft => some ⟨t, if newTft.length > 0 then t.broadcast newTft conn else [], none⟩
  | .update conn (te :: tft) newTft =>
    match te.opType with
    | .fileAdd =>
      some ⟨{ t with ft := (fileTableAdd t.ft te).1 }, [], some (.updateFill conn te.name .fileAdd tft newTft)⟩
    | .fileDelete =>
      let p := fileTableDelete t.ft te
      some ⟨{ t with ft := p.1 }, [], some (.update conn tft (if p.2 = 0 then newTft ++ [te] else newTft))⟩
    | .fileModify =>
      match fileTableFind t.ft te with
      | none => some ⟨t, [], some (.updateAdd conn te tft newTft)⟩
      | some _ => some ⟨t, [], some (.updateMerge conn te tft newTft)⟩
    | .fileNone => some ⟨t, [], some (.update conn tft newTft)⟩
    | .other _ => some ⟨t, [], some (.update conn tft newTft)⟩
  | .updateAdd conn te tft newTft =>
    -- `fe` stays `NULL`, and the slot zeroed
    some ⟨{ t with ft := (fileTableAdd t.ft te).1 }, [],
      some (.update conn tft (newTft ++ [{ TransFileEntry.zero with opType := .fileAdd }]))⟩
  | .updateMerge conn te tft newTft =>
    some ⟨{ t with ft := t.ft.modify te.name fun fe => (fileEntryUpdate fe te).1 }, [],
      some (.updateFill conn te.name .fileModify tft newTft)⟩
  | .updateFill conn name opType tft newTft =>
    (fileTableSearch t.ft name).map fun fe =>
      ⟨t, [], some (.update conn tft (newTft ++ [{ transEntryFillFrom fe with opType := opType }]))⟩

/-- The thread passes `n` empty buckets before anything else happens. -/
def Thread.skip (t : Tracker) (n : ℕ) : Thread → Option Advance
  | .reply conn tft bkt [] peerTft =>
    if ∀ i < n, ∃ h : bkt + i < HASH_SIZE, t.ft.fileHtable ⟨bkt + i, h⟩ = [] then
      some ⟨t, [], some (.reply conn tft (bkt + n) [] peerTft)⟩
    else none
  | _ => none

/-! ## The clients -/

/-- A client, by what it does next. -/
inductive ClientPhase where
  | absent
  /-- waits for the answer to its `PEER_REGISTER` -/
  | connecting
  | accepted
  /-- waits for the answer to its `PEER_SYNC` -/
  | waiting
  /-- `file_table_sync`, with the entries to come -/
  | syncing (tft : TransFileTable)
  /-- `ttop_receiver_task` between two packets -/
  | running
  /-- and in a `TRACKER_BROADCAST`, with the entries to come -/
  | handling (tft : TransFileTable)
  | failed
  deriving DecidableEq

/-- The client has scanned its files and has not failed. -/
def ClientPhase.Joined : ClientPhase → Prop
  | .waiting => True
  | .syncing _ => True
  | .running => True
  | .handling _ => True
  | .absent => False
  | .connecting => False
  | .accepted => False
  | .failed => False

instance : (p : ClientPhase) → Decidable p.Joined
  | .waiting => isTrue trivial
  | .syncing _ => isTrue trivial
  | .running => isTrue trivial
  | .handling _ => isTrue trivial
  | .absent => isFalse id
  | .connecting => isFalse id
  | .accepted => isFalse id
  | .failed => isFalse id

/-- What the client makes of the packet that it reads, if it reads one now. -/
def ClientPhase.take : ClientPhase → TtopPacket → Option ClientPhase
  | .connecting, .accept _ => some .accepted
  | .connecting, _ => some .failed
  | .waiting, .sync tft => some (.syncing tft)
  | .waiting, _ => some .failed
  | .running, .broadcast tft => some (.handling tft)
  | .running, _ => some .running
  | _, _ => none

/-- The tracker with its threads, the packets under way, and the clients by connection. -/
structure Cluster where
  tracker : Tracker
  up : List (ℤ × ClientPacket)
  threads : List Thread
  down : ℤ → List TtopPacket
  phase : ℤ → ClientPhase
  peerFt : ℤ → FileTable
  myIp : ℤ → UInt32

namespace Cluster

/-- Before any client has come. -/
def start : Cluster := ⟨⟨fileTableInit, []⟩, [], [], fun _ => [], fun _ => .absent, fun _ => fileTableInit, fun _ => 0⟩

/-- The client of `conn` goes on in phase `phase` with table `ft`. -/
def client (s : Cluster) (conn : ℤ) (phase : ClientPhase) (ft : FileTable) : Cluster :=
  { s with phase := Function.update s.phase conn phase, peerFt := Function.update s.peerFt conn ft }

/-- A packet of the client of `conn`. -/
def send (s : Cluster) (conn : ℤ) (p : ClientPacket) : Cluster := { s with up := s.up ++ [(conn, p)] }

/-- Thread `i` has made a step. -/
def moved (s : Cluster) (i : ℕ) (a : Advance) : Cluster :=
  { s with
    tracker := a.tracker
    threads := s.threads.eraseIdx i ++ a.rest.toList
    down := fun c => s.down c ++ packetsFor c a.sent }

/-- `connect_tracker` and the first packet of `register_to_tracker`. -/
def connect (s : Cluster) (conn : ℤ) (ip : UInt32) : Cluster :=
  { s with
    phase := Function.update s.phase conn .connecting
    myIp := Function.update s.myIp conn ip
    up := s.up ++ [(conn, .register ⟨ip, P2P_PORT⟩)] }

/-- `get_file_table` finds `ft`, and `sync_files` sends it. -/
def scan (s : Cluster) (conn : ℤ) (ft : FileTable) : Cluster :=
  (s.client conn .waiting ft).send conn (.sync (transTableFillFrom ft))

/-- `file_monitor_task` handles local events in order and reports them. -/
def report (s : Cluster) (conn : ℤ) (tft : TransFileTable) : Cluster :=
  (s.client conn (s.phase conn) (tft.foldl eventTableUpdate (s.peerFt conn))).send conn (.update tft)

/-- `notify_tracker_add_me` for an entry of the client's table. -/
def announce (s : Cluster) (conn : ℤ) (fe : FileEntry) : Cluster :=
  s.send conn (.update [⟨fe.name, fe.timestamp, .fileModify, fe.type, [⟨s.myIp conn, P2P_PORT⟩]⟩])

/-- The first packet on the connection has been read. -/
def read (s : Cluster) (conn : ℤ) (rest : List TtopPacket) : Cluster :=
  { s with down := Function.update s.down conn rest }

/-- The client of `conn` handles the next entry that it has at hand, or else reads the next packet. -/
def receive (s : Cluster) (conn : ℤ) : Option Cluster :=
  match s.phase conn with
  | .syncing (te :: tft) =>
    some (s.client conn (.syncing tft) (fileTableSyncEntry (s.myIp conn) (s.peerFt conn) te).1)
  | .syncing [] => some (s.client conn .running (s.peerFt conn))
  | .handling (te :: tft) =>
    some (s.client conn (.handling tft) (broadcastEntryHandler (s.myIp conn) (s.peerFt conn) te).1)
  | .handling [] => some (s.client conn .running (s.peerFt conn))
  | phase =>
    match s.down conn with
    | [] => none
    | p :: rest => (phase.take p).map fun phase' => (s.read conn rest).client conn phase' (s.peerFt conn)

/-- Nothing is under way and no thread runs; no client is in the middle of a packet. -/
def Quiescent (s : Cluster) : Prop :=
  s.up = [] ∧ s.threads = [] ∧ ∀ c, (s.phase c).Joined → s.down c = [] ∧ s.phase c = .running

end Cluster

/-! ## Runs -/

inductive ClusterEvent where
  | connect (conn : ℤ) (ip : UInt32)
  | scan (conn : ℤ) (ft : FileTable)
  | report (conn : ℤ) (tft : TransFileTable)
  | announce (conn : ℤ) (fe : FileEntry)
  /-- the tracker starts the thread for a packet -/
  | start (conn : ℤ) (p : ClientPacket)
  | step (i : ℕ) (now : BitVec 64)
  | skip (i : ℕ) (n : ℕ)
  | receive (conn : ℤ)

/-- Connections are not used twice; clients report once they have scanned. -/
def cluster (ctrInfo : TtopControlInfo) : System Cluster ClusterEvent where
  step s
    | .connect conn ip => if s.phase conn = .absent then some (s.connect conn ip) else none
    | .scan conn ft => if s.phase conn = .accepted then some (s.scan conn ft) else none
    | .report conn tft => if (s.phase conn).Joined then some (s.report conn tft) else none
    | .announce conn fe =>
      if (s.phase conn).Joined ∧ fileTableSearch (s.peerFt conn) fe.name = some fe then some (s.announce conn fe)
      else none
    | .start conn p =>
      if (conn, p) ∈ s.up then
        some { s with up := s.up.erase (conn, p), threads := s.threads ++ [p.thread conn] }
      else none
    | .step i now => s.threads[i]?.bind fun t => (t.advance ctrInfo s.tracker now).map (s.moved i)
    | .skip i n => s.threads[i]?.bind fun t => (t.skip s.tracker n).map (s.moved i)
    | .receive conn => s.receive conn

/-- Local events of a client with table `ft`: additions, and changes of files that it has. -/
def LocalNews (ft : FileTable) : TransFileTable → Prop
  | [] => True
  | te :: tft =>
    (te.opType = .fileAdd ∨ te.opType = .fileModify ∧ fileTableSearch ft te.name ≠ none) ∧
      LocalNews (eventTableUpdate ft te) tft

/-- A table from a scan has one entry for a name; no file is deleted; a synchronisation starts once its client is in the
peer table; and a change reaches the tracker after it knows the file. -/
def Orderly (s : Cluster) : ClusterEvent → Prop
  | .scan _ ft => ft.Wf
  | .report conn tft => LocalNews (s.peerFt conn) tft
  | .start conn (.sync _) => s.tracker.Registered conn
  | .step i _ =>
    match s.threads[i]? with
    | some (.update _ (te :: _) _) => te.opType = .fileModify → fileTableSearch s.tracker.ft te.name ≠ none
    | _ => True
  | _ => True

end TeleSync.Threads
