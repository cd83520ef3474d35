import TeleSync.Client.Owners
import TeleSync.Monitor.Table
import TeleSync.Sync.Network
import TeleSync.Lib.PathName

/-!
# The tasks of a client

`file_delete` and `ptop_download_task` of `client/start.c`, which turn received entries into calls on the file system:

* `fileDelete`, `ptopDownloadTask` : the functions; what `do_download` returns is an input;
* `Client` : the file table, the monitor table and the downloads that were started and have not run yet;
* `client K myIp` : entries, tasks and events of the file system in any order.
-/

namespace TeleSync
open Program Transition

/-- `file_delete` -/
def fileDelete (K : Kernel) (te : TransFileEntry) : Monitor Unit := do
  let held ← blockName K te.name.bytes true
  match held with
  | none => pure ()
  | some g => do
    if te.fileType = .directory then fileMonitorRmdir g.sysName g.logicName else issue (.unlink g.sysName)
    fileMonitorUnblock K g.target

/-- The update that `notify_tracker_add_me` sends. -/
def notifyTrackerAddMe (myIp : UInt32) (name : Name) (fe : FileRecord) : TransFileEntry :=
  ⟨name, fe.timestamp, .fileModify, fe.type, [⟨myIp, P2P_PORT⟩]⟩

/-- What a download task leaves: its exit status and the update it sent. -/
structure TaskResult where
  ret : ℤ
  notified : Option TransFileEntry
  deriving DecidableEq

/-- Make the directory or download the file, where `do_download` returns `download`. -/
def fetch (K : Kernel) (fe : FileRecord) (g : Held) (download : ℤ) : Monitor ℤ :=
  if fe.type = .directory then fileMonitorMkdir K g.sysName g.logicName
  else do
    issue (.openTrunc g.sysName)
    pure download

/-- `ptop_download_task` for the entry `fe` of `name`. -/
def ptopDownloadTask (K : Kernel) (myIp : UInt32) (name : Name) (fe : FileRecord) (download : ℤ) :
    Monitor TaskResult := do
  let held ← blockName K name.bytes false
  match held with
  | none => pure ⟨-1, none⟩
  | some g => do
    let ret ← fetch K fe g download
    if ret = 0 then do
      issue (.utime g.sysName fe.timestamp)
      fileMonitorUnblock K g.target
      pure ⟨ret, some (notifyTrackerAddMe myIp name fe)⟩
    else do
      fileMonitorUnblock K g.target
      pure ⟨ret, none⟩

/-! ## A client -/

structure Client where
  ft : FileTable
  m : MonitorTable
  /-- names of the downloads that were started and have not run yet -/
  pending : List Name
  crashed : Bool

namespace Client

/-- The client after a function on the monitor table. -/
def after {α : Type} (c : Client) (p : Monitor α) : Client :=
  { c with m := (p c.m).2, crashed := (p c.m).1.isNone }

/-- Start a download, or delete a file at once. -/
def perform (K : Kernel) (c : Client) : ClientAction → Client
  | .download name => { c with pending := c.pending ++ [name] }
  | .fileDelete te => c.after (fileDelete K te)

/-- An entry from the tracker. -/
def receive (K : Kernel) (myIp : UInt32) (c : Client) (path : HandlerPath) (te : TransFileEntry) : Client :=
  let out := handleEntry myIp path c.ft te
  out.2.foldl (perform K) { c with ft := out.1 }

/-- A started download runs; it reads its entry and leaves the file table alone. -/
def runTask (K : Kernel) (myIp : UInt32) (c : Client) (name : Name) (fe : FileRecord) (download : ℤ) : Client :=
  { c with pending := c.pending.erase name }.after (ptopDownloadTask K myIp name fe download)

end Client

inductive ClientEvent where
  | receive (path : HandlerPath) (te : TransFileEntry)
  | task (name : Name) (download : ℤ)
  /-- a local event, and the entry reported for it -/
  | inotify (e : InotifyEvent) (te : TransFileEntry)
  deriving DecidableEq

/-- A component that is the name of a directory entry. -/
def EntryName (c : CString) : Prop := PathName.Proper SLASH DOT DOT_DOT c

instance (c : CString) : Decidable (EntryName c) := inferInstanceAs (Decidable (PathName.Proper SLASH DOT DOT_DOT c))

/-- The names that inotify reports are names of directory entries. -/
def InotifyEvent.Named : InotifyEvent → Prop
  | .entry _ _ _ name => EntryName name
  | .self _ _ => True

instance : ∀ e : InotifyEvent, Decidable e.Named
  | .entry _ _ _ name => inferInstanceAs (Decidable (EntryName name))
  | .self _ _ => inferInstanceAs (Decidable True)

/-- Entries arrive, started downloads run and files change locally, in any order, until a crash. -/
def client (K : Kernel) (myIp : UInt32) : System Client ClientEvent where
  step c
    | .receive path te => if c.crashed then none else some (c.receive K myIp path te)
    | .task name download =>
      if c.crashed ∨ name ∉ c.pending then none
      else (c.ft.view name).map fun fe => c.runTask K myIp name fe download
    | .inotify e te =>
      if c.crashed ∨ ¬ e.Named then none
      else some ({ c with ft := eventTableUpdate c.ft te }.after (handleEvent K e))

theorem actions_handleEntry (myIp : UInt32) (path : HandlerPath) (ft : FileTable) (te : TransFileEntry) :
    (handleEntry myIp path ft te).2 = [] ∨ (handleEntry myIp path ft te).2 = [.download te.name] ∨
      (handleEntry myIp path ft te).2 = [.fileDelete te] ∧ te.opType = .fileDelete := by
  have hreceives : Receives path te → (handleEntry myIp path ft te).2 = [] ∨
      (handleEntry myIp path ft te).2 = [.download te.name] ∨
        (handleEntry myIp path ft te).2 = [.fileDelete te] ∧ te.opType = .fileDelete := by
    intro h
    rw [handleEntry_eq myIp ft h, actions_receive]
    split_ifs
    · exact Or.inr (Or.inl rfl)
    · exact Or.inl rfl
  cases path with
  | sync => exact hreceives (Or.inl rfl)
  | broadcast =>
    cases hop : te.opType with
    | fileAdd =>
      rw [← hop]
      exact hreceives (Or.inr (Or.inl hop))
    | fileModify =>
      rw [← hop]
      exact hreceives (Or.inr (Or.inr hop))
    | fileDelete =>
      right
      right
      refine ⟨?_, rfl⟩
      rw [handleEntry, broadcastEntryHandler, hop]
    | fileNone =>
      left
      rw [handleEntry, broadcastEntryHandler, hop]
    | other code =>
      left
      rw [handleEntry, broadcastEntryHandler, hop]

end TeleSync
