import TeleSync.Basic
import TeleSync.Lib.Program

/-!
# The monitor table

`client/file_monitor.c`: the directories that inotify watches, each with its name in the file system and its logical
name, which all clients share.

* `MonitorTable` : the targets, the list and the array that point to them, and the calls made so far (`trace`);
* `Kernel` : what the system answers, which may depend on everything so far;
* `watchTargetAdd`, `watchTargetAddDir`, `fileMonitorTask` : how the table is filled;
* `handleEvent` : what an inotify event does to it;
* `fileMonitorBlock`, `fileMonitorUnblock`, `getSysName`, `monitorGetSysName`, `blockName`, `fileMonitorMkdir`,
  `fileMonitorRmdir` : what the tasks of the client call.

A program crashes where the source would follow a null or freed pointer or write outside an array. Locks and the
counter `n`, which nothing reads, are left out.
-/

namespace TeleSync
open Program

/-! ## Strings -/

/-- A NUL-terminated string of any length, without its terminator. -/
abbrev CString := List UInt8

def SLASH : UInt8 := 47
def DOT : CString := [46]
def DOT_DOT : CString := [46, 46]
def WD_HASH_SIZE : ℤ := 128

/-- The string and its terminator fit a `char[MAX_NAME_LEN]`. -/
def NameFits (s : CString) : Prop := s.length < MAX_NAME_LEN

instance (s : CString) : Decidable (NameFits s) := inferInstanceAs (Decidable (s.length < MAX_NAME_LEN))

/-- `"%d"` of a number that is not negative. -/
def decimal (n : ℕ) : CString := (Nat.toDigits 10 n).map fun c => UInt8.ofNat c.toNat

/-- What a string is when its last `/` is overwritten by a NUL. -/
def dirText (name : CString) : CString := [SLASH].intercalate (name.splitOn SLASH).dropLast

/-- The string from its last `/` on. -/
def fileText (name : CString) : CString := SLASH :: (name.splitOn SLASH).getLast (List.splitOn_ne_nil _ _)

/-- What a string is when one of its `/` is overwritten, from the first to the last but one. -/
def dirPrefixes (name : CString) : List CString :=
  ((name.splitOn SLASH).dropLast.dropLast.inits.drop 1).map [SLASH].intercalate

/-! ## The table -/

/-- `struct monitor_target`. -/
structure MonitorTarget where
  wd : ℤ
  sysName : CString
  logicName : CString
  deriving DecidableEq

inductive WatchMask where
  | defaultWatch
  | blockAll
  deriving DecidableEq

/-- The calls that leave the program. -/
inductive Call where
  | inotifyAddWatch (path : CString) (mask : WatchMask)
  | inotifyRmWatch (wd : ℤ)
  | calloc
  | mkdir (path : CString)
  /-- `open` with `O_CREAT` and `O_TRUNC`, and what is written to the file afterwards -/
  | openTrunc (path : CString)
  | utime (path : CString) (modtime : ℕ)
  | unlink (path : CString)
  | system (cmd : CString)
  deriving DecidableEq

/-- `struct monitor_table`: the targets by address (none once freed), `head` and `targets`. -/
structure MonitorTable where
  objs : ℕ → Option MonitorTarget
  head : List ℕ
  targets : ℤ → Option ℕ
  /-- the next address that `calloc` gives -/
  allocated : ℕ
  trace : List Call

/-- The table after `bzero` and `INIT_LIST_HEAD`. -/
def MonitorTable.empty : MonitorTable := ⟨fun _ => none, [], fun _ => none, 0, []⟩

/-- The answers of the system; each may depend on the calls before it. -/
structure Kernel where
  inotifyAddWatch : MonitorTable → CString → WatchMask → ℤ
  mkdir : MonitorTable → CString → ℤ
  calloc : MonitorTable → Bool

namespace MonitorTable

def log (m : MonitorTable) (c : Call) : MonitorTable := { m with trace := m.trace ++ [c] }

/-- A new target, at the end of the list. -/
def insert (m : MonitorTable) (t : MonitorTarget) : MonitorTable where
  objs := Function.update m.objs m.allocated (some t)
  head := m.head ++ [m.allocated]
  targets := Function.update m.targets t.wd (some m.allocated)
  allocated := m.allocated + 1
  trace := m.trace

/-- `t->wd = wd` -/
def setWd (m : MonitorTable) (p : ℕ) (wd : ℤ) : MonitorTable :=
  { m with objs := Function.update m.objs p ((m.objs p).map fun t => { t with wd := wd }) }

/-- `targets[wd] = NULL`, `list_del` and `free`. -/
def free (m : MonitorTable) (p : ℕ) (wd : ℤ) : MonitorTable :=
  { m with
    objs := Function.update m.objs p none
    head := m.head.erase p
    targets := Function.update m.targets wd none }

@[simp] theorem objs_log (m : MonitorTable) (c : Call) : (m.log c).objs = m.objs := rfl

@[simp] theorem objs_insert (m : MonitorTable) (t : MonitorTarget) :
    (m.insert t).objs = Function.update m.objs m.allocated (some t) := rfl

@[simp] theorem objs_setWd (m : MonitorTable) (p : ℕ) (wd : ℤ) :
    (m.setWd p wd).objs = Function.update m.objs p ((m.objs p).map fun t => { t with wd := wd }) := rfl

@[simp] theorem objs_free (m : MonitorTable) (p : ℕ) (wd : ℤ) :
    (m.free p wd).objs = Function.update m.objs p none := rfl

end MonitorTable

abbrev Monitor := Prog MonitorTable

def deref (p : ℕ) : Monitor MonitorTarget := Prog.read fun m => m.objs p

/-- A call whose answer nobody reads. -/
def issue (c : Call) : Monitor Unit := Prog.modify fun m => m.log c

def inotifyAddWatch (K : Kernel) (path : CString) (mask : WatchMask) : Monitor ℤ := do
  let wd ← Prog.get fun m => K.inotifyAddWatch m path mask
  issue (.inotifyAddWatch path mask)
  pure wd

def calloc (K : Kernel) : Monitor Bool := do
  let ok ← Prog.get K.calloc
  issue .calloc
  pure ok

def mkdir (K : Kernel) (path : CString) : Monitor ℤ := do
  let ret ← Prog.get fun m => K.mkdir m path
  issue (.mkdir path)
  pure ret

/-! ## Watching -/

/-- `__unwatch_and_free_target` -/
def unwatchAndFreeTarget (p : ℕ) : Monitor Unit := do
  let t ← deref p
  Prog.assert (0 ≤ t.wd ∧ t.wd < WD_HASH_SIZE)
  issue (.inotifyRmWatch t.wd)
  Prog.modify fun m => m.free p t.wd

/-- `watch_target_add`: a watch descriptor in use gives the target that uses it. -/
def watchTargetAdd (K : Kernel) (sysName logicName : CString) : Monitor (Option ℕ) := do
  Prog.assert (NameFits sysName ∧ NameFits logicName)
  let wd ← inotifyAddWatch K sysName .defaultWatch
  if wd < 0 then pure none
  else do
    Prog.assert (wd < WD_HASH_SIZE)
    let used ← Prog.get fun m => m.targets wd
    match used with
    | some p => pure (some p)
    | none => do
      let ok ← calloc K
      if ok then do
        let p ← Prog.get MonitorTable.allocated
        Prog.modify fun m => m.insert ⟨wd, sysName, logicName⟩
        pure (some p)
      else pure none

mutual
/-- A directory as `opendir` finds it. -/
inductive Directory where
  | unreadable
  | readable (entries : DirEntries)
/-- What `readdir` gives, in order. -/
inductive DirEntries where
  | nil
  | file (rest : DirEntries)
  | dir (dName : CString) (sub : Directory) (rest : DirEntries)
end

mutual
/-- All directory entries that the recursion meets have a name in `N`. -/
def Directory.Named (N : CString → Prop) : Directory → Prop
  | .unreadable => True
  | .readable entries => entries.Named N
def DirEntries.Named (N : CString → Prop) : DirEntries → Prop
  | .nil => True
  | .file rest => rest.Named N
  | .dir dName sub rest => N dName ∧ sub.Named N ∧ rest.Named N
end

mutual
/-- `watch_target_add_dir` -/
def watchTargetAddDir (K : Kernel) (dir localDir : CString) : Directory → Monitor ℤ
  | .unreadable => do
    let _ ← watchTargetAdd K dir localDir
    pure (-1)
  | .readable entries => do
    let _ ← watchTargetAdd K dir localDir
    watchEntries K dir localDir 0 entries
/-- The loop over the entries. -/
def watchEntries (K : Kernel) (dir localDir : CString) (ret : ℤ) : DirEntries → Monitor ℤ
  | .nil => pure ret
  | .file rest => watchEntries K dir localDir ret rest
  | .dir dName sub rest => do
    Prog.assert (NameFits (dir ++ SLASH :: dName) ∧ NameFits (localDir ++ SLASH :: dName))
    if dName = DOT ∨ dName = DOT_DOT then watchEntries K dir localDir ret rest
    else do
      let r ← watchTargetAddDir K (dir ++ SLASH :: dName) (localDir ++ SLASH :: dName) sub
      watchEntries K dir localDir (if r ≠ 0 ∨ ret ≠ 0 then 1 else 0) rest
end

/-- The loop of `file_monitor_task` over the configured directories, from the `i`-th on. -/
def watchTargets (K : Kernel) : ℕ → ℤ → List (CString × Directory) → Monitor ℤ
  | _, ret, [] => pure ret
  | i, ret, (dir, d) :: rest => do
    let r ← watchTargetAddDir K dir (decimal (i + 1)) d
    watchTargets K (i + 1) (if r ≠ 0 ∧ ret ≠ 0 then 1 else 0) rest

/-- `file_monitor_task` before its first event; it goes on only with 0. -/
def fileMonitorTask (K : Kernel) (dirs : List (CString × Directory)) : Monitor ℤ := watchTargets K 0 1 dirs

/-! ## Looking up -/

/-- `get_dir_target` -/
def getDirTarget (m : MonitorTable) (dir : CString) : Option ℕ :=
  m.head.find? fun p => (m.objs p).any fun t => t.logicName == dir

/-- `get_file_target` -/
def getFileTarget (logicName : CString) : Monitor (Option ℕ) := do
  Prog.assert (SLASH ∈ logicName)
  Prog.get fun m => getDirTarget m (dirText logicName)

/-- The watched directory that `file_monitor_block` starts from: the last one found. -/
def nearestTarget (m : MonitorTable) (logicName : CString) : Option ℕ :=
  (dirPrefixes logicName).foldl (fun t dir => (getDirTarget m dir).or t) none

/-! ## Events -/

/-- What happened to an entry of a watched directory. -/
inductive EntryEvent where
  | create
  | delete
  | modify
  | movedFrom
  | movedTo
  | attrib
  deriving DecidableEq

/-- What happened to a watched directory itself. -/
inductive SelfEvent where
  | deleteSelf
  | moveSelf
  | other
  deriving DecidableEq

/-- `struct inotify_event`: only events about an entry carry a name. -/
inductive InotifyEvent where
  | entry (wd : ℤ) (what : EntryEvent) (isDir : Bool) (name : CString)
  | self (wd : ℤ) (what : SelfEvent)
  deriving DecidableEq

/-- `tricky_string` -/
def trickyString (sysName : CString) : Bool := SLASH ∈ sysName && fileText sysName == [SLASH, 52, 57, 49, 51]

/-- `m_table.targets[event->wd]` -/
def eventTarget (wd : ℤ) : Monitor (Option ℕ) := do
  Prog.assert (0 ≤ wd ∧ wd < WD_HASH_SIZE)
  Prog.get fun m => m.targets wd

/-- One event in `file_monitor_task` and `handle_event`, for its effect on the monitor table. An event about the watched
directory itself has no name, and what the source reads in its place is taken to be empty. -/
def handleEvent (K : Kernel) : InotifyEvent → Monitor Unit
  | .entry wd what isDir name => do
    let target ← eventTarget wd
    match target with
    | none => pure ()
    | some p => do
      let t ← deref p
      let teName := t.logicName ++ SLASH :: name
      let newName := t.sysName ++ SLASH :: name
      Prog.assert (NameFits teName ∧ NameFits newName)
      if trickyString newName then pure ()
      else if (what = .create ∨ what = .movedTo) ∧ isDir then do
        let _ ← watchTargetAdd K newName teName
        pure ()
      else pure ()
  | .self wd what => do
    let target ← eventTarget wd
    match target with
    | none => pure ()
    | some p => if what = .deleteSelf ∨ what = .moveSelf then unwatchAndFreeTarget p else pure ()

/-! ## Blocking and names -/

/-- `t->wd = inotify_add_watch(...)` -/
def watchAgain (K : Kernel) (mask : WatchMask) (p : ℕ) : Monitor Unit := do
  let t ← deref p
  let wd ← inotifyAddWatch K t.sysName mask
  Prog.modify fun m => m.setWd p wd

/-- `__file_monitor_block` -/
def blockTarget (K : Kernel) (p : ℕ) : Monitor Unit := watchAgain K .blockAll p

/-- `__file_monitor_unblock`, and `file_monitor_unblock` for a target that is not null -/
def fileMonitorUnblock (K : Kernel) (p : ℕ) : Monitor Unit := watchAgain K .defaultWatch p

/-- The second loop of `file_monitor_block`: make the directories `cs` below the target `p` and watch them. A failed
`mkdir` goes unnoticed; a directory that cannot be watched is a null target, which is used next. -/
def makeDirs (K : Kernel) : ℕ → List CString → Monitor ℕ
  | p, [] => pure p
  | p, c :: cs => do
    let t ← deref p
    let sysDir := t.sysName ++ SLASH :: c
    let logicDir := t.logicName ++ SLASH :: c
    blockTarget K p
    let _ ← mkdir K sysDir
    fileMonitorUnblock K p
    let next ← watchTargetAdd K sysDir logicDir
    match next with
    | none => Prog.crash
    | some q => makeDirs K q cs

/-- `file_monitor_block` from its label `out` on. -/
def blockOut (K : Kernel) : Option ℕ → Monitor (Option ℕ)
  | none => Prog.crash
  | some p => do
    blockTarget K p
    pure (some p)

/-- `file_monitor_block` -/
def fileMonitorBlock (K : Kernel) (logicName : CString) (del : Bool) : Monitor (Option ℕ) :=
  if SLASH ∉ logicName then pure none
  else do
    let target ← getFileTarget logicName
    if del ∨ target ≠ none then blockOut K target
    else do
      let near ← Prog.get fun m => nearestTarget m logicName
      match near with
      | none => pure none
      | some p => do
        let t ← deref p
        let q ← makeDirs K p ((logicName.drop (t.logicName.length + 1)).splitOn SLASH).dropLast
        blockOut K (some q)

/-- `sprintf(sys_name, "%s%s", target->sys_name, file)` -/
def sysNameBelow (logicName : CString) (p : ℕ) : Monitor (Option CString) := do
  let t ← deref p
  Prog.assert (SLASH ∈ logicName ∧ NameFits (t.sysName ++ fileText logicName))
  pure (some (t.sysName ++ fileText logicName))

/-- `get_sys_name` -/
def getSysName (K : Kernel) (logicName : CString) : Monitor (Option CString) := do
  let ok ← calloc K
  if ok then do
    let target ← getFileTarget logicName
    match target with
    | none => pure none
    | some p => sysNameBelow logicName p
  else pure none

/-- `monitor_get_sys_name` -/
def monitorGetSysName (K : Kernel) (logicName : CString) (p : ℕ) : Monitor (Option CString) := do
  let ok ← calloc K
  if ok then sysNameBelow logicName p else pure none

/-- What a task works with between blocking and unblocking: `logic_name`, `sys_name` and `target`. -/
structure Held where
  logicName : CString
  sysName : CString
  target : ℕ
  deriving DecidableEq

/-- What `file_delete` and `ptop_download_task` begin with: block, and get the system name or unblock again. -/
def blockName (K : Kernel) (logicName : CString) (del : Bool) : Monitor (Option Held) := do
  let target ← fileMonitorBlock K logicName del
  match target with
  | none => pure none
  | some p => do
    let sysName ← monitorGetSysName K logicName p
    match sysName with
    | none => do
      fileMonitorUnblock K p
      pure none
    | some sysName => pure (some ⟨logicName, sysName, p⟩)

/-- `file_monitor_mkdir` -/
def fileMonitorMkdir (K : Kernel) (sysName logicName : CString) : Monitor ℤ := do
  let ret ← mkdir K sysName
  if ret ≠ 0 then pure ret
  else do
    let target ← watchTargetAdd K sysName logicName
    pure (if target = none then -1 else 0)

/-- `"rm -r %s"` -/
def rmCommand (sysName : CString) : CString := [114, 109, 32, 45, 114, 32] ++ sysName

/-- `file_monitor_rmdir`, whose return value is not set when it succeeds and which nobody reads. -/
def fileMonitorRmdir (sysName logicName : CString) : Monitor Unit := do
  issue (.system (rmCommand sysName))
  let target ← Prog.get fun m => getDirTarget m logicName
  match target with
  | none => pure ()
  | some p => unwatchAndFreeTarget p

end TeleSync
