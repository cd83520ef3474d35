import TeleSync.Client.Tasks
import TeleSync.Monitor.Names

/-!
# Remote names and the configured directories

The tracker names the files that a client writes and deletes. The client puts such a name below a watched directory,
component by component, and hands a directory to be deleted to the shell.

* `Confined shell dirs call` : what the call creates, writes or removes is strictly below a configured directory;
* `ShellPlain`, `PassesPlainWords` : words that the shell hands on as they are;
* `Harmless` : the components of a received name lead downwards, and a directory that is to be deleted has a system
  name that is such a word;
* `remote_names_confined` : then every call of every run is confined.
-/

namespace TeleSync
open Program Transition

/-! ## Confined calls -/

/-- The paths that a call creates, truncates, writes or removes, if the shell removes `shell cmd` for a command. -/
def Call.touched (shell : CString → List CString) : Call → List CString
  | .mkdir path => [path]
  | .openTrunc path => [path]
  | .utime path _ => [path]
  | .unlink path => [path]
  | .system cmd => shell cmd
  | .inotifyAddWatch _ _ => []
  | .inotifyRmWatch _ => []
  | .calloc => []

/-- All paths touched are strictly below a configured directory. -/
def Confined (shell : CString → List CString) (dirs : List CString) (c : Call) : Prop :=
  ∀ path ∈ c.touched shell, ∃ dir ∈ dirs, PathName.Below SLASH DOT DOT_DOT dir path

/-- The bytes that the shell does not take literally: blanks and ``!"#$%&'()*;<=>?[\]^`{|}~``. -/
def SHELL_SPECIAL : List UInt8 :=
  [9, 10, 32, 33, 34, 35, 36, 37, 38, 39, 40, 41, 42, 59, 60, 61, 62, 63, 91, 92, 93, 94, 96, 123, 124, 125, 126]

/-- A word of bytes that are taken literally, and no option. -/
def ShellPlain (w : CString) : Prop := (∀ b ∈ w, b ∉ SHELL_SPECIAL) ∧ w.head? ≠ some 45

instance (w : CString) : Decidable (ShellPlain w) :=
  inferInstanceAs (Decidable ((∀ b ∈ w, b ∉ SHELL_SPECIAL) ∧ w.head? ≠ some 45))

/-- `rm -r` removes such a word and nothing else. -/
def PassesPlainWords (shell : CString → List CString) : Prop :=
  ∀ w, w ≠ [] → ShellPlain w → shell (rmCommand w) = [w]

/-- A configured directory, or a path of directory entries below it. -/
def Inside (dirs : List CString) (path : CString) : Prop :=
  ∃ dir ∈ dirs, ∃ cs, (∀ c ∈ cs, EntryName c) ∧ path = PathName.extend SLASH dir cs

/-- All components of a name but the first, which names the configured directory, lead downwards. -/
def LeadsDown (name : CString) : Prop := ∀ c ∈ (name.splitOn SLASH).tail, c ≠ [] ∧ c ≠ DOT ∧ c ≠ DOT_DOT

instance (name : CString) : Decidable (LeadsDown name) :=
  inferInstanceAs (Decidable (∀ c ∈ (name.splitOn SLASH).tail, c ≠ [] ∧ c ≠ DOT ∧ c ≠ DOT_DOT))

section Paths
variable {shell : CString → List CString} {dirs : List CString}

theorem LeadsDown.entryName {name : CString} (h : LeadsDown name) : ∀ c ∈ (name.splitOn SLASH).tail, EntryName c := by
  intro c hc
  obtain ⟨hne, hdot, hdots⟩ := h c hc
  exact ⟨hne, hdot, hdots, PathName.sep_notMem_of_mem_splitOn (List.mem_of_mem_tail hc)⟩

theorem getLast_mem_tail {name : CString} (h : SLASH ∈ name) :
    (name.splitOn SLASH).getLast (List.splitOn_ne_nil _ _) ∈ (name.splitOn SLASH).tail := by
  have hne := PathName.dropLast_splitOn_ne_nil h
  obtain ⟨c, l, hl⟩ := List.exists_cons_of_ne_nil (List.splitOn_ne_nil SLASH name)
  have hnil : l ≠ [] := by
    rintro rfl
    rw [hl] at hne
    exact hne rfl
  simp only [hl, List.tail_cons, List.getLast_cons hnil]
  exact List.getLast_mem hnil

theorem below_of_entryName {path c : CString} (h : Inside dirs path) (hc : EntryName c) :
    ∃ dir ∈ dirs, PathName.Below SLASH DOT DOT_DOT dir (path ++ SLASH :: c) := by
  obtain ⟨dir, hdir, cs, hcs, rfl⟩ := h
  refine ⟨dir, hdir, ?_⟩
  rw [PathName.extend_append_singleton]
  apply PathName.below_extend (List.append_ne_nil_of_right_ne_nil cs (List.cons_ne_nil c []))
  intro d hd
  rcases List.mem_append.mp hd with hd | hd
  · exact hcs d hd
  · rw [List.mem_singleton.mp hd]
    exact hc

theorem Inside.child {path c : CString} (h : Inside dirs path) (hc : EntryName c) : Inside dirs (path ++ SLASH :: c) := by
  obtain ⟨dir, hdir, cs, hcs, rfl⟩ := h
  refine ⟨dir, hdir, cs ++ [c], fun d hd => ?_, PathName.extend_append_singleton dir cs c⟩
  rcases List.mem_append.mp hd with hd | hd
  · exact hcs d hd
  · rw [List.mem_singleton.mp hd]
    exact hc

theorem confined_of_touched {c : Call} {path : CString} (hc : c.touched shell = [path])
    (hpath : ∃ dir ∈ dirs, PathName.Below SLASH DOT DOT_DOT dir path) : Confined shell dirs c := by
  intro path' hpath'
  rw [hc, List.mem_singleton] at hpath'
  rw [hpath']
  exact hpath

theorem closed_inside : Closed (fun _ s => Inside dirs s) (Confined shell dirs) EntryName where
  child _ _ _ h hc := h.child hc
  mkdir _ _ _ h hc := confined_of_touched rfl (below_of_entryName h hc)
  addWatch _ _ _ h := (List.not_mem_nil h).elim
  rmWatch _ _ h := (List.not_mem_nil h).elim
  calloc _ h := (List.not_mem_nil h).elim

theorem BelowTarget.below {name path : CString} (h : BelowTarget (fun _ s => Inside dirs s) name path)
    (hname : LeadsDown name) :
    Inside dirs path ∧ ∃ dir ∈ dirs, PathName.Below SLASH DOT DOT_DOT dir path := by
  obtain ⟨hslash, _, s, hs, rfl⟩ := h
  have hlast := hname.entryName _ (getLast_mem_tail hslash)
  exact ⟨hs.child hlast, below_of_entryName hs hlast⟩

end Paths

/-! ## The shell -/

section Shell
variable {K : Kernel}

/-- Blocking for deletion gives the target that the table already has. -/
theorem leads_fileMonitorBlock_del (P : CString → CString → Prop) (name : CString) :
    Triple (fun m => SLASH ∈ name → ∀ p, getDirTarget m (dirText name) = some p → Leads P name (fileText name) p m)
      (fileMonitorBlock K name true) (fun r m => ∀ p, r = some p → Leads P name (fileText name) p m)
      fun _ => True := by
  refine Triple.ite (fun _ => Triple.ret fun m _ p hp => ?_) fun hslash => ?_
  · cases hp
  apply Triple.bind (Q := fun r m => ∀ p, r = some p → Leads P name (fileText name) p m)
  · apply Triple.bind (Keeps.assert _).triple
    intro _
    exact Triple.get fun m hm => hm (not_not.mp hslash)
  intro target
  refine Triple.ite (fun _ => ?_) fun hdel => absurd (Or.inl rfl) hdel
  cases target with
  | none => exact Triple.crash fun _ _ => trivial
  | some p =>
    apply Triple.bind (Q := fun _ => Leads P name (fileText name) p)
    · exact (leads_watchAgain _ _ _ p p).conseq (fun _ hm => hm p rfl) (fun _ _ hs => hs) fun _ hs => hs
    · intro _
      refine Triple.ret fun m hm q hq => ?_
      cases hq
      exact hm

theorem leads_blockName_del (P : CString → CString → Prop) (name : CString) :
    Triple (fun m => SLASH ∈ name → ∀ p, getDirTarget m (dirText name) = some p → Leads P name (fileText name) p m)
      (blockName K name true) (fun r _ => True ∧ ∀ g, r = some g → g.logicName = name ∧ P name g.sysName)
      fun _ => True := by
  apply triple_blockName_of (S := fun _ => True) (L := Leads P name (fileText name))
  · exact (leads_fileMonitorBlock_del P name).conseq (fun _ hm => hm) (fun _ _ hm => ⟨trivial, hm⟩) fun _ hm => hm
  · exact fun p => (leads_monitorGetSysName name p).conseq (fun _ hm => hm.2) (fun _ _ hm => ⟨trivial, hm⟩)
      fun _ hm => hm
  · exact fun p m _ => ⟨fun _ _ => trivial, fun _ => trivial⟩

theorem ShellPlain.below {s name : CString} (hs : ShellPlain s) (hslash : SLASH ∈ name)
    (hname : ∀ b ∈ name, b ∉ SHELL_SPECIAL) : ShellPlain (s ++ fileText name) := by
  refine ⟨fun b hb => ?_, ?_⟩
  · rcases List.mem_append.mp hb with hb | hb
    · exact hs.1 b hb
    · apply hname
      rw [eq_dirText_append_fileText hslash]
      exact List.mem_append_right _ hb
  · cases s with
    | nil =>
      intro hhead
      exact absurd (Option.some.inj hhead) (show SLASH ≠ 45 by decide)
    | cons a s => exact hs.2

end Shell

/-! ## Runs -/

/-- A directory that is to be deleted: its name, and the system name of the directory it is in, are plain words. -/
def PlainDelete (m : MonitorTable) (te : TransFileEntry) : Prop :=
  te.fileType = .directory → (∀ b ∈ te.name.bytes, b ∉ SHELL_SPECIAL) ∧
    ∀ t ∈ (getDirTarget m (dirText te.name.bytes)).bind m.objs, ShellPlain t.sysName

instance (m : MonitorTable) (te : TransFileEntry) : Decidable (PlainDelete m te) :=
  inferInstanceAs (Decidable (te.fileType = .directory → (∀ b ∈ te.name.bytes, b ∉ SHELL_SPECIAL) ∧
    ∀ t ∈ (getDirTarget m (dirText te.name.bytes)).bind m.objs, ShellPlain t.sysName))

/-- The name of a received entry leads downwards, and is safe in a shell where it goes there. -/
def Harmless (c : Client) : ClientEvent → Prop
  | .receive _ te => LeadsDown te.name.bytes ∧ (te.opType = .fileDelete → PlainDelete c.m te)
  | .task _ _ => True
  | .inotify _ _ => True

instance (c : Client) : ∀ e, Decidable (Harmless c e)
  | .receive _ te => inferInstanceAs
      (Decidable (LeadsDown te.name.bytes ∧ (te.opType = .fileDelete → PlainDelete c.m te)))
  | .task _ _ => inferInstanceAs (Decidable True)
  | .inotify _ _ => inferInstanceAs (Decidable True)

/-- Targets are inside the configured directories and calls are confined. -/
abbrev MonitorConfined (shell : CString → List CString) (dirs : List CString) : MonitorTable → Prop :=
  Holds (fun _ s => Inside dirs s) (Confined shell dirs)

/-- Besides, downloads wait for names that lead downwards. -/
structure ClientConfined (shell : CString → List CString) (dirs : List CString) (c : Client) : Prop where
  monitor : MonitorConfined shell dirs c.m
  pending : ∀ name ∈ c.pending, LeadsDown name.bytes

section Tasks
variable {K : Kernel} {shell : CString → List CString} {dirs : List CString}

/-- What a task does with the system name of a name that leads downwards. -/
theorem confined_issue {name : CString} (hname : LeadsDown name) {path : CString}
    (hpath : BelowTarget (fun _ s => Inside dirs s) name path) {c : Call} (hc : c.touched shell = [path]) :
    Keeps (MonitorConfined shell dirs) (issue c) :=
  keeps_issue (confined_of_touched hc (hpath.below hname).2)

theorem confined_fileDelete (hshell : PassesPlainWords shell) {te : TransFileEntry} (hname : LeadsDown te.name.bytes) :
    Triple (fun m => MonitorConfined shell dirs m ∧ PlainDelete m te) (fileDelete K te)
      (fun _ => MonitorConfined shell dirs) (MonitorConfined shell dirs) := by
  have hplain : ∀ m, PlainDelete m te → SLASH ∈ te.name.bytes → ∀ p, getDirTarget m (dirText te.name.bytes) = some p →
      Leads (fun _ w => te.fileType = .directory → w ≠ [] ∧ ShellPlain w) te.name.bytes
        (fileText te.name.bytes) p m := by
    intro m hm hslash p hp t ht htype
    obtain ⟨hbytes, hsys⟩ := hm htype
    have ht' : ShellPlain t.sysName := hsys t (by rw [hp]; exact ht)
    exact ⟨List.append_ne_nil_of_right_ne_nil _ (List.cons_ne_nil _ _), ht'.below hslash hbytes⟩
  have hbelow : Triple (MonitorConfined shell dirs) (blockName K te.name.bytes true) _ _ :=
    below_blockName closed_inside hname.entryName true
  apply Triple.bind_fact (S := MonitorConfined shell dirs) (F := fun r => ∀ g, r = some g →
    BelowTarget (fun _ s => Inside dirs s) te.name.bytes g.sysName ∧
      (te.fileType = .directory → g.sysName ≠ [] ∧ ShellPlain g.sysName))
  · refine (hbelow.and (leads_blockName_del (fun _ w => te.fileType = .directory → w ≠ [] ∧ ShellPlain w)
      te.name.bytes)).conseq (fun m hm => ⟨hm.1, hplain m hm.2⟩) (fun r m hm => ⟨hm.1.1, fun g hg => ?_⟩)
      fun m hm => hm.1
    exact ⟨(hm.1.2 g hg).2, (hm.2.2 g hg).2⟩
  intro held hheld
  cases held with
  | none => exact Triple.ret fun _ hm => hm
  | some g =>
    obtain ⟨hpath, hword⟩ := hheld g rfl
    have hunblock : Keeps (MonitorConfined shell dirs) (fileMonitorUnblock K g.target) :=
      keeps_watchAgain closed_inside _ _
    refine Triple.ite (fun htype => ?_) fun _ => ?_
    · obtain ⟨hne, hsafe⟩ := hword htype
      apply Triple.bind (keeps_fileMonitorRmdir closed_inside
        (confined_of_touched (hshell g.sysName hne hsafe) (hpath.below hname).2))
      exact fun _ => hunblock
    · apply Triple.bind (confined_issue hname hpath rfl)
      exact fun _ => hunblock

theorem confined_ptopDownloadTask (myIp : UInt32) {name : Name} (hname : LeadsDown name.bytes) (fe : FileRecord)
    (download : ℤ) : Keeps (MonitorConfined shell dirs) (ptopDownloadTask K myIp name fe download) := by
  apply Triple.bind_fact (F := fun r => ∀ g, r = some g → g.logicName = name.bytes ∧
    BelowTarget (fun _ s => Inside dirs s) name.bytes g.sysName) (below_blockName closed_inside hname.entryName false)
  intro held hheld
  cases held with
  | none => exact Keeps.ret _
  | some g =>
    obtain ⟨hlogic, hpath⟩ := hheld g rfl
    have hfetch : Keeps (MonitorConfined shell dirs) (fetch K fe g download) := by
      refine Keeps.ite (fun _ => ?_) fun _ => ?_
      · exact keeps_fileMonitorMkdir closed_inside (hpath.below hname).1
          (confined_of_touched rfl (hpath.below hname).2)
      · apply Keeps.bind (confined_issue hname hpath rfl)
        exact fun _ => Keeps.ret download
    have hunblock : ∀ res : TaskResult, Keeps (MonitorConfined shell dirs) (do
        fileMonitorUnblock K g.target
        pure res) := fun res => Keeps.bind (keeps_watchAgain closed_inside _ _) fun _ => Keeps.ret res
    apply Keeps.bind hfetch
    intro ret
    refine Keeps.ite (fun _ => ?_) fun _ => hunblock _
    apply Keeps.bind (confined_issue hname hpath rfl)
    exact fun _ => hunblock _

end Tasks

section Steps
variable {K : Kernel} {myIp : UInt32} {shell : CString → List CString} {dirs : List CString} {c : Client}

theorem ClientConfined.receive (hshell : PassesPlainWords shell) (h : ClientConfined shell dirs c) {path : HandlerPath}
    {te : TransFileEntry} (hok : Harmless c (.receive path te)) :
    ClientConfined shell dirs (c.receive K myIp path te) := by
  obtain ⟨hname, hdelete⟩ := hok
  rw [Client.receive]
  rcases actions_handleEntry myIp path c.ft te with hacts | hacts | ⟨hacts, hop⟩
  · rw [hacts]
    exact ⟨h.monitor, h.pending⟩
  · rw [hacts]
    refine ⟨h.monitor, fun name hmem => ?_⟩
    rcases List.mem_append.mp hmem with hmem | hmem
    · exact h.pending name hmem
    · rw [List.mem_singleton.mp hmem]
      exact hname
  · rw [hacts]
    have hm := confined_fileDelete (K := K) hshell hname c.m ⟨h.monitor, hdelete hop⟩
    refine ⟨?_, h.pending⟩
    show MonitorConfined shell dirs (fileDelete K te c.m).2
    cases hret : (fileDelete K te c.m).1 with
    | none => exact hm.2 hret
    | some u => exact hm.1 u hret

theorem ClientConfined.step (hshell : PassesPlainWords shell) (h : ClientConfined shell dirs c) {e : ClientEvent}
    (hok : Harmless c e) {c' : Client} (hs : (client K myIp).step c e = some c') : ClientConfined shell dirs c' := by
  cases e with
  | receive path te =>
    simp only [client] at hs
    split_ifs at hs
    cases hs
    exact h.receive hshell hok
  | task name download =>
    simp only [client] at hs
    split_ifs at hs with hg
    obtain ⟨fe, -, rfl⟩ := Option.map_eq_some_iff.mp hs
    have hmem : name ∈ c.pending := not_not.mp fun hn => hg (Or.inr hn)
    have htask : Keeps (MonitorConfined shell dirs) (ptopDownloadTask K myIp name fe download) :=
      confined_ptopDownloadTask myIp (h.pending name hmem) fe download
    exact ⟨htask.state h.monitor, fun n hn => h.pending n (List.mem_of_mem_erase hn)⟩
  | inotify e te =>
    simp only [client] at hs
    split_ifs at hs with hg
    cases hs
    have hnamed : ∀ wd what isDir name, e = .entry wd what isDir name → EntryName name := by
      rintro wd what isDir name rfl
      exact not_not.mp fun hn => hg (Or.inr hn)
    exact ⟨(keeps_handleEvent closed_inside e hnamed).state h.monitor, h.pending⟩

theorem clientConfined_start {targets : List (CString × Directory)}
    (hnames : ∀ e ∈ targets, e.2.Named fun c => c ≠ [] ∧ SLASH ∉ c) {m : MonitorTable}
    (h : fileMonitorTask K targets .empty = (some 0, m)) (ft : FileTable) :
    ClientConfined shell (targets.map Prod.fst) ⟨ft, m, [], false⟩ := by
  have hkeep : Keeps (MonitorConfined shell (targets.map Prod.fst)) (fileMonitorTask K targets) := by
    apply keeps_watchTargets closed_inside (N := fun c => c ≠ [] ∧ SLASH ∉ c)
    · exact fun c hc hdot hdots => ⟨hc.1, hdot, hdots, hc.2⟩
    · intro j dir d hj
      have hmem := List.mem_of_getElem? hj
      refine ⟨⟨dir, List.mem_map.mpr ⟨_, hmem, rfl⟩, [], fun c hc => (List.not_mem_nil hc).elim, ?_⟩, hnames _ hmem⟩
      exact (List.append_nil dir).symm
  have hm := hkeep.state Holds.empty
  rw [h] at hm
  exact ⟨hm, fun name hname => (List.not_mem_nil hname).elim⟩

end Steps

/-- **Remote names stay inside.** Whatever directories are configured and whatever entries, tasks and local events
come in whatever order: as long as received names are harmless, every path that the client creates, writes or removes
is strictly below a configured directory. -/
theorem remote_names_confined (K : Kernel) (myIp : UInt32) (shell : CString → List CString)
    (hshell : PassesPlainWords shell) (targets : List (CString × Directory))
    (hnames : ∀ e ∈ targets, e.2.Named fun c => c ≠ [] ∧ SLASH ∉ c) (m : MonitorTable)
    (hstart : fileMonitorTask K targets .empty = (some 0, m)) (ft : FileTable) (es : List ClientEvent) (c : Client)
    (hok : (client K myIp).RunMeets Harmless ⟨ft, m, [], false⟩ es)
    (hrun : (client K myIp).run ⟨ft, m, [], false⟩ es = some c) :
    ∀ call ∈ c.m.trace, Confined shell (targets.map Prod.fst) call := by
  have h : ClientConfined shell (targets.map Prod.fst) c :=
    System.runMeets_invariant (fun _ _ _ ht hmeets hstep => ht.step hshell hmeets hstep)
      (clientConfined_start hnames hstart ft) hok hrun
  exact h.monitor.calls

/-- A shell on commands with plain words: what follows `rm -r` is removed. -/
def rmOperand (cmd : CString) : List CString := [cmd.drop 6]

theorem rmOperand_passesPlainWords : PassesPlainWords rmOperand := fun _ _ _ => rfl

/-- One configured directory, `/a`, without subdirectories. -/
def oneTarget : List (CString × Directory) := [([47, 97], .readable .nil)]

/-- `1/d/f` is downloaded, then the directory `1/d` is deleted. -/
theorem remote_names_confined_add_and_delete :
    let add : TransFileEntry := ⟨⟨[49, 47, 100, 47, 102], by decide, by decide⟩, 1, .fileAdd, .regular, []⟩
    let del : TransFileEntry := ⟨⟨[49, 47, 100], by decide, by decide⟩, 1, .fileDelete, .directory, []⟩
    let es : List ClientEvent := [.receive .broadcast add, .task add.name 0, .receive .broadcast del]
    ∃ m c, fileMonitorTask plainKernel oneTarget .empty = (some 0, m) ∧
      (client plainKernel 9).run ⟨fileTableInit, m, [], false⟩ es = some c ∧ c.crashed = false ∧
      .openTrunc [47, 97, 47, 100, 47, 102] ∈ c.m.trace ∧ .system (rmCommand [47, 97, 47, 100]) ∈ c.m.trace ∧
      ∀ call ∈ c.m.trace, Confined rmOperand (oneTarget.map Prod.fst) call := by
  intro add del es
  have hzero : (fileMonitorTask plainKernel oneTarget .empty).1 = some 0 := by decide +kernel
  have hstart : fileMonitorTask plainKernel oneTarget .empty =
      (some 0, (fileMonitorTask plainKernel oneTarget .empty).2) := Prod.ext hzero rfl
  have hnames : ∀ e ∈ oneTarget, e.2.Named fun c => c ≠ [] ∧ SLASH ∉ c := by
    intro e he
    rw [List.mem_singleton.mp he]
    trivial
  have hok : (client plainKernel 9).RunMeets Harmless
      ⟨fileTableInit, (fileMonitorTask plainKernel oneTarget .empty).2, [], false⟩ es := by decide +kernel
  have hlast : ((client plainKernel 9).run ⟨fileTableInit, (fileMonitorTask plainKernel oneTarget .empty).2, [], false⟩
      es).map (fun c => (c.crashed, decide (.openTrunc [47, 97, 47, 100, 47, 102] ∈ c.m.trace),
        decide (.system (rmCommand [47, 97, 47, 100]) ∈ c.m.trace))) = some (false, true, true) := by decide +kernel
  obtain ⟨c, hrun, hc⟩ := Option.map_eq_some_iff.mp hlast
  simp only [Prod.mk.injEq, decide_eq_true_eq] at hc
  obtain ⟨hcrashed, hopen, hsystem⟩ := hc
  exact ⟨_, c, hstart, hrun, hcrashed, hopen, hsystem,
    remote_names_confined plainKernel 9 rmOperand rmOperand_passesPlainWords oneTarget hnames _ hstart
      fileTableInit es c hok hrun⟩

/-- The entry `1/../x` makes the client write `/a/../x`, which is `/x` and not below `/a`. -/
theorem remote_name_escapes :
    let add : TransFileEntry := ⟨⟨[49, 47, 46, 46, 47, 120], by decide, by decide⟩, 1, .fileAdd, .regular, []⟩
    let es : List ClientEvent := [.receive .broadcast add, .task add.name 0]
    ∃ m c, fileMonitorTask plainKernel oneTarget .empty = (some 0, m) ∧
      (client plainKernel 9).run ⟨fileTableInit, m, [], false⟩ es = some c ∧
      ∃ call ∈ c.m.trace, ¬ Confined rmOperand (oneTarget.map Prod.fst) call := by
  intro add es
  have hzero : (fileMonitorTask plainKernel oneTarget .empty).1 = some 0 := by decide +kernel
  have hlast : ((client plainKernel 9).run ⟨fileTableInit, (fileMonitorTask plainKernel oneTarget .empty).2, [], false⟩
      es).map (fun c => decide (.openTrunc [47, 97, 47, 46, 46, 47, 120] ∈ c.m.trace)) = some true := by
    decide +kernel
  obtain ⟨c, hrun, hopen⟩ := Option.map_eq_some_iff.mp hlast
  refine ⟨_, c, Prod.ext hzero rfl, hrun, _, of_decide_eq_true hopen, fun h => ?_⟩
  obtain ⟨dir, hdir, rel, -, -, hrel⟩ := h _ (List.mem_singleton_self _)
  have hpath : PathName.resolve SLASH DOT DOT_DOT [47, 97, 47, 46, 46, 47, 120] = (true, [[120]]) := by decide
  have htarget : PathName.resolve SLASH DOT DOT_DOT ([47, 97] ++ [SLASH]) = (true, [[97]]) := by decide
  rw [List.mem_singleton.mp hdir, hpath, htarget] at hrel
  cases hrel

end TeleSync
