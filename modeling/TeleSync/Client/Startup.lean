import TeleSync.Client.Scan
import TeleSync.Table.Counter

/-!
# A client's table at start-up

`sync_files` initialises the file table and links the scanned entries without looking for their names, while the thread
of the file monitor is running already and adds the files it is told about.

* `startup` : `file_table_init`, one `file_entry_add` for each scanned entry, and the `file_table_add` of `FILE_ADD`
  events, in any order in which the two threads may run;
* `entryCount` : how many entries have a name, with what the two kinds of adds do to it;
* `OneEntryEach` : one for each name that was scanned or reported;
* `one_entry_per_name_iff` : this holds after the scan exactly when no file is reported before it is scanned, and no
  report before `file_table_init` is the last sign of its file.
-/

namespace TeleSync
open ChainTable Transition

/-! ## Two threads -/

/-- The file table, what the scan has still to link (none before `file_table_init`), and what happened so far: the names
that were scanned, and those that were reported since `file_table_init` and before it. -/
structure Startup where
  ft : FileTable
  todo : Option (List FileEntry)
  scanned : List Name
  reported : List Name
  before : List Name

/-- The table is a static variable, so it is zeroed. -/
def Startup.start : Startup := ⟨fileTableInit, none, [], [], []⟩

inductive StartupEvent where
  /-- `file_table_init` -/
  | init
  /-- `file_entry_add` of the next entry that `get_file_table` finds -/
  | scan
  /-- `file_table_add` for an event of the file monitor -/
  | fileAdd (te : TransFileEntry)
  deriving DecidableEq

/-- `sync_files`, for the entries that its scan finds, and the file monitor. -/
def startup (found : List FileEntry) : System Startup StartupEvent where
  step s
    | .init =>
      match s.todo with
      | none => some ⟨fileTableInit, some found, [], [], s.reported⟩
      | some _ => none
    | .scan =>
      match s.todo with
      | some (fe :: rest) =>
        some { s with ft := fileEntryAdd s.ft fe, todo := some rest, scanned := fe.name :: s.scanned }
      | _ => none
    | .fileAdd te => some { s with ft := (fileTableAdd s.ft te).1, reported := te.name :: s.reported }

theorem startup_cases {found : List FileEntry} {s s' : Startup} {e : StartupEvent}
    (h : (startup found).step s e = some s') :
    (e = .init ∧ s.todo = none ∧ s' = ⟨fileTableInit, some found, [], [], s.reported⟩) ∨
    (∃ fe rest, e = .scan ∧ s.todo = some (fe :: rest) ∧
      s' = { s with ft := fileEntryAdd s.ft fe, todo := some rest, scanned := fe.name :: s.scanned }) ∨
    ∃ te, e = .fileAdd te ∧ s' = { s with ft := (fileTableAdd s.ft te).1, reported := te.name :: s.reported } := by
  unfold startup at h
  cases e with
  | init =>
    dsimp only at h
    split at h
    · next htodo => exact Or.inl ⟨rfl, htodo, (Option.some.inj h).symm⟩
    · cases h
  | scan =>
    dsimp only at h
    split at h
    · next fe rest htodo => exact Or.inr (Or.inl ⟨fe, rest, rfl, htodo, (Option.some.inj h).symm⟩)
    · cases h
  | fileAdd te => exact Or.inr (Or.inr ⟨te, rfl, (Option.some.inj h).symm⟩)

/-! ## Entries of a name -/

/-- How many entries have the name. -/
def entryCount (ft : FileTable) (name : Name) : ℕ := (ft.entries.map FileEntry.name).count name

/-- Entries hang where the search looks for them. -/
def FileTable.Placed (ft : FileTable) : Prop := scheme.Placed ft.fileHtable

section Counting
variable {ft : FileTable}

theorem entryCount_init (name : Name) : entryCount fileTableInit name = 0 := by
  rw [entryCount, entries_init]
  rfl

theorem placed_init : fileTableInit.Placed := fun _ _ h => absurd h List.not_mem_nil

theorem placed_entryAdd (h : ft.Placed) (fe : FileEntry) : (fileEntryAdd ft fe).Placed := by
  unfold FileTable.Placed fileEntryAdd
  rw [addBucket_eq_searchBucket]
  exact Scheme.Placed.addHead h fe

theorem entryCount_entryAdd (ft : FileTable) (fe : FileEntry) (name : Name) :
    entryCount (fileEntryAdd ft fe) name = entryCount ft name + if fe.name = name then 1 else 0 := by
  have hperm : (fileEntryAdd ft fe).entries.Perm (fe :: ft.entries) := Scheme.toList_addHead_perm _ _ _
  rw [entryCount, (hperm.map FileEntry.name).count_eq, List.map_cons, List.count_cons, entryCount]
  simp only [beq_iff_eq]

theorem entryCount_modify (ft : FileTable) (name : Name) {f : FileEntry → FileEntry} (hf : ∀ fe, (f fe).name = fe.name)
    (name' : Name) : entryCount (ft.modify name f) name' = entryCount ft name' :=
  congrArg (List.count name') (Scheme.map_key_toList_modify (S := scheme) hf ft.fileHtable name)

theorem search_eq_none_iff (h : ft.Placed) (name : Name) : fileTableSearch ft name = none ↔ entryCount ft name = 0 := by
  rw [entryCount, List.count_eq_zero]
  exact Scheme.Placed.search_eq_none h name

theorem placed_tableAdd (h : ft.Placed) (te : TransFileEntry) : (fileTableAdd ft te).1.Placed := by
  unfold fileTableAdd
  split
  · exact placed_entryAdd h _
  · exact Scheme.Placed.modify h (fun fe => fileEntryUpdate_name fe te) te.name

theorem entryCount_tableAdd (h : ft.Placed) (te : TransFileEntry) (name : Name) :
    entryCount (fileTableAdd ft te).1 name =
      if te.name = name then max (entryCount ft name) 1 else entryCount ft name := by
  unfold fileTableAdd
  split
  · next hs =>
    have hzero := (search_eq_none_iff h te.name).mp hs
    rw [entryCount_entryAdd]
    show entryCount ft name + (if te.name = name then 1 else 0) = _
    split_ifs with hname
    · rw [← hname, hzero]
      rfl
    · rfl
  · next fe hs =>
    have hpos : entryCount ft te.name ≠ 0 := by
      intro hzero
      rw [(search_eq_none_iff h te.name).mpr hzero] at hs
      cases hs
    rw [entryCount_modify _ _ (fun fe => fileEntryUpdate_name fe te)]
    split_ifs with hname
    · rw [hname] at hpos
      omega
    · rfl

end Counting

/-! ## Runs -/

/-- One entry for each name that was scanned or reported, and none for any other. -/
def OneEntryEach (found : List FileEntry) (s : Startup) : Prop :=
  ∀ name, entryCount s.ft name =
    if name ∈ found.map FileEntry.name ∨ name ∈ s.before ∨ name ∈ s.reported then 1 else 0

/-- A file that is scanned has not been reported since `file_table_init`. -/
def ScannedFirst (s : Startup) (e : StartupEvent) : Prop :=
  e = .scan → ∀ fe ∈ (s.todo.getD []).head?, fe.name ∉ s.reported

instance (s : Startup) (e : StartupEvent) : Decidable (ScannedFirst s e) := inferInstanceAs (Decidable (_ → _))

/-- No name has two entries. -/
def NoneTwice (s : Startup) : Prop := ∀ name, entryCount s.ft name ≤ 1

/-- What holds in all runs: there are entries for the names that were scanned or reported since `file_table_init`, and
before it none twice. -/
structure Accounted (found : List FileEntry) (s : Startup) : Prop where
  placed : s.ft.Placed
  counted : ∀ name, entryCount s.ft name ≠ 0 ↔ name ∈ s.scanned ∨ name ∈ s.reported
  idle : s.todo = none → s.scanned = [] ∧ s.before = [] ∧ NoneTwice s
  nodup : ∀ todo, s.todo = some todo → (s.scanned ++ todo.map FileEntry.name).Nodup
  all : ∀ todo, s.todo = some todo → ∀ name,
    name ∈ s.scanned ++ todo.map FileEntry.name ↔ name ∈ found.map FileEntry.name

section Runs
variable {found : List FileEntry}

theorem accounted_start : Accounted found Startup.start where
  placed := placed_init
  counted name := by
    show entryCount fileTableInit name ≠ 0 ↔ name ∈ [] ∨ name ∈ []
    simp [entryCount_init]
  idle _ := ⟨rfl, rfl, fun name => (entryCount_init name).le.trans zero_le_one⟩
  nodup todo h := by cases h
  all todo h := by cases h

theorem accounted_init (hnd : (found.map FileEntry.name).Nodup) (reported : List Name) :
    Accounted found ⟨fileTableInit, some found, [], [], reported⟩ where
  placed := placed_init
  counted name := by
    show entryCount fileTableInit name ≠ 0 ↔ name ∈ [] ∨ name ∈ []
    simp [entryCount_init]
  idle h := by cases h
  nodup todo h := by
    cases h
    exact hnd
  all todo h name := by
    cases h
    exact Iff.rfl

theorem accounted_scan {s : Startup} (h : Accounted found s) {fe : FileEntry} {rest : List FileEntry}
    (htodo : s.todo = some (fe :: rest)) :
    Accounted found { s with ft := fileEntryAdd s.ft fe, todo := some rest, scanned := fe.name :: s.scanned } := by
  have hperm : (fe.name :: s.scanned ++ rest.map FileEntry.name).Perm
      (s.scanned ++ (fe :: rest).map FileEntry.name) := List.perm_middle.symm
  refine ⟨placed_entryAdd h.placed fe, fun name => ?_, fun hnone => ?_, fun todo hrest => ?_, fun todo hrest name => ?_⟩
  · show entryCount (fileEntryAdd s.ft fe) name ≠ 0 ↔ name ∈ fe.name :: s.scanned ∨ name ∈ s.reported
    rw [entryCount_entryAdd, List.mem_cons, or_assoc, ← h.counted name]
    split_ifs with hname
    · simp [hname]
    · simp [Ne.symm hname]
  · cases hnone
  · cases hrest
    exact hperm.nodup_iff.mpr (h.nodup _ htodo)
  · cases hrest
    rw [← h.all _ htodo name]
    exact hperm.mem_iff

theorem noneTwice_fileAdd {s : Startup} (h : Accounted found s) (te : TransFileEntry) :
    NoneTwice { s with ft := (fileTableAdd s.ft te).1, reported := te.name :: s.reported } ↔ NoneTwice s := by
  refine forall_congr' fun name => ?_
  show entryCount (fileTableAdd s.ft te).1 name ≤ 1 ↔ entryCount s.ft name ≤ 1
  rw [entryCount_tableAdd h.placed]
  split_ifs
  · omega
  · exact Iff.rfl

theorem accounted_fileAdd {s : Startup} (h : Accounted found s) (te : TransFileEntry) :
    Accounted found { s with ft := (fileTableAdd s.ft te).1, reported := te.name :: s.reported } := by
  refine ⟨placed_tableAdd h.placed te, fun name => ?_, fun hnone => ?_, h.nodup, h.all⟩
  · show entryCount (fileTableAdd s.ft te).1 name ≠ 0 ↔ name ∈ s.scanned ∨ name ∈ te.name :: s.reported
    rw [entryCount_tableAdd h.placed, List.mem_cons, or_left_comm, ← h.counted name]
    split_ifs with hname
    · simp [hname]
    · simp [Ne.symm hname]
  · obtain ⟨hscanned, hbefore, htwice⟩ := h.idle hnone
    exact ⟨hscanned, hbefore, (noneTwice_fileAdd h te).mpr htwice⟩

theorem accounted_step (hnd : (found.map FileEntry.name).Nodup) {s s' : Startup} {e : StartupEvent}
    (h : Accounted found s) (hs : (startup found).step s e = some s') : Accounted found s' := by
  obtain ⟨-, -, rfl⟩ | ⟨fe, rest, -, htodo, rfl⟩ | ⟨te, -, rfl⟩ := startup_cases hs
  · exact accounted_init hnd s.reported
  · exact accounted_scan h htodo
  · exact accounted_fileAdd h te

/-- A scanned entry is the only one of its name exactly if the name was not reported. -/
theorem noneTwice_scan {s : Startup} (h : Accounted found s) {fe : FileEntry} {rest : List FileEntry}
    (htodo : s.todo = some (fe :: rest)) :
    NoneTwice { s with ft := fileEntryAdd s.ft fe, todo := some rest, scanned := fe.name :: s.scanned } ↔
      NoneTwice s ∧ fe.name ∉ s.reported := by
  have hcount := entryCount_entryAdd s.ft fe
  have hnew : fe.name ∉ s.scanned := by
    have hnodup := h.nodup _ htodo
    rw [List.nodup_append] at hnodup
    exact fun hmem => hnodup.2.2 fe.name hmem fe.name List.mem_cons_self rfl
  constructor
  · intro htwice
    refine ⟨fun name => ?_, fun hmem => ?_⟩
    · have hle : entryCount (fileEntryAdd s.ft fe) name ≤ 1 := htwice name
      rw [hcount] at hle
      omega
    · have hle : entryCount (fileEntryAdd s.ft fe) fe.name ≤ 1 := htwice fe.name
      have hpos := (h.counted fe.name).mpr (Or.inr hmem)
      rw [hcount, if_pos rfl] at hle
      omega
  · rintro ⟨htwice, hmem⟩ name
    show entryCount (fileEntryAdd s.ft fe) name ≤ 1
    rw [hcount]
    split_ifs with hname
    · have hzero : entryCount s.ft name = 0 := by
        by_contra hpos
        rcases (h.counted name).mp hpos with hscanned | hreported
        · exact hnew (hname ▸ hscanned)
        · exact hmem (hname ▸ hreported)
      omega
    · exact htwice name

theorem noneTwice_step_iff {s s' : Startup} {e : StartupEvent} (h : Accounted found s)
    (hs : (startup found).step s e = some s') : NoneTwice s' ↔ NoneTwice s ∧ ScannedFirst s e := by
  obtain ⟨rfl, htodo, rfl⟩ | ⟨fe, rest, rfl, htodo, rfl⟩ | ⟨te, rfl, rfl⟩ := startup_cases hs
  · refine iff_of_true (fun name => (entryCount_init name).le.trans zero_le_one) ⟨(h.idle htodo).2.2, ?_⟩
    rintro ⟨⟩
  · have hfirst : ScannedFirst s .scan ↔ fe.name ∉ s.reported := by
      unfold ScannedFirst
      simp [htodo]
    rw [hfirst]
    exact noneTwice_scan h htodo
  · have hfirst : ScannedFirst s (.fileAdd te) := by
      rintro ⟨⟩
    rw [noneTwice_fileAdd h, and_iff_left hfirst]

/-- Once all is scanned: which names have one entry. -/
theorem oneEntryEach_iff {s : Startup} (h : Accounted found s) (hdone : s.todo = some []) :
    OneEntryEach found s ↔
      NoneTwice s ∧ ∀ name ∈ s.before, name ∈ found.map FileEntry.name ∨ name ∈ s.reported := by
  have hall : ∀ name, name ∈ s.scanned ↔ name ∈ found.map FileEntry.name := by
    intro name
    rw [← h.all [] hdone name, List.map_nil, List.append_nil]
  have hcounted : ∀ name, entryCount s.ft name ≠ 0 ↔ name ∈ found.map FileEntry.name ∨ name ∈ s.reported := by
    intro name
    rw [h.counted name, hall name]
  constructor
  · intro hone
    refine ⟨fun name => ?_, fun name hname => ?_⟩
    · rw [hone name]
      split_ifs <;> omega
    · rw [← hcounted name, hone name, if_pos (Or.inr (Or.inl hname))]
      exact one_ne_zero
  · rintro ⟨htwice, hbefore⟩ name
    have hle := htwice name
    split_ifs with hmem
    · have hpos : entryCount s.ft name ≠ 0 := by
        rw [hcounted]
        rcases hmem with hfound | hbef | hrep
        · exact Or.inl hfound
        · exact hbefore name hbef
        · exact Or.inr hrep
      omega
    · by_contra hpos
      rcases (hcounted name).mp hpos with hfound | hrep
      · exact hmem (Or.inl hfound)
      · exact hmem (Or.inr (Or.inr hrep))

end Runs

/-- **One entry per name from start-up on.** For all directory contents and all interleavings, the table has after the
scan one entry for each file that was scanned or reported and no other, if and only if no file is scanned that was
reported since `file_table_init`, and every file that was reported before it is scanned or reported again. -/
theorem one_entry_per_name_iff (myIp : UInt32) (shared : SharedDirs) (r : ScanResult)
    (hscan : getFileTable myIp shared.dirs = some r) (es : List StartupEvent) (s : Startup)
    (hrun : (startup r.found).run Startup.start es = some s) (hdone : s.todo = some []) :
    OneEntryEach r.found s ↔
      (startup r.found).RunMeets ScannedFirst Startup.start es ∧
        ∀ name ∈ s.before, name ∈ r.found.map FileEntry.name ∨ name ∈ s.reported := by
  have hnd := getFileTable_nodup myIp shared hscan
  have hacc : Accounted r.found s :=
    System.run_invariant (fun _ _ _ h hs => accounted_step hnd h hs) accounted_start hrun
  have htwice : NoneTwice s ↔ NoneTwice Startup.start ∧ (startup r.found).RunMeets ScannedFirst Startup.start es :=
    System.run_iff_runMeets (fun _ _ _ h hs => accounted_step hnd h hs) (fun _ _ _ h hs => noneTwice_step_iff h hs)
      accounted_start hrun
  have hstart : NoneTwice Startup.start := fun name => (entryCount_init name).le.trans zero_le_one
  rw [oneEntryEach_iff hacc hdone, htwice, and_iff_right hstart]

/-- The directory `/a` with a file `x`. -/
def oneFile : SharedDirs where
  dirs := [([47, 97], .readable (.file [120] (some 5) .nil))]
  proper := by
    rw [List.forall_mem_singleton]
    exact ⟨by decide, List.not_mem_nil, trivial⟩

/-- `FILE_ADD` of `1/x`. -/
def addX : TransFileEntry := ⟨⟨[49, 47, 120], by decide, by decide⟩, 5, .fileAdd, .regular, [⟨7, P2P_PORT⟩]⟩

/-- `FILE_ADD` of `1/y`. -/
def addY : TransFileEntry := ⟨⟨[49, 47, 121], by decide, by decide⟩, 6, .fileAdd, .regular, [⟨7, P2P_PORT⟩]⟩

theorem getFileTable_oneFile :
    getFileTable 7 oneFile.dirs = some ⟨[scannedEntry 7 addX.name (some 5) .regular], 0⟩ := rfl

/-- `x` is reported before `file_table_init` and again after it was scanned, and `y` is created meanwhile. -/
theorem one_entry_per_name_two_files :
    let found := [scannedEntry 7 addX.name (some 5) .regular]
    let es : List StartupEvent := [.fileAdd addX, .init, .fileAdd addY, .scan, .fileAdd addX]
    ∃ s, (startup found).run Startup.start es = some s ∧ s.todo = some [] ∧ OneEntryEach found s := by
  intro found es
  have hmeets : (startup found).RunMeets ScannedFirst Startup.start es := by decide
  have heval : ((startup found).run Startup.start es).map (fun s => (s.todo, s.before, s.reported)) =
      some (some [], [addX.name], [addX.name, addY.name]) := by decide
  obtain ⟨s, hrun, hs⟩ := Option.map_eq_some_iff.mp heval
  simp only [Prod.mk.injEq] at hs
  obtain ⟨htodo, hbefore, hreported⟩ := hs
  refine ⟨s, hrun, htodo, ?_⟩
  refine (one_entry_per_name_iff 7 oneFile ⟨found, 0⟩ getFileTable_oneFile es s hrun htodo).mpr ⟨hmeets, ?_⟩
  rw [hbefore, hreported]
  decide

/-- `x` is reported between `file_table_init` and its scan, and has two entries then. A file reported before
`file_table_init`, and gone before it is scanned, has none. -/
theorem reported_before_scan :
    let found := [scannedEntry 7 addX.name (some 5) .regular]
    getFileTable 7 oneFile.dirs = some ⟨found, 0⟩ ∧
    (∃ s, (startup found).run Startup.start [.init, .fileAdd addX, .scan] = some s ∧ s.todo = some [] ∧
      entryCount s.ft addX.name = 2 ∧ ¬ OneEntryEach found s) ∧
    ∃ s, (startup found).run Startup.start [.fileAdd addY, .init, .scan] = some s ∧ s.todo = some [] ∧
      entryCount s.ft addY.name = 0 ∧ ¬ OneEntryEach found s := by
  intro found
  refine ⟨getFileTable_oneFile, ⟨_, rfl, rfl, ?_⟩, ⟨_, rfl, rfl, ?_⟩⟩
  · have htwo : entryCount (fileEntryAdd (fileTableAdd fileTableInit addX).1
        (scannedEntry 7 addX.name (some 5) .regular)) addX.name = 2 := by
      rw [entryCount_entryAdd, entryCount_tableAdd placed_init, entryCount_init]
      rfl
    refine ⟨htwo, fun h => ?_⟩
    have hone := h addX.name
    rw [if_pos (Or.inl (by decide))] at hone
    exact absurd (htwo.symm.trans hone) (by decide)
  · have hnone : entryCount (fileEntryAdd fileTableInit
        (scannedEntry 7 addX.name (some 5) .regular)) addY.name = 0 := by
      rw [entryCount_entryAdd, entryCount_init]
      decide
    refine ⟨hnone, fun h => ?_⟩
    have hone := h addY.name
    rw [if_pos (Or.inr (Or.inl (by decide)))] at hone
    exact absurd (hnone.symm.trans hone) (by decide)

end TeleSync
