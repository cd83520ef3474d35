import TeleSync.Client.Tree
import TeleSync.Table.Counter

/-!
# The scan and the watches

At start-up `get_file_table` and `watch_target_add_dir` walk through the same directories, one for files and
directories, the other for directories alone; later `get_sys_name` maps the names of the first to those of the second.

* `Watched wd l m` : the table after the directories `l` were added to an empty one;
* `watchTargetAddDir_nodes`, `watchTargets_nodes` : the watches add the directories among the nodes;
* `watchTargets_overflow` : they end outside an array where the path of a `.` or `..` does not fit;
* `WatchableTrees` : the configured directories, as trees, and the descriptors that inotify gives;
* `ScanWatchAgree` : the entries, the targets, and the paths of the entries; `scan_watch_agree_iff` : for which trees.
-/

namespace TeleSync
open Program ChainTable

/-! ## The watches -/

/-- The table after the directories `l` (system and logical names) were added to an empty one. -/
structure Watched (wd : CString → ℤ) (l : List (CString × CString)) (m : MonitorTable) : Prop where
  objs : ∀ k, m.objs k = l[k]?.map fun n => ⟨wd n.1, n.1, n.2⟩
  head : m.head = List.range l.length
  allocated : m.allocated = l.length
  targets : ∀ w k, m.targets w = some k ↔ ∃ n, l[k]? = some n ∧ wd n.1 = w

/-- `inotify_add_watch` gives the descriptor `wd path`, which the array has room for, and `calloc` succeeds. -/
structure Answers (K : Kernel) (wd : CString → ℤ) (path : CString) : Prop where
  watch : ∀ m, K.inotifyAddWatch m path .defaultWatch = wd path
  range : 0 ≤ wd path ∧ wd path < WD_HASH_SIZE
  alloc : ∀ m, K.calloc m = true

section Watched
variable {K : Kernel} {wd : CString → ℤ} {l : List (CString × CString)} {m : MonitorTable}

theorem Watched.empty : Watched wd [] MonitorTable.empty where
  objs k := rfl
  head := rfl
  allocated := rfl
  targets w k := by
    refine iff_of_false ?_ ?_
    · rintro ⟨⟩
    · rintro ⟨n, hn, -⟩
      cases hn

theorem Watched.log (h : Watched wd l m) (c : Call) : Watched wd l (m.log c) := ⟨h.objs, h.head, h.allocated, h.targets⟩

theorem getElem?_concat {α : Type*} (l : List α) (a : α) (k : ℕ) :
    (l ++ [a])[k]? = if k = l.length then some a else l[k]? := by
  split_ifs with hk
  · rw [hk, List.getElem?_concat_length]
  · rcases Nat.lt_or_gt_of_ne hk with hk | hk
    · rw [List.getElem?_append_left hk]
    · rw [List.getElem?_eq_none (by simp; omega), List.getElem?_eq_none (by omega)]

theorem Watched.insert (h : Watched wd l m) {s lg : CString} (hnew : wd s ∉ l.map fun n => wd n.1) :
    Watched wd (l ++ [(s, lg)]) (m.insert ⟨wd s, s, lg⟩) where
  objs k := by
    rw [MonitorTable.objs_insert, Function.update_apply, h.allocated, h.objs, getElem?_concat]
    split_ifs
    · rfl
    · rfl
  head := by
    show m.head ++ [m.allocated] = _
    rw [h.head, h.allocated, List.length_append, List.length_singleton, List.range_succ]
  allocated := by
    show m.allocated + 1 = _
    rw [h.allocated, List.length_append, List.length_singleton]
  targets w k := by
    show Function.update m.targets (wd s) (some m.allocated) w = some k ↔ _
    rw [Function.update_apply, h.allocated, getElem?_concat]
    have hlast : l[l.length]? = none := List.getElem?_eq_none le_rfl
    split_ifs with hw hk hk
    · exact iff_of_true (congrArg some hk.symm) ⟨(s, lg), rfl, hw.symm⟩
    · refine iff_of_false (fun heq => hk (Option.some.inj heq).symm) ?_
      rintro ⟨n, hn, hwd⟩
      exact hnew (List.mem_map.mpr ⟨n, List.mem_of_getElem? hn, hwd.trans hw⟩)
    · rw [h.targets, hk, hlast]
      refine iff_of_false ?_ ?_
      · rintro ⟨n, hn, -⟩
        cases hn
      · rintro ⟨n, hn, hwd⟩
        cases hn
        exact hw hwd.symm
    · exact h.targets w k

theorem Watched.add (h : Watched wd l m) {s lg : CString} (hK : Answers K wd s) (hs : NameFits s) (hlg : NameFits lg)
    (hnew : wd s ∉ l.map fun n => wd n.1) :
    ∃ m', watchTargetAdd K s lg m = (some (some l.length), m') ∧ Watched wd (l ++ [(s, lg)]) m' := by
  refine ⟨((m.log (.inotifyAddWatch s .defaultWatch)).log .calloc).insert ⟨wd s, s, lg⟩, ?_,
    ((h.log _).log _).insert hnew⟩
  have hfree : m.targets (wd s) = none := by
    cases hused : m.targets (wd s) with
    | none => rfl
    | some k =>
      obtain ⟨n, hn, hwd⟩ := (h.targets _ k).mp hused
      exact absurd (List.mem_map.mpr ⟨n, List.mem_of_getElem? hn, hwd⟩) hnew
  rw [watchTargetAdd_fresh hs hlg (hK.watch m) hK.range hfree (hK.alloc _), h.allocated]

/-- The system and logical names of the directories among the nodes. -/
def dirNames (sysName logicName : CString) (nodes : List Node) : List (CString × CString) :=
  (nodes.filter fun n => n.type = .directory).map fun n =>
    (PathName.extend SLASH sysName n.path, PathName.extend SLASH logicName n.path)

theorem dirNames_below (sysName logicName dName : CString) (nodes : List Node) :
    dirNames sysName logicName (nodes.map (Node.below dName)) =
      dirNames (sysName ++ SLASH :: dName) (logicName ++ SLASH :: dName) nodes := by
  unfold dirNames
  rw [List.filter_map, List.map_map]
  refine List.map_congr_left fun n _ => ?_
  simp [Node.below, PathName.extend_cons]

theorem dirNames_append (sysName logicName : CString) (nodes nodes' : List Node) :
    dirNames sysName logicName (nodes ++ nodes') =
      dirNames sysName logicName nodes ++ dirNames sysName logicName nodes' := by
  simp [dirNames]

theorem dirNames_file (sysName logicName dName : CString) (mtime : Option ℕ) (rest : List Node) :
    dirNames sysName logicName (⟨[dName], mtime, .regular⟩ :: rest) = dirNames sysName logicName rest := by
  simp [dirNames]

theorem dirNames_dir (sysName logicName dName : CString) (mtime : Option ℕ) (rest : List Node) :
    dirNames sysName logicName (⟨[dName], mtime, .directory⟩ :: rest) =
      (sysName ++ SLASH :: dName, logicName ++ SLASH :: dName) :: dirNames sysName logicName rest := by
  simp [dirNames, PathName.extend_singleton]

/-- The names may be added to a table: the descriptors are new, and different from each other. -/
structure Addable (K : Kernel) (wd : CString → ℤ) (l names : List (CString × CString)) : Prop where
  answers : ∀ n ∈ names, Answers K wd n.1
  nodup : ((l ++ names).map fun n => wd n.1).Nodup

theorem Addable.first {n : CString × CString} {names : List (CString × CString)}
    (h : Addable K wd l (n :: names)) : wd n.1 ∉ l.map fun n => wd n.1 := by
  have hnodup := h.nodup
  rw [List.map_append, List.nodup_append] at hnodup
  intro hmem
  exact hnodup.2.2 _ hmem _ (List.mem_map_of_mem List.mem_cons_self) rfl

theorem Addable.append {names names' : List (CString × CString)} (h : Addable K wd l (names ++ names')) :
    Addable K wd l names ∧ Addable K wd (l ++ names) names' := by
  have hnodup := h.nodup
  rw [← List.append_assoc] at hnodup
  refine ⟨⟨fun n hn => h.answers n (List.mem_append_left _ hn), ?_⟩,
    ⟨fun n hn => h.answers n (List.mem_append_right _ hn), hnodup⟩⟩
  rw [List.map_append] at hnodup
  exact (List.nodup_append.mp hnodup).1

mutual
theorem watchTargetAddDir_nodes {dir localDir : CString} (hdir : NameFits dir) (hlocal : NameFits localDir) :
    ∀ (d : ScanDir) {l : List (CString × CString)} {m : MonitorTable}, d.Sound dir localDir → d.DotsFit dir localDir →
      Watched wd l m → Addable K wd l ((dir, localDir) :: dirNames dir localDir d.nodes) →
      ∃ m', watchTargetAddDir K dir localDir d.toDirectory m = (some 0, m') ∧
        Watched wd (l ++ (dir, localDir) :: dirNames dir localDir d.nodes) m'
  | .unreadable, _, _, hd, _, _, _ => hd.elim
  | .readable entries, l, m, hd, hdotsFit, hm, hadd => by
    obtain ⟨m₁, hm₁, hwatched⟩ := hm.add (hadd.answers _ List.mem_cons_self) hdir hlocal hadd.first
    have hparts : Addable K wd l ([(dir, localDir)] ++ dirNames dir localDir entries.nodes) := hadd
    obtain ⟨m', hm', hwatched'⟩ := watchEntries_nodes entries hd hdotsFit hwatched hparts.append.2
    refine ⟨m', ?_, ?_⟩
    · rw [ScanDir.toDirectory, watchTargetAddDir, Prog.bind_of_some hm₁]
      exact hm'
    · rwa [List.append_assoc] at hwatched'
theorem watchEntries_nodes {dir localDir : CString} : ∀ (entries : ScanEntries) {l : List (CString × CString)}
    {m : MonitorTable}, entries.Sound dir localDir → entries.DotsFit dir localDir → Watched wd l m →
      Addable K wd l (dirNames dir localDir entries.nodes) →
      ∃ m', watchEntries K dir localDir 0 entries.toDirEntries m = (some 0, m') ∧
        Watched wd (l ++ dirNames dir localDir entries.nodes) m'
  | .nil, l, m, _, _, hm, _ => by
    refine ⟨m, ?_, ?_⟩
    · rw [ScanEntries.toDirEntries, watchEntries]
      rfl
    · rw [ScanEntries.nodes]
      show Watched wd (l ++ []) m
      rwa [List.append_nil]
  | .file dName mtime rest, l, m, h, hdotsFit, hm, hadd => by
    obtain ⟨-, ⟨hdots, -⟩, hrest⟩ := h
    rw [ScanEntries.nodes, if_neg hdots, dirNames_file] at hadd ⊢
    rw [ScanEntries.toDirEntries, watchEntries]
    exact watchEntries_nodes rest hrest hdotsFit hm hadd
  | .dir dName mtime sub rest, l, m, h, ⟨hself, hbelow, hdotsFit⟩, hm, hadd => by
    obtain ⟨hsub, hrest⟩ := h
    have hboth : NameFits (dir ++ SLASH :: dName) ∧ NameFits (localDir ++ SLASH :: dName) := by
      by_cases hdots : IsDots dName
      · exact hself hdots
      · exact (hsub hdots).1.2
    have hfits : (Prog.assert (NameFits (dir ++ SLASH :: dName) ∧ NameFits (localDir ++ SLASH :: dName)) :
        Monitor Unit) m = (some (), m) := Prog.assert_of_pos hboth m
    rw [ScanEntries.nodes] at hadd ⊢
    rw [ScanEntries.toDirEntries, watchEntries, Prog.bind_of_some hfits]
    by_cases hdots : IsDots dName
    · have hdots' : dName = DOT ∨ dName = DOT_DOT := hdots
      rw [if_pos hdots] at hadd ⊢
      rw [if_pos hdots']
      exact watchEntries_nodes rest hrest hdotsFit hm hadd
    · have hdots' : ¬ (dName = DOT ∨ dName = DOT_DOT) := hdots
      obtain ⟨-, -, hsub⟩ := hsub hdots
      rw [if_neg hdots, dirNames_dir, dirNames_append, dirNames_below, ← List.cons_append] at hadd ⊢
      rw [if_neg hdots']
      obtain ⟨m₁, hm₁, hwatched⟩ := watchTargetAddDir_nodes hboth.1 hboth.2 sub hsub (hbelow hdots) hm
        hadd.append.1
      obtain ⟨m', hm', hwatched'⟩ := watchEntries_nodes rest hrest hdotsFit hwatched hadd.append.2
      refine ⟨m', ?_, ?_⟩
      · rw [Prog.bind_of_some hm₁]
        exact hm'
      · rwa [List.append_assoc] at hwatched'
end

mutual
/-- Where the path of a `.` or `..` does not fit, the walk goes beyond the array. -/
theorem watchTargetAddDir_overflow {dir localDir : CString} (hdir : NameFits dir) (hlocal : NameFits localDir) :
    ∀ (d : ScanDir) {l : List (CString × CString)} {m : MonitorTable}, d.Sound dir localDir →
      ¬ d.DotsFit dir localDir → Watched wd l m → Addable K wd l ((dir, localDir) :: dirNames dir localDir d.nodes) →
      (watchTargetAddDir K dir localDir d.toDirectory m).1 = none
  | .unreadable, _, _, hd, _, _, _ => hd.elim
  | .readable entries, l, m, hd, hover, hm, hadd => by
    obtain ⟨m₁, hm₁, hwatched⟩ := hm.add (hadd.answers _ List.mem_cons_self) hdir hlocal hadd.first
    have hparts : Addable K wd l ([(dir, localDir)] ++ dirNames dir localDir entries.nodes) := hadd
    rw [ScanDir.toDirectory, watchTargetAddDir, Prog.bind_of_some hm₁]
    exact watchEntries_overflow entries hd hover hwatched hparts.append.2
theorem watchEntries_overflow {dir localDir : CString} : ∀ (entries : ScanEntries) {l : List (CString × CString)}
    {m : MonitorTable}, entries.Sound dir localDir → ¬ entries.DotsFit dir localDir → Watched wd l m →
      Addable K wd l (dirNames dir localDir entries.nodes) →
      (watchEntries K dir localDir 0 entries.toDirEntries m).1 = none
  | .nil, _, _, _, hover, _, _ => absurd trivial hover
  | .file dName mtime rest, l, m, h, hover, hm, hadd => by
    obtain ⟨-, ⟨hdots, -⟩, hrest⟩ := h
    rw [ScanEntries.nodes, if_neg hdots, dirNames_file] at hadd
    rw [ScanEntries.toDirEntries, watchEntries]
    exact watchEntries_overflow rest hrest hover hm hadd
  | .dir dName mtime sub rest, l, m, h, hover, hm, hadd => by
    obtain ⟨hsub, hrest⟩ := h
    rw [ScanEntries.nodes] at hadd
    rw [ScanEntries.toDirEntries, watchEntries]
    by_cases hboth : NameFits (dir ++ SLASH :: dName) ∧ NameFits (localDir ++ SLASH :: dName)
    · rw [Prog.bind_of_some (Prog.assert_of_pos hboth m)]
      by_cases hdots : IsDots dName
      · have hdots' : dName = DOT ∨ dName = DOT_DOT := hdots
        have hafter : ¬ rest.DotsFit dir localDir := fun hrest => hover ⟨fun _ => hboth, fun h => absurd hdots h, hrest⟩
        rw [if_pos hdots] at hadd
        rw [if_pos hdots']
        exact watchEntries_overflow rest hrest hafter hm hadd
      · have hdots' : ¬ (dName = DOT ∨ dName = DOT_DOT) := hdots
        obtain ⟨-, -, hsub⟩ := hsub hdots
        rw [if_neg hdots, dirNames_dir, dirNames_append, dirNames_below, ← List.cons_append] at hadd
        rw [if_neg hdots']
        by_cases hbelow : sub.DotsFit (dir ++ SLASH :: dName) (localDir ++ SLASH :: dName)
        · have hafter : ¬ rest.DotsFit dir localDir :=
            fun hrest => hover ⟨fun h => absurd h hdots, fun _ => hbelow, hrest⟩
          obtain ⟨m₁, hm₁, hwatched⟩ := watchTargetAddDir_nodes hboth.1 hboth.2 sub hsub hbelow hm hadd.append.1
          rw [Prog.bind_of_some hm₁]
          exact watchEntries_overflow rest hrest hafter hwatched hadd.append.2
        · exact Prog.fst_bind_of_none (watchTargetAddDir_overflow hboth.1 hboth.2 sub hsub hbelow hm hadd.append.1) _
    · rw [Prog.bind_of_none (Prog.assert_of_neg hboth m)]
end

/-- The names of all directories, from the `i`-th configured one on. -/
def allDirNames (i : ℕ) (dirs : List (CString × ScanDir)) : List (CString × CString) :=
  (dirs.zipIdx i).flatMap fun x => (x.1.1, decimal (x.2 + 1)) :: dirNames x.1.1 (decimal (x.2 + 1)) x.1.2.nodes

theorem allDirNames_cons (i : ℕ) (dir : CString) (d : ScanDir) (dirs : List (CString × ScanDir)) :
    allDirNames i ((dir, d) :: dirs) =
      ((dir, decimal (i + 1)) :: dirNames dir (decimal (i + 1)) d.nodes) ++ allDirNames (i + 1) dirs := by
  rw [allDirNames, List.zipIdx_cons, List.flatMap_cons]
  rfl

theorem watchTargets_nodes (dirs : List (CString × ScanDir)) (i : ℕ) (ret : ℤ)
    (hdirs : ∀ x ∈ dirs.zipIdx i, (NameFits x.1.1 ∧ NameFits (decimal (x.2 + 1))) ∧
      x.1.2.Sound x.1.1 (decimal (x.2 + 1)))
    (hdots : ∀ x ∈ dirs.zipIdx i, x.1.2.DotsFit x.1.1 (decimal (x.2 + 1))) (hm : Watched wd l m)
    (hadd : Addable K wd l (allDirNames i dirs)) :
    ∃ ret' m', watchTargets K i ret (dirs.map fun d => (d.1, d.2.toDirectory)) m = (some ret', m') ∧
      Watched wd (l ++ allDirNames i dirs) m' := by
  induction dirs generalizing i ret l m with
  | nil =>
    refine ⟨ret, m, rfl, ?_⟩
    show Watched wd (l ++ []) m
    rwa [List.append_nil]
  | cons x dirs ih =>
    obtain ⟨dir, d⟩ := x
    rw [List.zipIdx_cons, List.forall_mem_cons] at hdirs hdots
    obtain ⟨⟨⟨hdir, hlocal⟩, hd⟩, hdirs⟩ := hdirs
    rw [allDirNames_cons] at hadd ⊢
    obtain ⟨m₁, hm₁, hwatched⟩ := watchTargetAddDir_nodes hdir hlocal d hd hdots.1 hm hadd.append.1
    obtain ⟨ret', m', hm', hwatched'⟩ :=
      ih (i + 1) (if (0 : ℤ) ≠ 0 ∧ ret ≠ 0 then 1 else 0) hdirs hdots.2 hwatched hadd.append.2
    refine ⟨ret', m', ?_, ?_⟩
    · rw [List.map_cons, watchTargets, Prog.bind_of_some hm₁]
      exact hm'
    · rwa [List.append_assoc] at hwatched'

theorem watchTargets_overflow (dirs : List (CString × ScanDir)) (i : ℕ) (ret : ℤ)
    (hdirs : ∀ x ∈ dirs.zipIdx i, (NameFits x.1.1 ∧ NameFits (decimal (x.2 + 1))) ∧
      x.1.2.Sound x.1.1 (decimal (x.2 + 1)))
    (hover : ¬ ∀ x ∈ dirs.zipIdx i, x.1.2.DotsFit x.1.1 (decimal (x.2 + 1))) (hm : Watched wd l m)
    (hadd : Addable K wd l (allDirNames i dirs)) :
    (watchTargets K i ret (dirs.map fun d => (d.1, d.2.toDirectory)) m).1 = none := by
  induction dirs generalizing i ret l m with
  | nil => exact absurd (fun x hx => absurd hx List.not_mem_nil) hover
  | cons x dirs ih =>
    obtain ⟨dir, d⟩ := x
    rw [List.zipIdx_cons, List.forall_mem_cons] at hdirs hover
    obtain ⟨⟨⟨hdir, hlocal⟩, hd⟩, hdirs⟩ := hdirs
    rw [allDirNames_cons] at hadd
    rw [List.map_cons, watchTargets]
    by_cases hfirst : d.DotsFit dir (decimal (i + 1))
    · obtain ⟨m₁, hm₁, hwatched⟩ := watchTargetAddDir_nodes hdir hlocal d hd hfirst hm hadd.append.1
      rw [Prog.bind_of_some hm₁]
      exact ih (i + 1) _ hdirs (fun hrest => hover ⟨hfirst, hrest⟩) hwatched hadd.append.2
    · exact Prog.fst_bind_of_none (watchTargetAddDir_overflow hdir hlocal d hd hfirst hm hadd.append.1) _

end Watched

/-! ## All configured directories -/

/-- The file or directory of this logical name, below one of the configured directories. -/
def TreeNode (dirs : List (CString × ScanDir)) (name path : CString) (mtime : Option ℕ) (type : FileType) : Prop :=
  ∃ i dir d cs, dirs[i]? = some (dir, d) ∧ NodeAt d cs mtime type ∧
    name = PathName.extend SLASH (decimal (i + 1)) cs ∧ path = PathName.extend SLASH dir cs

/-- The `i`-th configured directory, or a directory below it, with its names. -/
def DirAt (dirs : List (CString × ScanDir)) (i : ℕ) (cs : List CString) (sysName logicName : CString) : Prop :=
  ∃ dir d, dirs[i]? = some (dir, d) ∧ (cs = [] ∨ ∃ mtime, NodeAt d cs mtime .directory) ∧
    sysName = PathName.extend SLASH dir cs ∧ logicName = PathName.extend SLASH (decimal (i + 1)) cs

/-- The configured directories are finite trees in which everything can be opened and all names fit; different
directories have different descriptors. -/
structure WatchableTrees (K : Kernel) (wd : CString → ℤ) (dirs : List (CString × ScanDir)) : Prop where
  names : ∀ i dir d, dirs[i]? = some (dir, d) → 0 ∉ dir ∧ NameFits dir ∧ NameFits (decimal (i + 1))
  proper : ∀ (i : ℕ) dir (d : ScanDir), dirs[i]? = some (dir, d) → d.Proper
  sound : ∀ (i : ℕ) dir (d : ScanDir), dirs[i]? = some (dir, d) → d.Sound dir (decimal (i + 1))
  answers : ∀ i cs sysName logicName, DirAt dirs i cs sysName logicName → Answers K wd sysName
  distinct : ∀ i cs s l j cs' s' l', DirAt dirs i cs s l → DirAt dirs j cs' s' l' → wd s = wd s' → i = j ∧ cs = cs'

theorem corresponds_extend {dirs : List (CString × ScanDir)} {i : ℕ} {dir : CString} {d : ScanDir}
    (h : dirs[i]? = some (dir, d)) (cs : List CString) :
    Corresponds (dirs.map Prod.fst) (PathName.extend SLASH (decimal (i + 1)) cs) (PathName.extend SLASH dir cs) := by
  refine ⟨i, dir, cs.flatMap (SLASH :: ·), ?_, ?_, rfl, rfl⟩
  · rw [List.getElem?_map, h]
    rfl
  · cases cs with
    | nil => exact Or.inl rfl
    | cons c cs => exact Or.inr rfl

theorem mem_allDirNames {dirs : List (CString × ScanDir)} {n : CString × CString} :
    n ∈ allDirNames 0 dirs ↔ ∃ i cs, DirAt dirs i cs n.1 n.2 := by
  unfold allDirNames dirNames
  rw [List.mem_flatMap]
  constructor
  · rintro ⟨⟨⟨dir, d⟩, i⟩, hx, hn⟩
    have hdir : dirs[i]? = some (dir, d) := List.mem_zipIdx_iff_getElem?.mp hx
    rcases List.mem_cons.mp hn with rfl | hn
    · exact ⟨i, [], dir, d, hdir, Or.inl rfl, by simp [PathName.extend], by simp [PathName.extend]⟩
    · obtain ⟨node, hnode, rfl⟩ := List.mem_map.mp hn
      obtain ⟨hnode, htype⟩ := List.mem_filter.mp hnode
      have hat := (mem_nodes d node).mp hnode
      rw [of_decide_eq_true htype] at hat
      exact ⟨i, node.path, dir, d, hdir, Or.inr ⟨_, hat⟩, rfl, rfl⟩
  · rintro ⟨i, cs, dir, d, hdir, hcs, hsys, hlogic⟩
    refine ⟨((dir, d), i), List.mem_zipIdx_iff_getElem?.mpr hdir, ?_⟩
    rcases hcs with rfl | ⟨mtime, hat⟩
    · refine List.mem_cons.mpr (Or.inl ?_)
      rw [PathName.extend, List.flatMap_nil, List.append_nil] at hsys hlogic
      exact Prod.ext hsys hlogic
    · refine List.mem_cons_of_mem _ (List.mem_map.mpr ⟨⟨cs, mtime, .directory⟩, ?_, ?_⟩)
      · exact List.mem_filter.mpr ⟨(mem_nodes d ⟨cs, mtime, .directory⟩).mpr hat, decide_eq_true rfl⟩
      · exact Prod.ext hsys.symm hlogic.symm

/-- A configured directory and those below it have different logical names. -/
theorem nodup_dirNames {d : ScanDir} (hd : d.Proper) {dir logicName : CString} (hdir : 0 ∉ dir) (hlogic : 0 ∉ logicName)
    (hsound : d.Sound dir logicName) :
    (((dir, logicName) :: dirNames dir logicName d.nodes).map Prod.snd).Nodup := by
  have hsnd : (dirNames dir logicName d.nodes).map Prod.snd =
      (d.nodes.filter fun n => n.type = .directory).map fun n => PathName.extend SLASH logicName n.path := by
    rw [dirNames, List.map_map]
    rfl
  rw [List.map_cons, List.nodup_cons, hsnd]
  refine ⟨fun hmem => ?_, ?_⟩
  · obtain ⟨n, hn, heq⟩ := List.mem_map.mp hmem
    obtain ⟨cs, c, hcs⟩ := ((mem_nodes d n).mp (List.mem_of_mem_filter hn)).exists_snoc
    have hlen := congrArg List.length heq
    rw [hcs, ← PathName.extend_append_singleton, PathName.extend] at hlen
    simp at hlen
  · exact (nodup_nodes hd hdir hlogic hsound).sublist (List.filter_sublist.map _)

theorem nodup_allDirNames (dirs : List (CString × ScanDir)) (i : ℕ)
    (hdirs : ∀ x ∈ dirs.zipIdx i, 0 ∉ x.1.1 ∧ x.1.2.Proper ∧ x.1.2.Sound x.1.1 (decimal (x.2 + 1))) :
    (∀ n ∈ allDirNames i dirs, ∃ j s, i < j ∧ (s = [] ∨ s.head? = some SLASH) ∧ n.2 = decimal j ++ s) ∧
      ((allDirNames i dirs).map Prod.snd).Nodup := by
  induction dirs generalizing i with
  | nil => exact ⟨fun n hn => absurd hn List.not_mem_nil, List.nodup_nil⟩
  | cons x dirs ih =>
    obtain ⟨dir, d⟩ := x
    rw [List.zipIdx_cons, List.forall_mem_cons] at hdirs
    obtain ⟨⟨hdir, hproper, hsound⟩, hdirs⟩ := hdirs
    obtain ⟨hbelow, hnodup⟩ := ih (i + 1) hdirs
    have hfront : ∀ n ∈ (dir, decimal (i + 1)) :: dirNames dir (decimal (i + 1)) d.nodes,
        ∃ s, (s = [] ∨ s.head? = some SLASH) ∧ n.2 = decimal (i + 1) ++ s := by
      intro n hn
      rcases List.mem_cons.mp hn with rfl | hn
      · exact ⟨[], Or.inl rfl, (List.append_nil _).symm⟩
      · obtain ⟨node, -, rfl⟩ := List.mem_map.mp hn
        refine ⟨node.path.flatMap (SLASH :: ·), ?_, rfl⟩
        cases node.path with
        | nil => exact Or.inl rfl
        | cons c cs => exact Or.inr rfl
    rw [allDirNames_cons]
    refine ⟨fun n hn => ?_, ?_⟩
    · rcases List.mem_append.mp hn with hn | hn
      · obtain ⟨s, hs, hname⟩ := hfront n hn
        exact ⟨i + 1, s, by omega, hs, hname⟩
      · obtain ⟨j, s, hj, hs⟩ := hbelow n hn
        exact ⟨j, s, by omega, hs⟩
    · rw [List.map_append, List.nodup_append]
      refine ⟨nodup_dirNames hproper hdir (nul_notMem_decimal _) hsound, hnodup, fun w hw w' hw' heq => ?_⟩
      obtain ⟨n, hn, rfl⟩ := List.mem_map.mp hw
      obtain ⟨n', hn', rfl⟩ := List.mem_map.mp hw'
      obtain ⟨s, hs, hname⟩ := hfront n hn
      obtain ⟨j, s', hj, hs', hname'⟩ := hbelow n' hn'
      rw [hname, hname'] at heq
      have hij := (decimal_append_inj hs hs' heq).1
      omega

/-! ## Looking up paths -/

/-- The path of a file in a watched directory, whose logical name belongs to it alone. -/
theorem Watched.getSysName {K : Kernel} {wd : CString → ℤ} {l : List (CString × CString)} {m : MonitorTable}
    (h : Watched wd l m) {s lg c : CString} (hmem : (s, lg) ∈ l) (hunique : ∀ n ∈ l, n.2 = lg → n.1 = s)
    (hc : SLASH ∉ c) (hfits : NameFits (s ++ SLASH :: c)) (halloc : ∀ m, K.calloc m = true) :
    (TeleSync.getSysName K (lg ++ SLASH :: c) m).1 = some (some (s ++ SLASH :: c)) := by
  obtain ⟨k, hk⟩ := List.getElem?_of_mem hmem
  have hlookup : ∃ p, getDirTarget m lg = some p := by
    rw [← Option.isSome_iff_exists, getDirTarget, List.find?_isSome]
    refine ⟨k, ?_, ?_⟩
    · rw [h.head, List.mem_range]
      exact (List.getElem?_eq_some_iff.mp hk).1
    · rw [h.objs, hk]
      simp
  obtain ⟨p, hp⟩ := hlookup
  obtain ⟨t, ht, hlogic⟩ := getDirTarget_eq_some hp
  have hsys : t.sysName = s := by
    have hobj := h.objs p
    rw [ht] at hobj
    obtain ⟨n, hn, rfl⟩ := Option.map_eq_some_iff.mp hobj.symm
    exact hunique n (List.mem_of_getElem? hn) hlogic
  have hslash : SLASH ∈ lg ++ SLASH :: c := List.mem_append_right _ List.mem_cons_self
  have hcalloc : calloc K m = (some true, m.log .calloc) := by rw [calloc_eq, halloc]
  have htarget : getFileTarget (lg ++ SLASH :: c) (m.log .calloc) = (some (some p), m.log .calloc) := by
    rw [getFileTarget_eq hslash, dirText_append hc, ← hp]
    rfl
  have hderef : deref p (m.log .calloc) = (some t, m.log .calloc) := deref_eq ht
  have hcheck : SLASH ∈ lg ++ SLASH :: c ∧ NameFits (t.sysName ++ fileText (lg ++ SLASH :: c)) := by
    rw [hsys, fileText_append_of_notMem hc]
    exact ⟨hslash, hfits⟩
  unfold TeleSync.getSysName
  rw [Prog.bind_of_some hcalloc, if_pos rfl, Prog.bind_of_some htarget]
  dsimp only
  unfold sysNameBelow
  rw [Prog.bind_of_some hderef, Prog.bind_of_some (Prog.assert_of_pos hcheck _), hsys, fileText_append_of_notMem hc]
  rfl

/-! ## Agreement -/

/-- The table has one entry for each file and directory below the configured directories, owned by this peer. -/
structure ScannedInto (myIp : UInt32) (dirs : List (CString × ScanDir)) (ft : FileTable) : Prop where
  nodup : (ft.entries.map FileEntry.name).Nodup
  mem : ∀ fe, fe ∈ ft.entries ↔
    fe.owners = [⟨myIp, P2P_PORT⟩] ∧ ∃ path, TreeNode dirs fe.name.bytes path (some fe.timestamp) fe.type
  all : ∀ name path mtime type, TreeNode dirs name path mtime type → ∃ fe ∈ ft.entries, fe.name.bytes = name

/-- The table watches the configured directories and those below them, each of them once. -/
structure WatchesExactly (dirs : List (CString × ScanDir)) (m : MonitorTable) : Prop where
  mem : ∀ sysName logicName, (∃ p ∈ m.head, ∃ t, m.objs p = some t ∧ t.sysName = sysName ∧ t.logicName = logicName) ↔
    ∃ i cs, DirAt dirs i cs sysName logicName
  nodup : m.head.Nodup
  once : ∀ p q t t', p ∈ m.head → q ∈ m.head → m.objs p = some t → m.objs q = some t' → t.logicName = t'.logicName →
    p = q
  targets : ∀ p t, p ∈ m.head → m.objs p = some t → m.targets t.wd = some p

/-- The initial scan and the initial watches agree: the scan finds every file and directory once, every directory is
watched once, and the lookup gives each name its real path. -/
def ScanWatchAgree (K : Kernel) (myIp : UInt32) (dirs : List (CString × ScanDir)) : Prop :=
  ∃ found ret m, getFileTable myIp dirs = some ⟨found, 0⟩ ∧
    fileMonitorTask K (dirs.map fun d => (d.1, d.2.toDirectory)) MonitorTable.empty = (some ret, m) ∧
    ScannedInto myIp dirs (found.foldl fileEntryAdd fileTableInit) ∧ WatchesExactly dirs m ∧
    ∀ fe ∈ (found.foldl fileEntryAdd fileTableInit).entries, ∀ path,
      TreeNode dirs fe.name.bytes path (some fe.timestamp) fe.type →
        (getSysName K fe.name.bytes m).1 = some (some path)

/-- The paths of `.` and `..` fit in all directories. -/
def AllDotsFit (dirs : List (CString × ScanDir)) : Prop :=
  ∀ (i : ℕ) dir (d : ScanDir), dirs[i]? = some (dir, d) → d.DotsFit dir (decimal (i + 1))

theorem entries_foldl_perm (found : List FileEntry) (ft : FileTable) :
    (found.foldl fileEntryAdd ft).entries.Perm (found ++ ft.entries) := by
  induction found generalizing ft with
  | nil => exact List.Perm.refl _
  | cons fe found ih =>
    have hadd : (fileEntryAdd ft fe).entries.Perm (fe :: ft.entries) := Scheme.toList_addHead_perm _ _ _
    exact (ih (fileEntryAdd ft fe)).trans ((hadd.append_left found).trans List.perm_middle)

section Agreement
variable {K : Kernel} {wd : CString → ℤ} {dirs : List (CString × ScanDir)} (h : WatchableTrees K wd dirs)
include h

theorem WatchableTrees.zipIdx {x : (CString × ScanDir) × ℕ} (hx : x ∈ dirs.zipIdx 0) :
    (0 ∉ x.1.1 ∧ NameFits x.1.1 ∧ NameFits (decimal (x.2 + 1))) ∧ x.1.2.Proper ∧
      x.1.2.Sound x.1.1 (decimal (x.2 + 1)) := by
  have hdir : dirs[x.2]? = some (x.1.1, x.1.2) := List.mem_zipIdx_iff_getElem?.mp hx
  exact ⟨h.names _ _ _ hdir, h.proper _ _ _ hdir, h.sound _ _ _ hdir⟩

theorem scan_entries (myIp : UInt32) : ∃ found, getFileTable myIp dirs = some ⟨found, 0⟩ ∧
    ScannedInto myIp dirs (found.foldl fileEntryAdd fileTableInit) := by
  obtain ⟨found, hfound, hcontent⟩ := scanTargets_nodes myIp dirs 0 fun x hx => ⟨(h.zipIdx hx).1.1, (h.zipIdx hx).2.2⟩
  have hperm : (found.foldl fileEntryAdd fileTableInit).entries.Perm found := by
    have hinit := entries_foldl_perm found fileTableInit
    rwa [entries_init, List.append_nil] at hinit
  have hmem := fun x => hcontent ▸ mem_scanned myIp dirs x
  refine ⟨found, hfound, ?_, fun fe => ?_, ?_⟩
  · have hproper : ∀ d ∈ dirs, d.2.Proper := by
      intro d hd
      obtain ⟨i, hi⟩ := List.getElem?_of_mem hd
      exact h.proper i d.1 d.2 hi
    exact (hperm.map FileEntry.name).nodup_iff.mpr (getFileTable_nodup myIp ⟨dirs, hproper⟩ hfound)
  · rw [hperm.mem_iff]
    constructor
    · intro hfe
      obtain ⟨i, dir, d, cs, mtime, type, hdir, hat, heq⟩ := (hmem _).mp (List.mem_map_of_mem hfe)
      obtain ⟨t, rfl⟩ := Option.isSome_iff_exists.mp (hat.fits (h.sound i dir d hdir)).2
      obtain ⟨name, timestamp, ftype, owners⟩ := fe
      simp only [FileEntry.content, Option.getD_some, Prod.mk.injEq] at heq
      obtain ⟨hname, rfl, rfl, howners⟩ := heq
      exact ⟨howners, _, i, dir, d, cs, hdir, hat, hname, rfl⟩
    · rintro ⟨howners, path, i, dir, d, cs, hdir, hat, hname, -⟩
      have hin : fe.content ∈ found.map FileEntry.content := by
        refine (hmem _).mpr ⟨i, dir, d, cs, _, _, hdir, hat, ?_⟩
        rw [FileEntry.content, hname, howners]
        rfl
      obtain ⟨fe', hfe', heq⟩ := List.mem_map.mp hin
      obtain ⟨⟨name, _, _⟩, timestamp, ftype, owners⟩ := fe
      obtain ⟨⟨name', _, _⟩, timestamp', ftype', owners'⟩ := fe'
      simp only [FileEntry.content, Prod.mk.injEq] at heq
      obtain ⟨rfl, rfl, rfl, rfl⟩ := heq
      exact hfe'
  · rintro name path mtime type ⟨i, dir, d, cs, hdir, hat, rfl, -⟩
    obtain ⟨fe, hfe, heq⟩ := List.mem_map.mp ((hmem _).mpr ⟨i, dir, d, cs, mtime, type, hdir, hat, rfl⟩)
    refine ⟨fe, hperm.mem_iff.mpr hfe, ?_⟩
    exact congrArg Prod.fst heq

theorem nodup_logicNames : ((allDirNames 0 dirs).map Prod.snd).Nodup :=
  (nodup_allDirNames dirs 0 fun _ hx => ⟨(h.zipIdx hx).1.1, (h.zipIdx hx).2⟩).2

theorem addable_allDirNames : Addable K wd [] (allDirNames 0 dirs) := by
  refine ⟨fun n hn => ?_, ?_⟩
  · obtain ⟨i, cs, hat⟩ := mem_allDirNames.mp hn
    exact h.answers i cs _ _ hat
  · refine List.Nodup.map_on (fun n hn n' hn' heq => ?_) (List.Nodup.of_map _ (nodup_logicNames h))
    obtain ⟨i, cs, hat⟩ := mem_allDirNames.mp hn
    obtain ⟨j, cs', hat'⟩ := mem_allDirNames.mp hn'
    obtain ⟨rfl, rfl⟩ := h.distinct _ _ _ _ _ _ _ _ hat hat' heq
    obtain ⟨dir, d, hdir, -, hsys, hlogic⟩ := hat
    obtain ⟨dir', d', hdir', -, hsys', hlogic'⟩ := hat'
    rw [hdir] at hdir'
    cases hdir'
    exact Prod.ext (hsys.trans hsys'.symm) (hlogic.trans hlogic'.symm)

theorem watch_targets (hdots : AllDotsFit dirs) : ∃ ret m,
    fileMonitorTask K (dirs.map fun d => (d.1, d.2.toDirectory)) MonitorTable.empty = (some ret, m) ∧
      Watched wd (allDirNames 0 dirs) m :=
  watchTargets_nodes dirs 0 1 (fun _ hx => ⟨(h.zipIdx hx).1.2, (h.zipIdx hx).2.2⟩)
    (fun _ hx => hdots _ _ _ (List.mem_zipIdx_iff_getElem?.mp hx)) Watched.empty (addable_allDirNames h)

theorem watch_targets_overflow (hover : ¬ AllDotsFit dirs) :
    (fileMonitorTask K (dirs.map fun d => (d.1, d.2.toDirectory)) MonitorTable.empty).1 = none := by
  refine watchTargets_overflow dirs 0 1 (fun x hx => ⟨(h.zipIdx hx).1.2, (h.zipIdx hx).2.2⟩) (fun hfit => hover ?_)
    Watched.empty (addable_allDirNames h)
  intro i dir d hdir
  exact hfit ((dir, d), i) (List.mem_zipIdx_iff_getElem?.mpr hdir)

omit h in
theorem Watched.watchesExactly {m : MonitorTable} (hm : Watched wd (allDirNames 0 dirs) m)
    (hnodup : ((allDirNames 0 dirs).map Prod.snd).Nodup) : WatchesExactly dirs m where
  mem s lg := by
    have hat : (s, lg) ∈ allDirNames 0 dirs ↔ ∃ i cs, DirAt dirs i cs s lg := mem_allDirNames
    rw [← hat]
    constructor
    · rintro ⟨p, -, t, ht, rfl, rfl⟩
      rw [hm.objs] at ht
      obtain ⟨n, hn, rfl⟩ := Option.map_eq_some_iff.mp ht
      exact List.mem_of_getElem? hn
    · intro hmem
      obtain ⟨k, hk⟩ := List.getElem?_of_mem hmem
      refine ⟨k, ?_, ⟨wd s, s, lg⟩, ?_, rfl, rfl⟩
      · rw [hm.head, List.mem_range]
        exact (List.getElem?_eq_some_iff.mp hk).1
      · rw [hm.objs, hk]
        rfl
  nodup := hm.head ▸ List.nodup_range
  once p q t t' hp hq ht ht' heq := by
    rw [hm.head, List.mem_range] at hp
    rw [hm.objs] at ht ht'
    obtain ⟨n, hn, rfl⟩ := Option.map_eq_some_iff.mp ht
    obtain ⟨n', hn', rfl⟩ := Option.map_eq_some_iff.mp ht'
    have hlen : p < ((allDirNames 0 dirs).map Prod.snd).length := by rwa [List.length_map]
    rw [← List.getElem?_inj hlen hnodup, List.getElem?_map, List.getElem?_map, hn, hn']
    exact congrArg some heq
  targets p t hp ht := by
    rw [hm.objs] at ht
    obtain ⟨n, hn, rfl⟩ := Option.map_eq_some_iff.mp ht
    exact (hm.targets _ p).mpr ⟨n, hn, rfl⟩

theorem scan_watch_agree (myIp : UInt32) (hdots : AllDotsFit dirs) : ScanWatchAgree K myIp dirs := by
  obtain ⟨found, hfound, hscanned⟩ := scan_entries h myIp
  obtain ⟨ret, m, hm, hwatched⟩ := watch_targets h hdots
  refine ⟨found, ret, m, hfound, hm, hscanned, hwatched.watchesExactly (nodup_logicNames h), ?_⟩
  rintro fe - path ⟨i, dir, d, cs, hdir, hat, hname, rfl⟩
  obtain ⟨cs, c, rfl⟩ := hat.exists_snoc
  have hc : SLASH ∉ c := hat.slash_notMem (h.proper i dir d hdir) c (List.mem_append_right _ (List.mem_singleton_self c))
  have hfits := (hat.fits (h.sound i dir d hdir)).1
  rw [← PathName.extend_append_singleton] at hname hfits ⊢
  have hparent : DirAt dirs i cs (PathName.extend SLASH dir cs) (PathName.extend SLASH (decimal (i + 1)) cs) :=
    ⟨dir, d, hdir, hat.parent, rfl, rfl⟩
  rw [hname]
  refine hwatched.getSysName (mem_allDirNames.mpr ⟨i, cs, hparent⟩) (fun n hn heq => ?_) hc hfits
    (h.answers i cs _ _ hparent).alloc
  obtain ⟨j, cs', dir', d', hdir', -, hsys, hlogic⟩ := mem_allDirNames.mp hn
  have hcorr := corresponds_extend hdir' cs'
  rw [← hsys, ← hlogic, heq] at hcorr
  exact hcorr.unique (corresponds_extend hdir cs)

/-- The scan only needs the names of files and directories to fit; the watches go beyond their arrays where the path of a
`.` or `..` does not. -/
theorem scan_watch_agree_iff (myIp : UInt32) : ScanWatchAgree K myIp dirs ↔ AllDotsFit dirs := by
  constructor
  · rintro ⟨found, ret, m, -, hm, -⟩
    by_contra hover
    have hnone := watch_targets_overflow h hover
    rw [hm] at hnone
    cases hnone
  · exact scan_watch_agree h myIp

end Agreement

/-- `/a` with a file `f` and a directory `s`, which holds a file `g`. -/
def sharedTree : List (CString × ScanDir) :=
  [([47, 97], .readable (.dir DOT (some 1) .unreadable (.file [102] (some 5)
    (.dir [115] (some 6) (.readable (.file [103] (some 7) (.dir DOT_DOT (some 1) .unreadable .nil))) .nil))))]

/-- Descriptor 1 for `/a` and 2 for `/a/s`. -/
def treeKernel : Kernel := ⟨fun _ path _ => if path = [47, 97] then 1 else 2, fun _ _ => 0, fun _ => true⟩

theorem dirAt_sharedTree {i : ℕ} {cs : List CString} {s l : CString} (h : DirAt sharedTree i cs s l) :
    i = 0 ∧ (cs = [] ∧ s = [47, 97] ∨ cs = [[115]] ∧ s = [47, 97, 47, 115]) := by
  obtain ⟨dir, d, hdir, hcs, rfl, -⟩ := h
  match i, hdir with
  | 0, hdir =>
    cases hdir
    refine ⟨rfl, ?_⟩
    rcases hcs with rfl | ⟨mtime, hat⟩
    · exact Or.inl ⟨rfl, rfl⟩
    · have hmem := (mem_nodes _ ⟨cs, mtime, .directory⟩).mpr hat
      simp [ScanDir.nodes, ScanEntries.nodes, IsDots, DOT, DOT_DOT, Node.below] at hmem
      rw [hmem.1]
      exact Or.inr ⟨rfl, rfl⟩
  | i + 1, hdir => cases hdir

theorem watchableTrees_sharedTree :
    WatchableTrees treeKernel (fun path => if path = [47, 97] then 1 else 2) sharedTree where
  names i dir d hdir := by
    match i, hdir with
    | 0, hdir =>
      cases hdir
      decide
    | i + 1, hdir => cases hdir
  proper i dir d hdir := by
    match i, hdir with
    | 0, hdir =>
      cases hdir
      simp [ScanDir.Proper, ScanEntries.Proper, ScanEntries.siblings, SLASH, DOT, DOT_DOT]
    | i + 1, hdir => cases hdir
  sound i dir d hdir := by
    match i, hdir with
    | 0, hdir =>
      cases hdir
      simp [ScanDir.Sound, ScanEntries.Sound, IsDots, NameFits, SLASH, DOT, DOT_DOT, MAX_NAME_LEN, decimal]
      decide
    | i + 1, hdir => cases hdir
  answers i cs s l hat := by
    refine ⟨fun _ => rfl, ?_, fun _ => rfl⟩
    obtain ⟨-, ⟨-, rfl⟩ | ⟨-, rfl⟩⟩ := dirAt_sharedTree hat
    · decide
    · decide
  distinct i cs s l j cs' s' l' hat hat' heq := by
    obtain ⟨rfl, ⟨rfl, rfl⟩ | ⟨rfl, rfl⟩⟩ := dirAt_sharedTree hat
    · obtain ⟨rfl, ⟨rfl, rfl⟩ | ⟨rfl, rfl⟩⟩ := dirAt_sharedTree hat'
      · exact ⟨rfl, rfl⟩
      · exact absurd heq (by decide)
    · obtain ⟨rfl, ⟨rfl, rfl⟩ | ⟨rfl, rfl⟩⟩ := dirAt_sharedTree hat'
      · exact absurd heq (by decide)
      · exact ⟨rfl, rfl⟩

theorem allDotsFit_sharedTree : AllDotsFit sharedTree := by
  intro i dir d hdir
  match i, hdir with
  | 0, hdir =>
    cases hdir
    simp +decide [ScanDir.DotsFit, ScanEntries.DotsFit]
  | i + 1, hdir => cases hdir

theorem scan_watch_agree_sharedTree : ∃ found ret m, getFileTable 7 sharedTree = some ⟨found, 0⟩ ∧
    fileMonitorTask treeKernel (sharedTree.map fun d => (d.1, d.2.toDirectory)) MonitorTable.empty = (some ret, m) ∧
    ScannedInto 7 sharedTree (found.foldl fileEntryAdd fileTableInit) ∧ WatchesExactly sharedTree m ∧
    ∃ fe ∈ (found.foldl fileEntryAdd fileTableInit).entries, fe.name.bytes = [49, 47, 115, 47, 103] ∧
      (getSysName treeKernel fe.name.bytes m).1 = some (some [47, 97, 47, 115, 47, 103]) := by
  obtain ⟨found, ret, m, hfound, hm, hscanned, hwatches, hsys⟩ :=
    (scan_watch_agree_iff watchableTrees_sharedTree 7).mpr allDotsFit_sharedTree
  have hnode : TreeNode sharedTree [49, 47, 115, 47, 103] [47, 97, 47, 115, 47, 103] (some 7) .regular := by
    refine ⟨0, _, _, [[115], [103]], rfl, ?_, rfl, rfl⟩
    refine (mem_nodes _ ⟨[[115], [103]], some 7, .regular⟩).mp ?_
    simp [ScanDir.nodes, ScanEntries.nodes, IsDots, DOT, DOT_DOT, Node.below]
  have hname : (0 : UInt8) ∉ ([49, 47, 115, 47, 103] : CString) ∧
      ([49, 47, 115, 47, 103] : CString).length < MAX_NAME_LEN := by decide
  have hfe := (hscanned.mem (scannedEntry 7 ⟨_, hname.1, hname.2⟩ (some 7) .regular)).mpr ⟨rfl, _, hnode⟩
  exact ⟨found, ret, m, hfound, hm, hscanned, hwatches, _, hfe, rfl, hsys _ hfe _ hnode⟩

/-- A directory with a path of 125 bytes, which holds a file `f`. -/
def longTarget : List (CString × ScanDir) :=
  [(47 :: List.replicate 124 97,
    .readable (.dir DOT (some 1) .unreadable (.dir DOT_DOT (some 1) .unreadable (.file [102] (some 5) .nil))))]

/-- Descriptor 1 for every path. -/
def oneDescriptor : Kernel := ⟨fun _ _ _ => 1, fun _ _ => 0, fun _ => true⟩

theorem dirAt_longTarget {i : ℕ} {cs : List CString} {s l : CString} (h : DirAt longTarget i cs s l) :
    i = 0 ∧ cs = [] := by
  obtain ⟨dir, d, hdir, hcs, -⟩ := h
  match i, hdir with
  | 0, hdir =>
    cases hdir
    refine ⟨rfl, ?_⟩
    rcases hcs with rfl | ⟨mtime, hat⟩
    · rfl
    · have hmem := (mem_nodes _ ⟨cs, mtime, .directory⟩).mpr hat
      simp [ScanDir.nodes, ScanEntries.nodes, IsDots, DOT, DOT_DOT] at hmem
  | i + 1, hdir => cases hdir

theorem watchableTrees_longTarget : WatchableTrees oneDescriptor (fun _ => 1) longTarget where
  names i dir d hdir := by
    match i, hdir with
    | 0, hdir =>
      cases hdir
      decide +kernel
    | i + 1, hdir => cases hdir
  proper i dir d hdir := by
    match i, hdir with
    | 0, hdir =>
      cases hdir
      simp [ScanDir.Proper, ScanEntries.Proper, ScanEntries.siblings, SLASH, DOT, DOT_DOT]
    | i + 1, hdir => cases hdir
  sound i dir d hdir := by
    match i, hdir with
    | 0, hdir =>
      cases hdir
      simp [ScanDir.Sound, ScanEntries.Sound, IsDots, NameFits, SLASH, DOT, DOT_DOT, MAX_NAME_LEN, decimal]
      decide
    | i + 1, hdir => cases hdir
  answers i cs s l hat := ⟨fun _ => rfl, by decide, fun _ => rfl⟩
  distinct i cs s l j cs' s' l' hat hat' _ := by
    obtain ⟨rfl, rfl⟩ := dirAt_longTarget hat
    obtain ⟨rfl, rfl⟩ := dirAt_longTarget hat'
    exact ⟨rfl, rfl⟩

/-- The names of directory and file fit; that of `..` takes 129 bytes with its NUL. -/
theorem long_target_overflows : WatchableTrees oneDescriptor (fun _ => 1) longTarget ∧
    (∃ found, getFileTable 7 longTarget = some ⟨found, 0⟩ ∧
      ScannedInto 7 longTarget (found.foldl fileEntryAdd fileTableInit)) ∧
    (fileMonitorTask oneDescriptor (longTarget.map fun d => (d.1, d.2.toDirectory)) MonitorTable.empty).1 = none ∧
    ¬ ScanWatchAgree oneDescriptor 7 longTarget := by
  have hover : ¬ AllDotsFit longTarget := by
    intro hfit
    have hdots : NameFits (47 :: List.replicate 124 97 ++ SLASH :: DOT_DOT) := ((hfit 0 _ _ rfl).2.2.1 (Or.inr rfl)).1
    exact absurd hdots (by decide +kernel)
  have hnone := watch_targets_overflow watchableTrees_longTarget hover
  refine ⟨watchableTrees_longTarget, scan_entries watchableTrees_longTarget 7, hnone, ?_⟩
  rintro ⟨found, ret, m, -, hm, -⟩
  rw [hm] at hnone
  cases hnone

end TeleSync
