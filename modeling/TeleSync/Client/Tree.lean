import TeleSync.Client.Scan

/-!
# Directory trees and the scan

* `NodeAt d cs mtime type` : what there is below a directory, at a path of names;
* `ScanDir.Sound` : everything below the directory can be opened and has a time, and all names fit; `ScanDir.DotsFit` : so
  do the paths of `.` and `..`, which only the watches build;
* `ScanDir.nodes` : the nodes, in the order in which the scan and the watches walk through them; `mem_nodes`;
* `getFileTableR_nodes`, `scanTargets_nodes` : the scan finds one entry for each of them;
* `nodup_nodes` : and their names are all different.
-/

namespace TeleSync

/-! ## What there is below a directory -/

/-- An entry of a directory: its name, its time and, for a directory, its contents. -/
structure Child where
  dName : CString
  mtime : Option ℕ
  sub : Option ScanDir

/-- `.` and `..` -/
def IsDots (dName : CString) : Prop := dName = DOT ∨ dName = DOT_DOT

instance (dName : CString) : Decidable (IsDots dName) := inferInstanceAs (Decidable (dName = DOT ∨ dName = DOT_DOT))

def Child.type (c : Child) : FileType := if c.sub.isSome then .directory else .regular

def ScanEntries.children : ScanEntries → List Child
  | .nil => []
  | .file dName mtime rest => ⟨dName, mtime, none⟩ :: rest.children
  | .dir dName mtime sub rest => ⟨dName, mtime, some sub⟩ :: rest.children

/-- A file or directory strictly below a directory, by the names on the way to it. -/
inductive NodeAt : ScanDir → List CString → Option ℕ → FileType → Prop where
  | child {entries : ScanEntries} {c : Child} (hc : c ∈ entries.children) (hdots : ¬ IsDots c.dName) :
    NodeAt (.readable entries) [c.dName] c.mtime c.type
  | deeper {entries : ScanEntries} {c : Child} {d : ScanDir} {cs : List CString} {mtime : Option ℕ} {type : FileType}
    (hc : c ∈ entries.children) (hdots : ¬ IsDots c.dName) (hsub : c.sub = some d) (hcs : NodeAt d cs mtime type) :
    NodeAt (.readable entries) (c.dName :: cs) mtime type

theorem NodeAt.parent {d : ScanDir} {cs : List CString} {c : CString} {mtime : Option ℕ} {type : FileType}
    (h : NodeAt d (cs ++ [c]) mtime type) : cs = [] ∨ ∃ t, NodeAt d cs t .directory := by
  generalize hpath : cs ++ [c] = path at h
  induction h generalizing cs with
  | child hc hdots =>
    cases cs with
    | nil => exact Or.inl rfl
    | cons e cs => simp at hpath
  | deeper hc hdots hsub hcs ih =>
    cases cs with
    | nil => exact Or.inl rfl
    | cons e cs =>
      rw [List.cons_append, List.cons.injEq] at hpath
      obtain ⟨rfl, hrest⟩ := hpath
      refine Or.inr ?_
      rcases ih hrest with rfl | ⟨t, ht⟩
      · have htype : Child.type _ = .directory := if_pos (Option.isSome_iff_exists.mpr ⟨_, hsub⟩)
        exact ⟨_, htype ▸ NodeAt.child hc hdots⟩
      · exact ⟨t, NodeAt.deeper hc hdots hsub ht⟩

mutual
/-- The directory can be opened, and so can all below it; every time is found; only directories are called `.` and `..`;
and the names of all that is below it fit their arrays. -/
def ScanDir.Sound (sysName logicName : CString) : ScanDir → Prop
  | .unreadable => False
  | .readable entries => entries.Sound sysName logicName
def ScanEntries.Sound (sysName logicName : CString) : ScanEntries → Prop
  | .nil => True
  | .file dName mtime rest =>
    (0 ∉ dName ∧ NameFits (sysName ++ SLASH :: dName) ∧ NameFits (logicName ++ SLASH :: dName)) ∧
      (¬ IsDots dName ∧ mtime.isSome) ∧ rest.Sound sysName logicName
  | .dir dName mtime sub rest =>
    (¬ IsDots dName → (0 ∉ dName ∧ NameFits (sysName ++ SLASH :: dName) ∧ NameFits (logicName ++ SLASH :: dName)) ∧
      mtime.isSome ∧ sub.Sound (sysName ++ SLASH :: dName) (logicName ++ SLASH :: dName)) ∧
      rest.Sound sysName logicName
end

mutual
/-- What `watch_target_add_dir` builds from a directory and its `.` and `..`, before it passes over them, fits its arrays,
here and in all directories below. -/
def ScanDir.DotsFit (sysName logicName : CString) : ScanDir → Prop
  | .unreadable => True
  | .readable entries => entries.DotsFit sysName logicName
def ScanEntries.DotsFit (sysName logicName : CString) : ScanEntries → Prop
  | .nil => True
  | .file _ _ rest => rest.DotsFit sysName logicName
  | .dir dName _ sub rest =>
    (IsDots dName → NameFits (sysName ++ SLASH :: dName) ∧ NameFits (logicName ++ SLASH :: dName)) ∧
      (¬ IsDots dName → sub.DotsFit (sysName ++ SLASH :: dName) (logicName ++ SLASH :: dName)) ∧
      rest.DotsFit sysName logicName
end

mutual
/-- What `readdir` gives, without the times. -/
def ScanDir.toDirectory : ScanDir → Directory
  | .unreadable => .unreadable
  | .readable entries => .readable entries.toDirEntries
def ScanEntries.toDirEntries : ScanEntries → DirEntries
  | .nil => .nil
  | .file _ _ rest => .file rest.toDirEntries
  | .dir dName _ sub rest => .dir dName sub.toDirectory rest.toDirEntries
end

/-! ## The order of the walks -/

structure Node where
  path : List CString
  mtime : Option ℕ
  type : FileType

/-- One level up. -/
def Node.below (dName : CString) (n : Node) : Node := { n with path := dName :: n.path }

mutual
def ScanDir.nodes : ScanDir → List Node
  | .unreadable => []
  | .readable entries => entries.nodes
def ScanEntries.nodes : ScanEntries → List Node
  | .nil => []
  | .file dName mtime rest => if IsDots dName then rest.nodes else ⟨[dName], mtime, .regular⟩ :: rest.nodes
  | .dir dName mtime sub rest =>
    if IsDots dName then rest.nodes
    else ⟨[dName], mtime, .directory⟩ :: (sub.nodes.map (Node.below dName) ++ rest.nodes)
end

theorem nodeAt_cons {entries : ScanEntries} {c : Child} (rest : ScanEntries)
    (h : entries.children = c :: rest.children) (n : Node) :
    NodeAt (.readable entries) n.path n.mtime n.type ↔
      (¬ IsDots c.dName ∧ (n = ⟨[c.dName], c.mtime, c.type⟩ ∨
        ∃ d, c.sub = some d ∧ ∃ n' : Node, NodeAt d n'.path n'.mtime n'.type ∧ n'.below c.dName = n)) ∨
      NodeAt (.readable rest) n.path n.mtime n.type := by
  obtain ⟨path, mtime, type⟩ := n
  constructor
  · intro hn
    cases hn with
    | child hc hdots =>
      rw [h] at hc
      rcases List.mem_cons.mp hc with rfl | hc
      · exact Or.inl ⟨hdots, Or.inl rfl⟩
      · exact Or.inr (NodeAt.child hc hdots)
    | deeper hc hdots hsub hcs =>
      rw [h] at hc
      rcases List.mem_cons.mp hc with rfl | hc
      · exact Or.inl ⟨hdots, Or.inr ⟨_, hsub, ⟨_, _, _⟩, hcs, rfl⟩⟩
      · exact Or.inr (NodeAt.deeper hc hdots hsub hcs)
  · rintro (⟨hdots, heq | ⟨d, hsub, n', hn', heq⟩⟩ | hn)
    · cases heq
      exact NodeAt.child (h ▸ List.mem_cons_self) hdots
    · cases heq
      exact NodeAt.deeper (h ▸ List.mem_cons_self) hdots hsub hn'
    · cases hn with
      | child hc hdots => exact NodeAt.child (h ▸ List.mem_cons_of_mem _ hc) hdots
      | deeper hc hdots hsub hcs => exact NodeAt.deeper (h ▸ List.mem_cons_of_mem _ hc) hdots hsub hcs

mutual
theorem mem_nodes : ∀ (d : ScanDir) (n : Node), n ∈ d.nodes ↔ NodeAt d n.path n.mtime n.type
  | .unreadable, n => by
    refine iff_of_false List.not_mem_nil fun h => ?_
    obtain ⟨path, mtime, type⟩ := n
    cases h
  | .readable entries, n => by
    rw [ScanDir.nodes]
    exact mem_nodes_entries entries n
theorem mem_nodes_entries : ∀ (entries : ScanEntries) (n : Node),
    n ∈ entries.nodes ↔ NodeAt (.readable entries) n.path n.mtime n.type
  | .nil, n => by
    refine iff_of_false List.not_mem_nil fun h => ?_
    obtain ⟨path, mtime, type⟩ := n
    cases h with
    | child hc => cases hc
    | deeper hc => cases hc
  | .file dName mtime rest, n => by
    rw [nodeAt_cons rest (c := ⟨dName, mtime, none⟩) rfl, ScanEntries.nodes, ← mem_nodes_entries rest n]
    by_cases hdots : IsDots dName
    · simp [hdots]
    · simp [hdots, Child.type]
  | .dir dName mtime sub rest, n => by
    rw [nodeAt_cons rest (c := ⟨dName, mtime, some sub⟩) rfl, ScanEntries.nodes,
      ← mem_nodes_entries rest n]
    have hsub := mem_nodes sub
    by_cases hdots : IsDots dName
    · simp [hdots]
    · simp [hdots, Child.type, hsub, or_assoc]
end

/-! ## The scan -/

/-- What an entry says. -/
def FileEntry.content (fe : FileEntry) : CString × ℕ × FileType × List PeerId :=
  (fe.name.bytes, fe.timestamp, fe.type, fe.owners)

/-- What the entry for a node below the directory `logicName` is to say. -/
def Node.content (myIp : UInt32) (logicName : CString) (n : Node) : CString × ℕ × FileType × List PeerId :=
  (PathName.extend SLASH logicName n.path, n.mtime.getD 0, n.type, [⟨myIp, P2P_PORT⟩])

theorem content_below (myIp : UInt32) (logicName dName : CString) (nodes : List Node) :
    (nodes.map (Node.below dName)).map (Node.content myIp logicName) =
      nodes.map (Node.content myIp (logicName ++ SLASH :: dName)) := by
  rw [List.map_map]
  refine List.map_congr_left fun n _ => ?_
  simp [Node.content, Node.below, PathName.extend_cons]

theorem exists_toName {dir dName : CString} (hdir : 0 ∉ dir) (hd : 0 ∉ dName) (hfits : NameFits (dir ++ SLASH :: dName)) :
    ∃ name, toName (dir ++ SLASH :: dName) = some name ∧ name.bytes = dir ++ SLASH :: dName := by
  have hnul : 0 ∉ dir ++ SLASH :: dName := by
    simp [hdir, hd, SLASH]
  exact ⟨⟨_, hnul, hfits⟩, dif_pos ⟨hnul, hfits⟩, rfl⟩

mutual
/-- The scan of a directory links one entry for each node, in the order of the walk. -/
theorem getFileTableR_nodes (myIp : UInt32) {sysName logicName : CString} (hsys : 0 ∉ sysName)
    (hlogic : 0 ∉ logicName) : ∀ d : ScanDir, d.Sound sysName logicName →
      ∃ found, getFileTableR myIp sysName logicName d = some ⟨found, 0⟩ ∧
        found.map FileEntry.content = d.nodes.map (Node.content myIp logicName)
  | .unreadable, hd => hd.elim
  | .readable entries, hd => by
    rw [getFileTableR, ScanDir.nodes]
    exact scanEntries_nodes myIp hsys hlogic entries hd
theorem scanEntries_nodes (myIp : UInt32) {sysName logicName : CString} (hsys : 0 ∉ sysName)
    (hlogic : 0 ∉ logicName) : ∀ entries : ScanEntries, entries.Sound sysName logicName →
      ∃ found, scanEntries myIp sysName logicName 0 entries = some ⟨found, 0⟩ ∧
        found.map FileEntry.content = entries.nodes.map (Node.content myIp logicName)
  | .nil, _ => ⟨[], rfl, rfl⟩
  | .file dName mtime rest, h => by
    obtain ⟨⟨hnul, hsysFits, hlogicFits⟩, ⟨hdots, -⟩, hrest⟩ := h
    obtain ⟨name, hname, hbytes⟩ := exists_toName hlogic hnul hlogicFits
    obtain ⟨path, hpath, -⟩ := exists_toName hsys hnul hsysFits
    obtain ⟨found, hfound, hcontent⟩ := scanEntries_nodes myIp hsys hlogic rest hrest
    have hdots' : ¬ (dName = DOT ∨ dName = DOT_DOT) := hdots
    refine ⟨scannedEntry myIp name mtime .regular :: found, ?_, ?_⟩
    · rw [scanEntries, if_neg hdots', hname, hpath, hfound]
      rfl
    · rw [ScanEntries.nodes, if_neg hdots, List.map_cons, List.map_cons, hcontent, Node.content, PathName.extend_singleton,
        FileEntry.content, ← hbytes]
      rfl
  | .dir dName mtime sub rest, h => by
    obtain ⟨hsub, hrest⟩ := h
    obtain ⟨found, hfound, hcontent⟩ := scanEntries_nodes myIp hsys hlogic rest hrest
    rw [scanEntries, ScanEntries.nodes]
    by_cases hdots : IsDots dName
    · have hdots' : dName = DOT ∨ dName = DOT_DOT := hdots
      rw [if_pos hdots', if_pos hdots]
      exact ⟨found, hfound, hcontent⟩
    · have hdots' : ¬ (dName = DOT ∨ dName = DOT_DOT) := hdots
      obtain ⟨⟨hnul, hsysFits, hlogicFits⟩, -, hsub⟩ := hsub hdots
      obtain ⟨name, hname, hbytes⟩ := exists_toName hlogic hnul hlogicFits
      obtain ⟨path, hpath, hpathBytes⟩ := exists_toName hsys hnul hsysFits
      obtain ⟨below, hbelow, hbelowContent⟩ := getFileTableR_nodes myIp (hpathBytes ▸ path.nul_free)
        (hbytes ▸ name.nul_free) sub hsub
      rw [if_neg hdots', if_neg hdots, hname, hpath]
      refine ⟨scannedEntry myIp name mtime .directory :: (below ++ found), ?_, ?_⟩
      · show (getFileTableR myIp path.bytes name.bytes sub >>= fun q => _) = _
        rw [hpathBytes, hbytes, hbelow]
        show (scanEntries myIp sysName logicName 0 rest >>= fun r => _) = _
        rw [hfound]
        rfl
      · rw [List.map_cons, List.map_cons, List.map_append, List.map_append, hcontent, hbelowContent, content_below,
          Node.content, PathName.extend_singleton, FileEntry.content, ← hbytes]
        rfl
end

theorem scanTargets_nodes (myIp : UInt32) (dirs : List (CString × ScanDir)) (i : ℕ)
    (hdirs : ∀ x ∈ dirs.zipIdx i, 0 ∉ x.1.1 ∧ x.1.2.Sound x.1.1 (decimal (x.2 + 1))) :
    ∃ found, scanTargets myIp i dirs = some ⟨found, 0⟩ ∧ found.map FileEntry.content =
      (dirs.zipIdx i).flatMap fun x => x.1.2.nodes.map (Node.content myIp (decimal (x.2 + 1))) := by
  induction dirs generalizing i with
  | nil => exact ⟨[], rfl, rfl⟩
  | cons x dirs ih =>
    obtain ⟨dir, d⟩ := x
    rw [List.zipIdx_cons, List.forall_mem_cons] at hdirs
    obtain ⟨⟨hdir, hd⟩, hdirs⟩ := hdirs
    obtain ⟨front, hfront, hfrontContent⟩ := getFileTableR_nodes myIp hdir (nul_notMem_decimal (i + 1)) d hd
    obtain ⟨found, hfound, hcontent⟩ := ih (i + 1) hdirs
    refine ⟨front ++ found, ?_, ?_⟩
    · rw [scanTargets, hfront]
      show (scanTargets myIp (i + 1) dirs >>= fun r => _) = _
      rw [hfound]
      rfl
    · rw [List.zipIdx_cons, List.flatMap_cons, List.map_append, hfrontContent, hcontent]

/-- What the entries of a scan are, by the nodes of the trees. -/
theorem mem_scanned (myIp : UInt32) (dirs : List (CString × ScanDir)) (x : CString × ℕ × FileType × List PeerId) :
    x ∈ ((dirs.zipIdx 0).flatMap fun x => x.1.2.nodes.map (Node.content myIp (decimal (x.2 + 1)))) ↔
      ∃ i dir d cs mtime type, dirs[i]? = some (dir, d) ∧ NodeAt d cs mtime type ∧
        x = (PathName.extend SLASH (decimal (i + 1)) cs, mtime.getD 0, type, [⟨myIp, P2P_PORT⟩]) := by
  rw [List.mem_flatMap]
  constructor
  · rintro ⟨⟨⟨dir, d⟩, i⟩, hi, hx⟩
    obtain ⟨n, hn, rfl⟩ := List.mem_map.mp hx
    exact ⟨i, dir, d, n.path, n.mtime, n.type, List.mem_zipIdx_iff_getElem?.mp hi, (mem_nodes d n).mp hn, rfl⟩
  · rintro ⟨i, dir, d, cs, mtime, type, hdir, hat, rfl⟩
    exact ⟨((dir, d), i), List.mem_zipIdx_iff_getElem?.mpr hdir,
      List.mem_map.mpr ⟨⟨cs, mtime, type⟩, (mem_nodes d ⟨cs, mtime, type⟩).mpr hat, rfl⟩⟩

/-! ## Nodes of proper trees -/

theorem proper_child : ∀ {entries : ScanEntries}, entries.Proper → ∀ c ∈ entries.children,
    SLASH ∉ c.dName ∧ ∀ d, c.sub = some d → d.Proper
  | .nil, _, c, hc => absurd hc List.not_mem_nil
  | .file dName mtime rest, h, c, hc => by
    rcases List.mem_cons.mp hc with rfl | hc
    · exact ⟨h.1, fun d hd => absurd hd (Option.some_ne_none d).symm⟩
    · exact proper_child h.2.2 c hc
  | .dir dName mtime sub rest, h, c, hc => by
    rcases List.mem_cons.mp hc with rfl | hc
    · refine ⟨h.1, fun d hd => ?_⟩
      cases hd
      exact h.2.2.1
    · exact proper_child h.2.2.2 c hc

theorem sound_child {sysName logicName : CString} : ∀ {entries : ScanEntries}, entries.Sound sysName logicName →
    ∀ c ∈ entries.children, ¬ IsDots c.dName → NameFits (sysName ++ SLASH :: c.dName) ∧ c.mtime.isSome ∧
      ∀ d, c.sub = some d → d.Sound (sysName ++ SLASH :: c.dName) (logicName ++ SLASH :: c.dName)
  | .nil, _, c, hc, _ => absurd hc List.not_mem_nil
  | .file dName mtime rest, h, c, hc, hdots => by
    rcases List.mem_cons.mp hc with rfl | hc
    · exact ⟨h.1.2.1, h.2.1.2, fun d hd => absurd hd (Option.some_ne_none d).symm⟩
    · exact sound_child h.2.2 c hc hdots
  | .dir dName mtime sub rest, h, c, hc, hdots => by
    rcases List.mem_cons.mp hc with rfl | hc
    · obtain ⟨⟨-, hsysFits, -⟩, hmtime, hsub⟩ := h.1 hdots
      refine ⟨hsysFits, hmtime, fun d hd => ?_⟩
      cases hd
      exact hsub
    · exact sound_child h.2 c hc hdots

theorem NodeAt.slash_notMem {d : ScanDir} {cs : List CString} {mtime : Option ℕ} {type : FileType}
    (h : NodeAt d cs mtime type) (hd : d.Proper) : ∀ c ∈ cs, SLASH ∉ c := by
  induction h with
  | child hc hdots =>
    rw [List.forall_mem_singleton]
    exact (proper_child hd _ hc).1
  | deeper hc hdots hsub hcs ih =>
    rw [List.forall_mem_cons]
    exact ⟨(proper_child hd _ hc).1, ih ((proper_child hd _ hc).2 _ hsub)⟩

theorem NodeAt.fits {d : ScanDir} {cs : List CString} {mtime : Option ℕ} {type : FileType}
    (h : NodeAt d cs mtime type) {sysName logicName : CString} (hd : d.Sound sysName logicName) :
    NameFits (PathName.extend SLASH sysName cs) ∧ mtime.isSome := by
  induction h generalizing sysName logicName with
  | child hc hdots =>
    obtain ⟨hfits, hmtime, -⟩ := sound_child hd _ hc hdots
    rw [PathName.extend_singleton]
    exact ⟨hfits, hmtime⟩
  | deeper hc hdots hsub hcs ih =>
    rw [PathName.extend_cons]
    exact ih ((sound_child hd _ hc hdots).2.2 _ hsub)

theorem NodeAt.exists_snoc {d : ScanDir} {cs : List CString} {mtime : Option ℕ} {type : FileType}
    (h : NodeAt d cs mtime type) : ∃ cs' c, cs = cs' ++ [c] := by
  have hne : cs ≠ [] := by
    cases h with
    | child => exact List.cons_ne_nil _ _
    | deeper => exact List.cons_ne_nil _ _
  exact ⟨_, _, (List.dropLast_append_getLast hne).symm⟩

theorem nodup_nodes {d : ScanDir} (hd : d.Proper) {sysName logicName : CString} (hsys : 0 ∉ sysName)
    (hlogic : 0 ∉ logicName) (hsound : d.Sound sysName logicName) :
    (d.nodes.map fun n => PathName.extend SLASH logicName n.path).Nodup := by
  obtain ⟨found, hfound, hcontent⟩ := getFileTableR_nodes 0 hsys hlogic d hsound
  obtain ⟨siblings, hapart⟩ := getFileTableR_apart 0 sysName logicName d hd hfound
  have hnames : found.map (fun fe => fe.name.bytes) = d.nodes.map fun n => PathName.extend SLASH logicName n.path := by
    have hfst := congrArg (List.map Prod.fst) hcontent
    rwa [List.map_map, List.map_map] at hfst
  rw [← hnames]
  have hinj : Function.Injective Name.bytes := by
    rintro ⟨b, _, _⟩ ⟨b', _, _⟩ h
    cases h
    rfl
  have hmap := hapart.nodup.map hinj
  rwa [List.map_map] at hmap

end TeleSync
