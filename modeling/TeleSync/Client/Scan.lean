import TeleSync.Monitor.Report

/-!
# The initial scan

`get_file_table` and `get_file_table_r` of `client/file_monitor.c` walk through the configured directories and link one
entry for each file and directory they meet.

* `ScanDir`, `ScanEntries` : directories as `opendir`, `readdir` and `stat` show them;
* `getFileTableR`, `getFileTable` : the entries in the order in which they are linked, and the return value;
* `SharedDirs` : directory contents, in which no directory has a name twice;
* `getFileTable_nodup` : then no name is found twice.
-/

namespace TeleSync

/-! ## Directories -/

mutual
/-- A directory as `opendir` finds it. -/
inductive ScanDir where
  | unreadable
  | readable (entries : ScanEntries)
/-- What `readdir` gives, in order, with the time that `stat` finds. -/
inductive ScanEntries where
  | nil
  | file (dName : CString) (mtime : Option ℕ) (rest : ScanEntries)
  | dir (dName : CString) (mtime : Option ℕ) (sub : ScanDir) (rest : ScanEntries)
end

/-- The names in a directory. -/
def ScanEntries.siblings : ScanEntries → List CString
  | .nil => []
  | .file dName _ rest => dName :: rest.siblings
  | .dir dName _ _ rest => dName :: rest.siblings

mutual
/-- Names of directory entries have no `/`, and no directory has a name twice. -/
def ScanDir.Proper : ScanDir → Prop
  | .unreadable => True
  | .readable entries => entries.Proper
def ScanEntries.Proper : ScanEntries → Prop
  | .nil => True
  | .file dName _ rest => SLASH ∉ dName ∧ dName ∉ rest.siblings ∧ rest.Proper
  | .dir dName _ sub rest => SLASH ∉ dName ∧ dName ∉ rest.siblings ∧ sub.Proper ∧ rest.Proper
end

/-- The configured directories and their contents. -/
structure SharedDirs where
  dirs : List (CString × ScanDir)
  proper : ∀ d ∈ dirs, d.2.Proper

/-! ## The scan -/

/-- The entries that were linked, in order, and what the function returns. -/
structure ScanResult where
  found : List FileEntry
  ret : ℤ

/-- The entry for a name: its time, 0 if `stat` fails, and this peer as its owner. -/
def scannedEntry (myIp : UInt32) (name : Name) (mtime : Option ℕ) (type : FileType) : FileEntry :=
  { name := name, timestamp := mtime.getD 0, type := type, owners := [⟨myIp, P2P_PORT⟩] }

mutual
/-- `get_file_table_r`; none if `sprintf` writes over the end of a name. -/
def getFileTableR (myIp : UInt32) (sysName logicName : CString) : ScanDir → Option ScanResult
  | .unreadable => some ⟨[], -1⟩
  | .readable entries => scanEntries myIp sysName logicName 0 entries
/-- The loop over the entries. -/
def scanEntries (myIp : UInt32) (sysName logicName : CString) (ret : ℤ) : ScanEntries → Option ScanResult
  | .nil => some ⟨[], ret⟩
  | .file dName mtime rest =>
    if dName = DOT ∨ dName = DOT_DOT then scanEntries myIp sysName logicName ret rest
    else do
      let name ← toName (logicName ++ SLASH :: dName)
      let _ ← toName (sysName ++ SLASH :: dName)
      let r ← scanEntries myIp sysName logicName ret rest
      pure ⟨scannedEntry myIp name mtime .regular :: r.found, r.ret⟩
  | .dir dName mtime sub rest =>
    if dName = DOT ∨ dName = DOT_DOT then scanEntries myIp sysName logicName ret rest
    else do
      let name ← toName (logicName ++ SLASH :: dName)
      let newSysName ← toName (sysName ++ SLASH :: dName)
      let q ← getFileTableR myIp newSysName.bytes name.bytes sub
      let r ← scanEntries myIp sysName logicName (if q.ret ≠ 0 ∨ ret ≠ 0 then 1 else 0) rest
      pure ⟨scannedEntry myIp name mtime .directory :: (q.found ++ r.found), r.ret⟩
end

/-- The loop of `get_file_table` over the configured directories, from the `i`-th on. -/
def scanTargets (myIp : UInt32) : ℕ → List (CString × ScanDir) → Option ScanResult
  | _, [] => some ⟨[], 0⟩
  | i, (dir, d) :: rest => do
    let q ← getFileTableR myIp dir (decimal (i + 1)) d
    if q.ret < 0 then pure ⟨q.found, -1⟩
    else do
      let r ← scanTargets myIp (i + 1) rest
      pure ⟨q.found ++ r.found, r.ret⟩

/-- `get_file_table` -/
def getFileTable (myIp : UInt32) (dirs : List (CString × ScanDir)) : Option ScanResult := scanTargets myIp 0 dirs

/-! ## Names that are found -/

/-- `name` is that of `c` in the directory `logic`, or of something below it. -/
def NamedUnder (logic c name : CString) : Prop :=
  ∃ s, (s = [] ∨ s.head? = some SLASH) ∧ name = logic ++ SLASH :: (c ++ s)

theorem NamedUnder.unique {logic c c' name : CString} (h : NamedUnder logic c name) (h' : NamedUnder logic c' name)
    (hc : SLASH ∉ c) (hc' : SLASH ∉ c') : c = c' := by
  obtain ⟨s, hs, rfl⟩ := h
  obtain ⟨s', hs', heq⟩ := h'
  have htail := (List.cons.inj (List.append_cancel_left heq)).2
  exact (PathName.component_append_inj hc hc' hs hs' htail).1

theorem NamedUnder.up {logic c d name : CString} (h : NamedUnder (logic ++ SLASH :: d) c name) :
    NamedUnder logic d name ∧ name ≠ logic ++ SLASH :: d := by
  obtain ⟨s, -, rfl⟩ := h
  refine ⟨⟨SLASH :: (c ++ s), Or.inr rfl, by simp⟩, fun heq => ?_⟩
  have hlen := congrArg List.length heq
  rw [List.length_append, List.length_cons] at hlen
  omega

theorem slash_notMem_sibling : ∀ {entries : ScanEntries}, entries.Proper → ∀ c ∈ entries.siblings, SLASH ∉ c
  | .nil, _, c, hc => absurd hc List.not_mem_nil
  | .file dName _ rest, h, c, hc => by
    rcases List.mem_cons.mp hc with rfl | hc
    · exact h.1
    · exact slash_notMem_sibling h.2.2 c hc
  | .dir dName _ _ rest, h, c, hc => by
    rcases List.mem_cons.mp hc with rfl | hc
    · exact h.1
    · exact slash_notMem_sibling h.2.2.2 c hc

/-- The names found in a directory: each belongs to one of its entries, and they are all different. -/
structure FoundApart (logic : CString) (siblings : List CString) (found : List FileEntry) : Prop where
  under : ∀ fe ∈ found, ∃ c ∈ siblings, NamedUnder logic c fe.name.bytes
  nodup : (found.map FileEntry.name).Nodup

namespace FoundApart

variable {logic d : CString} {siblings : List CString} {found : List FileEntry}

theorem skip (h : FoundApart logic siblings found) : FoundApart logic (d :: siblings) found := by
  refine ⟨fun fe hfe => ?_, h.nodup⟩
  obtain ⟨c, hc, hunder⟩ := h.under fe hfe
  exact ⟨c, List.mem_cons_of_mem d hc, hunder⟩

theorem append (front : List FileEntry) (h : FoundApart logic siblings found) (hd : d ∉ siblings) (hslash : SLASH ∉ d)
    (hsiblings : ∀ c ∈ siblings, SLASH ∉ c) (hfront : ∀ fe ∈ front, NamedUnder logic d fe.name.bytes)
    (hnodup : (front.map FileEntry.name).Nodup) : FoundApart logic (d :: siblings) (front ++ found) := by
  refine ⟨fun fe hfe => ?_, ?_⟩
  · rcases List.mem_append.mp hfe with hfe | hfe
    · exact ⟨d, List.mem_cons_self, hfront fe hfe⟩
    · exact h.skip.under fe hfe
  · rw [List.map_append, List.nodup_append]
    refine ⟨hnodup, h.nodup, fun name hname name' hname' heq => ?_⟩
    obtain ⟨fe, hfe, rfl⟩ := List.mem_map.mp hname
    obtain ⟨fe', hfe', rfl⟩ := List.mem_map.mp hname'
    obtain ⟨c, hc, hunder⟩ := h.under fe' hfe'
    rw [← heq] at hunder
    exact hd ((hfront fe hfe).unique hunder hslash (hsiblings c hc) ▸ hc)

end FoundApart

mutual
theorem getFileTableR_apart (myIp : UInt32) (sysName logicName : CString) :
    ∀ (d : ScanDir), d.Proper → ∀ {r : ScanResult}, getFileTableR myIp sysName logicName d = some r →
      ∃ siblings, FoundApart logicName siblings r.found
  | .unreadable, _, r, h => by
    cases h
    exact ⟨[], fun fe hfe => absurd hfe List.not_mem_nil, List.nodup_nil⟩
  | .readable entries, hd, r, h => ⟨entries.siblings, scanEntries_apart myIp sysName logicName 0 entries hd h⟩
theorem scanEntries_apart (myIp : UInt32) (sysName logicName : CString) (ret : ℤ) :
    ∀ (entries : ScanEntries), entries.Proper → ∀ {r : ScanResult},
      scanEntries myIp sysName logicName ret entries = some r → FoundApart logicName entries.siblings r.found
  | .nil, _, r, h => by
    cases h
    exact ⟨fun fe hfe => absurd hfe List.not_mem_nil, List.nodup_nil⟩
  | .file dName mtime rest, hproper, r, h => by
    obtain ⟨hslash, hnew, hrest⟩ := hproper
    rw [scanEntries] at h
    split_ifs at h with hdot
    · exact (scanEntries_apart myIp sysName logicName ret rest hrest h).skip
    · obtain ⟨name, hname, h⟩ := Option.bind_eq_some_iff.mp h
      obtain ⟨newSysName, -, h⟩ := Option.bind_eq_some_iff.mp h
      obtain ⟨r', hr', h⟩ := Option.bind_eq_some_iff.mp h
      cases h
      have hapart := scanEntries_apart myIp sysName logicName ret rest hrest hr'
      refine hapart.append [scannedEntry myIp name mtime .regular] hnew hslash
        (slash_notMem_sibling hrest) ?_ (List.nodup_singleton _)
      rw [List.forall_mem_singleton]
      exact ⟨[], Or.inl rfl, by rw [List.append_nil]; exact (toName_eq_some hname).1⟩
  | .dir dName mtime sub rest, hproper, r, h => by
    obtain ⟨hslash, hnew, hsub, hrest⟩ := hproper
    rw [scanEntries] at h
    split_ifs at h with hdot
    · exact (scanEntries_apart myIp sysName logicName ret rest hrest h).skip
    · obtain ⟨name, hname, h⟩ := Option.bind_eq_some_iff.mp h
      obtain ⟨newSysName, -, h⟩ := Option.bind_eq_some_iff.mp h
      obtain ⟨q, hq, h⟩ := Option.bind_eq_some_iff.mp h
      obtain ⟨r', hr', h⟩ := Option.bind_eq_some_iff.mp h
      cases h
      have hbytes := (toName_eq_some hname).1
      rw [hbytes] at hq
      obtain ⟨siblings, hbelow⟩ := getFileTableR_apart myIp _ _ sub hsub hq
      have hup : ∀ fe ∈ q.found, NamedUnder logicName dName fe.name.bytes ∧ fe.name ≠ name := by
        intro fe hfe
        obtain ⟨c, -, hunder⟩ := hbelow.under fe hfe
        exact ⟨hunder.up.1, fun heq => hunder.up.2 (heq ▸ hbytes)⟩
      have hapart := scanEntries_apart myIp sysName logicName _ rest hrest hr'
      refine hapart.append (scannedEntry myIp name mtime .directory :: q.found) hnew hslash
        (slash_notMem_sibling hrest) ?_ ?_
      · rw [List.forall_mem_cons]
        refine ⟨⟨[], Or.inl rfl, by rw [List.append_nil]; exact hbytes⟩, fun fe hfe => (hup fe hfe).1⟩
      · rw [List.map_cons, List.nodup_cons]
        refine ⟨fun hmem => ?_, hbelow.nodup⟩
        obtain ⟨fe, hfe, heq⟩ := List.mem_map.mp hmem
        exact (hup fe hfe).2 heq
end

theorem scanTargets_nodup (myIp : UInt32) {dirs : List (CString × ScanDir)} (hdirs : ∀ d ∈ dirs, d.2.Proper) {i : ℕ}
    {r : ScanResult} (h : scanTargets myIp i dirs = some r) :
    (∀ fe ∈ r.found, ∃ j, i < j ∧ ∃ s, s.head? = some SLASH ∧ fe.name.bytes = decimal j ++ s) ∧
      (r.found.map FileEntry.name).Nodup := by
  induction dirs generalizing i r with
  | nil =>
    cases h
    exact ⟨fun fe hfe => absurd hfe List.not_mem_nil, List.nodup_nil⟩
  | cons d dirs ih =>
    obtain ⟨dir, d⟩ := d
    rw [List.forall_mem_cons] at hdirs
    obtain ⟨q, hq, h⟩ := Option.bind_eq_some_iff.mp h
    obtain ⟨siblings, hapart⟩ := getFileTableR_apart myIp dir (decimal (i + 1)) d hdirs.1 hq
    have hfront : ∀ fe ∈ q.found, ∃ s, s.head? = some SLASH ∧ fe.name.bytes = decimal (i + 1) ++ s := by
      intro fe hfe
      obtain ⟨c, -, s, -, hname⟩ := hapart.under fe hfe
      exact ⟨_, rfl, hname⟩
    split_ifs at h with hret
    · cases h
      exact ⟨fun fe hfe => ⟨i + 1, by omega, hfront fe hfe⟩, hapart.nodup⟩
    · obtain ⟨r', hr', h⟩ := Option.bind_eq_some_iff.mp h
      cases h
      obtain ⟨hrest, hnodup⟩ := ih hdirs.2 hr'
      refine ⟨fun fe hfe => ?_, ?_⟩
      · rcases List.mem_append.mp hfe with hfe | hfe
        · exact ⟨i + 1, by omega, hfront fe hfe⟩
        · obtain ⟨j, hj, hs⟩ := hrest fe hfe
          exact ⟨j, by omega, hs⟩
      · rw [List.map_append, List.nodup_append]
        refine ⟨hapart.nodup, hnodup, fun name hname name' hname' heq => ?_⟩
        obtain ⟨fe, hfe, rfl⟩ := List.mem_map.mp hname
        obtain ⟨fe', hfe', rfl⟩ := List.mem_map.mp hname'
        obtain ⟨s, hs, hbytes⟩ := hfront fe hfe
        obtain ⟨j, hj, s', hs', hbytes'⟩ := hrest fe' hfe'
        rw [heq, hbytes'] at hbytes
        have hij := (decimal_append_inj (Or.inr hs') (Or.inr hs) hbytes).1
        omega

/-- The scan finds no name twice. -/
theorem getFileTable_nodup (myIp : UInt32) (shared : SharedDirs) {r : ScanResult}
    (h : getFileTable myIp shared.dirs = some r) : (r.found.map FileEntry.name).Nodup :=
  (scanTargets_nodup myIp shared.proper h).2

end TeleSync
