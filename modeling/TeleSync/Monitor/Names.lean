import TeleSync.Monitor.Invariant
import TeleSync.Lib.Transition

/-!
# Logical and system names

A logical name is the number of a configured directory and a suffix; the system name is the directory itself and the
same suffix. Both are built in several places, side by side.

* `Corresponds dirs logic sys` : the two names of one file;
* `SamePath K` : inotify gives a descriptor in use only for the path it is in use for;
* `monitoring K` : events, and the steps of the tasks that block a name and make or remove a directory, in any order;
* `names_correspond` : all targets have corresponding names in every reachable table, and the two ways to look up a
  system name agree.
-/

namespace TeleSync
open Program Transition

/-! ## Corresponding names -/

/-- The number of a configured directory and a suffix, and that directory with the same suffix. -/
def Corresponds (dirs : List CString) (logicName sysName : CString) : Prop :=
  ∃ i dir s, dirs[i]? = some dir ∧ (s = [] ∨ s.head? = some SLASH) ∧ logicName = decimal (i + 1) ++ s ∧
    sysName = dir ++ s

theorem toNat_digit {c : Char} {n : ℕ} (h : c ∈ Nat.toDigits 10 n) : 48 ≤ c.toNat ∧ c.toNat ≤ 57 :=
  Char.isDigit_iff_toNat.mp (Nat.isDigit_of_mem_toDigits (by decide) (by decide) h)

theorem decode_decimal (n : ℕ) : (decimal n).map (fun b => Char.ofNat b.toNat) = Nat.toDigits 10 n := by
  have hdigit : ∀ c ∈ Nat.toDigits 10 n, Char.ofNat (UInt8.ofNat c.toNat).toNat = c := by
    intro c hc
    obtain ⟨-, hle⟩ := toNat_digit hc
    rw [UInt8.toNat_ofNat_of_lt' (show c.toNat < 256 by omega), Char.ofNat_toNat]
  rw [decimal, List.map_map]
  exact (List.map_congr_left hdigit).trans (List.map_id _)

theorem decimal_inj {m n : ℕ} (h : decimal m = decimal n) : m = n := by
  have hdigits : Nat.toDigits 10 m = Nat.toDigits 10 n := by
    rw [← decode_decimal, ← decode_decimal, h]
  rw [← Nat.ofDigitChars_ten_toDigits (n := m), hdigits, Nat.ofDigitChars_ten_toDigits]

theorem slash_notMem_decimal (n : ℕ) : SLASH ∉ decimal n := by
  intro h
  obtain ⟨c, hc, hslash⟩ := List.mem_map.mp h
  obtain ⟨hge, hle⟩ := toNat_digit hc
  have hnat := congrArg UInt8.toNat hslash
  rw [UInt8.toNat_ofNat_of_lt' (show c.toNat < 256 by omega)] at hnat
  have : SLASH.toNat = 47 := rfl
  omega

theorem nul_notMem_decimal (n : ℕ) : 0 ∉ decimal n := by
  intro h
  obtain ⟨c, hc, hnul⟩ := List.mem_map.mp h
  obtain ⟨hge, hle⟩ := toNat_digit hc
  have hnat := congrArg UInt8.toNat hnul
  rw [UInt8.toNat_ofNat_of_lt' (show c.toNat < 256 by omega)] at hnat
  have : (0 : UInt8).toNat = 0 := rfl
  omega

section Corresponds
variable {dirs : List CString}

theorem decimal_append_inj {i j : ℕ} {s s' : CString} (hs : s = [] ∨ s.head? = some SLASH)
    (hs' : s' = [] ∨ s'.head? = some SLASH) (h : decimal i ++ s = decimal j ++ s') : i = j ∧ s = s' := by
  obtain ⟨hdecimal, hsuffix⟩ :=
    PathName.component_append_inj (slash_notMem_decimal i) (slash_notMem_decimal j) hs hs' h
  exact ⟨decimal_inj hdecimal, hsuffix⟩

theorem Corresponds.unique {name path path' : CString} (h : Corresponds dirs name path)
    (h' : Corresponds dirs name path') : path = path' := by
  obtain ⟨i, dir, s, hdir, hs, hname, rfl⟩ := h
  obtain ⟨j, dir', s', hdir', hs', hname', rfl⟩ := h'
  obtain ⟨hij, rfl⟩ := decimal_append_inj hs hs' (hname.symm.trans hname')
  obtain rfl : i = j := by omega
  rw [hdir] at hdir'
  cases hdir'
  rfl

theorem Corresponds.append {l s : CString} (h : Corresponds dirs l s) (w : CString) :
    Corresponds dirs (l ++ SLASH :: w) (s ++ SLASH :: w) := by
  obtain ⟨i, dir, r, hdir, hr, rfl, rfl⟩ := h
  refine ⟨i, dir, r ++ SLASH :: w, hdir, Or.inr ?_, List.append_assoc _ _ _, List.append_assoc _ _ _⟩
  rcases hr with rfl | hr
  · rfl
  · obtain ⟨r', rfl⟩ := List.head?_eq_some_iff.mp hr
    rfl

/-- Any component may be added to corresponding names. -/
theorem closed_corresponds : Closed (Corresponds dirs) (fun _ => True) fun _ => True :=
  ⟨fun _ _ c h _ => h.append c, fun _ _ _ _ _ => trivial, fun _ _ => trivial, fun _ => trivial, trivial⟩

end Corresponds

/-! ## Targets in use -/

/-- The descriptor is free or in use for this path. -/
def UsedFor (m : MonitorTable) (wd : ℤ) (path : CString) : Prop :=
  ∀ p t, m.targets wd = some p → m.objs p = some t → t.sysName = path

/-- `inotify_add_watch` returns a descriptor that is in use only for the path it is in use for. -/
def SamePath (K : Kernel) : Prop :=
  ∀ m path mask, 0 ≤ K.inotifyAddWatch m path mask → UsedFor m (K.inotifyAddWatch m path mask) path

/-- What is left of `name` below the target at `p` is `w`. -/
def Leads (P : CString → CString → Prop) (name w : CString) (p : ℕ) (m : MonitorTable) : Prop :=
  ∀ t, m.objs p = some t → P name (t.sysName ++ w)

section Lookup
variable {K : Kernel} (hK : SamePath K)
include hK

theorem usedFor_inotifyAddWatch (path : CString) (mask : WatchMask) :
    Triple (fun _ => True) (inotifyAddWatch K path mask) (fun wd m => 0 ≤ wd → UsedFor m wd path) fun _ => True := by
  apply Triple.bind (Q := fun wd m => 0 ≤ wd → UsedFor m wd path) (Triple.get fun m _ => hK m path mask)
  intro wd
  apply Triple.bind (Q := fun _ m => 0 ≤ wd → UsedFor m wd path)
  · exact Triple.modify fun m hm => hm
  · exact fun _ => Triple.ret fun _ hm => hm

theorem sysName_watchTargetAdd (sysName logicName : CString) :
    Triple (fun _ => True) (watchTargetAdd K sysName logicName)
      (fun r m => ∀ p, r = some p → ∀ t, m.objs p = some t → t.sysName = sysName) fun _ => True := by
  apply Triple.bind (Q := fun _ _ => True) (Triple.assert (fun _ _ _ => trivial) fun _ _ => trivial)
  intro _
  apply Triple.bind (usedFor_inotifyAddWatch hK sysName _)
  intro wd
  refine Triple.ite (fun _ => Triple.ret fun _ _ p hp => ?_) fun hwd => ?_
  · cases hp
  apply Triple.bind (Q := fun _ m => UsedFor m wd sysName)
    (Triple.assert (fun _ hm _ => hm (not_lt.mp hwd)) fun _ _ => trivial)
  intro _
  apply Triple.bind (Q := fun used m => UsedFor m wd sysName ∧ used = m.targets wd)
    (Triple.get fun _ hm => ⟨hm, rfl⟩)
  intro used
  cases used with
  | some p =>
    refine Triple.ret fun m hm q hq t ht => ?_
    cases hq
    exact hm.1 p t hm.2.symm ht
  | none =>
    apply Triple.bind (Q := fun _ _ => True)
    · exact fun m _ => ⟨fun _ _ => trivial, fun _ => trivial⟩
    intro ok
    refine Triple.ite (fun _ => ?_) fun _ => Triple.ret fun _ _ p hp => ?_
    · apply Triple.bind (Q := fun p m => p = m.allocated) (Triple.get fun _ _ => rfl)
      intro p
      apply Triple.bind (Q := fun _ m => ∀ t, m.objs p = some t → t.sysName = sysName)
      · refine Triple.modify fun m hm t ht => ?_
        rw [MonitorTable.objs_insert, hm, Function.update_self] at ht
        cases ht
        rfl
      · intro _
        refine Triple.ret fun m hm q hq => ?_
        cases hq
        exact hm
    · cases hp

variable {P : CString → CString → Prop} (hP : Closed P (fun _ => True) fun _ => True)
include hP

omit hK hP in
theorem leads_watchAgain (mask : WatchMask) (name w : CString) (p q : ℕ) :
    Triple (Leads P name w q) (watchAgain K mask p) (fun _ => Leads P name w q) fun _ => True := by
  apply Triple.bind (Q := fun _ => Leads P name w q) (Triple.read (fun _ _ hm _ => hm) fun _ _ => trivial)
  intro t
  apply Triple.bind (Q := fun _ => Leads P name w q)
  · apply Triple.bind (Q := fun _ => Leads P name w q) (Triple.get fun _ hm => hm)
    intro wd
    apply Triple.bind (Q := fun _ => Leads P name w q)
    · exact Triple.modify fun _ hm => hm
    · exact fun _ => Triple.ret fun _ hm => hm
  · intro wd
    refine Triple.modify fun m hm t ht => ?_
    rw [MonitorTable.objs_setWd, Function.update_apply] at ht
    split_ifs at ht with hq
    · obtain ⟨t', ht', rfl⟩ := Option.map_eq_some_iff.mp ht
      exact hm t' (hq ▸ ht')
    · exact hm t ht

/-- The directories `cs` of the rest of a name are made below the target, and the last of them holds the file. -/
theorem leads_makeDirs (name base : CString) (cs : List CString) (p : ℕ) :
    Triple (fun m => Holds P (fun _ => True) m ∧ Leads P name (SLASH :: [SLASH].intercalate (cs ++ [base])) p m)
      (makeDirs K p cs) (fun q m => Holds P (fun _ => True) m ∧ Leads P name (SLASH :: base) q m)
      fun _ => True := by
  induction cs generalizing p with
  | nil =>
    rw [makeDirs]
    refine Triple.ret fun m hm => ?_
    rwa [List.nil_append, List.intercalate_singleton] at hm
  | cons c cs ih =>
    rw [makeDirs]
    apply Triple.bind_fact (F := fun t => P t.logicName t.sysName ∧
      P name (t.sysName ++ SLASH :: [SLASH].intercalate (c :: cs ++ [base])))
    · exact Triple.read (fun m t hm ht => ⟨hm.1, hm.1.targets p t ht, hm.2 t ht⟩) fun _ _ => trivial
    rintro t ⟨ht, hname⟩
    apply Triple.bind (keeps_watchAgain hP _ _).triple
    intro _
    apply Triple.bind (keeps_mkdir trivial).triple
    intro _
    apply Triple.bind (keeps_watchAgain hP _ _).triple
    intro _
    have hadd := (keeps_watchTargetAdd (K := K) hP (hP.child _ _ c ht trivial)).triple.and
      (sysName_watchTargetAdd hK (t.sysName ++ SLASH :: c) (t.logicName ++ SLASH :: c))
    apply Triple.bind (hadd.conseq (fun _ hs => ⟨hs, trivial⟩) (fun _ _ hs => hs) fun _ _ => trivial)
    intro next
    cases next with
    | none => exact Triple.crash fun _ _ => trivial
    | some q =>
      refine (ih q).conseq (fun m' hm' => ⟨hm'.1, fun t' ht' => ?_⟩) (fun _ _ hs => hs) fun _ hs => hs
      rw [hm'.2 q rfl t' ht', List.append_assoc, List.cons_append]
      rwa [List.cons_append, List.intercalate_cons_of_ne_nil (List.append_ne_nil_of_right_ne_nil cs
        (List.cons_ne_nil base [])), List.append_assoc, List.singleton_append] at hname

omit hK in
theorem leads_getDirTarget {m : MonitorTable} (hm : Holds P (fun _ => True) m) {name : CString} (hslash : SLASH ∈ name)
    {p : ℕ} (hp : getDirTarget m (dirText name) = some p) : Leads P name (fileText name) p m := by
  intro t ht
  obtain ⟨t', ht', hlogic⟩ := getDirTarget_eq_some hp
  rw [ht] at ht'
  cases ht'
  have hname : name = t.logicName ++ fileText name := by
    rw [hlogic]
    exact eq_dirText_append_fileText hslash
  have hchild : P (t.logicName ++ fileText name) (t.sysName ++ fileText name) :=
    hP.child _ _ _ (hm.targets p t ht) trivial
  rwa [← hname] at hchild

omit hK in
theorem leads_blockOut (name : CString) (p : ℕ) :
    Triple (fun m => Holds P (fun _ => True) m ∧ Leads P name (fileText name) p m) (blockOut K (some p))
      (fun r m => Holds P (fun _ => True) m ∧ ∀ q, r = some q → Leads P name (fileText name) q m) fun _ => True := by
  have hleads : Triple (Leads P name (fileText name) p) (blockTarget K p)
      (fun _ => Leads P name (fileText name) p) fun _ => True := leads_watchAgain _ _ _ _ _
  have hagain := (keeps_watchAgain hP .blockAll p).triple.and hleads
  apply Triple.bind (hagain.conseq (fun _ hs => hs) (fun _ _ hs => hs) fun _ _ => trivial)
  intro _
  refine Triple.ret fun m hm => ⟨hm.1, fun q hq => ?_⟩
  cases hq
  exact hm.2

theorem leads_fromNearest (name : CString) (p : ℕ) :
    Triple (fun m => Holds P (fun _ => True) m ∧ some p = nearestTarget m name) (do
      let t ← deref p
      let q ← makeDirs K p ((name.drop (t.logicName.length + 1)).splitOn SLASH).dropLast
      blockOut K (some q))
      (fun r m => Holds P (fun _ => True) m ∧ ∀ q, r = some q → Leads P name (fileText name) q m) fun _ => True := by
  apply Triple.bind (Q := fun t m => Holds P (fun _ => True) m ∧ m.objs p = some t ∧
    ∃ rest, name = t.logicName ++ SLASH :: rest)
  · refine Triple.read (fun m t hm ht => ⟨hm.1, ht, ?_⟩) fun _ _ => trivial
    obtain ⟨t', rest, ht', hrest⟩ := nearestTarget_eq_some hm.2.symm
    rw [ht] at ht'
    cases ht'
    exact ⟨rest, hrest⟩
  rintro t m ⟨hm, ht, rest, hrest⟩
  rw [drop_logicName hrest]
  have hfile : fileText name = SLASH :: (rest.splitOn SLASH).getLast (List.splitOn_ne_nil _ _) := by
    rw [hrest]
    exact fileText_append _ _
  have hstart : Leads P name (SLASH :: [SLASH].intercalate ((rest.splitOn SLASH).dropLast ++
      [(rest.splitOn SLASH).getLast (List.splitOn_ne_nil _ _)])) p m := by
    intro t' ht'
    rw [ht] at ht'
    cases ht'
    rw [List.dropLast_append_getLast, List.intercalate_splitOn, hrest]
    exact hP.child _ _ rest (hm.targets p t ht) trivial
  have hmake := leads_makeDirs hK hP name ((rest.splitOn SLASH).getLast (List.splitOn_ne_nil _ _))
    (rest.splitOn SLASH).dropLast p
  rw [← hfile] at hmake
  exact Triple.bind hmake (fun q => leads_blockOut hP name q) m ⟨hm, hstart⟩

/-- The blocked target holds the file: the system name is its own and the last component. -/
theorem leads_fileMonitorBlock (name : CString) (del : Bool) :
    Triple (Holds P fun _ => True) (fileMonitorBlock K name del)
      (fun r m => Holds P (fun _ => True) m ∧ ∀ p, r = some p → Leads P name (fileText name) p m) fun _ => True := by
  refine Triple.ite (fun _ => Triple.ret fun m hm => ⟨hm, fun p hp => ?_⟩) fun hslash => ?_
  · cases hp
  apply Triple.bind (Q := fun r m => Holds P (fun _ => True) m ∧
    ∀ p, r = some p → Leads P name (fileText name) p m)
  · apply Triple.bind (Keeps.assert _).triple
    intro _
    exact Triple.get fun m hm => ⟨hm, fun p hp => leads_getDirTarget hP hm (not_not.mp hslash) hp⟩
  intro target
  refine Triple.ite (fun _ => ?_) fun _ => ?_
  · cases target with
    | none => exact Triple.crash fun _ _ => trivial
    | some p => exact (leads_blockOut hP name p).conseq (fun m hm => ⟨hm.1, hm.2 p rfl⟩) (fun _ _ hs => hs) fun _ hs => hs
  apply Triple.bind (Q := fun near m => Holds P (fun _ => True) m ∧ near = nearestTarget m name)
    (Triple.get fun m hm => ⟨hm.1, rfl⟩)
  intro near
  cases near with
  | none =>
    refine Triple.ret fun m hm => ⟨hm.1, fun p hp => ?_⟩
    cases hp
  | some p => exact leads_fromNearest hK hP name p

omit hK hP in
theorem leads_sysNameBelow (name : CString) (p : ℕ) :
    Triple (Leads P name (fileText name) p) (sysNameBelow name p) (fun r _ => ∀ path, r = some path → P name path)
      fun _ => True := by
  apply Triple.bind (Q := fun t _ => P name (t.sysName ++ fileText name))
    (Triple.read (fun _ t hm ht => hm t ht) fun _ _ => trivial)
  intro t
  apply Triple.bind (Q := fun _ _ => P name (t.sysName ++ fileText name))
    (Triple.assert (fun _ hm _ => hm) fun _ _ => trivial)
  intro _
  refine Triple.ret fun _ hm path hpath => ?_
  cases hpath
  exact hm

omit hK hP in
theorem leads_calloc (name : CString) (p : ℕ) : Keeps (Leads P name (fileText name) p) (calloc K) := by
  apply Keeps.bind (Keeps.get _)
  intro ok
  apply Keeps.bind
  · exact Triple.modify fun _ hm => hm
  · exact fun _ => Keeps.ret ok

omit hK hP in
/-- A system name from a blocked target corresponds to the logical name. -/
theorem leads_monitorGetSysName (name : CString) (p : ℕ) :
    Triple (Leads P name (fileText name) p) (monitorGetSysName K name p)
      (fun r _ => ∀ path, r = some path → P name path) fun _ => True := by
  apply Triple.bind (leads_calloc name p).triple
  intro ok
  refine Triple.ite (fun _ => leads_sysNameBelow name p) fun _ => Triple.ret fun _ _ path hpath => ?_
  cases hpath

omit hK in
theorem leads_getSysName (name : CString) :
    Triple (Holds P fun _ => True) (getSysName K name) (fun r _ => ∀ path, r = some path → P name path)
      fun _ => True := by
  apply Triple.bind (keeps_calloc hP).triple
  intro ok
  refine Triple.ite (fun _ => ?_) fun _ => Triple.ret fun _ _ path hpath => ?_
  · apply Triple.bind (Q := fun r m => ∀ p, r = some p → Leads P name (fileText name) p m)
    · apply Triple.bind (Q := fun _ m => Holds P (fun _ => True) m ∧ SLASH ∈ name)
        (Triple.assert (fun _ hm hslash => ⟨hm, hslash⟩) fun _ _ => trivial)
      intro _
      exact Triple.get fun m hm p hp => leads_getDirTarget hP hm.1 hm.2 hp
    · intro target
      cases target with
      | none =>
        refine Triple.ret fun _ _ path hpath => ?_
        cases hpath
      | some p => exact (leads_sysNameBelow name p).conseq (fun _ hm => hm p rfl) (fun _ _ hs => hs) fun _ hs => hs
  · cases hpath

theorem triple_blockName (name : CString) (del : Bool) :
    Triple (Holds P fun _ => True) (blockName K name del)
      (fun r m => Holds P (fun _ => True) m ∧ ∀ g, r = some g → g.logicName = name ∧ P name g.sysName)
      fun _ => True := by
  apply triple_blockName_of (leads_fileMonitorBlock hK hP name del)
  · intro p
    have hleads : Triple (Leads P name (fileText name) p) (monitorGetSysName K name p) _ _ :=
      leads_monitorGetSysName name p
    exact ((keeps_monitorGetSysName hP name p).triple.and hleads).conseq (fun _ hm => hm) (fun _ _ hm => hm)
      fun _ _ => trivial
  · exact fun p => (keeps_watchAgain hP _ p).triple

end Lookup

/-! ## Runs -/

/-- The table and what the running tasks hold. -/
structure MonitorState where
  table : MonitorTable
  held : List Held

inductive MonitorEvent where
  | inotify (e : InotifyEvent)
  | block (name : CString) (del : Bool)
  | mkdir (h : Held)
  | rmdir (h : Held)
  | unblock (h : Held)
  deriving DecidableEq

/-- The state after a function that did not crash. -/
def MonitorState.after {α : Type} (s : MonitorState) (c : Monitor α) (held : α → List Held) : Option MonitorState :=
  (c s.table).1.map fun a => ⟨(c s.table).2, held a⟩

/-- Events of the file system, and tasks that block a name, make or remove a directory of that name and unblock. -/
def monitoring (K : Kernel) : System MonitorState MonitorEvent where
  step s
    | .inotify e => s.after (handleEvent K e) fun _ => s.held
    | .block name del => s.after (blockName K name del) fun h => s.held ++ h.toList
    | .mkdir h =>
      if h ∈ s.held then s.after (fileMonitorMkdir K h.sysName h.logicName) fun _ => s.held else none
    | .rmdir h => if h ∈ s.held then s.after (fileMonitorRmdir h.sysName h.logicName) fun _ => s.held else none
    | .unblock h => if h ∈ s.held then s.after (fileMonitorUnblock K h.target) fun _ => s.held.erase h else none

/-- All targets, and all names that tasks hold, correspond. -/
structure NamesMatch (dirs : List CString) (s : MonitorState) : Prop where
  table : Holds (Corresponds dirs) (fun _ => True) s.table
  held : ∀ h ∈ s.held, Corresponds dirs h.logicName h.sysName

section Runs
variable {K : Kernel} {dirs : List CString} {s s' : MonitorState}

theorem NamesMatch.after {α : Type} {c : Monitor α} {held : α → List Held} {Q : α → MonitorTable → Prop}
    (h : NamesMatch dirs s) (hc : Triple (Holds (Corresponds dirs) fun _ => True) c Q fun _ => True)
    (hQ : ∀ a m, Q a m → NamesMatch dirs ⟨m, held a⟩) (hs : s.after c held = some s') : NamesMatch dirs s' := by
  obtain ⟨a, ha, rfl⟩ := Option.map_eq_some_iff.mp hs
  exact hQ a _ ((hc s.table h.table).1 a ha)

theorem NamesMatch.step (hK : SamePath K) (h : NamesMatch dirs s) {e : MonitorEvent}
    (hs : (monitoring K).step s e = some s') : NamesMatch dirs s' := by
  have hkept : ∀ m, Holds (Corresponds dirs) (fun _ => True) m → NamesMatch dirs ⟨m, s.held⟩ :=
    fun _ hm => ⟨hm, h.held⟩
  cases e with
  | inotify e =>
    exact h.after (keeps_handleEvent closed_corresponds e fun _ _ _ _ _ => trivial).triple (fun _ => hkept) hs
  | block name del =>
    refine h.after (triple_blockName hK closed_corresponds name del) (fun r m hm => ⟨hm.1, fun g hg => ?_⟩) hs
    rcases List.mem_append.mp hg with hg | hg
    · exact h.held g hg
    · obtain ⟨hlogic, hsys⟩ := hm.2 g (Option.mem_toList.mp hg)
      rw [hlogic]
      exact hsys
  | mkdir g =>
    simp only [monitoring] at hs
    split_ifs at hs with hg
    exact h.after (keeps_fileMonitorMkdir closed_corresponds (h.held g hg) trivial).triple (fun _ => hkept) hs
  | rmdir g =>
    simp only [monitoring] at hs
    split_ifs at hs with hg
    exact h.after (keeps_fileMonitorRmdir closed_corresponds trivial).triple (fun _ => hkept) hs
  | unblock g =>
    simp only [monitoring] at hs
    split_ifs at hs with hg
    refine h.after (keeps_watchAgain closed_corresponds _ g.target).triple (fun _ m hm => ⟨hm, fun f hf => ?_⟩) hs
    exact h.held f (List.mem_of_mem_erase hf)

mutual
theorem Directory.named_true : ∀ d : Directory, d.Named fun _ => True
  | .unreadable => trivial
  | .readable entries => DirEntries.named_true entries
theorem DirEntries.named_true : ∀ entries : DirEntries, entries.Named fun _ => True
  | .nil => trivial
  | .file rest => DirEntries.named_true rest
  | .dir _ sub rest => ⟨trivial, Directory.named_true sub, DirEntries.named_true rest⟩
end

theorem namesMatch_start {targets : List (CString × Directory)} {m : MonitorTable}
    (h : fileMonitorTask K targets .empty = (some 0, m)) : NamesMatch (targets.map Prod.fst) ⟨m, []⟩ := by
  have hkeep : Keeps (Holds (Corresponds (targets.map Prod.fst)) fun _ => True) (fileMonitorTask K targets) := by
    apply keeps_watchTargets closed_corresponds (N := fun _ => True) fun _ _ _ _ => trivial
    intro j dir d hj
    refine ⟨⟨j, dir, [], ?_, Or.inl rfl, ?_, (List.append_nil dir).symm⟩, d.named_true⟩
    · rw [List.getElem?_map, hj]
      rfl
    · rw [List.append_nil, Nat.zero_add]
  have hm := hkeep.state Holds.empty
  rw [h] at hm
  exact ⟨hm, fun g hg => (List.not_mem_nil hg).elim⟩

end Runs

/-- **Names correspond.** Whatever directories are configured and whatever events and tasks have run: every target has
corresponding names, and where `get_sys_name` and `monitor_get_sys_name` on the blocked target both give a path for a
name, they give the one that corresponds to it, whichever is asked first. -/
theorem names_correspond (K : Kernel) (hK : SamePath K) (targets : List (CString × Directory)) (m : MonitorTable)
    (hstart : fileMonitorTask K targets .empty = (some 0, m)) (es : List MonitorEvent) (s : MonitorState)
    (hrun : (monitoring K).run ⟨m, []⟩ es = some s) :
    (∀ p t, s.table.objs p = some t → Corresponds (targets.map Prod.fst) t.logicName t.sysName) ∧
      ∀ name p m₁ m₂ m₃ path path', fileMonitorBlock K name false s.table = (some (some p), m₁) →
        monitorGetSysName K name p m₁ = (some (some path), m₂) →
        getSysName K name s.table = (some (some path'), m₃) ∨ getSysName K name m₂ = (some (some path'), m₃) →
        path' = path ∧ Corresponds (targets.map Prod.fst) name path := by
  have h : NamesMatch (targets.map Prod.fst) s :=
    System.run_invariant (I := NamesMatch (targets.map Prod.fst)) (fun _ _ _ ht hstep => ht.step hK hstep)
      (namesMatch_start hstart) hrun
  refine ⟨h.table.targets, fun name p m₁ m₂ m₃ path path' hblock hmonitor hget => ?_⟩
  have hm₁ := (leads_fileMonitorBlock hK closed_corresponds name false s.table h.table).1
  rw [hblock] at hm₁
  obtain ⟨hm₁, hleads⟩ := hm₁ _ rfl
  have hpath := (leads_monitorGetSysName (K := K) name p m₁ (hleads p rfl)).1
  have hm₂ := (keeps_monitorGetSysName (K := K) closed_corresponds name p).state hm₁
  rw [hmonitor] at hpath hm₂
  have hcorr := hpath _ rfl path rfl
  have hcorr' : Corresponds (targets.map Prod.fst) name path' := by
    rcases hget with hget | hget
    · have := (leads_getSysName (K := K) closed_corresponds name s.table h.table).1
      rw [hget] at this
      exact this _ rfl path' rfl
    · have := (leads_getSysName (K := K) closed_corresponds name m₂ hm₂).1
      rw [hget] at this
      exact this _ rfl path' rfl
  exact ⟨hcorr'.unique hcorr, hcorr⟩

/-- The descriptor is in use for this path. -/
def inUseFor (m : MonitorTable) (path : CString) (wd : ℕ) : Bool :=
  ((m.targets wd).bind m.objs).any fun t => t.sysName == path

/-- A system without failures: a watched path gives its descriptor again, another path the first free one. -/
def plainKernel : Kernel where
  inotifyAddWatch m path _ :=
    match (List.range 16).find? (inUseFor m path) with
    | some wd => wd
    | none =>
      match (List.range 16).find? fun wd => (m.targets wd).isNone with
      | some wd => wd
      | none => -1
  mkdir _ _ := 0
  calloc _ := true

theorem plainKernel_samePath : SamePath plainKernel := by
  intro m path mask h0 p t hp ht
  cases hused : (List.range 16).find? (inUseFor m path) with
  | some wd =>
    have hfound := List.find?_some hused
    simp only [plainKernel, hused] at hp
    rw [inUseFor, hp, Option.bind_some, ht] at hfound
    simpa using hfound
  | none =>
    cases hfree : (List.range 16).find? fun wd => (m.targets wd).isNone with
    | some wd =>
      have hfound := List.find?_some hfree
      simp only [plainKernel, hused, hfree] at hp
      rw [hp] at hfound
      cases hfound
    | none =>
      simp only [plainKernel, hused, hfree] at h0
      omega

/-- Directory `/a` with a directory `b`; then `/a/c` is created and a task makes `1/d/e`, of which `d` is missing: both
lookups give `/a/d/e`. -/
theorem names_correspond_new_directories :
    let targets : List (CString × Directory) := [([47, 97], .readable (.dir [98] (.readable .nil) .nil))]
    let e : CString := [49, 47, 100, 47, 101]
    let es : List MonitorEvent :=
      [.inotify (.entry 0 .create true [99]), .block e false, .mkdir ⟨e, [47, 97, 47, 100, 47, 101], 3⟩,
        .unblock ⟨e, [47, 97, 47, 100, 47, 101], 3⟩]
    ∃ m s, fileMonitorTask plainKernel targets .empty = (some 0, m) ∧
      (monitoring plainKernel).run ⟨m, []⟩ es = some s ∧ s.table.head.length = 5 ∧
      (getSysName plainKernel e s.table).1 = some (some [47, 97, 47, 100, 47, 101]) ∧
      (blockName plainKernel e false s.table).1 = some (some ⟨e, [47, 97, 47, 100, 47, 101], 3⟩) ∧
      ∀ p t, s.table.objs p = some t → Corresponds (targets.map Prod.fst) t.logicName t.sysName := by
  intro targets e es
  have hzero : (fileMonitorTask plainKernel targets .empty).1 = some 0 := by decide +kernel
  have hstart : fileMonitorTask plainKernel targets .empty =
      (some 0, (fileMonitorTask plainKernel targets .empty).2) := Prod.ext hzero rfl
  have hlast : ((monitoring plainKernel).run ⟨(fileMonitorTask plainKernel targets .empty).2, []⟩ es).map
      (fun s => (s.table.head.length, (getSysName plainKernel e s.table).1,
        (blockName plainKernel e false s.table).1)) =
      some (5, some (some [47, 97, 47, 100, 47, 101]), some (some ⟨e, [47, 97, 47, 100, 47, 101], 3⟩)) := by
    decide +kernel
  obtain ⟨s, hrun, hs⟩ := Option.map_eq_some_iff.mp hlast
  simp only [Prod.mk.injEq] at hs
  obtain ⟨hlength, hget, hblock⟩ := hs
  exact ⟨_, s, hstart, hrun, hlength, hget, hblock,
    (names_correspond plainKernel plainKernel_samePath targets _ hstart es s hrun).1⟩

end TeleSync
