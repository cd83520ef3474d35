import TeleSync.Monitor.InPlace

/-!
# The directories that blocking a name creates

`file_monitor_block` looks for the longest directory of a name that is watched, and makes and watches those below it.

* `missingDirs base cs` : the directories below `base` that the components `cs` lead to;
* `Grown wd m m' names made` : from `m` to `m'` the targets `names` were added and the directories `made`, and no target
  has changed its names;
* `FreshWatches` : the new directories get descriptors that nothing uses;
* `makeDirs_fresh` : the second loop adds exactly the missing directories, if their paths fit;
* `block_makes_ancestors_iff` : so does the whole call, and it gives the array back, exactly when they fit.
-/

namespace TeleSync
open Program

/-! ## What is added -/

def missingDirs (base : CString) (cs : List CString) : List CString :=
  (cs.inits.drop 1).map (PathName.extend SLASH base)

theorem missingDirs_cons (base c : CString) (cs : List CString) :
    missingDirs base (c :: cs) = (base ++ SLASH :: c) :: missingDirs (base ++ SLASH :: c) cs := by
  unfold missingDirs
  rw [inits_drop_one, List.map_cons, PathName.extend_singleton, List.map_map]
  congr 1
  refine List.map_congr_left fun l _ => ?_
  exact PathName.extend_cons base c l

theorem length_missingDirs (base : CString) (cs : List CString) : (missingDirs base cs).length = cs.length := by
  simp [missingDirs]

theorem extend_mem_missingDirs (base : CString) {cs : List CString} (h : cs ≠ []) :
    PathName.extend SLASH base cs ∈ missingDirs base cs := by
  induction cs generalizing base with
  | nil => exact absurd rfl h
  | cons c cs ih =>
    rw [missingDirs_cons, PathName.extend_cons]
    by_cases hcs : cs = []
    · subst hcs
      rw [PathName.extend, List.flatMap_nil, List.append_nil]
      exact List.mem_cons_self
    · exact List.mem_cons_of_mem _ (ih _ hcs)

/-- System and logical name. -/
def MonitorTarget.names (t : MonitorTarget) : CString × CString := (t.sysName, t.logicName)

/-- The directory that a call makes. -/
def Call.made : Call → Option CString
  | .mkdir path => some path
  | _ => none

/-- From `m` to `m'` targets with the given names were added at the end of the list, and directories were made. -/
structure Grown (wd : CString → ℤ) (m m' : MonitorTable) (names : List (CString × CString)) (made : List CString) :
    Prop where
  head : m'.head = m.head ++ List.range' m.allocated names.length
  allocated : m'.allocated = m.allocated + names.length
  old : ∀ a < m.allocated, (m'.objs a).map MonitorTarget.names = (m.objs a).map MonitorTarget.names
  new : ∀ k n, names[k]? = some n → (m'.objs (m.allocated + k)).map MonitorTarget.names = some n
  targets : ∀ w, (∀ n ∈ names, wd n.1 ≠ w) → m'.targets w = m.targets w
  made : m'.trace.filterMap Call.made = m.trace.filterMap Call.made ++ made

section Grown
variable {wd : CString → ℤ} {m m₁ m₂ : MonitorTable} {names names' : List (CString × CString)} {made made' : List CString}

theorem Grown.refl (wd : CString → ℤ) (m : MonitorTable) : Grown wd m m [] [] where
  head := (List.append_nil _).symm
  allocated := rfl
  old _ _ := rfl
  new k n hn := by cases hn
  targets _ _ := rfl
  made := (List.append_nil _).symm

theorem Grown.trans (h : Grown wd m m₁ names made) (h' : Grown wd m₁ m₂ names' made') :
    Grown wd m m₂ (names ++ names') (made ++ made') where
  head := by
    rw [h'.head, h.head, h.allocated, List.append_assoc, List.length_append, List.range'_append_1]
  allocated := by
    rw [h'.allocated, h.allocated, List.length_append, Nat.add_assoc]
  old a ha := by
    rw [h'.old a (by rw [h.allocated]; omega), h.old a ha]
  new k n hn := by
    rcases Nat.lt_or_ge k names.length with hk | hk
    · rw [List.getElem?_append_left hk] at hn
      rw [h'.old _ (by rw [h.allocated]; omega)]
      exact h.new k n hn
    · rw [List.getElem?_append_right hk] at hn
      have hnew := h'.new _ n hn
      rw [h.allocated] at hnew
      rwa [show m.allocated + k = m.allocated + names.length + (k - names.length) by omega]
  targets w hw := by
    rw [h'.targets w fun n hn => hw n (List.mem_append_right _ hn),
      h.targets w fun n hn => hw n (List.mem_append_left _ hn)]
  made := by
    rw [h'.made, h.made, List.append_assoc]

theorem Grown.log (wd : CString → ℤ) (m : MonitorTable) (c : Call) : Grown wd m (m.log c) [] c.made.toList where
  head := (List.append_nil _).symm
  allocated := rfl
  old _ _ := rfl
  new k n hn := by cases hn
  targets _ _ := rfl
  made := by
    show (m.trace ++ [c]).filterMap Call.made = _
    rw [List.filterMap_append]
    cases hc : c.made with
    | none => simp [hc]
    | some path => simp [hc]

theorem Grown.setWd (wd : CString → ℤ) (m : MonitorTable) (p : ℕ) (w : ℤ) : Grown wd m (m.setWd p w) [] [] where
  head := (List.append_nil _).symm
  allocated := rfl
  old a _ := by
    rw [MonitorTable.objs_setWd, Function.update_apply]
    split_ifs with ha
    · rw [Option.map_map, ha]
      rfl
    · rfl
  new k n hn := by cases hn
  targets _ _ := rfl
  made := (List.append_nil _).symm

theorem Grown.insert (wd : CString → ℤ) (m : MonitorTable) (s l : CString) :
    Grown wd m (m.insert ⟨wd s, s, l⟩) [(s, l)] [] where
  head := rfl
  allocated := rfl
  old a ha := by
    rw [MonitorTable.objs_insert, Function.update_of_ne (by omega)]
  new k n hn := by
    cases k with
    | zero =>
      cases hn
      rw [Nat.add_zero, MonitorTable.objs_insert, Function.update_self]
      rfl
    | succ k => cases hn
  targets w hw := by
    show Function.update m.targets (wd s) _ w = _
    rw [Function.update_of_ne fun heq => hw (s, l) (List.mem_singleton_self _) heq.symm]
  made := (List.append_nil _).symm

theorem Grown.watchAgain (wd : CString → ℤ) (K : Kernel) (mask : WatchMask) {p : ℕ} {t : MonitorTarget}
    (ht : m.objs p = some t) : ∃ m', watchAgain K mask p m = (some (), m') ∧ Grown wd m m' [] [] := by
  refine ⟨_, watchAgain_eq K mask ht, ?_⟩
  exact (Grown.log wd m _).trans (Grown.setWd wd _ p _)

theorem Grown.live (h : Grown wd m m₁ names made) {p : ℕ} (hp : p < m.allocated) {t : MonitorTarget}
    (ht : m.objs p = some t) : ∃ t', m₁.objs p = some t' ∧ t'.sysName = t.sysName ∧ t'.logicName = t.logicName := by
  have hold := h.old p hp
  rw [ht] at hold
  obtain ⟨t', ht', hnames⟩ := Option.map_eq_some_iff.mp hold
  exact ⟨t', ht', congrArg Prod.fst hnames, congrArg Prod.snd hnames⟩

end Grown

/-! ## The second loop -/

/-- The paths get descriptors that are not in use and that the array has room for; `calloc` succeeds. -/
structure FreshWatches (K : Kernel) (wd : CString → ℤ) (m : MonitorTable) (paths : List CString) : Prop where
  watch : ∀ path ∈ paths, ∀ m', K.inotifyAddWatch m' path .defaultWatch = wd path
  range : ∀ path ∈ paths, 0 ≤ wd path ∧ wd path < WD_HASH_SIZE
  free : ∀ path ∈ paths, m.targets (wd path) = none
  distinct : (paths.map wd).Nodup
  alloc : ∀ m', K.calloc m' = true

section Loop
variable {K : Kernel} {wd : CString → ℤ} {m m₁ : MonitorTable} {p : ℕ} {t : MonitorTarget} {c : CString}
  {cs : List CString}

/-- One more directory is made and watched. -/
theorem makeDirs_step (ht : m.objs p = some t) (hp : p < m.allocated) (hsys : NameFits (t.sysName ++ SLASH :: c))
    (hlogic : NameFits (t.logicName ++ SLASH :: c))
    (hfresh : FreshWatches K wd m (missingDirs t.sysName (c :: cs))) :
    ∃ m₁, makeDirs K p (c :: cs) m = makeDirs K m.allocated cs m₁ ∧
      Grown wd m m₁ [(t.sysName ++ SLASH :: c, t.logicName ++ SLASH :: c)] [t.sysName ++ SLASH :: c] := by
  have hmem : t.sysName ++ SLASH :: c ∈ missingDirs t.sysName (c :: cs) := by
    rw [missingDirs_cons]
    exact List.mem_cons_self
  obtain ⟨m₁, hblock, hgrown₁⟩ := Grown.watchAgain wd K .blockAll ht
  obtain ⟨t₁, ht₁, -⟩ := hgrown₁.live hp ht
  have hmkdir : mkdir K (t.sysName ++ SLASH :: c) m₁ =
      (some (K.mkdir m₁ (t.sysName ++ SLASH :: c)), m₁.log (.mkdir (t.sysName ++ SLASH :: c))) := rfl
  obtain ⟨m₂, hunblock, hgrown₂⟩ :=
    Grown.watchAgain (m := m₁.log (.mkdir (t.sysName ++ SLASH :: c))) wd K .defaultWatch ht₁
  have hgrown := (hgrown₁.trans (Grown.log wd m₁ (.mkdir (t.sysName ++ SLASH :: c)))).trans hgrown₂
  have hfree : m₂.targets (wd (t.sysName ++ SLASH :: c)) = none := by
    rw [hgrown.targets _ fun n hn => absurd hn List.not_mem_nil]
    exact hfresh.free _ hmem
  have hadd := watchTargetAdd_fresh hsys hlogic (hfresh.watch _ hmem m₂) (hfresh.range _ hmem) hfree (hfresh.alloc _)
  refine ⟨((m₂.log (.inotifyAddWatch (t.sysName ++ SLASH :: c) .defaultWatch)).log .calloc).insert
    ⟨wd (t.sysName ++ SLASH :: c), t.sysName ++ SLASH :: c, t.logicName ++ SLASH :: c⟩, ?_, ?_⟩
  · have hallocated : m₂.allocated = m.allocated := hgrown.allocated
    rw [hallocated] at hadd
    rw [makeDirs, Prog.bind_of_some (deref_eq ht), blockTarget, Prog.bind_of_some hblock, Prog.bind_of_some hmkdir,
      fileMonitorUnblock, Prog.bind_of_some hunblock, Prog.bind_of_some hadd]
  · exact ((hgrown.trans (Grown.log wd m₂ _)).trans (Grown.log wd _ _)).trans (Grown.insert wd _ _ _)

theorem FreshWatches.rest (h : FreshWatches K wd m (missingDirs t.sysName (c :: cs))) {l : CString}
    (hgrown : Grown wd m m₁ [(t.sysName ++ SLASH :: c, l)] [t.sysName ++ SLASH :: c]) :
    FreshWatches K wd m₁ (missingDirs (t.sysName ++ SLASH :: c) cs) := by
  rw [missingDirs_cons] at h
  have hdistinct := h.distinct
  rw [List.map_cons, List.nodup_cons] at hdistinct
  refine ⟨fun path hpath => h.watch path (List.mem_cons_of_mem _ hpath),
    fun path hpath => h.range path (List.mem_cons_of_mem _ hpath), fun path hpath => ?_, hdistinct.2, h.alloc⟩
  rw [hgrown.targets]
  · exact h.free path (List.mem_cons_of_mem _ hpath)
  · rw [List.forall_mem_singleton]
    exact fun heq => hdistinct.1 (heq ▸ List.mem_map_of_mem hpath)

theorem Grown.added {s l : CString} {made : List CString} (h : Grown wd m m₁ [(s, l)] made) :
    m.allocated < m₁.allocated ∧ ∃ t, m₁.objs m.allocated = some t ∧ t.sysName = s ∧ t.logicName = l := by
  refine ⟨by rw [h.allocated]; exact Nat.lt_succ_self _, ?_⟩
  obtain ⟨t, ht, hnames⟩ := Option.map_eq_some_iff.mp (h.new 0 _ rfl)
  exact ⟨t, ht, congrArg Prod.fst hnames, congrArg Prod.snd hnames⟩

/-- All missing directories are made, in order, and the last of them is returned. -/
theorem makeDirs_fresh (ht : m.objs p = some t) (hp : p < m.allocated)
    (hsys : ∀ path ∈ missingDirs t.sysName cs, NameFits path)
    (hlogic : ∀ path ∈ missingDirs t.logicName cs, NameFits path)
    (hfresh : FreshWatches K wd m (missingDirs t.sysName cs)) :
    ∃ q m', makeDirs K p cs m = (some q, m') ∧
      Grown wd m m' ((missingDirs t.sysName cs).zip (missingDirs t.logicName cs)) (missingDirs t.sysName cs) ∧
      (cs = [] ∧ q = p ∨ m.allocated ≤ q ∧ q < m.allocated + cs.length) ∧
      ∃ t', m'.objs q = some t' ∧ t'.sysName = PathName.extend SLASH t.sysName cs ∧
        t'.logicName = PathName.extend SLASH t.logicName cs := by
  induction cs generalizing m p t with
  | nil =>
    exact ⟨p, m, rfl, Grown.refl wd m, Or.inl ⟨rfl, rfl⟩, t, ht, by simp [PathName.extend], by simp [PathName.extend]⟩
  | cons c cs ih =>
    have hsys' := hsys
    have hlogic' := hlogic
    rw [missingDirs_cons, List.forall_mem_cons] at hsys' hlogic'
    obtain ⟨m₁, hstep, hgrown⟩ := makeDirs_step ht hp hsys'.1 hlogic'.1 hfresh
    obtain ⟨hp₁, t₁, ht₁, hsys₁, hlogic₁⟩ := hgrown.added
    have hrest := hfresh.rest hgrown
    rw [← hsys₁] at hrest hsys'
    rw [← hlogic₁] at hlogic'
    obtain ⟨q, m', hm', hgrown', hq, t', ht', hs', hl'⟩ := ih ht₁ hp₁ hsys'.2 hlogic'.2 hrest
    rw [hsys₁, ← PathName.extend_cons] at hs'
    rw [hlogic₁, ← PathName.extend_cons] at hl'
    have hlast : m.allocated ≤ q ∧ q < m.allocated + (c :: cs).length := by
      have hnext : m₁.allocated = m.allocated + 1 := hgrown.allocated
      rw [List.length_cons]
      rcases hq with ⟨-, rfl⟩ | hq
      · omega
      · omega
    refine ⟨q, m', hstep.trans hm', ?_, Or.inr hlast, t', ht', hs', hl'⟩
    have htrans := hgrown.trans hgrown'
    rw [hsys₁, hlogic₁] at htrans
    rw [missingDirs_cons, missingDirs_cons]
    exact htrans

/-- If all fit but the paths in the file system, the loop writes over the end of `sys_dir`. -/
theorem makeDirs_crash (ht : m.objs p = some t) (hp : p < m.allocated) (hcs : cs ≠ [])
    (hsys : ¬ NameFits (PathName.extend SLASH t.sysName cs))
    (hlogic : ∀ path ∈ missingDirs t.logicName cs, NameFits path)
    (hfresh : FreshWatches K wd m (missingDirs t.sysName cs)) : (makeDirs K p cs m).1 = none := by
  induction cs generalizing m p t with
  | nil => exact absurd rfl hcs
  | cons c cs ih =>
    rw [missingDirs_cons, List.forall_mem_cons] at hlogic
    by_cases hfits : NameFits (t.sysName ++ SLASH :: c)
    · obtain ⟨m₁, hstep, hgrown⟩ := makeDirs_step ht hp hfits hlogic.1 hfresh
      obtain ⟨hp₁, t₁, ht₁, hsys₁, hlogic₁⟩ := hgrown.added
      have hrest := hfresh.rest hgrown
      rw [← hsys₁] at hrest
      rw [← hlogic₁] at hlogic
      rw [PathName.extend_cons, ← hsys₁] at hsys
      have hcs' : cs ≠ [] := by
        rintro rfl
        rw [hsys₁] at hsys
        exact hsys (by simpa [PathName.extend] using hfits)
      rw [hstep]
      exact ih ht₁ hp₁ hcs' hsys hlogic.2 hrest
    · rw [makeDirs, Prog.bind_of_some (deref_eq ht)]
      exact watch_overflow K p (fun h => hfits h.1) _ m

end Loop

/-! ## The longest watched directory -/

theorem foldl_or_eq_some {m : MonitorTable} {dir : CString} {p : ℕ} (hdir : getDirTarget m dir = some p)
    (before : List CString) {after : List CString} (hafter : ∀ d ∈ after, getDirTarget m d = none) (t : Option ℕ) :
    (before ++ dir :: after).foldl (fun t d => (getDirTarget m d).or t) t = some p := by
  have hkeep : after.foldl (fun t d => (getDirTarget m d).or t) (some p) = some p := by
    induction after with
    | nil => rfl
    | cons d after ih =>
      rw [List.forall_mem_cons] at hafter
      rw [List.foldl_cons, hafter.1, Option.none_or]
      exact ih hafter.2
  rw [List.foldl_append, List.foldl_cons, hdir, Option.some_or, hkeep]

theorem prefixesFrom_cons (pre c : CString) {cs : List CString} (h : cs ≠ []) :
    prefixesFrom pre (c :: cs) = pre :: prefixesFrom (pre ++ SLASH :: c) cs := by
  obtain ⟨d, ds, rfl⟩ := List.exists_cons_of_ne_nil h
  rfl

theorem exists_prefixesFrom_append (pre : CString) (bs : List CString) {cs : List CString} (h : cs ≠ []) :
    ∃ before, prefixesFrom pre (bs ++ cs) = before ++ prefixesFrom (PathName.extend SLASH pre bs) cs := by
  induction bs generalizing pre with
  | nil => exact ⟨[], by simp [PathName.extend]⟩
  | cons c bs ih =>
    obtain ⟨before, hbefore⟩ := ih (pre ++ SLASH :: c)
    refine ⟨pre :: before, ?_⟩
    rw [List.cons_append, prefixesFrom_cons _ _ (List.append_ne_nil_of_right_ne_nil bs h), hbefore, PathName.extend_cons,
      List.cons_append]

theorem mem_prefixesFrom {pre file dir : CString} {cs : List CString} (h : dir ∈ prefixesFrom pre (cs ++ [file])) :
    dir = pre ∨ dir ∈ missingDirs pre cs := by
  induction cs generalizing pre with
  | nil => cases h
  | cons c cs ih =>
    rw [List.cons_append, prefixesFrom_cons _ _ (List.append_ne_nil_of_right_ne_nil cs (List.cons_ne_nil _ _))] at h
    rw [missingDirs_cons]
    rcases List.mem_cons.mp h with rfl | h
    · exact Or.inl rfl
    · refine Or.inr ?_
      rcases ih h with rfl | h
      · exact List.mem_cons_self
      · exact List.mem_cons_of_mem _ h

/-- The first loop finds the longest directory that is watched. -/
theorem nearestTarget_of_missing {m : MonitorTable} {base file : CString} {cs : List CString} {p : ℕ}
    (hplain : ∀ c ∈ cs ++ [file], SLASH ∉ c) (hcs : cs ≠ []) (hbase : getDirTarget m base = some p)
    (hmissing : ∀ dir ∈ missingDirs base cs, getDirTarget m dir = none) :
    nearestTarget m (PathName.extend SLASH base (cs ++ [file])) = some p := by
  obtain ⟨b, bs, hb⟩ := List.exists_cons_of_ne_nil (List.splitOn_ne_nil SLASH base)
  obtain ⟨c, cs, rfl⟩ := List.exists_cons_of_ne_nil hcs
  have hjoin : PathName.extend SLASH b bs = base := by
    rw [← PathName.intercalate_cons, ← hb]
    exact List.intercalate_splitOn SLASH
  have hsplit : (PathName.extend SLASH base (c :: cs ++ [file])).splitOn SLASH = b :: (bs ++ (c :: cs ++ [file])) := by
    rw [PathName.splitOn_extend base hplain, hb, List.cons_append]
  obtain ⟨before, hbefore⟩ := exists_prefixesFrom_append b bs (List.cons_ne_nil c (cs ++ [file]))
  have hne : cs ++ [file] ≠ [] := List.append_ne_nil_of_right_ne_nil cs (List.cons_ne_nil file [])
  unfold nearestTarget
  rw [dirPrefixes_eq hsplit, List.cons_append, hbefore, hjoin, prefixesFrom_cons base c hne]
  refine foldl_or_eq_some hbase before (fun dir hdir => hmissing dir ?_) none
  rw [missingDirs_cons]
  rcases mem_prefixesFrom hdir with rfl | hdir
  · exact List.mem_cons_self
  · exact List.mem_cons_of_mem _ hdir

/-! ## The whole call -/

/-- What blocking a name is to do, for the longest watched directory `base`, whose target is `t`, and the missing
components `cs`: return the target of the name's directory, watch every directory on the way to it under its path below
`t`, make exactly these, change nothing else, and give the array back. -/
structure MakesAncestors (m : MonitorTable) (buf : List UInt8) (base : CString) (t : MonitorTarget) (cs : List CString)
    (r : Option (Option ℕ) × TableAndName) : Prop where
  target : ∃ q t', r.1 = some (some q) ∧ q ∈ r.2.table.head ∧ r.2.table.objs q = some t' ∧
    t'.logicName = PathName.extend SLASH base cs
  head : ∃ added, r.2.table.head = m.head ++ added ∧
    added.map (fun a => (r.2.table.objs a).map MonitorTarget.names) =
      ((missingDirs t.sysName cs).zip (missingDirs base cs)).map some
  old : ∀ a ∈ m.head, (r.2.table.objs a).map MonitorTarget.names = (m.objs a).map MonitorTarget.names
  made : r.2.table.trace.filterMap Call.made = m.trace.filterMap Call.made ++ missingDirs t.sysName cs
  buf : r.2.buf = buf

theorem map_range'_eq {β : Type*} (f : ℕ → Option β) (a : ℕ) (l : List β) (h : ∀ k b, l[k]? = some b → f (a + k) = some b) :
    (List.range' a l.length).map f = l.map some := by
  refine List.ext_getElem? fun k => ?_
  rw [List.getElem?_map, List.getElem?_map]
  by_cases hk : k < l.length
  · rw [List.getElem?_range' hk, List.getElem?_eq_getElem hk, Option.map_some, Option.map_some, one_mul,
      h k _ (List.getElem?_eq_getElem hk)]
  · rw [List.getElem?_eq_none (by rw [List.length_range']; omega), List.getElem?_eq_none (by omega)]
    rfl

theorem fits_missingDirs {base : CString} {cs : List CString} (h : NameFits (PathName.extend SLASH base cs)) :
    ∀ dir ∈ missingDirs base cs, NameFits dir := by
  intro dir hdir
  obtain ⟨l, hl, rfl⟩ := List.mem_map.mp hdir
  obtain ⟨l', rfl⟩ := (List.mem_inits _ _).mp (List.mem_of_mem_drop hl)
  unfold NameFits PathName.extend at *
  rw [List.flatMap_append, ← List.append_assoc, List.length_append] at h
  omega

section Block
variable {K : Kernel} {wd : CString → ℤ} {m : MonitorTable} {base file : CString} {cs : List CString} {p : ℕ}
  {t : MonitorTarget}

theorem Grown.block {m' : MonitorTable} {names : List (CString × CString)} {made : List CString}
    (h : Grown wd m m' names made) {q : ℕ} {t' : MonitorTarget} (hq : q < m'.allocated) (ht' : m'.objs q = some t') :
    ∃ m'', blockOut K (some q) m' = (some (some q), m'') ∧ Grown wd m m'' names made ∧
      ∃ t'', m''.objs q = some t'' ∧ t''.logicName = t'.logicName := by
  obtain ⟨m'', hblock, hgrown⟩ := Grown.watchAgain wd K .blockAll ht'
  obtain ⟨t'', ht'', -, hlogic⟩ := hgrown.live hq ht'
  refine ⟨m'', ?_, ?_, t'', ht'', hlogic⟩
  · show (TeleSync.watchAgain K .blockAll q >>= fun _ => pure (some q)) m' = _
    rw [Prog.bind_of_some hblock]
    rfl
  · have htrans := h.trans hgrown
    rwa [List.append_nil, List.append_nil] at htrans

/-- The call itself, apart from the array: the loops, or at once the target of the directory. -/
theorem fileMonitorBlock_eq (hplain : ∀ c ∈ cs ++ [file], SLASH ∉ c) (hbase : getDirTarget m base = some p)
    (ht : m.objs p = some t) (hmissing : ∀ dir ∈ missingDirs base cs, getDirTarget m dir = none) :
    fileMonitorBlock K (PathName.extend SLASH base (cs ++ [file])) false m =
      (makeDirs K p cs >>= fun q => blockOut K (some q)) m := by
  have hlogic : t.logicName = base := by
    obtain ⟨t', ht', hlogic⟩ := getDirTarget_eq_some hbase
    rw [ht] at ht'
    cases ht'
    exact hlogic
  have hfile : SLASH ∉ file := hplain file (List.mem_append_right _ (List.mem_singleton_self file))
  have hname : PathName.extend SLASH base cs ++ SLASH :: file = PathName.extend SLASH base (cs ++ [file]) :=
    PathName.extend_append_singleton base cs file
  have hslash : SLASH ∈ PathName.extend SLASH base (cs ++ [file]) := by
    rw [← hname]
    exact List.mem_append_right _ List.mem_cons_self
  have hlookup : getFileTarget (PathName.extend SLASH base (cs ++ [file])) m =
      (some (getDirTarget m (PathName.extend SLASH base cs)), m) := by
    rw [getFileTarget_eq hslash, ← hname, dirText_append hfile]
  unfold fileMonitorBlock
  rw [if_neg (not_not.mpr hslash), Prog.bind_of_some hlookup]
  by_cases hcs : cs = []
  · subst hcs
    have hdir : getDirTarget m (PathName.extend SLASH base []) = some p := by
      rw [PathName.extend, List.flatMap_nil, List.append_nil, hbase]
    rw [hdir, if_pos (Or.inr (Option.some_ne_none p))]
    rfl
  · have hdir : getDirTarget m (PathName.extend SLASH base cs) = none := by
      exact hmissing _ (extend_mem_missingDirs base hcs)
    rw [hdir, if_neg (by simp)]
    have hnear : (Prog.get fun m => nearestTarget m (PathName.extend SLASH base (cs ++ [file])) : Monitor (Option ℕ)) m =
        (some (some p), m) := by
      rw [← nearestTarget_of_missing hplain hcs hbase hmissing]
      rfl
    rw [Prog.bind_of_some hnear]
    dsimp only
    have hne : cs ++ [file] ≠ [] := List.append_ne_nil_of_right_ne_nil cs (List.cons_ne_nil file [])
    rw [Prog.bind_of_some (deref_eq ht), hlogic, drop_logicName (PathName.extend_eq_append base hne),
      List.splitOn_intercalate SLASH hplain hne, List.dropLast_concat]

/-- `file_monitor_block` makes and watches exactly the missing directories of a name, exactly when there are none or the
path of the last of them fits `sys_dir`. -/
theorem block_makes_ancestors_iff (name : Name) (rest : List UInt8)
    (hname : name.bytes = PathName.extend SLASH base (cs ++ [file])) (hplain : ∀ c ∈ cs ++ [file], SLASH ∉ c)
    (hheap : ∀ a ∈ m.head, a < m.allocated) (hbase : getDirTarget m base = some p) (ht : m.objs p = some t)
    (hmissing : ∀ dir ∈ missingDirs base cs, getDirTarget m dir = none)
    (hfresh : FreshWatches K wd m (missingDirs t.sysName cs)) :
    MakesAncestors m (name.bytes ++ 0 :: rest) base t cs
        (fileMonitorBlockInPlace K false ⟨m, name.bytes ++ 0 :: rest⟩) ↔
      cs = [] ∨ NameFits (PathName.extend SLASH t.sysName cs) := by
  have hsame := fileMonitorBlockInPlace_sameAs K rest name.nul_free false
  have hcall := fileMonitorBlock_eq (K := K) hplain hbase ht hmissing
  have hp : p < m.allocated := hheap p (List.mem_of_find?_eq_some hbase)
  have hlogicName : t.logicName = base := by
    obtain ⟨t', ht', hlogic⟩ := getDirTarget_eq_some hbase
    rw [ht] at ht'
    cases ht'
    exact hlogic
  have hlogic : ∀ dir ∈ missingDirs t.logicName cs, NameFits dir := by
    rw [hlogicName]
    refine fits_missingDirs ?_
    have hlt := name.length_lt
    rw [hname, ← PathName.extend_append_singleton, List.length_append] at hlt
    unfold NameFits
    omega
  constructor
  · rintro ⟨⟨q, -, hret, -⟩, -⟩
    by_contra hnot
    rw [not_or] at hnot
    have hcrash := makeDirs_crash ht hp hnot.1 hnot.2 hlogic hfresh
    rw [(hsame m).1, hname, hcall, Prog.fst_bind_of_none hcrash] at hret
    cases hret
  · intro hfits
    have hsys : ∀ dir ∈ missingDirs t.sysName cs, NameFits dir := by
      rcases hfits with rfl | hfits
      · exact fun dir hdir => absurd hdir List.not_mem_nil
      · exact fits_missingDirs hfits
    obtain ⟨q, m₁, hm₁, hgrown, hq, t₁, ht₁, -, hlogic₁⟩ := makeDirs_fresh ht hp hsys hlogic hfresh
    have hlen : ((missingDirs t.sysName cs).zip (missingDirs t.logicName cs)).length = cs.length := by
      rw [List.length_zip, length_missingDirs, length_missingDirs, min_self]
    have hqlt : q < m₁.allocated := by
      rw [hgrown.allocated, hlen]
      rcases hq with ⟨-, rfl⟩ | hq
      · omega
      · omega
    obtain ⟨m', hm', hgrown', t', ht', hlogic'⟩ := hgrown.block (K := K) hqlt ht₁
    have hrun : fileMonitorBlock K name.bytes false m = (some (some q), m') := by
      rw [hname, hcall, Prog.bind_of_some hm₁, hm']
    rw [hsame.eq_some hrun]
    rw [hlogicName] at hgrown' hlogic₁ hlen
    refine ⟨⟨q, t', rfl, ?_, ht', hlogic'.trans hlogic₁⟩, ⟨_, hgrown'.head, ?_⟩, fun a ha => ?_, hgrown'.made, rfl⟩
    · rw [hgrown'.head, List.mem_append, List.mem_range'_1, hlen]
      rcases hq with ⟨-, rfl⟩ | hq
      · exact Or.inl (List.mem_of_find?_eq_some hbase)
      · exact Or.inr hq
    · exact map_range'_eq _ _ _ hgrown'.new
    · exact hgrown'.old a (hheap a ha)

end Block

/-- One directory, watched under the logical name `1`. -/
def oneWatched (sysName : CString) : MonitorTable := MonitorTable.empty.insert ⟨1, sysName, [49]⟩

/-- Descriptor 2 for every path. -/
def secondDescriptor : Kernel := ⟨fun _ _ _ => 2, fun _ _ => 0, fun _ => true⟩

/-- The name `1/a/f`. -/
def nestedName : Name := ⟨[49, 47, 97, 47, 102], by decide, by decide⟩

theorem freshWatches_secondDescriptor (sysName path : CString) :
    FreshWatches secondDescriptor (fun _ => 2) (oneWatched sysName) [path] where
  watch _ _ _ := rfl
  range _ _ := by decide
  free _ _ := rfl
  distinct := List.nodup_singleton _
  alloc _ := rfl

theorem block_makes_ancestors_nestedName :
    MakesAncestors (oneWatched [47, 115]) (nestedName.bytes ++ [0]) [49] ⟨1, [47, 115], [49]⟩ [[97]]
      (fileMonitorBlockInPlace secondDescriptor false ⟨oneWatched [47, 115], nestedName.bytes ++ [0]⟩) := by
  have hname : nestedName.bytes = PathName.extend SLASH [49] ([[97]] ++ [[102]]) := rfl
  have hbase : getDirTarget (oneWatched [47, 115]) [49] = some 0 := by decide
  exact (block_makes_ancestors_iff nestedName [] hname (by decide) (by decide) hbase rfl (by decide)
    (freshWatches_secondDescriptor _ _)).mpr (Or.inr (by decide))

/-- A directory with a long path: the path of `1/a` is one byte too long for `sys_dir`. -/
theorem nested_path_overflow :
    (∀ a ∈ (oneWatched (List.replicate 126 97)).head, a < (oneWatched (List.replicate 126 97)).allocated) ∧
    getDirTarget (oneWatched (List.replicate 126 97)) [49] = some 0 ∧
    (∀ dir ∈ missingDirs [49] [[97]], getDirTarget (oneWatched (List.replicate 126 97)) dir = none) ∧
    FreshWatches secondDescriptor (fun _ => 2) (oneWatched (List.replicate 126 97))
      (missingDirs (List.replicate 126 97) [[97]]) ∧
    (fileMonitorBlockInPlace secondDescriptor false
      ⟨oneWatched (List.replicate 126 97), nestedName.bytes ++ [0]⟩).1 = none ∧
    ¬ MakesAncestors (oneWatched (List.replicate 126 97)) (nestedName.bytes ++ [0]) [49]
      ⟨1, List.replicate 126 97, [49]⟩ [[97]]
      (fileMonitorBlockInPlace secondDescriptor false ⟨oneWatched (List.replicate 126 97), nestedName.bytes ++ [0]⟩) := by
  have hcrash : (fileMonitorBlockInPlace secondDescriptor false
      ⟨oneWatched (List.replicate 126 97), nestedName.bytes ++ [0]⟩).1 = none := by decide +kernel
  refine ⟨by decide, by decide, by decide, freshWatches_secondDescriptor _ _, hcrash, ?_⟩
  rintro ⟨⟨q, t, hret, -⟩, -⟩
  rw [hcrash] at hret
  cases hret

end TeleSync
