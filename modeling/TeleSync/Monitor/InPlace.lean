import TeleSync.Monitor.Invariant
import TeleSync.Lib.CText

/-!
# Names that are cut in place

`get_file_target` and `file_monitor_block` look for the directories of a name by writing a NUL over a `/` of the
caller's array, comparing, and writing the `/` back.

* `fileMonitorBlockInPlace` : `file_monitor_block` on the array, with its two loops;
* `SameAs buf buf' c d` : started with the array `buf`, `c` does to the table what `d` does, and leaves `buf'`;
* `fileMonitorBlockInPlace_sameAs` : it does what `fileMonitorBlock` does, and the array is as before.
-/

namespace TeleSync
open Program

/-! ## The functions -/

/-- The table, and the bytes of the array that holds the name. -/
structure TableAndName where
  table : MonitorTable
  buf : List UInt8

abbrev InPlace := Prog TableAndName

/-- What does not touch the array. -/
def onTable {α : Type} (c : Monitor α) : InPlace α := fun s => ((c s.table).1, ⟨(c s.table).2, s.buf⟩)

/-- `*p = b` -/
def poke (p : ℕ) (b : UInt8) : InPlace Unit := Prog.modify fun s => { s with buf := s.buf.set p b }

/-- `get_file_target` -/
def getFileTargetInPlace : InPlace (Option ℕ) := do
  let file ← Prog.read fun s => CText.rindex 0 s.buf 0 SLASH
  poke file 0
  let target ← Prog.get fun s => getDirTarget s.table (CText.str 0 s.buf 0)
  poke file SLASH
  pure target

/-- The first loop of `file_monitor_block`, from the `/` at `firstI` on. -/
def findWatched (lastI : Option ℕ) : ℕ → ℕ → Option ℕ → InPlace (Option ℕ)
  | 0, _, _ => Prog.crash
  | fuel + 1, firstI, t =>
    if some firstI = lastI then pure t
    else do
      poke firstI 0
      let found ← Prog.get fun s => getDirTarget s.table (CText.str 0 s.buf 0)
      poke firstI SLASH
      let next ← Prog.read fun s => CText.index 0 s.buf (firstI + 1) SLASH
      findWatched lastI fuel next (found.or t)

/-- The second loop, for the target `t` and the component that begins at `p`. -/
def makeMissing (K : Kernel) : ℕ → Option ℕ → ℕ → InPlace (Option ℕ)
  | 0, _, _ => Prog.crash
  | fuel + 1, t, p => do
    let firstI ← Prog.get fun s => CText.index 0 s.buf p SLASH
    match firstI with
    | none => pure t
    | some firstI => do
      poke firstI 0
      let q ← Prog.read fun _ => t
      let target ← onTable (deref q)
      let c ← Prog.get fun s => CText.str 0 s.buf p
      let sysDir := target.sysName ++ SLASH :: c
      let logicDir := target.logicName ++ SLASH :: c
      Prog.assert (NameFits sysDir ∧ NameFits logicDir)
      onTable (blockTarget K q)
      let _ ← onTable (mkdir K sysDir)
      onTable (fileMonitorUnblock K q)
      let next ← onTable (watchTargetAdd K sysDir logicDir)
      poke firstI SLASH
      makeMissing K fuel next (firstI + 1)

/-- `file_monitor_block`. No loop takes more steps than the array has bytes. -/
def fileMonitorBlockInPlace (K : Kernel) (del : Bool) : InPlace (Option ℕ) := do
  let lastI ← Prog.get fun s => CText.rindex 0 s.buf 0 SLASH
  let firstI ← Prog.get fun s => CText.index 0 s.buf 0 SLASH
  match firstI with
  | none => pure none
  | some firstI => do
    let t ← getFileTargetInPlace
    if del ∨ t ≠ none then onTable (blockOut K t)
    else do
      let fuel ← Prog.get fun s => s.buf.length
      let near ← findWatched lastI fuel firstI none
      match near with
      | none => pure none
      | some p => do
        let target ← onTable (deref p)
        let q ← makeMissing K fuel (some p) (target.logicName.length + 1)
        onTable (blockOut K q)

/-! ## Doing the same to the table -/

/-- On an array `buf` the program returns what `d` returns and does the same to the table, and leaves `buf'`. After a
crash nothing is said of the state. -/
def SameAs {α : Type} (buf buf' : List UInt8) (c : InPlace α) (d : Monitor α) : Prop :=
  ∀ m, (c ⟨m, buf⟩).1 = (d m).1 ∧ ∀ a, (d m).1 = some a → (c ⟨m, buf⟩).2 = ⟨(d m).2, buf'⟩

namespace SameAs

variable {α β : Type} {buf buf' buf'' : List UInt8} {c : InPlace α} {d : Monitor α}

theorem ret (a : α) : SameAs buf buf (pure a) (pure a) := fun _ => ⟨rfl, fun _ _ => rfl⟩

theorem table (d : Monitor α) : SameAs buf buf (onTable d) d := fun _ => ⟨rfl, fun _ _ => rfl⟩

theorem bind {k : α → InPlace β} {k' : α → Monitor β} (hc : SameAs buf buf' c d)
    (hk : ∀ a, SameAs buf' buf'' (k a) (k' a)) : SameAs buf buf'' (c >>= k) (d >>= k') := by
  intro m
  obtain ⟨hret, hstate⟩ := hc m
  show (Prog.andThen c k ⟨m, buf⟩).1 = (Prog.andThen d k' m).1 ∧
    ∀ b, (Prog.andThen d k' m).1 = some b → (Prog.andThen c k ⟨m, buf⟩).2 = ⟨(Prog.andThen d k' m).2, buf''⟩
  unfold Prog.andThen
  generalize c ⟨m, buf⟩ = r at hret hstate
  obtain ⟨o, s⟩ := r
  cases hd : d m with
  | mk o' m' =>
    rw [hd] at hret hstate
    dsimp only at hret
    cases o' with
    | none =>
      rw [hret]
      refine ⟨rfl, fun b hb => ?_⟩
      cases hb
    | some a =>
      have hs : s = ⟨m', buf'⟩ := hstate a rfl
      rw [hret, hs]
      exact hk a m'

/-- What only reads or writes the array. -/
theorem poke {k : Unit → InPlace β} {d : Monitor β} {p : ℕ} {b : UInt8}
    (h : SameAs (buf.set p b) buf' (k ()) d) : SameAs buf buf' (TeleSync.poke p b >>= k) d := h

theorem look {k : α → InPlace β} {d : Monitor β} {f : List UInt8 → α} (h : SameAs buf buf' (k (f buf)) d) :
    SameAs buf buf' (Prog.get (fun s => f s.buf) >>= k) d := h

theorem follow {k : α → InPlace β} {d : Monitor β} {f : List UInt8 → Option α} {a : α} (hf : f buf = some a)
    (h : SameAs buf buf' (k a) d) : SameAs buf buf' (Prog.read (fun s => f s.buf) >>= k) d := by
  have hread : ∀ m, (Prog.read fun s : TableAndName => f s.buf) ⟨m, buf⟩ = (some a, ⟨m, buf⟩) := by
    intro m
    rw [← hf]
    rfl
  intro m
  rw [Prog.bind_of_some (hread m)]
  exact h m

theorem eq_some (h : SameAs buf buf' c d) {m m' : MonitorTable} {a : α} (hd : d m = (some a, m')) :
    c ⟨m, buf⟩ = (some a, ⟨m', buf'⟩) := by
  obtain ⟨hret, hstate⟩ := h m
  rw [hd] at hret hstate
  exact Prod.ext hret (hstate a rfl)

theorem crash (hc : ∀ m, (c ⟨m, buf⟩).1 = none) (hd : ∀ m, (d m).1 = none) : SameAs buf buf' c d := by
  intro m
  refine ⟨(hc m).trans (hd m).symm, fun a ha => ?_⟩
  rw [hd m] at ha
  cases ha

end SameAs

/-! ## The lookup -/

theorem exists_last_component {name : CString} (h : SLASH ∈ name) :
    ∃ file, SLASH ∉ file ∧ name = dirText name ++ SLASH :: file :=
  ⟨_, PathName.sep_notMem_of_mem_splitOn (List.getLast_mem _), eq_dirText_append_fileText h⟩

section Cut
variable {w : CString} (rest : List UInt8)

theorem rindex_name {a file : CString} (h : 0 ∉ a ++ SLASH :: file) (hfile : SLASH ∉ file) :
    CText.rindex 0 (a ++ SLASH :: file ++ 0 :: rest) 0 SLASH = some a.length := by
  have hlast := CText.rindex_eq_some [] rest h hfile
  simpa using hlast

theorem str_cut {a : CString} (h : 0 ∉ a) : CText.str 0 (a ++ 0 :: rest) 0 = a := CText.str_eq [] rest h

theorem set_slash (a b : List UInt8) (x : UInt8) : (a ++ SLASH :: b).set a.length x = a ++ x :: b :=
  CText.set_cut a b SLASH x

end Cut

theorem lookup_cut {dir : CString} (hdir : 0 ∉ dir) (rest : List UInt8) :
    SameAs (dir ++ 0 :: rest) (dir ++ 0 :: rest) (Prog.get fun s => getDirTarget s.table (CText.str 0 s.buf 0))
      (Prog.get fun m => getDirTarget m dir) := by
  intro m
  refine ⟨?_, fun _ _ => rfl⟩
  show some (getDirTarget m (CText.str 0 (dir ++ 0 :: rest) 0)) = _
  rw [str_cut rest hdir]
  rfl

theorem getFileTargetInPlace_sameAs {dir file : CString} (rest : List UInt8) (h : 0 ∉ dir ++ SLASH :: file)
    (hfile : SLASH ∉ file) :
    SameAs (dir ++ SLASH :: file ++ 0 :: rest) (dir ++ SLASH :: file ++ 0 :: rest) getFileTargetInPlace
      (getFileTarget (dir ++ SLASH :: file)) := by
  have hdir : 0 ∉ dir := fun h0 => h (List.mem_append_left _ h0)
  have hslash : SLASH ∈ dir ++ SLASH :: file := List.mem_append_right _ List.mem_cons_self
  have hlookup : getFileTarget (dir ++ SLASH :: file) = Prog.get fun m => getDirTarget m dir := by
    funext m
    rw [getFileTarget_eq hslash, dirText_append hfile]
    rfl
  rw [hlookup]
  refine SameAs.follow (f := fun buf => CText.rindex 0 buf 0 SLASH) (rindex_name rest h hfile) (SameAs.poke ?_)
  rw [List.append_assoc, List.cons_append, set_slash]
  show SameAs _ _ _ ((Prog.get fun m => getDirTarget m dir : Monitor (Option ℕ)) >>= fun target => pure target)
  refine SameAs.bind (lookup_cut hdir _) fun target => SameAs.poke ?_
  rw [CText.set_cut]
  exact SameAs.ret target

/-! ## The first loop -/

/-- What the first loop compares, when `pre` is in front of its first `/` and the components `cs` behind it. -/
def prefixesFrom (pre : CString) : List CString → List CString
  | [] => []
  | [_] => []
  | c :: d :: cs => pre :: prefixesFrom (pre ++ SLASH :: c) (d :: cs)

theorem map_prefixesFrom (w pre : CString) (cs : List CString) :
    (prefixesFrom pre cs).map (fun dir => w ++ SLASH :: dir) = prefixesFrom (w ++ SLASH :: pre) cs := by
  induction cs generalizing pre with
  | nil => rfl
  | cons c cs ih =>
    cases cs with
    | nil => rfl
    | cons d cs =>
      rw [prefixesFrom, prefixesFrom, List.map_cons, ih]
      simp

theorem inits_drop_one {α : Type*} (a : α) (l : List α) : (a :: l).inits.drop 1 = [a] :: (l.inits.drop 1).map (a :: ·) := by
  cases l with
  | nil => rfl
  | cons b l => simp

theorem dirPrefixes_eq {name c : CString} {cs : List CString} (h : name.splitOn SLASH = c :: cs) :
    dirPrefixes name = prefixesFrom c cs := by
  have hlist : ∀ (c : CString) (cs : List CString),
      ((c :: cs).dropLast.dropLast.inits.drop 1).map [SLASH].intercalate = prefixesFrom c cs := by
    intro c cs
    induction cs generalizing c with
    | nil => rfl
    | cons d cs ih =>
      cases cs with
      | nil => rfl
      | cons e cs =>
        have hcons : (c :: d :: e :: cs).dropLast.dropLast = c :: (d :: e :: cs).dropLast.dropLast := by simp
        have hne : ∀ l ∈ ((d :: e :: cs).dropLast.dropLast.inits.drop 1), l ≠ [] := by
          intro l hl
          cases hd : (d :: e :: cs).dropLast.dropLast with
          | nil =>
            rw [hd] at hl
            cases hl
          | cons a l' =>
            rw [hd, inits_drop_one] at hl
            rcases List.mem_cons.mp hl with rfl | hl
            · exact List.cons_ne_nil _ _
            · obtain ⟨l'', -, rfl⟩ := List.mem_map.mp hl
              exact List.cons_ne_nil _ _
        rw [hcons, inits_drop_one, List.map_cons, List.intercalate_singleton, List.map_map, prefixesFrom,
          ← map_prefixesFrom, ← ih d, List.map_map]
        congr 1
        refine List.map_congr_left fun l hl => ?_
        show [SLASH].intercalate (c :: l) = c ++ SLASH :: [SLASH].intercalate l
        rw [List.intercalate_cons_of_ne_nil (hne l hl)]
        simp
  unfold dirPrefixes
  rw [h, hlist]

/-- Components of a C string. -/
def PlainComponents (cs : List CString) : Prop := ∀ c ∈ cs, SLASH ∉ c ∧ 0 ∉ c

theorem nul_ne_slash : (0 : UInt8) ≠ SLASH := by decide

theorem intercalate_component (c d : CString) (cs : List CString) :
    [SLASH].intercalate (c :: d :: cs) = c ++ SLASH :: [SLASH].intercalate (d :: cs) := by
  rw [List.intercalate_cons_cons]
  simp

theorem PlainComponents.nul_notMem {cs : List CString} (h : PlainComponents cs) : 0 ∉ [SLASH].intercalate cs := by
  induction cs with
  | nil => exact List.not_mem_nil
  | cons c cs ih =>
    obtain ⟨⟨-, hc⟩, hcs⟩ := List.forall_mem_cons.mp h
    cases cs with
    | nil =>
      rw [List.intercalate_singleton]
      exact hc
    | cons d cs =>
      rw [intercalate_component]
      simp [hc, ih hcs, nul_ne_slash]

theorem index_component {c d : CString} {cs : List CString} (h : PlainComponents (c :: d :: cs))
    (pre rest : List UInt8) :
    CText.index 0 (pre ++ ([SLASH].intercalate (c :: d :: cs) ++ 0 :: rest)) pre.length SLASH =
      some (pre.length + c.length) := by
  have hnul := h.nul_notMem
  rw [intercalate_component] at hnul ⊢
  exact CText.index_eq_some pre rest hnul (h c List.mem_cons_self).1

/-- The loop compares every prefix and keeps the last target that it finds. -/
theorem findWatched_sameAs (rest : List UInt8) (cs : List CString) (hne : cs ≠ []) (hcs : PlainComponents cs)
    (pre : CString) (hpre : 0 ∉ pre) (t : Option ℕ) (fuel : ℕ) (hfuel : cs.length ≤ fuel) :
    SameAs (pre ++ SLASH :: ([SLASH].intercalate cs ++ 0 :: rest))
      (pre ++ SLASH :: ([SLASH].intercalate cs ++ 0 :: rest))
      (findWatched (some (PathName.extend SLASH pre cs.dropLast).length) fuel pre.length t)
      (Prog.get fun m => (prefixesFrom pre cs).foldl (fun t dir => (getDirTarget m dir).or t) t) := by
  induction cs generalizing pre t fuel with
  | nil => exact absurd rfl hne
  | cons c cs ih =>
    obtain ⟨fuel, rfl⟩ : ∃ n, fuel = n + 1 := ⟨fuel - 1, by simp at hfuel; omega⟩
    obtain ⟨⟨-, hnul⟩, hrest⟩ := List.forall_mem_cons.mp hcs
    cases cs with
    | nil =>
      rw [findWatched, if_pos (by simp [PathName.extend])]
      exact fun m => ⟨rfl, fun _ _ => rfl⟩
    | cons d cs =>
      have hlast : ¬ some pre.length = some (PathName.extend SLASH pre (c :: d :: cs).dropLast).length := by
        rw [Option.some.injEq, PathName.extend, List.dropLast_cons_cons]
        simp
      have hindex : CText.index 0 (pre ++ SLASH :: ([SLASH].intercalate (c :: d :: cs) ++ 0 :: rest))
          (pre.length + 1) SLASH = some (pre ++ SLASH :: c).length := by
        have hnext := index_component hcs (pre ++ [SLASH]) rest
        rw [List.length_append, List.length_singleton, List.append_assoc, List.singleton_append] at hnext
        rw [hnext, List.length_append, List.length_cons]
        congr 1
        omega
      have hbuf : pre ++ SLASH :: ([SLASH].intercalate (c :: d :: cs) ++ 0 :: rest) =
          (pre ++ SLASH :: c) ++ SLASH :: ([SLASH].intercalate (d :: cs) ++ 0 :: rest) := by
        rw [intercalate_component]
        simp
      have hrec : ∀ found : Option ℕ, _ := fun found => ih (List.cons_ne_nil d cs) hrest (pre ++ SLASH :: c)
        (by simp [hpre, hnul, nul_ne_slash]) (found.or t) fuel (by simp at hfuel ⊢; omega)
      rw [← hbuf, ← PathName.extend_cons, ← List.dropLast_cons_cons] at hrec
      rw [findWatched, if_neg hlast]
      refine SameAs.poke ?_
      rw [set_slash]
      show SameAs _ _ _ ((Prog.get fun m => getDirTarget m pre : Monitor (Option ℕ)) >>= fun found =>
        Prog.get fun m => (prefixesFrom (pre ++ SLASH :: c) (d :: cs)).foldl
          (fun t dir => (getDirTarget m dir).or t) (found.or t))
      refine SameAs.bind (lookup_cut hpre _) fun found => SameAs.poke ?_
      rw [CText.set_cut]
      exact SameAs.follow (f := fun buf => CText.index 0 buf (pre.length + 1) SLASH) hindex (hrec found)

/-! ## The second loop -/

/-- A directory that cannot be watched is a null target, and the call crashes. -/
theorem makeMissing_null (K : Kernel) (fuel p : ℕ) (s : TableAndName) :
    ((makeMissing K fuel none p >>= fun q => onTable (blockOut K q)) s).1 = none := by
  cases fuel with
  | zero => rfl
  | succ fuel =>
    rw [makeMissing]
    show (Prog.andThen (Prog.andThen (Prog.get fun s => CText.index 0 s.buf p SLASH) _) _ s).1 = none
    unfold Prog.andThen Prog.get
    dsimp only
    cases CText.index 0 s.buf p SLASH with
    | none => rfl
    | some i => rfl

/-- A path that does not fit; the loop writes over the end of `sys_dir` or `logic_dir`. -/
theorem watch_overflow {α : Type} (K : Kernel) (p : ℕ) {sysDir logicDir : CString}
    (hfits : ¬ (NameFits sysDir ∧ NameFits logicDir)) (k : Option ℕ → Monitor α) (m : MonitorTable) :
    ((do
      blockTarget K p
      let _ ← mkdir K sysDir
      fileMonitorUnblock K p
      let next ← watchTargetAdd K sysDir logicDir
      k next : Monitor α) m).1 = none := by
  refine Prog.fst_bind_eq_none _ (fun _ _ => ?_) _
  refine Prog.fst_bind_eq_none _ (fun _ _ => ?_) _
  refine Prog.fst_bind_eq_none _ (fun _ m => ?_) _
  refine Prog.fst_bind_of_none ?_ _
  refine Prog.fst_bind_of_none ?_ _
  rw [Prog.assert_of_neg hfits m]

/-- The loop makes one directory for each component that a `/` follows. -/
theorem makeMissing_sameAs (K : Kernel) (rest : List UInt8) (file : CString) (cs : List CString)
    (hplain : PlainComponents (cs ++ [file])) (pre : List UInt8) (p fuel : ℕ) (hfuel : cs.length < fuel) :
    SameAs (pre ++ ([SLASH].intercalate (cs ++ [file]) ++ 0 :: rest))
      (pre ++ ([SLASH].intercalate (cs ++ [file]) ++ 0 :: rest))
      (makeMissing K fuel (some p) pre.length >>= fun q => onTable (blockOut K q))
      (makeDirs K p cs >>= fun q => blockOut K (some q)) := by
  induction cs generalizing pre p fuel with
  | nil =>
    obtain ⟨fuel, rfl⟩ : ∃ n, fuel = n + 1 := ⟨fuel - 1, by omega⟩
    obtain ⟨hslash, hnul⟩ := hplain file (List.mem_singleton_self file)
    rw [List.nil_append, List.intercalate_singleton, makeMissing, bind_assoc]
    refine SameAs.look (f := fun buf => CText.index 0 buf pre.length SLASH) ?_
    rw [CText.index_eq_none pre rest hnul hslash]
    exact SameAs.table _
  | cons c cs ih =>
    obtain ⟨fuel, rfl⟩ : ∃ n, fuel = n + 1 := ⟨fuel - 1, by omega⟩
    obtain ⟨d, ds, hds⟩ := List.exists_cons_of_ne_nil (List.append_ne_nil_of_right_ne_nil cs (List.cons_ne_nil file []))
    have hcs : PlainComponents (cs ++ [file]) := (List.forall_mem_cons.mp hplain).2
    have hc : 0 ∉ c := (hplain c List.mem_cons_self).2
    have hbuf : [SLASH].intercalate (c :: cs ++ [file]) = c ++ SLASH :: [SLASH].intercalate (cs ++ [file]) := by
      rw [List.cons_append, hds, intercalate_component]
    have hindex : CText.index 0 (pre ++ ([SLASH].intercalate (c :: cs ++ [file]) ++ 0 :: rest)) pre.length SLASH =
        some (pre ++ c).length := by
      rw [List.length_append]
      rw [List.cons_append, hds] at hplain ⊢
      exact index_component hplain pre rest
    have hstr : CText.str 0 (pre ++ c ++ 0 :: ([SLASH].intercalate (cs ++ [file]) ++ 0 :: rest)) pre.length = c := by
      rw [List.append_assoc]
      exact CText.str_eq pre _ hc
    rw [makeMissing, makeDirs]
    simp only [bind_assoc]
    refine SameAs.look (f := fun buf => CText.index 0 buf pre.length SLASH) ?_
    rw [hindex]
    simp only [bind_assoc]
    refine SameAs.poke (SameAs.follow (f := fun _ => some p) rfl ?_)
    rw [hbuf, List.append_assoc, List.cons_append, ← List.append_assoc, set_slash]
    refine SameAs.bind (SameAs.table _) fun t => ?_
    refine SameAs.look (f := fun buf => CText.str 0 buf pre.length) ?_
    rw [hstr]
    by_cases hfits : NameFits (t.sysName ++ SLASH :: c) ∧ NameFits (t.logicName ++ SLASH :: c)
    · have hassert : (Prog.assert (NameFits (t.sysName ++ SLASH :: c) ∧ NameFits (t.logicName ++ SLASH :: c)) :
          InPlace Unit) = pure () := if_pos hfits
      rw [hassert, pure_bind]
      refine SameAs.bind (SameAs.table _) fun _ => ?_
      refine SameAs.bind (SameAs.table _) fun _ => ?_
      refine SameAs.bind (SameAs.table _) fun _ => ?_
      refine SameAs.bind (SameAs.table _) fun next => SameAs.poke ?_
      rw [CText.set_cut]
      cases next with
      | none =>
        refine SameAs.crash (fun m => ?_) fun m => rfl
        exact makeMissing_null K fuel _ _
      | some q =>
        have hrec := ih hcs (pre ++ c ++ [SLASH]) q fuel (by simp at hfuel; omega)
        rw [List.append_assoc (pre ++ c), List.singleton_append, List.length_append, List.length_singleton] at hrec
        exact hrec
    · have hassert : (Prog.assert (NameFits (t.sysName ++ SLASH :: c) ∧ NameFits (t.logicName ++ SLASH :: c)) :
          InPlace Unit) = Prog.crash := if_neg hfits
      rw [hassert]
      exact SameAs.crash (fun m => rfl) fun m => watch_overflow K p hfits _ m

/-! ## The whole call -/

theorem plainComponents_splitOn {w : CString} (h : 0 ∉ w) : PlainComponents (w.splitOn SLASH) := by
  refine fun c hc => ⟨PathName.sep_notMem_of_mem_splitOn hc, fun hnul => h ?_⟩
  have hjoin : [SLASH].intercalate (w.splitOn SLASH) = w := List.intercalate_splitOn SLASH
  rw [← hjoin]
  exact PathName.mem_intercalate hc hnul

theorem exists_components {name : CString} (h0 : 0 ∉ name) (hslash : SLASH ∈ name) :
    ∃ c cs, name.splitOn SLASH = c :: cs ∧ cs ≠ [] ∧ PlainComponents (c :: cs) ∧
      name = c ++ SLASH :: [SLASH].intercalate cs ∧ dirText name = PathName.extend SLASH c cs.dropLast := by
  obtain ⟨c, cs, hsplit⟩ := List.exists_cons_of_ne_nil (List.splitOn_ne_nil SLASH name)
  have hjoin : [SLASH].intercalate (name.splitOn SLASH) = name := List.intercalate_splitOn SLASH
  have hplain := plainComponents_splitOn h0
  have hcs : cs ≠ [] := by
    rintro rfl
    exact PathName.dropLast_splitOn_ne_nil hslash (by rw [hsplit]; rfl)
  rw [hsplit] at hplain hjoin
  refine ⟨c, cs, hsplit, hcs, hplain, ?_, ?_⟩
  · obtain ⟨d, ds, rfl⟩ := List.exists_cons_of_ne_nil hcs
    rw [← intercalate_component, hjoin]
  · rw [dirText, hsplit, List.dropLast_cons_of_ne_nil hcs, PathName.intercalate_cons]

theorem findWatched_name_sameAs {name c : CString} {cs : List CString} (rest : List UInt8) (h0 : 0 ∉ name)
    (hsplit : name.splitOn SLASH = c :: cs) (hcs : cs ≠ []) (hjoin : name = c ++ SLASH :: [SLASH].intercalate cs)
    (hdir : dirText name = PathName.extend SLASH c cs.dropLast) :
    SameAs (name ++ 0 :: rest) (name ++ 0 :: rest)
      (findWatched (some (dirText name).length) (name ++ 0 :: rest).length c.length none)
      (Prog.get fun m => nearestTarget m name) := by
  have hplain := plainComponents_splitOn h0
  rw [hsplit] at hplain
  have hfuel : cs.length ≤ (name ++ 0 :: rest).length := by
    have hle := PathName.length_splitOn_le SLASH name
    rw [hsplit, List.length_cons] at hle
    rw [List.length_append]
    omega
  have hsame := findWatched_sameAs rest cs hcs (List.forall_mem_cons.mp hplain).2 c (hplain c List.mem_cons_self).2
    none _ hfuel
  rw [← hdir, ← dirPrefixes_eq hsplit, ← List.cons_append, ← List.append_assoc, ← hjoin] at hsame
  exact hsame

theorem makeMissing_name_sameAs (K : Kernel) {name logicName w : CString} (rest : List UInt8) (h0 : 0 ∉ name)
    (hw : name = logicName ++ SLASH :: w) (p : ℕ) :
    SameAs (name ++ 0 :: rest) (name ++ 0 :: rest)
      (makeMissing K (name ++ 0 :: rest).length (some p) (logicName.length + 1) >>= fun q => onTable (blockOut K q))
      (makeDirs K p (w.splitOn SLASH).dropLast >>= fun q => blockOut K (some q)) := by
  have hlast := List.dropLast_append_getLast (List.splitOn_ne_nil SLASH w)
  have hjoin : [SLASH].intercalate (w.splitOn SLASH) = w := List.intercalate_splitOn SLASH
  have hplain : PlainComponents (w.splitOn SLASH) := by
    refine plainComponents_splitOn fun hnul => h0 ?_
    rw [hw]
    exact List.mem_append_right _ (List.mem_cons_of_mem _ hnul)
  have hfuel : (w.splitOn SLASH).dropLast.length < (name ++ 0 :: rest).length := by
    have hle := PathName.length_splitOn_le SLASH w
    rw [List.length_dropLast, hw]
    simp
    omega
  have hbuf : logicName ++ [SLASH] ++ (w ++ 0 :: rest) = name ++ 0 :: rest := by
    rw [hw]
    simp
  have hpos : (logicName ++ [SLASH]).length = logicName.length + 1 := List.length_append
  rw [← hlast] at hplain
  have hsame := makeMissing_sameAs K rest _ _ hplain (logicName ++ [SLASH]) p _ hfuel
  rw [hlast, hjoin, hbuf, hpos] at hsame
  exact hsame

theorem fileMonitorBlockInPlace_sameAs (K : Kernel) {name : CString} (rest : List UInt8) (h0 : 0 ∉ name) (del : Bool) :
    SameAs (name ++ 0 :: rest) (name ++ 0 :: rest) (fileMonitorBlockInPlace K del) (fileMonitorBlock K name del) := by
  unfold fileMonitorBlockInPlace
  refine SameAs.look (f := fun buf => CText.rindex 0 buf 0 SLASH) ?_
  refine SameAs.look (f := fun buf => CText.index 0 buf 0 SLASH) ?_
  by_cases hslash : SLASH ∈ name
  · obtain ⟨file, hfile, hname⟩ := exists_last_component hslash
    obtain ⟨c, cs, hsplit, hcs, hplain, hjoin, hdir⟩ := exists_components h0 hslash
    have hfirst : CText.index 0 (name ++ 0 :: rest) 0 SLASH = some c.length := by
      rw [hjoin] at h0 ⊢
      have hindex := CText.index_eq_some [] rest h0 (hplain c List.mem_cons_self).1
      simpa using hindex
    have hlast : CText.rindex 0 (name ++ 0 :: rest) 0 SLASH = some (dirText name).length := by
      generalize dirText name = dir at hname ⊢
      subst hname
      exact rindex_name rest h0 hfile
    have hlookup : SameAs (name ++ 0 :: rest) (name ++ 0 :: rest) getFileTargetInPlace (getFileTarget name) := by
      have hsame := getFileTargetInPlace_sameAs rest (hname ▸ h0) hfile
      rwa [← hname] at hsame
    have hfind := findWatched_name_sameAs rest h0 hsplit hcs hjoin hdir
    rw [hfirst, hlast]
    unfold fileMonitorBlock
    rw [if_neg (not_not.mpr hslash)]
    refine SameAs.bind hlookup fun target => ?_
    split_ifs with hdel
    · exact SameAs.table _
    · refine SameAs.look (f := List.length) ?_
      intro m
      have hnear : (Prog.get fun m => nearestTarget m name : Monitor (Option ℕ)) m = (some (nearestTarget m name), m) := rfl
      rw [Prog.bind_of_some hnear, Prog.bind_of_some (hfind.eq_some hnear)]
      cases hp : nearestTarget m name with
      | none => exact SameAs.ret none m
      | some p =>
        obtain ⟨t, w, ht, hw⟩ := nearestTarget_eq_some hp
        have hderef := deref_eq ht
        dsimp only
        rw [Prog.bind_of_some hderef, Prog.bind_of_some ((SameAs.table (deref p)).eq_some hderef), drop_logicName hw]
        exact makeMissing_name_sameAs K rest h0 hw p m
  · have hindex : CText.index 0 (name ++ 0 :: rest) 0 SLASH = none := CText.index_eq_none [] rest h0 hslash
    unfold fileMonitorBlock
    rw [hindex, if_pos hslash]
    exact SameAs.ret none

end TeleSync
