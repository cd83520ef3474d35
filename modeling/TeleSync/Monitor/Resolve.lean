import TeleSync.Monitor.Invariant

/-!
# Where the resolution of a name goes wrong

`file_delete` and `ptop_download_task` resolve a name by `file_monitor_block` and `monitor_get_sys_name`,
`ptop_upload_task` by `get_sys_name`. Some results of `rindex` and of the lookups are used without a check.

* `EndsWell` : a call ends with a null result or a valid one;
* `PathFits m name` : the directory of the name is watched, and the path fits its array;
* `Resolves` : the names for which each of the three callers is safe, in a given table;
* `resolution_safe_iff` : these are the names for which the calls end well whatever the system answers.
-/

namespace TeleSync
open Program

/-! ## What is asked for -/

/-- The call ends: with a null result, or with one that is valid in the table at the end. -/
def EndsWell {α : Type} (c : Monitor (Option α)) (valid : α → MonitorTable → Prop) (m : MonitorTable) : Prop :=
  ∃ r, (c m).1 = some r ∧ ∀ a, r = some a → valid a (c m).2

theorem EndsWell.of_eq {α : Type} {c : Monitor (Option α)} {valid : α → MonitorTable → Prop} {m m' : MonitorTable}
    {r : Option α} (h : c m = (some r, m')) (hr : ∀ a, r = some a → valid a m') : EndsWell c valid m := by
  unfold EndsWell
  rw [h]
  exact ⟨r, rfl, hr⟩

theorem not_endsWell {α : Type} {c : Monitor (Option α)} {valid : α → MonitorTable → Prop} {m : MonitorTable}
    (h : (c m).1 = none) : ¬ EndsWell c valid m := by
  rintro ⟨r, hr, -⟩
  rw [h] at hr
  cases hr

/-- The target is not freed. -/
def Held.Valid (g : Held) (m : MonitorTable) : Prop := ∃ t, m.objs g.target = some t

/-- A path is a string of its own. -/
def AnyPath (_ : CString) (_ : MonitorTable) : Prop := True

/-- The callers that resolve names. -/
inductive Resolver where
  | fileDelete
  | ptopDownloadTask
  | ptopUploadTask
  deriving DecidableEq

/-- The call of a resolver ends well. -/
def Resolver.Safe (K : Kernel) (name : CString) (m : MonitorTable) : Resolver → Prop
  | .fileDelete => EndsWell (blockName K name true) Held.Valid m
  | .ptopDownloadTask => EndsWell (blockName K name false) Held.Valid m
  | .ptopUploadTask => EndsWell (getSysName K name) AnyPath m

/-- The name's directory is watched, and the path of the name fits its array. -/
def PathFits (m : MonitorTable) (name : CString) : Prop :=
  ∃ p t, getDirTarget m (dirText name) = some p ∧ m.objs p = some t ∧ NameFits (t.sysName ++ fileText name)

/-- The names that a resolver can be given. -/
def Resolver.Accepts (name : CString) (m : MonitorTable) : Resolver → Prop
  | .fileDelete => SLASH ∉ name ∨ PathFits m name
  | .ptopDownloadTask =>
    SLASH ∉ name ∨ PathFits m name ∨ getDirTarget m (dirText name) = none ∧ nearestTarget m name = none
  | .ptopUploadTask => SLASH ∈ name ∧ (PathFits m name ∨ getDirTarget m (dirText name) = none)

/-! ## The parts -/

section Parts
variable {K : Kernel} {m : MonitorTable} {name : CString} {p : ℕ} {t : MonitorTarget}

theorem watchAgain_live (mask : WatchMask) (ht : m.objs p = some t) :
    ∃ m' wd, watchAgain K mask p m = (some (), m') ∧ m'.objs p = some { t with wd := wd } := by
  refine ⟨(m.log (.inotifyAddWatch t.sysName mask)).setWd p (K.inotifyAddWatch m t.sysName mask),
    K.inotifyAddWatch m t.sysName mask, watchAgain_eq K mask ht, ?_⟩
  rw [MonitorTable.objs_setWd, Function.update_self, MonitorTable.objs_log, ht]
  rfl

theorem sysNameBelow_eq (hslash : SLASH ∈ name) (ht : m.objs p = some t)
    (hfits : NameFits (t.sysName ++ fileText name)) :
    sysNameBelow name p m = (some (some (t.sysName ++ fileText name)), m) := by
  unfold sysNameBelow
  rw [Prog.bind_of_some (deref_eq ht), Prog.bind_of_some (Prog.assert_of_pos ⟨hslash, hfits⟩ m)]
  rfl

theorem sysNameBelow_crash (ht : m.objs p = some t) (hfits : ¬ NameFits (t.sysName ++ fileText name)) :
    (sysNameBelow name p m).1 = none := by
  unfold sysNameBelow
  rw [Prog.bind_of_some (deref_eq ht)]
  refine Prog.fst_bind_of_none ?_ _
  rw [Prog.assert_of_neg fun h => hfits h.2]

/-- The target of the name's directory, if there is one, is what `file_monitor_block` returns. -/
theorem fileMonitorBlock_watched (del : Bool) (hslash : SLASH ∈ name) (hp : getDirTarget m (dirText name) = some p)
    (ht : m.objs p = some t) :
    ∃ m' wd, fileMonitorBlock K name del m = (some (some p), m') ∧ m'.objs p = some { t with wd := wd } := by
  obtain ⟨m', wd, hblock, ht'⟩ := watchAgain_live (K := K) .blockAll ht
  refine ⟨m', wd, ?_, ht'⟩
  unfold fileMonitorBlock
  rw [if_neg (not_not.mpr hslash), Prog.bind_of_some (getFileTarget_eq hslash m), hp,
    if_pos (Or.inr (Option.some_ne_none p))]
  show (watchAgain K .blockAll p >>= fun _ => pure (some p)) m = _
  rw [Prog.bind_of_some hblock]
  rfl

/-- A name whose directory is watched is resolved, if the path fits. -/
theorem endsWell_of_fits (K : Kernel) (del : Bool) (hslash : SLASH ∈ name) (h : PathFits m name) :
    EndsWell (blockName K name del) Held.Valid m := by
  obtain ⟨p, t, hp, ht, hfits⟩ := h
  obtain ⟨m₁, wd, hblock, ht₁⟩ := fileMonitorBlock_watched (K := K) del hslash hp ht
  have ht₂ : (m₁.log .calloc).objs p = some { t with wd := wd } := ht₁
  cases hok : K.calloc m₁ with
  | true =>
    have hget : monitorGetSysName K name p m₁ = (some (some (t.sysName ++ fileText name)), m₁.log .calloc) := by
      unfold monitorGetSysName
      rw [Prog.bind_of_some (calloc_eq K m₁), hok, if_pos rfl, sysNameBelow_eq hslash ht₂ hfits]
    have hrun : blockName K name del m = (some (some ⟨name, t.sysName ++ fileText name, p⟩), m₁.log .calloc) := by
      unfold blockName
      rw [Prog.bind_of_some hblock]
      show (monitorGetSysName K name p >>= _) m₁ = _
      rw [Prog.bind_of_some hget]
      rfl
    refine EndsWell.of_eq hrun ?_
    rintro g ⟨⟩
    exact ⟨_, ht₂⟩
  | false =>
    have hget : monitorGetSysName K name p m₁ = (some none, m₁.log .calloc) := by
      unfold monitorGetSysName
      rw [Prog.bind_of_some (calloc_eq K m₁), hok, if_neg (by decide)]
      rfl
    obtain ⟨m₂, -, hunblock, -⟩ := watchAgain_live (K := K) .defaultWatch ht₂
    have hrun : blockName K name del m = (some none, m₂) := by
      unfold blockName
      rw [Prog.bind_of_some hblock]
      show (monitorGetSysName K name p >>= _) m₁ = _
      rw [Prog.bind_of_some hget]
      show (watchAgain K .defaultWatch p >>= _) (m₁.log .calloc) = _
      rw [Prog.bind_of_some hunblock]
      rfl
    refine EndsWell.of_eq hrun ?_
    rintro g ⟨⟩

theorem blockName_overflow (hK : ∀ m, K.calloc m = true) (del : Bool) (hslash : SLASH ∈ name)
    (hp : getDirTarget m (dirText name) = some p) (ht : m.objs p = some t)
    (hfits : ¬ NameFits (t.sysName ++ fileText name)) : (blockName K name del m).1 = none := by
  obtain ⟨m₁, wd, hblock, ht₁⟩ := fileMonitorBlock_watched (K := K) del hslash hp ht
  have ht₂ : (m₁.log .calloc).objs p = some { t with wd := wd } := ht₁
  unfold blockName
  rw [Prog.bind_of_some hblock]
  show ((monitorGetSysName K name p >>= _) m₁).1 = none
  refine Prog.fst_bind_of_none ?_ _
  unfold monitorGetSysName
  rw [Prog.bind_of_some (calloc_eq K m₁), hK, if_pos rfl]
  exact sysNameBelow_crash ht₂ hfits

theorem blockName_null (K : Kernel) (del : Bool) (h : fileMonitorBlock K name del m = (some none, m)) :
    EndsWell (blockName K name del) Held.Valid m := by
  have hrun : blockName K name del m = (some none, m) := by
    unfold blockName
    rw [Prog.bind_of_some h]
    rfl
  refine EndsWell.of_eq hrun ?_
  rintro g ⟨⟩

theorem fileMonitorBlock_plain (K : Kernel) (del : Bool) (hslash : SLASH ∉ name) (m : MonitorTable) :
    fileMonitorBlock K name del m = (some none, m) := by
  unfold fileMonitorBlock
  rw [if_pos hslash]
  rfl

/-- `file_delete` goes on to `out` with a null target. -/
theorem fileMonitorBlock_delete (K : Kernel) (hslash : SLASH ∈ name) (h : getDirTarget m (dirText name) = none) :
    (fileMonitorBlock K name true m).1 = none := by
  unfold fileMonitorBlock
  rw [if_neg (not_not.mpr hslash), Prog.bind_of_some (getFileTarget_eq hslash m), if_pos (Or.inl rfl), h]
  rfl

theorem fileMonitorBlock_unwatched (K : Kernel) (hslash : SLASH ∈ name) (h : getDirTarget m (dirText name) = none)
    (hnear : nearestTarget m name = none) : fileMonitorBlock K name false m = (some none, m) := by
  have hget : (Prog.get fun m => nearestTarget m name : Monitor (Option ℕ)) m = (some none, m) := by
    rw [← hnear]
    rfl
  unfold fileMonitorBlock
  rw [if_neg (not_not.mpr hslash), Prog.bind_of_some (getFileTarget_eq hslash m), h, if_neg (by simp),
    Prog.bind_of_some hget]
  rfl

theorem watchTargetAdd_unwatchable {sysName : CString} (logicName : CString) (m : MonitorTable)
    (hK : K.inotifyAddWatch m sysName .defaultWatch = -1) : (watchTargetAdd K sysName logicName m).1 = none ∨
      ∃ m', watchTargetAdd K sysName logicName m = (some none, m') := by
  have hwatch : inotifyAddWatch K sysName .defaultWatch m =
      (some (-1), m.log (.inotifyAddWatch sysName .defaultWatch)) := by
    rw [← hK]
    rfl
  unfold watchTargetAdd
  by_cases hfits : NameFits sysName ∧ NameFits logicName
  · refine Or.inr ⟨m.log (.inotifyAddWatch sysName .defaultWatch), ?_⟩
    rw [Prog.bind_of_some (Prog.assert_of_pos hfits m), Prog.bind_of_some hwatch, if_pos (by decide)]
    rfl
  · refine Or.inl (Prog.fst_bind_of_none ?_ _)
    rw [Prog.assert_of_neg hfits]

theorem makeDirs_unwatchable (hK : ∀ m path, K.inotifyAddWatch m path .defaultWatch = -1) (c : CString)
    (cs : List CString) (ht : m.objs p = some t) : (makeDirs K p (c :: cs) m).1 = none := by
  rw [makeDirs, Prog.bind_of_some (deref_eq ht)]
  refine Prog.fst_bind_eq_none _ (fun _ _ => ?_) _
  refine Prog.fst_bind_eq_none _ (fun _ _ => ?_) _
  refine Prog.fst_bind_eq_none _ (fun _ m => ?_) _
  rcases watchTargetAdd_unwatchable (t.logicName ++ SLASH :: c) m (hK m _) with hcrash | ⟨m', hnull⟩
  · exact Prog.fst_bind_of_none hcrash _
  · rw [Prog.bind_of_some hnull]
    rfl

/-- A directory on the way to the name is watched, but not the last one, and the next one cannot be. -/
theorem fileMonitorBlock_unwatchable (hK : ∀ m path, K.inotifyAddWatch m path .defaultWatch = -1)
    (hslash : SLASH ∈ name) (h : getDirTarget m (dirText name) = none) (hnear : nearestTarget m name = some p) :
    (fileMonitorBlock K name false m).1 = none := by
  obtain ⟨dir, hdir, hp⟩ := exists_of_nearestTarget hnear
  obtain ⟨t, ht, rfl⟩ := getDirTarget_eq_some hp
  obtain ⟨w, hw⟩ := exists_of_mem_dirPrefixes hdir
  have hget : (Prog.get fun m => nearestTarget m name : Monitor (Option ℕ)) m = (some (some p), m) := by
    rw [← hnear]
    rfl
  have hcs : (w.splitOn SLASH).dropLast ≠ [] := by
    refine PathName.dropLast_splitOn_ne_nil ?_
    by_contra hnot
    rw [hw, dirText_append hnot, hp] at h
    cases h
  obtain ⟨c, cs, hsplit⟩ := List.exists_cons_of_ne_nil hcs
  unfold fileMonitorBlock
  rw [if_neg (not_not.mpr hslash), Prog.bind_of_some (getFileTarget_eq hslash m), h, if_neg (by simp),
    Prog.bind_of_some hget]
  show ((deref p >>= _) m).1 = none
  rw [Prog.bind_of_some (deref_eq ht), drop_logicName hw, hsplit]
  exact Prog.fst_bind_of_none (makeDirs_unwatchable hK c cs ht) _

theorem getSysName_eq (hK : K.calloc m = true) (hslash : SLASH ∈ name) :
    getSysName K name m = (match getDirTarget m (dirText name) with
      | none => pure none
      | some p => sysNameBelow name p : Monitor (Option CString)) (m.log .calloc) := by
  unfold getSysName
  rw [Prog.bind_of_some (calloc_eq K m), hK, if_pos rfl, Prog.bind_of_some (getFileTarget_eq hslash _)]
  rfl

end Parts

/-! ## The three callers -/

/-- The system answers every watch with an error. -/
def watchesFail : Kernel := ⟨fun _ _ _ => -1, fun _ _ => 0, fun _ => true⟩

theorem pathFits_or_not (m : MonitorTable) (name : CString) :
    PathFits m name ∨ getDirTarget m (dirText name) = none ∨
      ∃ p t, getDirTarget m (dirText name) = some p ∧ m.objs p = some t ∧
        ¬ NameFits (t.sysName ++ fileText name) := by
  cases hp : getDirTarget m (dirText name) with
  | none => exact Or.inr (Or.inl rfl)
  | some p =>
    obtain ⟨t, ht, -⟩ := getDirTarget_eq_some hp
    by_cases hfits : NameFits (t.sysName ++ fileText name)
    · exact Or.inl ⟨p, t, hp, ht, hfits⟩
    · exact Or.inr (Or.inr ⟨p, t, rfl, ht, hfits⟩)

theorem fileDelete_safe_iff (m : MonitorTable) (name : CString) :
    (∀ K, Resolver.fileDelete.Safe K name m) ↔ Resolver.fileDelete.Accepts name m := by
  by_cases hslash : SLASH ∈ name
  · refine ⟨fun h => Or.inr ?_, fun h K => ?_⟩
    · rcases pathFits_or_not m name with hfits | hnone | ⟨p, t, hp, ht, hfits⟩
      · exact hfits
      · refine absurd (h watchesFail) (not_endsWell ?_)
        exact Prog.fst_bind_of_none (fileMonitorBlock_delete watchesFail hslash hnone) _
      · exact absurd (h watchesFail) (not_endsWell (blockName_overflow (fun _ => rfl) true hslash hp ht hfits))
    · exact endsWell_of_fits K true hslash (h.resolve_left (not_not.mpr hslash))
  · exact iff_of_true (fun K => blockName_null K true (fileMonitorBlock_plain K true hslash m)) (Or.inl hslash)

theorem ptopDownloadTask_safe_iff (m : MonitorTable) (name : CString) :
    (∀ K, Resolver.ptopDownloadTask.Safe K name m) ↔ Resolver.ptopDownloadTask.Accepts name m := by
  by_cases hslash : SLASH ∈ name
  · refine ⟨fun h => Or.inr ?_, fun h K => ?_⟩
    · rcases pathFits_or_not m name with hfits | hnone | ⟨p, t, hp, ht, hfits⟩
      · exact Or.inl hfits
      · refine Or.inr ⟨hnone, ?_⟩
        cases hnear : nearestTarget m name with
        | none => rfl
        | some p =>
          refine absurd (h watchesFail) (not_endsWell ?_)
          exact Prog.fst_bind_of_none (fileMonitorBlock_unwatchable (fun _ _ => rfl) hslash hnone hnear) _
      · exact absurd (h watchesFail) (not_endsWell (blockName_overflow (fun _ => rfl) false hslash hp ht hfits))
    · rcases h.resolve_left (not_not.mpr hslash) with hfits | ⟨hnone, hnear⟩
      · exact endsWell_of_fits K false hslash hfits
      · exact blockName_null K false (fileMonitorBlock_unwatched K hslash hnone hnear)
  · exact iff_of_true (fun K => blockName_null K false (fileMonitorBlock_plain K false hslash m)) (Or.inl hslash)

theorem ptopUploadTask_safe_iff (m : MonitorTable) (name : CString) :
    (∀ K, Resolver.ptopUploadTask.Safe K name m) ↔ Resolver.ptopUploadTask.Accepts name m := by
  by_cases hslash : SLASH ∈ name
  · refine ⟨fun h => ⟨hslash, ?_⟩, fun h K => ?_⟩
    · rcases pathFits_or_not m name with hfits | hnone | ⟨p, t, hp, ht, hfits⟩
      · exact Or.inl hfits
      · exact Or.inr hnone
      · refine absurd (h watchesFail) (not_endsWell ?_)
        rw [getSysName_eq rfl hslash, hp]
        exact sysNameBelow_crash (m := m.log .calloc) ht hfits
    · cases hok : K.calloc m with
      | false =>
        have hrun : getSysName K name m = (some none, m.log .calloc) := by
          unfold getSysName
          rw [Prog.bind_of_some (calloc_eq K m), hok, if_neg (by decide)]
          rfl
        exact EndsWell.of_eq hrun fun _ _ => trivial
      | true =>
        rcases h.2 with ⟨p, t, hp, ht, hfits⟩ | hnone
        · have hrun := getSysName_eq hok hslash
          rw [hp] at hrun
          dsimp only at hrun
          rw [sysNameBelow_eq (m := m.log .calloc) hslash ht hfits] at hrun
          exact EndsWell.of_eq hrun fun _ _ => trivial
        · have hrun := getSysName_eq hok hslash
          rw [hnone] at hrun
          exact EndsWell.of_eq hrun fun _ _ => trivial
  · refine iff_of_false (fun h => ?_) fun h => hslash h.1
    refine absurd (h watchesFail) (not_endsWell ?_)
    unfold getSysName
    have halloc : watchesFail.calloc m = true := rfl
    rw [Prog.bind_of_some (calloc_eq watchesFail m), if_pos halloc]
    refine Prog.fst_bind_of_none ?_ _
    refine Prog.fst_bind_of_none ?_ _
    rw [Prog.assert_of_neg hslash]

/-- A resolver is safe for a name, whatever `mkdir`, `inotify_add_watch` and `calloc` answer, exactly if it accepts the
name. -/
theorem resolution_safe_iff (r : Resolver) (m : MonitorTable) (name : CString) :
    (∀ K, r.Safe K name m) ↔ r.Accepts name m := by
  cases r with
  | fileDelete => exact fileDelete_safe_iff m name
  | ptopDownloadTask => exact ptopDownloadTask_safe_iff m name
  | ptopUploadTask => exact ptopUploadTask_safe_iff m name

/-- A deletion in a directory that is not watched, a download into one that cannot be, and an upload of a name without a
`/`. -/
theorem null_target_used :
    ¬ Resolver.fileDelete.Safe watchesFail [49, 47, 97, 47, 102] (MonitorTable.empty.insert ⟨1, [47, 115], [49]⟩) ∧
    ¬ Resolver.ptopDownloadTask.Safe watchesFail [49, 47, 97, 47, 102]
      (MonitorTable.empty.insert ⟨1, [47, 115], [49]⟩) ∧
    ¬ Resolver.ptopUploadTask.Safe watchesFail [102] (MonitorTable.empty.insert ⟨1, [47, 115], [49]⟩) :=
  ⟨not_endsWell (by decide +kernel), not_endsWell (by decide +kernel), not_endsWell (by decide +kernel)⟩

end TeleSync
