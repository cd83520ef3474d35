import TeleSync.Table.Refine

/-!
# The recorded type

An entry is created with the timestamp, type and owners of what created it. `file_entry_update` moves the timestamp
and the owners to a newer version and leaves the type.

* `TypeState`, `typing` : a table with the entries handled for each name since its last deletion;
* `TypesFollow` : every recorded type was reported with the recorded timestamp;
* `KeepsType` : an entry that is newer than what is recorded for its name has the recorded type;
* `types_follow` : types follow versions along every run of such entries.
-/

namespace TeleSync
open Transition

/-- The table, and for each name the entries that were added or updated since it was last deleted. -/
structure TypeState where
  ft : FileTable
  handled : Name → List TransFileEntry

/-- Before the first call the entries of the table itself count as handled. -/
def TypeState.start (T₀ : FileTable) : TypeState :=
  ⟨T₀, fun name => ((fileTableSearch T₀ name).map transEntryFillFrom).toList⟩

/-- `file_table_add`, `file_table_update` and `file_table_delete` calls. -/
inductive TypeCall where
  | add (te : TransFileEntry)
  | update (te : TransFileEntry)
  | delete (te : TransFileEntry)

/-- One more entry handled for its name. -/
def TypeState.handle (s : TypeState) (ft : FileTable) (te : TransFileEntry) : TypeState :=
  ⟨ft, Function.update s.handled te.name (s.handled te.name ++ [te])⟩

def typing : System TypeState TypeCall where
  step s
    | .add te => some (s.handle (fileTableAdd s.ft te).1 te)
    | .update te => some (s.handle (fileTableUpdate s.ft te).1 te)
    | .delete te => some ⟨(fileTableDelete s.ft te).1, Function.update s.handled te.name []⟩

/-- Each recorded type is the type of an entry of that name, handled since its last deletion, with the recorded
timestamp. -/
def TypesFollow (s : TypeState) : Prop :=
  ∀ name r, s.ft.view name = some r →
    ∃ te ∈ s.handled name, te.timestamp = r.timestamp ∧ te.fileType = r.type

/-- A strictly newer entry for a known name has the recorded type. -/
def KeepsType (s : TypeState) : TypeCall → Prop
  | .add te => ∀ r, s.ft.view te.name = some r → r.timestamp < te.timestamp → te.fileType = r.type
  | .update te => ∀ r, s.ft.view te.name = some r → r.timestamp < te.timestamp → te.fileType = r.type
  | .delete _ => True

instance (s : TypeState) : ∀ c, Decidable (KeepsType s c)
  | .add te =>
    inferInstanceAs (Decidable (∀ r ∈ s.ft.view te.name, r.timestamp < te.timestamp → te.fileType = r.type))
  | .update te =>
    inferInstanceAs (Decidable (∀ r ∈ s.ft.view te.name, r.timestamp < te.timestamp → te.fileType = r.type))
  | .delete _ => isTrue trivial

/-! ## One call -/

section Calls
variable {s : TypeState} {te : TransFileEntry}

/-- The merged record has the version of `te`, with its type, or the version and the type it had. -/
theorem mergeRecord_version {r : FileRecord} (h : r.timestamp < te.timestamp → te.fileType = r.type) :
    (te.timestamp = (mergeRecord r te).timestamp ∧ te.fileType = (mergeRecord r te).type) ∨
      (r.timestamp = (mergeRecord r te).timestamp ∧ r.type = (mergeRecord r te).type) := by
  unfold mergeRecord
  split_ifs with hlt heq
  · exact Or.inl ⟨rfl, h hlt⟩
  · exact Or.inr ⟨rfl, rfl⟩
  · exact Or.inr ⟨rfl, rfl⟩

/-- A call that leaves the records of other names alone and merges `te` into the record of its own. -/
theorem TypesFollow.handle (h : TypesFollow s) {ft : FileTable}
    (hother : ∀ name, name ≠ te.name → ft.view name = s.ft.view name)
    (hself : ∀ r, ft.view te.name = some r →
      r = newRecord te ∨ ∃ r₀, s.ft.view te.name = some r₀ ∧ r = mergeRecord r₀ te)
    (hok : ∀ r, s.ft.view te.name = some r → r.timestamp < te.timestamp → te.fileType = r.type) :
    TypesFollow (s.handle ft te) := by
  intro name r hr
  by_cases hn : name = te.name
  · subst hn
    have hhandled : (s.handle ft te).handled te.name = s.handled te.name ++ [te] := Function.update_self _ _ _
    have hte : te ∈ s.handled te.name ++ [te] := List.mem_append_right _ (List.mem_singleton_self te)
    rw [hhandled]
    rcases hself r hr with rfl | ⟨r₀, hr₀, rfl⟩
    · exact ⟨te, hte, rfl, rfl⟩
    · rcases mergeRecord_version (hok r₀ hr₀) with hnew | ⟨hts, hty⟩
      · exact ⟨te, hte, hnew⟩
      · obtain ⟨e, he, hts', hty'⟩ := h te.name r₀ hr₀
        exact ⟨e, List.mem_append_left _ he, hts'.trans hts, hty'.trans hty⟩
  · have hhandled : (s.handle ft te).handled name = s.handled name := Function.update_of_ne hn _ _
    rw [hhandled]
    exact h name r ((hother name hn).symm.trans hr)

theorem TypesFollow.add (h : TypesFollow s)
    (hok : ∀ r, s.ft.view te.name = some r → r.timestamp < te.timestamp → te.fileType = r.type) :
    TypesFollow (s.handle (fileTableAdd s.ft te).1 te) := by
  have hview := FileTable.view_add s.ft te
  refine h.handle (fun name hn => ?_) (fun r hr => ?_) hok
  · rw [hview, Function.update_of_ne hn]
  · rw [hview, Function.update_self, Option.some.injEq] at hr
    subst hr
    cases hv : s.ft.view te.name with
    | none => exact Or.inl rfl
    | some r₀ => exact Or.inr ⟨r₀, rfl, rfl⟩

theorem TypesFollow.update (h : TypesFollow s)
    (hok : ∀ r, s.ft.view te.name = some r → r.timestamp < te.timestamp → te.fileType = r.type) :
    TypesFollow (s.handle (fileTableUpdate s.ft te).1 te) := by
  have hview := FileTable.view_update s.ft te
  refine h.handle (fun name hn => ?_) (fun r hr => ?_) hok
  · rw [hview, Function.update_of_ne hn]
  · rw [hview, Function.update_self] at hr
    obtain ⟨r₀, hr₀, rfl⟩ := Option.map_eq_some_iff.mp hr
    exact Or.inr ⟨r₀, hr₀, rfl⟩

theorem TypesFollow.delete (h : TypesFollow s) (hw : s.ft.Wf) (te : TransFileEntry) :
    TypesFollow ⟨(fileTableDelete s.ft te).1, Function.update s.handled te.name []⟩ := by
  intro name r hr
  dsimp only at hr ⊢
  rw [FileTable.view_delete hw] at hr
  by_cases hn : name = te.name
  · rw [hn, Function.update_self] at hr
    cases hr
  · rw [Function.update_of_ne hn] at hr ⊢
    exact h name r hr

end Calls

theorem typesFollow_step {s s' : TypeState} {c : TypeCall} (h : s.ft.Wf ∧ TypesFollow s) (hok : KeepsType s c)
    (hs : typing.step s c = some s') : s'.ft.Wf ∧ TypesFollow s' := by
  obtain ⟨hw, h⟩ := h
  cases c with
  | add te =>
    cases hs
    exact ⟨hw.add te, h.add hok⟩
  | update te =>
    cases hs
    exact ⟨hw.update te, h.update hok⟩
  | delete te =>
    cases hs
    exact ⟨hw.delete te, h.delete hw te⟩

theorem typesFollow_start (T₀ : FileTable) : TypesFollow (TypeState.start T₀) := by
  intro name r hr
  obtain ⟨fe, hfe, rfl⟩ := Option.map_eq_some_iff.mp hr
  refine ⟨transEntryFillFrom fe, ?_, rfl, rfl⟩
  simp only [TypeState.start] at hfe ⊢
  rw [hfe]
  exact List.mem_singleton_self _

/-- **The recorded type follows the version.** From every well-formed table, along every sequence of adds, updates and
deletes in which no strictly newer entry changes the type of a known name, each recorded type was reported together
with the recorded timestamp since the last deletion of the name. -/
theorem types_follow (T₀ : FileTable) (hw : T₀.Wf) (calls : List TypeCall)
    (hok : typing.RunMeets KeepsType (TypeState.start T₀) calls) :
    typing.Always TypesFollow (TypeState.start T₀) calls := by
  have hall : typing.Always (fun s => s.ft.Wf ∧ TypesFollow s) (TypeState.start T₀) calls :=
    System.always_of_runMeets (fun _ _ _ h hmeets hs => typesFollow_step h hmeets hs) ⟨hw, typesFollow_start T₀⟩ hok
  exact hall.mono fun _ h => h.2

/-- A file, a newer version of it, its deletion, and a directory of the same name. -/
theorem types_follow_deleted_between :
    let f : Name := ⟨[102], by decide, by decide⟩
    let calls : List TypeCall :=
      [.add ⟨f, 1, .fileAdd, .regular, [⟨1, P2P_PORT⟩]⟩, .update ⟨f, 2, .fileModify, .regular, [⟨1, P2P_PORT⟩]⟩,
        .delete ⟨f, 0, .fileDelete, .regular, [⟨1, P2P_PORT⟩]⟩, .add ⟨f, 3, .fileAdd, .directory, [⟨1, P2P_PORT⟩]⟩]
    typing.Always TypesFollow (TypeState.start fileTableInit) calls := by
  intro f calls
  exact types_follow fileTableInit FileTable.wf_init calls (by decide)

/-- A file is replaced by a directory: the table records the timestamp of the directory and the type of the file. -/
theorem type_left_behind :
    let f : Name := ⟨[102], by decide, by decide⟩
    let calls : List TypeCall :=
      [.add ⟨f, 1, .fileAdd, .regular, [⟨1, P2P_PORT⟩]⟩, .add ⟨f, 2, .fileAdd, .directory, [⟨1, P2P_PORT⟩]⟩]
    ∃ s, typing.run (TypeState.start fileTableInit) calls = some s ∧
      s.ft.view f = some ⟨2, .regular, [⟨1, P2P_PORT⟩]⟩ ∧ ¬ TypesFollow s := by
  intro f calls
  have hlast : (typing.run (TypeState.start fileTableInit) calls).map (fun s => (s.ft.view f, s.handled f)) =
      some (some ⟨2, .regular, [⟨1, P2P_PORT⟩]⟩,
        [⟨f, 1, .fileAdd, .regular, [⟨1, P2P_PORT⟩]⟩, ⟨f, 2, .fileAdd, .directory, [⟨1, P2P_PORT⟩]⟩]) := by decide
  obtain ⟨s, hrun, hs⟩ := Option.map_eq_some_iff.mp hlast
  obtain ⟨hview, hhandled⟩ := Prod.mk.inj hs
  refine ⟨s, hrun, hview, fun h => ?_⟩
  obtain ⟨te, hte, hts, hty⟩ := h f _ hview
  rw [hhandled] at hte
  simp only [List.mem_cons, List.not_mem_nil, or_false] at hte
  rcases hte with rfl | rfl
  · cases hts
  · cases hty

end TeleSync
