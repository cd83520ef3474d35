import TeleSync.Table.FileTable
import TeleSync.Lib.Transition

/-!
# The file table is a finite map

`FileTable.view` reads a table as a partial map from names to records. On well-formed tables
(`FileTable.Wf`: entries hang in the bucket the search looks in, names do not repeat) each operation
of `file_table.c` is one update of that map (`view_add`, `view_update`, `view_delete`,
`view_deleteOwner`, `view_modify`) and keeps the table well formed. `FileTable.stamp` forgets all
but the timestamps.

`mapMachine` is the reference: the map with the same calls. Its owner lists are those of `peerIdListAdd`,
which `peerIdListAdd_eq` describes without the loop. `file_table_refines_map` runs both.
-/

namespace TeleSync
open ChainTable Transition

/-! ## Records -/

/-- `__peer_id_list_add` in terms of the two lists alone: what was there, then the first owner with each address that was
not. -/
theorem peerIdListAdd_eq (head : List PeerId) (te : TransFileEntry) :
    peerIdListAdd head te = head ++
      (te.owners.filter fun p => p.ip ∉ head.map PeerId.ip).eraseDupsBy fun p q => p.ip == q.ip := by
  rw [← KeyedList.foldl_addNew, peerIdListAdd]
  congr 1
  funext head p
  have hin : alreadyInOwners head p = true ↔ p.ip ∈ head.map PeerId.ip := by
    simp [alreadyInOwners]
  simp only [hin]

theorem peerIdListAdd_nil_of_nodup {te : TransFileEntry} (h : (te.owners.map PeerId.ip).Nodup) :
    peerIdListAdd [] te = te.owners := by
  rw [peerIdListAdd_eq, List.nil_append, List.filter_eq_self.mpr (by simp)]
  refine KeyedList.eraseDupsBy_of_pairwise ((List.pairwise_map.mp h).imp fun hne => ?_)
  exact beq_eq_false_iff_ne.mpr (Ne.symm hne)

/-- The record of a name that was absent. -/
def newRecord (te : TransFileEntry) : FileRecord := ⟨te.timestamp, te.fileType, peerIdListAdd [] te⟩

/-- The rule of `file_entry_update`: a newer entry replaces the owners, an equally old one adds its
owners, an older one is ignored. -/
def mergeRecord (r : FileRecord) (te : TransFileEntry) : FileRecord :=
  if r.timestamp < te.timestamp then { r with timestamp := te.timestamp, owners := peerIdListAdd [] te }
  else if te.timestamp = r.timestamp then { r with owners := peerIdListAdd r.owners te }
  else r

/-- What adding `te` makes of the record of its name. -/
def addRecord (te : TransFileEntry) : Option FileRecord → FileRecord
  | none => newRecord te
  | some r => mergeRecord r te

/-- What removing an owner makes of a record. -/
def dropRecord (ip : UInt32) (r : FileRecord) : Option FileRecord :=
  let owners := r.owners.filter fun p => p.ip != ip
  if owners.isEmpty then none else some { r with owners := owners }

/-- The owners after an add: those of the entry alone, or those of the record, joined with them at equal timestamps. -/
theorem addRecord_owners (te : TransFileEntry) (o : Option FileRecord) :
    (addRecord te o).owners = peerIdListAdd [] te ∨
      ∃ r, o = some r ∧ ((addRecord te o).owners = r.owners ∨
        r.timestamp = te.timestamp ∧ (addRecord te o).owners = peerIdListAdd r.owners te) := by
  cases o with
  | none => exact Or.inl rfl
  | some r =>
    rw [addRecord, mergeRecord]
    split_ifs with hlt heq
    · exact Or.inl rfl
    · exact Or.inr ⟨r, rfl, Or.inr ⟨heq.symm, rfl⟩⟩
    · exact Or.inr ⟨r, rfl, Or.inl rfl⟩

@[simp] theorem fileEntryUpdate_name (fe : FileEntry) (te : TransFileEntry) :
    (fileEntryUpdate fe te).1.name = fe.name := by
  unfold fileEntryUpdate peerIdListReplace
  split_ifs <;> rfl

@[simp] theorem fileEntryUpdate_record (fe : FileEntry) (te : TransFileEntry) :
    (fileEntryUpdate fe te).1.toFileRecord = mergeRecord fe.toFileRecord te := by
  unfold fileEntryUpdate mergeRecord peerIdListReplace
  split_ifs <;> rfl

theorem dropOwner_name {ip : UInt32} {fe fe' : FileEntry} (h : dropOwner ip fe = some fe') :
    fe'.name = fe.name := by
  simp only [dropOwner] at h
  split_ifs at h
  cases h
  rfl

theorem dropOwner_record (ip : UInt32) (fe : FileEntry) :
    (dropOwner ip fe).map FileEntry.toFileRecord = dropRecord ip fe.toFileRecord := by
  simp only [dropOwner, dropRecord]
  split_ifs <;> rfl

theorem mem_peerIdListAdd {p : PeerId} {head : List PeerId} {te : TransFileEntry}
    (h : p ∈ peerIdListAdd head te) : p ∈ head ∨ p ∈ te.owners := by
  rw [peerIdListAdd_eq, List.mem_append] at h
  exact h.imp_right fun h => List.mem_of_mem_filter ((KeyedList.eraseDupsBy_sublist _).mem h)

/-- Timestamps by name, `⊥` for an absent name. -/
abbrev Stamps := Name → WithBot ℕ

/-! ## Views -/

namespace FileTable

/-- Entries hang where the search looks for them, and no name has two. -/
def Wf (t : FileTable) : Prop := scheme.Wf t.fileHtable

/-- The table as a partial map. -/
def view (t : FileTable) (name : Name) : Option FileRecord :=
  (fileTableSearch t name).map FileEntry.toFileRecord

theorem wf_init : fileTableInit.Wf := Scheme.wf_empty

theorem view_eq_none {t : FileTable} {name : Name} : t.view name = none ↔ fileTableSearch t name = none :=
  Option.map_eq_none_iff

theorem view_of_search {t : FileTable} {name : Name} {fe : FileEntry} (h : fileTableSearch t name = some fe) :
    t.view name = some fe.toFileRecord := by
  rw [view, h, Option.map_some]

theorem search_name {t : FileTable} {name : Name} {fe : FileEntry} (h : fileTableSearch t name = some fe) :
    fe.name = name := Scheme.key_of_search h

theorem Wf.mem_entries {t : FileTable} (h : t.Wf) {fe : FileEntry} :
    fe ∈ t.entries ↔ fileTableSearch t fe.name = some fe := Scheme.Wf.mem_toList h

theorem Wf.nodup_names {t : FileTable} (h : t.Wf) : (t.entries.map FileEntry.name).Nodup :=
  Scheme.Wf.nodup_toList h

theorem Wf.find_entries {t : FileTable} (h : t.Wf) (name : Name) :
    KeyedList.find FileEntry.name name t.entries = fileTableSearch t name := Scheme.Wf.find_toList h name

theorem Wf.view_of_mem {t : FileTable} (h : t.Wf) {fe : FileEntry} (hfe : fe ∈ t.entries) :
    t.view fe.name = some fe.toFileRecord := view_of_search (h.mem_entries.mp hfe)

/-! ## The operations on views -/

/-- Writing through the pointer found under `name`, for a write that keeps the name. -/
theorem view_modify (t : FileTable) (name : Name) {f : FileEntry → FileEntry} {g : FileRecord → FileRecord}
    (hn : ∀ fe, (f fe).name = fe.name) (hr : ∀ fe, (f fe).toFileRecord = g fe.toFileRecord) :
    (t.modify name f).view = Function.update t.view name ((t.view name).map g) := by
  funext k
  have hs : fileTableSearch (t.modify name f) k =
      if k = name then (fileTableSearch t name).map f else fileTableSearch t k := Scheme.search_modify hn _ _ _
  rw [view, hs, Function.update_apply]
  by_cases hk : k = name
  · rw [if_pos hk, if_pos hk, view, Option.map_map, Option.map_map]
    exact congrArg (Option.map · _) (funext hr)
  · rw [if_neg hk, if_neg hk, view]

theorem Wf.modify {t : FileTable} (h : t.Wf) (name : Name) {f : FileEntry → FileEntry}
    (hn : ∀ fe, (f fe).name = fe.name) : (t.modify name f).Wf := Scheme.Wf.modify h hn name

theorem view_add (t : FileTable) (te : TransFileEntry) :
    (fileTableAdd t te).1.view = Function.update t.view te.name (some (addRecord te (t.view te.name))) := by
  unfold fileTableAdd
  split
  · next hs =>
    have hlink : ∀ k, fileTableSearch (fileEntryAdd t (fileEntryFillFrom te)) k =
        if te.name = k then some (fileEntryFillFrom te) else fileTableSearch t k := by
      intro k
      unfold fileEntryAdd fileTableSearch
      rw [addBucket_eq_searchBucket]
      exact Scheme.search_addHead (S := scheme) t.fileHtable (fileEntryFillFrom te) k
    funext k
    rw [view, hlink, Function.update_apply, view_eq_none.mpr hs]
    by_cases hk : k = te.name
    · rw [if_pos hk, if_pos hk.symm]; rfl
    · rw [if_neg hk, if_neg (Ne.symm hk), view]
  · next fe hs =>
    rw [view_modify t te.name (g := fun r => mergeRecord r te) (fun fe => fileEntryUpdate_name fe te)
      (fun fe => fileEntryUpdate_record fe te), view_of_search hs]
    rfl

theorem add_record (t : FileTable) (te : TransFileEntry) :
    (fileTableAdd t te).2.toFileRecord = addRecord te (t.view te.name) := by
  unfold fileTableAdd
  split
  · next hs => rw [view_eq_none.mpr hs]; rfl
  · next fe hs => rw [view_of_search hs]; exact fileEntryUpdate_record fe te

theorem add_name (t : FileTable) (te : TransFileEntry) : (fileTableAdd t te).2.name = te.name := by
  unfold fileTableAdd
  split
  · rfl
  · next fe hs => exact (fileEntryUpdate_name fe te).trans (search_name hs)

theorem Wf.add {t : FileTable} (h : t.Wf) (te : TransFileEntry) : (fileTableAdd t te).1.Wf := by
  unfold fileTableAdd
  split
  · next hs =>
    have hb : addBucket (fileEntryFillFrom te).name = scheme.hash (scheme.key (fileEntryFillFrom te)) :=
      addBucket_eq_searchBucket te.name
    simp only [Wf, fileEntryAdd, hb]
    exact Scheme.Wf.addHead h hs
  · exact h.modify te.name fun fe => fileEntryUpdate_name fe te

theorem view_update (t : FileTable) (te : TransFileEntry) :
    (fileTableUpdate t te).1.view =
      Function.update t.view te.name ((t.view te.name).map fun r => mergeRecord r te) := by
  unfold fileTableUpdate
  split
  · next hs => rw [view_eq_none.mpr hs, Option.map_none, ← view_eq_none.mpr hs, Function.update_eq_self]
  · exact view_modify t te.name (fun fe => fileEntryUpdate_name fe te) (fun fe => fileEntryUpdate_record fe te)

theorem update_ret (t : FileTable) (te : TransFileEntry) :
    (fileTableUpdate t te).2 = if (t.view te.name).isSome then 0 else -1 := by
  unfold fileTableUpdate
  split
  · next hs => rw [view_eq_none.mpr hs]; rfl
  · next fe hs => rw [view_of_search hs]; rfl

theorem Wf.update {t : FileTable} (h : t.Wf) (te : TransFileEntry) : (fileTableUpdate t te).1.Wf := by
  unfold fileTableUpdate
  split
  · exact h
  · exact h.modify te.name fun fe => fileEntryUpdate_name fe te

theorem view_delete {t : FileTable} (h : t.Wf) (te : TransFileEntry) :
    (fileTableDelete t te).1.view = Function.update t.view te.name none := by
  unfold fileTableDelete
  split
  · next hs => rw [← view_eq_none.mpr hs, Function.update_eq_self]
  · funext k
    have hs : fileTableSearch (fileEntryDelete t te.name) k =
        if k = te.name then none else fileTableSearch t k := Scheme.search_erase h _ _
    rw [view, hs, Function.update_apply]
    split_ifs
    · rfl
    · rfl

theorem delete_ret (t : FileTable) (te : TransFileEntry) :
    (fileTableDelete t te).2 = if (t.view te.name).isSome then 0 else -1 := by
  unfold fileTableDelete
  split
  · next hs => rw [view_eq_none.mpr hs]; rfl
  · next fe hs => rw [view_of_search hs]; rfl

theorem Wf.delete {t : FileTable} (h : t.Wf) (te : TransFileEntry) : (fileTableDelete t te).1.Wf := by
  unfold fileTableDelete
  split
  · exact h
  · exact Scheme.Wf.erase h te.name

theorem view_deleteOwner {t : FileTable} (h : t.Wf) (ip : UInt32) (name : Name) :
    (fileTableDeleteOwner t ip).view name = (t.view name).bind (dropRecord ip) := by
  have hs : fileTableSearch (fileTableDeleteOwner t ip) name = (fileTableSearch t name).bind (dropOwner ip) :=
    Scheme.search_sweep (fun _ _ => dropOwner_name) h name
  rw [view, hs, view]
  cases fileTableSearch t name with
  | none => rfl
  | some fe => exact dropOwner_record ip fe

theorem Wf.deleteOwner {t : FileTable} (h : t.Wf) (ip : UInt32) : (fileTableDeleteOwner t ip).Wf :=
  Scheme.Wf.sweep h fun _ _ => dropOwner_name

/-! ## Timestamps -/

/-- The timestamp kept for a name, `⊥` for a name the table does not have. -/
def stamp (t : FileTable) : Stamps := fun name => ((t.view name).map FileRecord.timestamp : Option ℕ)

/-- The timestamp of an optional record. -/
def stampOf (r : Option FileRecord) : WithBot ℕ := (r.map FileRecord.timestamp : Option ℕ)

theorem stamp_eq_bot {t : FileTable} {name : Name} : t.stamp name = ⊥ ↔ t.view name = none :=
  Option.map_eq_none_iff

/-- The names in a table. -/
def names (t : FileTable) : Set Name := {name | fileTableSearch t name ≠ none}

theorem mem_names {t : FileTable} {name : Name} : name ∈ t.names ↔ t.stamp name ≠ ⊥ :=
  not_congr (stamp_eq_bot.trans view_eq_none).symm

theorem stamp_of_view {t : FileTable} {name : Name} {r : FileRecord} (h : t.view name = some r) :
    t.stamp name = (r.timestamp : WithBot ℕ) := by
  rw [stamp, h]
  rfl

theorem mergeRecord_timestamp (r : FileRecord) (te : TransFileEntry) :
    (mergeRecord r te).timestamp = max r.timestamp te.timestamp := by
  unfold mergeRecord
  split_ifs with h1 h2
  · exact (max_eq_right h1.le).symm
  · rw [h2, max_self]
  · exact (max_eq_left (not_lt.mp h1)).symm

theorem stamp_of_view_update {t t' : FileTable} {name : Name} {r : Option FileRecord}
    (h : t'.view = Function.update t.view name r) :
    t'.stamp = Function.update t.stamp name (stampOf r) := by
  funext k
  rw [stamp, h, Function.update_apply, Function.update_apply]
  split_ifs <;> rfl

theorem stamp_coe_max (a b : ℕ) : ((max a b : ℕ) : WithBot ℕ) = max (a : WithBot ℕ) (b : WithBot ℕ) :=
  WithBot.coe_max a b

theorem stampOf_addRecord (t : FileTable) (te : TransFileEntry) :
    stampOf (some (addRecord te (t.view te.name))) = max (t.stamp te.name) te.timestamp := by
  cases hv : t.view te.name with
  | none => rw [stamp_eq_bot.mpr hv, max_bot_left]; rfl
  | some r =>
    rw [stamp_of_view hv, ← stamp_coe_max, ← mergeRecord_timestamp]
    rfl

theorem stamp_add (t : FileTable) (te : TransFileEntry) :
    (fileTableAdd t te).1.stamp = Function.update t.stamp te.name (max (t.stamp te.name) te.timestamp) := by
  rw [stamp_of_view_update (view_add t te), stampOf_addRecord]

theorem stampOf_mergeRecord {t : FileTable} {te : TransFileEntry} (h : t.stamp te.name ≠ ⊥) :
    stampOf ((t.view te.name).map fun r => mergeRecord r te) = max (t.stamp te.name) te.timestamp := by
  obtain ⟨r, hr⟩ := Option.ne_none_iff_exists'.mp (mt stamp_eq_bot.mpr h)
  rw [stamp_of_view hr, ← stamp_coe_max, ← mergeRecord_timestamp, hr]
  rfl

theorem stamp_update {t : FileTable} {te : TransFileEntry} (h : t.stamp te.name ≠ ⊥) :
    (fileTableUpdate t te).1.stamp = Function.update t.stamp te.name (max (t.stamp te.name) te.timestamp) := by
  rw [stamp_of_view_update (view_update t te), stampOf_mergeRecord h]

theorem stamp_delete {t : FileTable} (h : t.Wf) (te : TransFileEntry) :
    (fileTableDelete t te).1.stamp = Function.update t.stamp te.name ⊥ :=
  stamp_of_view_update (view_delete h te)

end FileTable

/-! ## Whole runs -/

/-- The calls of the table's interface. -/
inductive TableCall where
  | find (te : TransFileEntry)
  | add (te : TransFileEntry)
  | update (te : TransFileEntry)
  | delete (te : TransFileEntry)
  | deleteOwner (ip : UInt32)

/-- What a call answers: an entry or `NULL`, a return value, or nothing. -/
inductive TableAnswer where
  | entry (r : Option FileRecord)
  | ret (code : ℤ)
  | void

/-- The table of `file_table.c`. -/
def tableMachine : Machine FileTable TableCall TableAnswer where
  init := fileTableInit
  step t
    | .find te => (t, .entry ((fileTableFind t te).map FileEntry.toFileRecord))
    | .add te => ((fileTableAdd t te).1, .entry (some (fileTableAdd t te).2.toFileRecord))
    | .update te => ((fileTableUpdate t te).1, .ret (fileTableUpdate t te).2)
    | .delete te => ((fileTableDelete t te).1, .ret (fileTableDelete t te).2)
    | .deleteOwner ip => (fileTableDeleteOwner t ip, .void)

/-- The reference: a map from names to records. -/
def mapMachine : Machine (Name → Option FileRecord) TableCall TableAnswer where
  init := fun _ => none
  step m
    | .find te => (m, .entry (m te.name))
    | .add te =>
      let r := addRecord te (m te.name)
      (Function.update m te.name (some r), .entry (some r))
    | .update te =>
      match m te.name with
      | none => (m, .ret (-1))
      | some r => (Function.update m te.name (some (mergeRecord r te)), .ret 0)
    | .delete te =>
      match m te.name with
      | none => (m, .ret (-1))
      | some _ => (Function.update m te.name none, .ret 0)
    | .deleteOwner ip => (fun name => (m name).bind (dropRecord ip), .void)

/-- The relation the calls keep. -/
def Represents (t : FileTable) (m : Name → Option FileRecord) : Prop := t.Wf ∧ t.view = m

theorem step_refines (t : FileTable) (m : Name → Option FileRecord) (c : TableCall) (h : Represents t m) :
    Represents (tableMachine.step t c).1 (mapMachine.step m c).1 ∧
      (tableMachine.step t c).2 = (mapMachine.step m c).2 := by
  obtain ⟨hw, rfl⟩ := h
  cases c with
  | find te => exact ⟨⟨hw, rfl⟩, rfl⟩
  | add te =>
    refine ⟨⟨hw.add te, FileTable.view_add t te⟩, ?_⟩
    change TableAnswer.entry (some (fileTableAdd t te).2.toFileRecord) = _
    rw [FileTable.add_record]
    rfl
  | update te =>
    have hv := FileTable.view_update t te
    have hr := FileTable.update_ret t te
    simp only [tableMachine, mapMachine]
    cases hm : t.view te.name with
    | none =>
      rw [hm, Option.map_none, ← hm, Function.update_eq_self] at hv
      rw [hm] at hr
      exact ⟨⟨hw.update te, hv⟩, congrArg TableAnswer.ret hr⟩
    | some r =>
      rw [hm] at hv hr
      exact ⟨⟨hw.update te, hv⟩, congrArg TableAnswer.ret hr⟩
  | delete te =>
    have hv := FileTable.view_delete hw te
    have hr := FileTable.delete_ret t te
    simp only [tableMachine, mapMachine]
    cases hm : t.view te.name with
    | none =>
      rw [← hm, Function.update_eq_self] at hv
      rw [hm] at hr
      exact ⟨⟨hw.delete te, hv⟩, congrArg TableAnswer.ret hr⟩
    | some r =>
      rw [hm] at hr
      exact ⟨⟨hw.delete te, hv⟩, congrArg TableAnswer.ret hr⟩
  | deleteOwner ip =>
    exact ⟨⟨hw.deleteOwner ip, funext fun name => FileTable.view_deleteOwner hw ip name⟩, rfl⟩

/-- **The file table refines a finite map.** After any calls from `file_table_init` every answer is
the reference's, the table stands for the reference's map, no name has two entries, every entry
hangs in the bucket the search looks in, and a further add, update or delete changes one name only. -/
theorem file_table_refines_map (calls : List TableCall) :
    let t := (tableMachine.run calls).1
    (tableMachine.run calls).2 = (mapMachine.run calls).2 ∧
      t.view = (mapMachine.run calls).1 ∧
      (t.entries.map FileEntry.name).Nodup ∧
      (∀ i, ∀ fe ∈ t.fileHtable i, searchBucket fe.name = i) ∧
      ∀ (te : TransFileEntry) (name : Name), name ≠ te.name →
        (fileTableAdd t te).1.view name = t.view name ∧
        (fileTableUpdate t te).1.view name = t.view name ∧
        (fileTableDelete t te).1.view name = t.view name := by
  intro t
  obtain ⟨⟨hw, hv⟩, hans⟩ := Machine.run_refines (R := Represents) (M := tableMachine) (N := mapMachine)
    ⟨FileTable.wf_init, rfl⟩ step_refines calls
  refine ⟨hans, hv, hw.nodup_names, hw.placed, fun te name hne => ⟨?_, ?_, ?_⟩⟩
  · rw [FileTable.view_add, Function.update_of_ne hne]
  · rw [FileTable.view_update, Function.update_of_ne hne]
  · rw [FileTable.view_delete hw, Function.update_of_ne hne]

end TeleSync
