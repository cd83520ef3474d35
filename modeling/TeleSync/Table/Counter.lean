import TeleSync.Table.Refine

/-!
# The entry counter

`file_entry_add` and `file_entry_delete` keep `table->n` in step with the entries they link and unlink;
`file_table_delete_owner` unlinks entries by itself and leaves the counter alone.

* `CounterExact` : the counter is the number of linked entries;
* `tableCalls` : the calls of the table's interface as a system; `fileTableDestroy` : the end of a table;
* `OwnedElsewhere` : a call removes no owner that is the only one of a file;
* `entry_counter_exact_iff` : the counter is exact throughout a run exactly when all calls are of that kind.
-/

namespace TeleSync
open ChainTable Transition

/-! ## The counter along a run -/

/-- `table->n` is the number of entries that are linked in the hash table. -/
def CounterExact (t : FileTable) : Prop := t.n = t.entries.length

/-- The calls of the table's interface, for their effect on the table. -/
def tableCalls : System FileTable TableCall where
  step t c := some (tableMachine.step t c).1

/-- `file_table_destroy`: `file_entry_delete` of every entry that the traversal meets. -/
def fileTableDestroy (table : FileTable) : FileTable :=
  table.entries.foldl (fun t fe => fileEntryDelete t fe.name) table

/-- A removed owner is not the only one of any file. -/
def OwnedElsewhere (t : FileTable) : TableCall → Prop
  | .deleteOwner ip => ∀ fe ∈ t.entries, ∃ p ∈ fe.owners, p.ip ≠ ip
  | _ => True

/-! ## One call -/

section Calls
variable {t : FileTable}

theorem entries_init : fileTableInit.entries = [] := by
  apply List.eq_nil_iff_forall_not_mem.mpr
  intro fe hfe
  obtain ⟨i, hi⟩ := Scheme.mem_toList.mp hfe
  cases hi

theorem counterExact_init : CounterExact fileTableInit := by
  rw [CounterExact, entries_init]
  rfl

theorem counterExact_modify (name : Name) (f : FileEntry → FileEntry) :
    CounterExact (t.modify name f) ↔ CounterExact t := by
  have hlen : (t.modify name f).entries.length = t.entries.length := Scheme.length_toList_modify _ _ _
  rw [CounterExact, CounterExact, hlen]
  rfl

theorem counterExact_entryAdd (fe : FileEntry) : CounterExact (fileEntryAdd t fe) ↔ CounterExact t := by
  have hlen : (fileEntryAdd t fe).entries.length = t.entries.length + 1 := Scheme.length_toList_addHead _ _ _
  have hn : (fileEntryAdd t fe).n = t.n + 1 := rfl
  rw [CounterExact, CounterExact, hlen, hn]
  omega

theorem counterExact_entryDelete {name : Name} {fe : FileEntry} (h : fileTableSearch t name = some fe) :
    CounterExact (fileEntryDelete t name) ↔ CounterExact t := by
  have hlen : (fileEntryDelete t name).entries.length + 1 = t.entries.length := Scheme.length_toList_erase h
  have hn : (fileEntryDelete t name).n = t.n - 1 := rfl
  rw [CounterExact, CounterExact, hn]
  omega

theorem counterExact_add (te : TransFileEntry) : CounterExact (fileTableAdd t te).1 ↔ CounterExact t := by
  unfold fileTableAdd
  split
  · exact counterExact_entryAdd _
  · exact counterExact_modify _ _

theorem counterExact_update (te : TransFileEntry) : CounterExact (fileTableUpdate t te).1 ↔ CounterExact t := by
  unfold fileTableUpdate
  split
  · exact Iff.rfl
  · exact counterExact_modify _ _

theorem counterExact_delete (te : TransFileEntry) : CounterExact (fileTableDelete t te).1 ↔ CounterExact t := by
  unfold fileTableDelete
  split
  · exact Iff.rfl
  · next fe hs => exact counterExact_entryDelete hs

theorem entries_deleteOwner (ip : UInt32) :
    (fileTableDeleteOwner t ip).entries = t.entries.filterMap (dropOwner ip) := Scheme.toList_sweep _ _

theorem dropOwner_isSome {ip : UInt32} {fe : FileEntry} :
    (dropOwner ip fe).isSome ↔ ∃ p ∈ fe.owners, p.ip ≠ ip := by
  unfold dropOwner
  dsimp only
  split_ifs with h
  · simpa using h
  · simpa using h

/-- The counter stays, so it is exact only if no entry goes. -/
theorem counterExact_deleteOwner (h : CounterExact t) (ip : UInt32) :
    CounterExact (fileTableDeleteOwner t ip) ↔ ∀ fe ∈ t.entries, ∃ p ∈ fe.owners, p.ip ≠ ip := by
  have hn : (fileTableDeleteOwner t ip).n = t.n := rfl
  rw [CounterExact, hn, h, entries_deleteOwner, Nat.cast_inj, eq_comm, List.filterMap_length_eq_length]
  exact forall₂_congr fun _ _ => dropOwner_isSome

end Calls

theorem counterExact_step {t t' : FileTable} {c : TableCall} (h : CounterExact t)
    (hs : tableCalls.step t c = some t') : CounterExact t' ↔ OwnedElsewhere t c := by
  cases hs
  cases c with
  | find te => exact iff_of_true h trivial
  | add te => exact iff_of_true ((counterExact_add te).mpr h) trivial
  | update te => exact iff_of_true ((counterExact_update te).mpr h) trivial
  | delete te => exact iff_of_true ((counterExact_delete te).mpr h) trivial
  | deleteOwner ip => exact counterExact_deleteOwner h ip

/-! ## The end of a table -/

theorem counterExact_foldl_delete {l : List FileEntry} (hnd : (l.map FileEntry.name).Nodup) {t : FileTable} (hw : t.Wf)
    (hl : ∀ fe ∈ l, fileTableSearch t fe.name = some fe) :
    CounterExact (l.foldl (fun t fe => fileEntryDelete t fe.name) t) ↔ CounterExact t := by
  induction l generalizing t with
  | nil => exact Iff.rfl
  | cons fe l ih =>
    rw [List.map_cons, List.nodup_cons] at hnd
    rw [List.forall_mem_cons] at hl
    have hrest : ∀ e ∈ l, fileTableSearch (fileEntryDelete t fe.name) e.name = some e := by
      intro e he
      have hne : e.name ≠ fe.name := fun heq => hnd.1 (heq ▸ List.mem_map_of_mem he)
      have hs : fileTableSearch (fileEntryDelete t fe.name) e.name =
          if e.name = fe.name then none else fileTableSearch t e.name := Scheme.search_erase hw _ _
      rw [hs, if_neg hne]
      exact hl.2 e he
    have hwf : (fileEntryDelete t fe.name).Wf := Scheme.Wf.erase hw fe.name
    rw [List.foldl_cons, ih hnd.2 hwf hrest]
    exact counterExact_entryDelete hl.1

theorem counterExact_destroy {t : FileTable} (hw : t.Wf) : CounterExact (fileTableDestroy t) ↔ CounterExact t :=
  counterExact_foldl_delete hw.nodup_names hw fun _ hfe => hw.mem_entries.mp hfe

/-! ## Whole runs -/

theorem tableCalls_wf {t t' : FileTable} {c : TableCall} (h : t.Wf) (hs : tableCalls.step t c = some t') : t'.Wf := by
  cases hs
  exact (step_refines t t.view c ⟨h, rfl⟩).1.1

/-- **When the counter is exact.** Along any calls from `file_table_init`, `n` is the number of linked entries after
every call, and also after a `file_table_destroy` that follows it, if and only if no call removes an owner that is the
only one of a file. -/
theorem entry_counter_exact_iff (calls : List TableCall) :
    tableCalls.Always (fun t => CounterExact t ∧ CounterExact (fileTableDestroy t)) fileTableInit calls ↔
      tableCalls.RunMeets OwnedElsewhere fileTableInit calls := by
  apply System.always_iff_runMeets (I := FileTable.Wf) (E := fun _ => True)
  · exact fun t c => ⟨_, rfl⟩
  · exact fun t c t' hw hs => tableCalls_wf hw hs
  · rintro t c t' hw - ⟨h, -⟩ hs
    rw [counterExact_destroy (tableCalls_wf hw hs), and_self]
    exact counterExact_step h hs
  · exact fun _ _ => trivial
  · exact FileTable.wf_init
  · exact ⟨counterExact_init, (counterExact_destroy FileTable.wf_init).mpr counterExact_init⟩

/-- A peer that is the only owner of a file leaves: the table is empty and its counter is 1. -/
theorem counter_left_behind :
    let f : Name := ⟨[102], by decide, by decide⟩
    let calls : List TableCall := [.add ⟨f, 1, .fileAdd, .regular, [⟨7, P2P_PORT⟩]⟩, .deleteOwner 7]
    ∃ t, tableCalls.run fileTableInit calls = some t ∧ ¬ CounterExact t := by
  intro f calls
  let te : TransFileEntry := ⟨f, 1, .fileAdd, .regular, [⟨7, P2P_PORT⟩]⟩
  have hadded : CounterExact (fileTableAdd fileTableInit te).1 := (counterExact_add te).mpr counterExact_init
  have hmem : fileEntryFillFrom te ∈ (fileTableAdd fileTableInit te).1.entries := by
    rw [(FileTable.wf_init.add te).mem_entries]
    decide
  have hlonely : ¬ ∃ p ∈ (fileEntryFillFrom te).owners, p.ip ≠ 7 := by decide
  exact ⟨_, rfl, fun h => hlonely ((counterExact_deleteOwner hadded 7).mp h _ hmem)⟩

end TeleSync
