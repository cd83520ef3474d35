import TeleSync.Sync.Agreement

/-!
# Snapshots of a table

`trans_table_fill_from` walks through the hash table with `hash_for_each_safe`, two loops that share a cursor, and fills
the arrays of a `trans_file_table`.

* `hlistForEachEntrySafe`, `hashForEachSafe` : the macros of `list.h` and `hash.h`;
* `hashForEachSafe_eq` : every entry of every chain is visited once, bucket by bucket;
* `transEntryFillFromArray`, `transTableFillFromArray` : the functions, none where they write outside an array;
* `transTableFillFromArray_eq` : a table that fits is copied as `transTableFillFrom` says;
* `snapshot_round_trip` : and adding the copies to an empty table gives the same table again.
-/

namespace TeleSync
open ChainTable

/-! ## The traversal -/

section Traversal
variable {σ E : Type} {m : ℕ}

/-- `hlist_for_each_entry_safe`, from the entry at the cursor on: `tmp` is the rest of the chain. The loop leaves the
cursor null. -/
def hlistForEachEntrySafe (body : σ → E → Option σ) : σ → List E → Option (σ × Option E)
  | s, [] => some (s, none)
  | s, obj :: tmp => (body s obj).bind fun s => hlistForEachEntrySafe body s tmp

/-- `hash_for_each_safe`, from bucket `bkt` on and with `obj` as the cursor, which has to be null for the next bucket. -/
def hashForEachSafe (table : Buckets m E) (body : σ → E → Option σ) (bkt : ℕ) (s : σ) (obj : Option E) : Option σ :=
  if h : obj.isNone ∧ bkt < m then
    (hlistForEachEntrySafe body s (table ⟨bkt, h.2⟩)).bind fun r => hashForEachSafe table body (bkt + 1) r.1 r.2
  else some s
termination_by m - bkt
decreasing_by omega

theorem hlistForEachEntrySafe_eq (body : σ → E → Option σ) (s : σ) (l : List E) :
    hlistForEachEntrySafe body s l = (l.foldlM body s).map fun s => (s, none) := by
  induction l generalizing s with
  | nil => rfl
  | cons e l ih =>
    rw [hlistForEachEntrySafe, List.foldlM_cons]
    cases hbody : body s e with
    | none => rfl
    | some s' => exact ih s'

theorem hashForEachSafe_from (table : Buckets m E) (body : σ → E → Option σ) {bkt : ℕ} (hbkt : bkt ≤ m) (s : σ) :
    hashForEachSafe table body bkt s none = (((List.finRange m).drop bkt).flatMap table).foldlM body s := by
  induction hleft : m - bkt generalizing bkt s with
  | zero =>
    have hend : bkt = m := by omega
    have hdrop : (List.finRange m).drop bkt = [] := List.drop_of_length_le (by rw [List.length_finRange]; omega)
    rw [hashForEachSafe, dif_neg (by omega), hdrop]
    rfl
  | succ left ih =>
    have hlt : bkt < m := by omega
    rw [hashForEachSafe, dif_pos ⟨rfl, hlt⟩, hlistForEachEntrySafe_eq, Scheme.drop_finRange hlt, List.flatMap_cons,
      List.foldlM_append]
    cases (table ⟨bkt, hlt⟩).foldlM body s with
    | none => rfl
    | some s' => exact ih (by omega) s' (by omega)

/-- The traversal visits each entry once, in the order of `toList`. -/
theorem hashForEachSafe_eq (table : Buckets m E) (body : σ → E → Option σ) (s : σ) :
    hashForEachSafe table body 0 s none = (Scheme.toList table).foldlM body s := by
  rw [hashForEachSafe_from table body (Nat.zero_le m), List.drop_zero, Scheme.toList]

end Traversal

/-! ## Filling the arrays -/

/-- `te->owners[te->owner_n]` is filled and counted. -/
def fillOwner (te : TransFileEntry) (p : PeerId) : Option TransFileEntry :=
  if te.owners.length < MAX_PEER_ENTRIES then some { te with owners := te.owners ++ [p] } else none

/-- `trans_entry_fill_from` -/
def transEntryFillFromArray (fe : FileEntry) : Option TransFileEntry :=
  fe.owners.foldlM fillOwner
    { TransFileEntry.zero with name := fe.name, timestamp := fe.timestamp, fileType := fe.type }

/-- `tft->entries[tft->n]` is filled and counted. -/
def fillEntry (tft : TransFileTable) (fe : FileEntry) : Option TransFileTable :=
  if tft.length < MAX_FILE_ENTRIES then (transEntryFillFromArray fe).map fun te => tft ++ [te] else none

/-- `trans_table_fill_from` -/
def transTableFillFromArray (ft : FileTable) : Option TransFileTable :=
  hashForEachSafe ft.fileHtable fillEntry 0 [] none

theorem foldlM_fillOwner (te : TransFileEntry) {owners : List PeerId}
    (h : te.owners.length + owners.length ≤ MAX_PEER_ENTRIES) :
    owners.foldlM fillOwner te = some { te with owners := te.owners ++ owners } := by
  induction owners generalizing te with
  | nil => simp
  | cons p owners ih =>
    rw [List.length_cons] at h
    have hfill : fillOwner te p = some { te with owners := te.owners ++ [p] } := if_pos (by omega)
    rw [List.foldlM_cons, hfill]
    refine (ih _ ?_).trans ?_
    · rw [List.length_append, List.length_singleton]
      omega
    · rw [List.append_assoc, List.singleton_append]

theorem transEntryFillFromArray_eq {fe : FileEntry} (h : fe.owners.length ≤ MAX_PEER_ENTRIES) :
    transEntryFillFromArray fe = some (transEntryFillFrom fe) := by
  have hzero : TransFileEntry.zero.owners.length + fe.owners.length ≤ MAX_PEER_ENTRIES := by
    show 0 + fe.owners.length ≤ MAX_PEER_ENTRIES
    omega
  exact foldlM_fillOwner _ hzero

theorem foldlM_fillEntry (tft : TransFileTable) {fes : List FileEntry}
    (hentries : tft.length + fes.length ≤ MAX_FILE_ENTRIES)
    (howners : ∀ fe ∈ fes, fe.owners.length ≤ MAX_PEER_ENTRIES) :
    fes.foldlM fillEntry tft = some (tft ++ fes.map transEntryFillFrom) := by
  induction fes generalizing tft with
  | nil => simp
  | cons fe fes ih =>
    rw [List.length_cons] at hentries
    rw [List.forall_mem_cons] at howners
    have hfill : fillEntry tft fe = some (tft ++ [transEntryFillFrom fe]) := by
      rw [fillEntry, if_pos (by omega), transEntryFillFromArray_eq howners.1]
      rfl
    rw [List.foldlM_cons, hfill]
    refine (ih _ ?_ howners.2).trans ?_
    · rw [List.length_append, List.length_singleton]
      omega
    · rw [List.append_assoc, List.singleton_append, List.map_cons]

theorem transTableFillFromArray_eq {ft : FileTable} (hentries : ft.entries.length ≤ MAX_FILE_ENTRIES)
    (howners : ∀ fe ∈ ft.entries, fe.owners.length ≤ MAX_PEER_ENTRIES) :
    transTableFillFromArray ft = some (transTableFillFrom ft) := by
  rw [transTableFillFromArray, hashForEachSafe_eq]
  refine foldlM_fillEntry [] ?_ howners
  show 0 + ft.entries.length ≤ MAX_FILE_ENTRIES
  omega

/-! ## Back again -/

theorem newRecord_transEntryFillFrom {fe : FileEntry} (h : (fe.owners.map PeerId.ip).Nodup) :
    newRecord (transEntryFillFrom fe) = fe.toFileRecord := by
  have howners : peerIdListAdd [] (transEntryFillFrom fe) = fe.owners := peerIdListAdd_nil_of_nodup h
  rw [newRecord, howners]
  rfl

/-- **Snapshot round trip.** The snapshot of a table that fits the arrays has one entry for each entry of the table, and
no name twice; adding its entries in their order to an empty table gives a table with the same names, timestamps, types
and lists of owners. -/
theorem snapshot_round_trip (ft : FileTable) (h : TrackerTable ft) :
    ∃ tft, transTableFillFromArray ft = some tft ∧ tft.length = ft.entries.length ∧
      (tft.map TransFileEntry.name).Nodup ∧
      (∀ name, name ∈ tft.map TransFileEntry.name ↔ ∃ fe, fileTableSearch ft name = some fe) ∧
      (tft.foldl (fun t te => (fileTableAdd t te).1) fileTableInit).Wf ∧
      (tft.foldl (fun t te => (fileTableAdd t te).1) fileTableInit).view = ft.view := by
  refine ⟨transTableFillFrom ft, transTableFillFromArray_eq h.entries_le h.owners_le, List.length_map _,
    nodup_transTable h.wf, fun name => ?_, ?_, ?_⟩
  · have hfind := find_transTable h.wf name
    rw [← not_iff_not, ← KeyedList.find_eq_none, hfind, Option.map_eq_none_iff, Option.eq_none_iff_forall_ne_some,
      not_exists]
  · exact wf_addAll FileTable.wf_init _
  · funext name
    have hview := view_addAll_init (nodup_transTable h.wf) name
    rw [addAll] at hview
    rw [hview, find_transTable h.wf]
    cases hs : fileTableSearch ft name with
    | none =>
      rw [FileTable.view_eq_none.mpr hs]
      rfl
    | some fe =>
      have hname := FileTable.search_name hs
      have hmem : fe ∈ ft.entries := h.wf.mem_entries.mpr (hname.symm ▸ hs)
      rw [FileTable.view_of_search hs, ← newRecord_transEntryFillFrom (h.owners_distinct fe hmem)]
      rfl

/-- A table with one file, which two peers have. -/
theorem snapshot_round_trip_two_owners :
    let te : TransFileEntry :=
      ⟨⟨[49, 47, 102], by decide, by decide⟩, 5, .fileAdd, .regular, [⟨1, P2P_PORT⟩, ⟨2, P2P_PORT⟩]⟩
    let ft := (fileTableAdd fileTableInit te).1
    TrackerTable ft ∧ ∃ tft, transTableFillFromArray ft = some tft ∧ tft.length = ft.entries.length ∧
      (tft.foldl (fun t te => (fileTableAdd t te).1) fileTableInit).view = ft.view := by
  intro te ft
  have hft : TrackerTable (addAll fileTableInit [te]) := trackerTable_addAll (by decide) (by decide) (by decide)
  obtain ⟨tft, hfill, hlen, -, -, -, hview⟩ := snapshot_round_trip ft hft
  exact ⟨hft, tft, hfill, hlen, hview⟩

end TeleSync
