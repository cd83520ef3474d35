import TeleSync.Table.Refine
import TeleSync.Lib.Latest

/-!
# Merging entries into a table

`file_table_add` merges what it receives: for each name the table keeps the greatest timestamp and
the owners of the entries that carry it. `summary` is a record up to ports and the order of owners;
`versions` is everything a table and a list of entries say about a name. After any number of adds
the summary of a name is the merge of its versions (`addAll_isMerge`), which only depends on the set
of versions, not on how they arrive (`file_table_add_order_independent`).
-/

namespace TeleSync
open Latest

/-! ## Owner addresses -/

theorem ips_append (l l' : List PeerId) : ips (l ++ l') = ips l ∪ ips l' := by
  ext ip
  simp [mem_ips, or_and_right, exists_or]

theorem alreadyInOwners_iff {head : List PeerId} {p : PeerId} :
    alreadyInOwners head p = true ↔ p.ip ∈ ips head := by
  simp [alreadyInOwners, mem_ips]

theorem ips_foldl_add (owners head : List PeerId) :
    ips (owners.foldl (fun head p => if alreadyInOwners head p then head else head ++ [p]) head) =
      ips head ∪ ips owners := by
  induction owners generalizing head with
  | nil => simp
  | cons p owners ih =>
    have hp : ips (p :: owners) = {p.ip} ∪ ips owners := by
      ext ip
      simp [mem_ips, eq_comm]
    rw [List.foldl_cons, ih, hp, ← Set.union_assoc]
    congr 1
    split_ifs with h
    · rw [Set.union_eq_self_of_subset_right]
      exact Set.singleton_subset_iff.mpr (alreadyInOwners_iff.mp h)
    · rw [ips_append]
      congr 1
      ext ip
      simp [mem_ips, eq_comm]

@[simp] theorem ips_peerIdListAdd (head : List PeerId) (te : TransFileEntry) :
    ips (peerIdListAdd head te) = ips head ∪ ips te.owners := ips_foldl_add te.owners head

/-! ## Summaries -/

/-- A record's timestamp and owner addresses. -/
def summary (r : FileRecord) : ℕ × Set UInt32 := (r.timestamp, ips r.owners)

/-- The version an entry announces. -/
def version (te : TransFileEntry) : ℕ × Set UInt32 := (te.timestamp, ips te.owners)

/-- The summary a table holds for a name. -/
def FileTable.summaryAt (t : FileTable) (name : Name) : Option (ℕ × Set UInt32) := (t.view name).map summary

theorem summary_newRecord (te : TransFileEntry) : summary (newRecord te) = version te := by
  simp [summary, newRecord, version]

theorem summary_mergeRecord (r : FileRecord) (te : TransFileEntry) :
    summary (mergeRecord r te) = merge (summary r) (version te) := by
  unfold mergeRecord merge summary version
  split_ifs
  · simp
  · simp
  · rfl

theorem summaryAt_add (t : FileTable) (te : TransFileEntry) (name : Name) :
    (fileTableAdd t te).1.summaryAt name =
      if name = te.name then
        some (match t.summaryAt name with
          | none => version te
          | some s => merge s (version te))
      else t.summaryAt name := by
  unfold FileTable.summaryAt
  rw [FileTable.view_add, Function.update_apply]
  split_ifs with h
  · subst h
    cases t.view te.name with
    | none => exact congrArg some (summary_newRecord te)
    | some r => exact congrArg some (summary_mergeRecord r te)
  · rfl

/-! ## All adds -/

/-- `file_table_add` of every entry in order. -/
def addAll (t : FileTable) (es : List TransFileEntry) : FileTable :=
  es.foldl (fun t te => (fileTableAdd t te).1) t

theorem wf_addAll {t : FileTable} (h : t.Wf) (es : List TransFileEntry) : (addAll t es).Wf :=
  List.foldlRecOn es _ (motive := fun t : FileTable => t.Wf) h fun _ ht te _ => ht.add te

section FromEmpty
variable {es : List TransFileEntry} (hnd : (es.map TransFileEntry.name).Nodup)
include hnd

theorem view_addAll_init (name : Name) :
    (addAll fileTableInit es).view name = (KeyedList.find TransFileEntry.name name es).map newRecord := by
  have hview := KeyedList.view_foldl FileTable.view (fun t te => (fileTableAdd t te).1)
    (fun te v => some (addRecord te v)) FileTable.view_add hnd fileTableInit name
  rw [addAll, hview]
  cases KeyedList.find TransFileEntry.name name es <;> rfl

theorem stamp_addAll_init (name : Name) : (addAll fileTableInit es).stamp name =
    ((KeyedList.find TransFileEntry.name name es).map TransFileEntry.timestamp : Option ℕ) := by
  rw [FileTable.stamp, view_addAll_init hnd, Option.map_map]
  rfl

theorem exists_of_mem_addAll_init {fe : FileEntry} (hfe : fe ∈ (addAll fileTableInit es).entries) :
    ∃ te ∈ es, te.name = fe.name ∧ newRecord te = fe.toFileRecord := by
  have hview := (wf_addAll FileTable.wf_init es).view_of_mem hfe
  rw [view_addAll_init hnd] at hview
  obtain ⟨te, hfind, hrecord⟩ := Option.map_eq_some_iff.mp hview
  exact ⟨te, KeyedList.mem_of_find hfind, KeyedList.key_of_find hfind, hrecord⟩

theorem length_addAll_init_le : (addAll fileTableInit es).entries.length ≤ es.length := by
  have hsub : (addAll fileTableInit es).entries.map FileEntry.name ⊆ es.map TransFileEntry.name := by
    intro name hname
    obtain ⟨fe, hfe, rfl⟩ := List.mem_map.mp hname
    obtain ⟨te, hte, heq, -⟩ := exists_of_mem_addAll_init hnd hfe
    exact heq ▸ List.mem_map_of_mem hte
  have hle := ((wf_addAll FileTable.wf_init es).nodup_names.subperm hsub).length_le
  rwa [List.length_map, List.length_map] at hle

end FromEmpty

/-- What the table and the entries say about a name. -/
def versions (t : FileTable) (es : List TransFileEntry) (name : Name) : Set (ℕ × Set UInt32) :=
  {v | t.summaryAt name = some v ∨ ∃ te ∈ es, te.name = name ∧ version te = v}

theorem versions_append_of_eq (t : FileTable) (es : List TransFileEntry) {te : TransFileEntry} {name : Name}
    (h : te.name = name) : versions t (es ++ [te]) name = insert (version te) (versions t es name) := by
  ext v
  simp only [versions, Set.mem_ofPred_eq, Set.mem_insert_iff, List.mem_append, List.mem_singleton]
  constructor
  · rintro (hv | ⟨e, he | rfl, hn, hv⟩)
    · exact Or.inr (Or.inl hv)
    · exact Or.inr (Or.inr ⟨e, he, hn, hv⟩)
    · exact Or.inl hv.symm
  · rintro (rfl | hv | ⟨e, he, hn, hv⟩)
    · exact Or.inr ⟨te, Or.inr rfl, h, rfl⟩
    · exact Or.inl hv
    · exact Or.inr ⟨e, Or.inl he, hn, hv⟩

theorem versions_append_of_ne (t : FileTable) (es : List TransFileEntry) {te : TransFileEntry} {name : Name}
    (h : te.name ≠ name) : versions t (es ++ [te]) name = versions t es name := by
  ext v
  simp only [versions, Set.mem_ofPred_eq, List.mem_append, List.mem_singleton]
  constructor
  · rintro (hv | ⟨e, he | rfl, hn, hv⟩)
    · exact Or.inl hv
    · exact Or.inr ⟨e, he, hn, hv⟩
    · exact absurd hn h
  · rintro (hv | ⟨e, he, hn, hv⟩)
    · exact Or.inl hv
    · exact Or.inr ⟨e, Or.inl he, hn, hv⟩

/-- A set of versions with its merge, or no version and no record. -/
def MergesTo (V : Set (ℕ × Set UInt32)) : Option (ℕ × Set UInt32) → Prop
  | none => V = ∅
  | some s => IsMerge V s

theorem MergesTo.unique {V : Set (ℕ × Set UInt32)} {s s' : Option (ℕ × Set UInt32)}
    (h : MergesTo V s) (h' : MergesTo V s') : s = s' := by
  have hne : ∀ r, IsMerge V r → V ≠ ∅ := by
    rintro r hr rfl
    simpa using hr.greatest.1
  cases s with
  | none =>
    cases s' with
    | none => rfl
    | some r => exact absurd h (hne r h')
  | some r =>
    cases s' with
    | none => exact absurd h' (hne r h)
    | some r' => exact congrArg some (IsMerge.unique h h')

/-- After the adds, the summary of a name is the merge of its versions. -/
theorem addAll_isMerge (t : FileTable) (es : List TransFileEntry) (name : Name) :
    MergesTo (versions t es name) ((addAll t es).summaryAt name) := by
  induction es using List.reverseRecOn with
  | nil =>
    have hv : versions t [] name = {v | t.summaryAt name = some v} := by simp [versions]
    rw [hv]
    change MergesTo _ (t.summaryAt name)
    cases t.summaryAt name with
    | none => simp [MergesTo]
    | some s =>
      have hs : {v | some s = some v} = {s} := by ext v; simp [eq_comm]
      rw [hs]
      exact isMerge_singleton s
  | append_singleton es te ih =>
    have hstep : addAll t (es ++ [te]) = (fileTableAdd (addAll t es) te).1 := by simp [addAll]
    rw [hstep, summaryAt_add]
    by_cases hn : name = te.name
    · rw [if_pos hn, versions_append_of_eq t es hn.symm]
      cases hs : (addAll t es).summaryAt name with
      | none =>
        rw [hs] at ih
        have hempty : versions t es name = ∅ := ih
        rw [hempty, insert_empty_eq]
        exact isMerge_singleton _
      | some s =>
        rw [hs] at ih
        exact IsMerge.insert ih _
    · rw [if_neg hn, versions_append_of_ne t es (Ne.symm hn)]
      exact ih

theorem versions_congr (t : FileTable) {es es' : List TransFileEntry} (h : ∀ te, te ∈ es ↔ te ∈ es') (name : Name) :
    versions t es name = versions t es' name := by
  simp only [versions, h]

/-- **The merge does not depend on the order of arrival.** Entries added in any order leave the same
names, each with the same timestamp and owner addresses: the greatest timestamp among the previous
record and the entries of that name, and the owners of those that carry it. Adding an entry once
more changes nothing. -/
theorem file_table_add_order_independent (t : FileTable) (es es' : List TransFileEntry) (hperm : es.Perm es') :
    (∀ name, (addAll t es').summaryAt name = (addAll t es).summaryAt name) ∧
      (∀ name, MergesTo (versions t es name) ((addAll t es).summaryAt name)) ∧
      ∀ te ∈ es, ∀ name, (fileTableAdd (addAll t es) te).1.summaryAt name = (addAll t es).summaryAt name := by
  refine ⟨fun name => ?_, addAll_isMerge t es, fun te hte name => ?_⟩
  · have h' := addAll_isMerge t es' name
    rw [← versions_congr t (fun te => hperm.mem_iff) name] at h'
    exact h'.unique (addAll_isMerge t es name)
  · -- one more add is an add of the list extended by a repetition
    have h' := addAll_isMerge t (es ++ [te]) name
    have hmem : ∀ e, e ∈ es ++ [te] ↔ e ∈ es := by simpa using hte
    rw [versions_congr t hmem name] at h'
    have hstep : addAll t (es ++ [te]) = (fileTableAdd (addAll t es) te).1 := by simp [addAll]
    rw [hstep] at h'
    exact h'.unique (addAll_isMerge t es name)

theorem file_table_add_order_independent_swap :
    let f : Name := ⟨[49, 47, 102], by decide, by decide⟩
    let a : TransFileEntry := ⟨f, 5, .fileAdd, .regular, [⟨1, P2P_PORT⟩, ⟨2, P2P_PORT⟩]⟩
    let b : TransFileEntry := ⟨f, 7, .fileModify, .regular, [⟨3, P2P_PORT⟩]⟩
    [a, b].Perm [b, a] ∧
      (∀ name, (addAll fileTableInit [b, a]).summaryAt name = (addAll fileTableInit [a, b]).summaryAt name) ∧
      ∀ name, (fileTableAdd (addAll fileTableInit [a, b]) a).1.summaryAt name =
        (addAll fileTableInit [a, b]).summaryAt name := by
  intro f a b
  have hp : [a, b].Perm [b, a] := List.Perm.swap b a []
  obtain ⟨h1, -, h3⟩ := file_table_add_order_independent fileTableInit [a, b] [b, a] hp
  exact ⟨hp, h1, h3 a List.mem_cons_self⟩

end TeleSync
