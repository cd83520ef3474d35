import TeleSync.Table.HeapRefine

/-!
# Runs of the file table in memory

* `Stands` : the memory stands for a table, and nothing is allocated but its entries, their owners and owners that were
  left behind;
* `heapSpec` : the calls on tables, with the number of owners that they leave behind;
* `Short` : what is left of a call when an allocation fails;
* `exists_heapStep` : a call in memory is a call on the table, or what is left of it;
* `heap_table_refines` : and so is every sequence of calls from `file_table_init`.
-/

namespace TeleSync.HeapTable
open ChainTable PointerChain Ring Transition Filter

variable {α β : Type} [DecidableEq α] [DecidableEq β]

/-! ## Calls on tables -/

/-- The memory stands for a table and a number of owners that have been left behind. -/
def Stands (m : Mem α β) (s : FileTable × ℕ) : Prop :=
  ∃ c o leaked, Represents m c o leaked ∧ (∀ fe, m.liveEntry fe = true → ∃ i, fe ∈ c i) ∧ table m c o = s.1 ∧
    leaked.length = s.2

/-- The owners that `file_table_add` leaves behind. -/
def addDuplicates (t : FileTable) (te : TransFileEntry) : ℕ :=
  match TeleSync.fileTableSearch t te.name with
  | none => duplicates [] te.owners
  | some fe => updateDuplicates fe te

/-- A change of the entry of a name, that leaves owners behind. -/
def atName (s : FileTable × ℕ) (name : Name) (f : FileEntry → FileEntry) (left : FileEntry → ℕ) : FileTable × ℕ :=
  match TeleSync.fileTableSearch s.1 name with
  | none => s
  | some fe => (s.1.modify name f, s.2 + left fe)

/-- The calls on a table, and on the number of owners left behind. -/
def heapSpec : Machine (FileTable × ℕ) HeapCall HeapAnswer where
  init := (TeleSync.fileTableInit, 0)
  step s
    | .find te => (s, .entry ((TeleSync.fileTableFind s.1 te).map TeleSync.transEntryFillFrom))
    | .add te =>
      let p := TeleSync.fileTableAdd s.1 te
      ((p.1, s.2 + addDuplicates s.1 te), .entry (some (TeleSync.transEntryFillFrom p.2)))
    | .update te =>
      (atName s te.name (fun fe => (TeleSync.fileEntryUpdate fe te).1) fun fe => updateDuplicates fe te,
        .ret (TeleSync.fileTableUpdate s.1 te).2)
    | .delete te => (((TeleSync.fileTableDelete s.1 te).1, s.2), .ret (TeleSync.fileTableDelete s.1 te).2)
    | .deleteOwner ip => ((TeleSync.fileTableDeleteOwner s.1 ip, s.2), .void)
    | .destroy => ((TeleSync.fileTableDestroy s.1, s.2), .void)
    | .fill => (s, .table (TeleSync.transTableFillFrom s.1))
    | .replace te =>
      (atName s te.name (fun fe => TeleSync.peerIdListReplace fe te) fun _ => duplicates [] te.owners, .void)
    | .removeMyself myIp te => (atName s te.name (TeleSync.peerIdListRemoveMyself myIp) fun _ => 0, .void)
    | .updateTimestamp te =>
      (atName s te.name (fun fe => TeleSync.fileEntryUpdateTimestamp fe te.timestamp) fun _ => 0, .void)

/-- What is left of a call when the allocation of an owner fails, after `k` of them. -/
def HeapCall.cut (k : ℕ) : HeapCall → HeapCall
  | .add te => .add (cutOwners te k)
  | .update te => .update (cutOwners te k)
  | .replace te => .replace (cutOwners te k)
  | call => call

/-- What is left of a call when allocations fail: without a new entry, `file_table_add` answers like a search. -/
def Short (call call' : HeapCall) : Prop :=
  (∃ k, call' = call.cut k) ∨ ∃ te, call = .add te ∧ call' = .find te

section Tables
variable {t : FileTable} {k : ℕ}

theorem HeapCall.cut_length (te : TransFileEntry) : cutOwners te te.owners.length = te := by
  rw [cutOwners, List.take_length]

theorem Short.refl (call : HeapCall) : Short call call := by
  cases call with
  | add te => exact .inl ⟨te.owners.length, by rw [HeapCall.cut, HeapCall.cut_length]⟩
  | update te => exact .inl ⟨te.owners.length, by rw [HeapCall.cut, HeapCall.cut_length]⟩
  | replace te => exact .inl ⟨te.owners.length, by rw [HeapCall.cut, HeapCall.cut_length]⟩
  | _ => exact .inl ⟨0, rfl⟩

theorem fst_atName (s : FileTable × ℕ) (te : TransFileEntry) :
    (atName s te.name (fun fe => (TeleSync.fileEntryUpdate fe te).1) fun fe => updateDuplicates fe te).1 =
      (TeleSync.fileTableUpdate s.1 te).1 := by
  unfold atName TeleSync.fileTableUpdate
  cases TeleSync.fileTableSearch s.1 te.name <;> rfl

/-- An entry that is there is updated. -/
theorem fst_step_add (s : FileTable × ℕ) (te : TransFileEntry) {fe : FileEntry}
    (h : TeleSync.fileTableSearch s.1 te.name = some fe) :
    (heapSpec.step s (.add te)).1 = (heapSpec.step s (.update te)).1 := by
  simp only [heapSpec, TeleSync.fileTableAdd, addDuplicates, atName, h]

theorem atName_wf {s : FileTable × ℕ} (h : s.1.Wf) (name : Name) {f : FileEntry → FileEntry}
    (hf : ∀ fe, (f fe).name = fe.name) (left : FileEntry → ℕ) : (atName s name f left).1.Wf := by
  unfold atName
  split
  · exact h
  · exact Scheme.Wf.modify h hf name

theorem entries_foldl_delete {l : List FileEntry} (hnd : (l.map FileEntry.name).Nodup) (hw : t.Wf)
    (hl : ∀ fe ∈ l, TeleSync.fileTableSearch t fe.name = some fe) :
    (l.foldl (fun t fe => TeleSync.fileEntryDelete t fe.name) t).entries.length + l.length = t.entries.length ∧
      (l.foldl (fun t fe => TeleSync.fileEntryDelete t fe.name) t).n = t.n - l.length := by
  induction l generalizing t with
  | nil => exact ⟨rfl, (sub_zero _).symm⟩
  | cons fe l ih =>
    rw [List.map_cons, List.nodup_cons] at hnd
    rw [List.forall_mem_cons] at hl
    have hrest : ∀ e ∈ l, TeleSync.fileTableSearch (TeleSync.fileEntryDelete t fe.name) e.name = some e := by
      intro e he
      have hne : e.name ≠ fe.name := fun heq => hnd.1 (heq ▸ List.mem_map_of_mem he)
      have hs : TeleSync.fileTableSearch (TeleSync.fileEntryDelete t fe.name) e.name =
          if e.name = fe.name then none else TeleSync.fileTableSearch t e.name := Scheme.search_erase hw _ _
      rw [hs, if_neg hne]
      exact hl.2 e he
    have hlen : (TeleSync.fileEntryDelete t fe.name).entries.length + 1 = t.entries.length :=
      Scheme.length_toList_erase hl.1
    have hwf : (TeleSync.fileEntryDelete t fe.name).Wf := Scheme.Wf.erase hw fe.name
    obtain ⟨hleft, hn⟩ := ih hnd.2 hwf hrest
    rw [List.foldl_cons, List.length_cons]
    refine ⟨by omega, ?_⟩
    rw [hn]
    show t.n - 1 - _ = _
    push_cast
    ring

theorem fileTableDestroy_eq (hw : t.Wf) :
    TeleSync.fileTableDestroy t = ⟨t.n - t.entries.length, fun _ => []⟩ := by
  obtain ⟨hleft, hn⟩ := entries_foldl_delete hw.nodup_names hw fun _ hfe => hw.mem_entries.mp hfe
  have hnone : (TeleSync.fileTableDestroy t).entries = [] := by
    rw [← List.length_eq_zero_iff, TeleSync.fileTableDestroy]
    omega
  have hchains : (TeleSync.fileTableDestroy t).fileHtable = fun _ => [] := by
    funext i
    rw [List.eq_nil_iff_forall_not_mem]
    intro fe hfe
    have hmem : fe ∈ (TeleSync.fileTableDestroy t).entries := Scheme.mem_toList.mpr ⟨i, hfe⟩
    rw [hnone] at hmem
    exact List.not_mem_nil hmem
  exact congrArg₂ FileTable.mk hn hchains

theorem heapSpec_wf {s : FileTable × ℕ} (h : s.1.Wf) (call : HeapCall) : (heapSpec.step s call).1.1.Wf := by
  cases call with
  | find te => exact h
  | add te => exact h.add te
  | update te =>
    show (atName s te.name _ _).1.Wf
    rw [fst_atName]
    exact h.update te
  | delete te => exact h.delete te
  | deleteOwner ip => exact h.deleteOwner ip
  | destroy =>
    show (TeleSync.fileTableDestroy s.1).Wf
    rw [fileTableDestroy_eq h]
    exact Scheme.wf_empty
  | fill => exact h
  | replace te => exact atName_wf (f := fun fe => TeleSync.peerIdListReplace fe te) h te.name (fun _ => rfl) _
  | removeMyself myIp te => exact atName_wf (f := TeleSync.peerIdListRemoveMyself myIp) h te.name (fun _ => rfl) _
  | updateTimestamp te =>
    exact atName_wf (f := fun fe => TeleSync.fileEntryUpdateTimestamp fe te.timestamp) h te.name (fun _ => rfl) _

end Tables

/-! ## Calls in memory -/

section Calls
variable {m m' : Mem α β} {c : Buckets HASH_SIZE α} {o o' : α → List β} {leaked left : List β} {fe : α} {name : Name}
  {l₁ l₂ : List α} (A : Allocator α β)

omit [DecidableEq α] [DecidableEq β] in
theorem Represents.callocFails (hr : Represents m c o leaked) : Represents m.callocFails c o leaked :=
  ⟨hr.chained, hr.ringed, hr.live, hr.dead, hr.owned, hr.leaked_live, hr.leaked_nodup, hr.leaked_alone, hr.found⟩

omit [DecidableEq β] in
theorem Changes.stands (hr : Represents m c o leaked) (hwhole : ∀ a, m.liveEntry a = true → ∃ i, a ∈ c i)
    (hsplit : c (searchBucket name) = l₁ ++ fe :: l₂) (hl₁ : ∀ a ∈ l₁, (record m o a).name ≠ name)
    (hname : (record m o fe).name = name)
    (hsearch : TeleSync.fileTableSearch (table m c o) name = some (record m o fe)) {f : FileEntry → FileEntry}
    {n : FileEntry → ℕ} (h : Changes m m' c o o' (left ++ leaked) fe (f (record m o fe)))
    (hleft : left.length = n (record m o fe)) : Stands m' (atName (table m c o, leaked.length) name f n) := by
  refine ⟨c, o', left ++ leaked, h.represents, fun a ha => hwhole a ((h.live a).symm.trans ha), ?_, ?_⟩
  · rw [h.table_modify hr hsplit hl₁ hname, atName, hsearch]
  · rw [List.length_append, hleft, atName, hsearch, Nat.add_comm]

omit [DecidableEq β] in
/-- What is done to the entry of a name, as far as the allocations go. -/
theorem exists_atEntry (hr : Represents m c o leaked) (hwhole : ∀ a, m.liveEntry a = true → ∃ i, a ∈ c i)
    (te : TransFileEntry) {f : ℕ → α → Mem α β → Option (Mem α β)} {g : TransFileEntry → FileEntry → FileEntry}
    {n : TransFileEntry → FileEntry → ℕ}
    (hf : ∀ fe, m.liveEntry fe = true → ∃ k m' o' left, (∀ᶠ fuel in atTop, f fuel fe m = some m') ∧
      Changes m m' c o o' (left ++ leaked) fe (g (cutOwners te k) (record m o fe)) ∧
      left.length = n (cutOwners te k) (record m o fe) ∧
      (m'.failed = false → m.failed = false ∧ cutOwners te k = te)) :
    ∃ k m', (∀ᶠ fuel in atTop, atEntry fuel te.name (f fuel) m = some (m', .void)) ∧
      Stands m' (atName (table m c o, leaked.length) te.name (g (cutOwners te k)) (n (cutOwners te k))) ∧
      (m'.failed = false → m.failed = false ∧ cutOwners te k = te) := by
  rcases search_cases hr te.name with ⟨hsearch, hfind⟩ | ⟨fe, l₁, l₂, hsplit, hl₁, hname, hsearch, hfind⟩
  · refine ⟨te.owners.length, m, ?_, ⟨c, o, leaked, hr, hwhole, ?_, ?_⟩, fun h => ⟨h, HeapCall.cut_length te⟩⟩
    · filter_upwards [hfind] with fuel hfind
      rw [atEntry, hfind]
      rfl
    · rw [atName, hsearch]
    · rw [atName, hsearch]
  · have hlive : m.liveEntry fe = true :=
      hr.live (searchBucket te.name) fe (hsplit ▸ List.mem_append_right l₁ List.mem_cons_self)
    obtain ⟨k, m', o', left, hrun, hch, hleft, hfailed⟩ := hf fe hlive
    refine ⟨k, m', ?_, hch.stands hr hwhole hsplit hl₁ hname hsearch hleft, hfailed⟩
    filter_upwards [hfind, hrun] with fuel hfind hrun
    rw [atEntry, hfind]
    simp only [Option.bind_eq_bind, Option.bind_some, hrun]
    rfl

/-- A call comes to an end in memory, and is a call on the table, or what is left of it. -/
def Answered (m : Mem α β) (s : FileTable × ℕ) (call : HeapCall) : Prop :=
  ∃ call' m', (∀ᶠ fuel in atTop, heapStep A fuel m call = some (m', (heapSpec.step s call').2)) ∧
    Stands m' (heapSpec.step s call').1 ∧ Short call call' ∧ (m'.failed = false → m.failed = false ∧ call' = call)

theorem answered_find (hr : Represents m c o leaked) (hwhole : ∀ a, m.liveEntry a = true → ∃ i, a ∈ c i)
    (te : TransFileEntry) : Answered A m (table m c o, leaked.length) (.find te) := by
  refine ⟨.find te, m, ?_, ⟨c, o, leaked, hr, hwhole, rfl, rfl⟩, .refl _, fun h => ⟨h, rfl⟩⟩
  rcases search_cases hr te.name with ⟨hsearch, hfind⟩ | ⟨fe, l₁, l₂, hsplit, -, -, hsearch, hfind⟩
  · filter_upwards [hfind] with fuel hfind
    rw [heapStep, hfind, heapSpec]
    simp only [TeleSync.fileTableFind, hsearch]
    rfl
  · have hlive : m.liveEntry fe = true :=
      hr.live (searchBucket te.name) fe (hsplit ▸ List.mem_append_right l₁ List.mem_cons_self)
    filter_upwards [hfind, eventually_gt_atTop (o fe).length] with fuel hfind hfuel
    rw [heapStep, hfind, Option.bind_some, answerEntry, transEntryFillFrom_eq hr hlive hfuel, heapSpec]
    simp only [TeleSync.fileTableFind, hsearch]
    rfl

theorem answered_update (hr : Represents m c o leaked) (hwhole : ∀ a, m.liveEntry a = true → ∃ i, a ∈ c i)
    (te : TransFileEntry) : Answered A m (table m c o, leaked.length) (.update te) := by
  rcases search_cases hr te.name with ⟨hsearch, hfind⟩ | ⟨fe, l₁, l₂, hsplit, hl₁, hname, hsearch, hfind⟩
  · refine ⟨.update te, m, ?_, ⟨c, o, leaked, hr, hwhole, ?_, ?_⟩, .refl _, fun h => ⟨h, rfl⟩⟩
    · filter_upwards [hfind] with fuel hfind
      rw [heapStep, fileTableUpdate, hfind, heapSpec]
      simp only [TeleSync.fileTableUpdate, hsearch]
      rfl
    · simp only [heapSpec, atName, hsearch]
    · simp only [heapSpec, atName, hsearch]
  · have hlive : m.liveEntry fe = true :=
      hr.live (searchBucket te.name) fe (hsplit ▸ List.mem_append_right l₁ List.mem_cons_self)
    obtain ⟨k, m', o', left, hrun, hch, hleft, hfailed⟩ := exists_fileEntryUpdate A hr hlive te
    have hsame : (cutOwners te k).name = te.name := rfl
    have hstands : Stands m' (heapSpec.step (table m c o, leaked.length) (.update (cutOwners te k))).1 :=
      Changes.stands (f := fun fe => (TeleSync.fileEntryUpdate fe (cutOwners te k)).1)
        (n := fun fe => updateDuplicates fe (cutOwners te k)) hr hwhole hsplit hl₁ hname hsearch hch hleft
    refine ⟨.update (cutOwners te k), m', ?_, hstands, .inl ⟨k, rfl⟩,
      fun h => ⟨(hfailed h).1, congrArg HeapCall.update (hfailed h).2⟩⟩
    filter_upwards [hfind, hrun] with fuel hfind hrun
    rw [heapStep, fileTableUpdate, hfind, heapSpec]
    simp only [Option.bind_eq_bind, Option.bind_some, hrun, TeleSync.fileTableUpdate, hsame, hsearch]
    rfl

theorem answered_add (hr : Represents m c o leaked) (hwhole : ∀ a, m.liveEntry a = true → ∃ i, a ∈ c i)
    (te : TransFileEntry) : Answered A m (table m c o, leaked.length) (.add te) := by
  rcases search_cases hr te.name with ⟨hsearch, hfind⟩ | ⟨fe, l₁, l₂, hsplit, hl₁, hname, hsearch, hfind⟩
  · cases hA : A.entry m.calls m.entries with
    | none =>
      refine ⟨.find te, m.callocFails, ?_, ⟨c, o, leaked, hr.callocFails, hwhole, rfl, rfl⟩, .inr ⟨te, rfl, rfl⟩, nofun⟩
      filter_upwards [hfind] with fuel hfind
      rw [heapStep, fileTableAdd, hfind, heapSpec]
      simp only [Option.bind_eq_bind, Option.bind_some, hA, TeleSync.fileTableFind, hsearch]
      rfl
    | some fe =>
      obtain ⟨k, m', c', o', left, hrun, hr', hwhole', htable, hrecord, hlive', hleft, hfailed⟩ :=
        exists_newEntry A hr hwhole (A.entry_fresh hA) te
      have hsame : (cutOwners te k).name = te.name := rfl
      refine ⟨.add (cutOwners te k), m', ?_, ⟨c', o', left ++ leaked, hr', hwhole', ?_, ?_⟩, .inl ⟨k, rfl⟩,
        fun h => ⟨(hfailed h).1, congrArg HeapCall.add (hfailed h).2⟩⟩
      · filter_upwards [hfind, hrun, eventually_gt_atTop (o' fe).length] with fuel hfind hrun hfuel
        obtain ⟨m₁, hfill, hadd⟩ := Option.bind_eq_some_iff.mp hrun
        rw [heapStep, fileTableAdd, hfind, heapSpec]
        simp only [Option.bind_eq_bind, Option.bind_some, hA, hfill, hadd, Option.pure_def, answerEntry,
          transEntryFillFrom_eq hr' hlive' hfuel, hrecord, TeleSync.fileTableAdd, hsame, hsearch]
        rfl
      · simp only [htable, heapSpec, TeleSync.fileTableAdd, hsame, hsearch]
      · simp only [List.length_append, hleft, heapSpec, addDuplicates, hsame, hsearch, Nat.add_comm]
  · have hlive : m.liveEntry fe = true :=
      hr.live (searchBucket te.name) fe (hsplit ▸ List.mem_append_right l₁ List.mem_cons_self)
    obtain ⟨k, m', o', left, hrun, hch, hleft, hfailed⟩ := exists_fileEntryUpdate A hr hlive te
    have hsame : (cutOwners te k).name = te.name := rfl
    have hrecord : record m' o' fe = (TeleSync.fileEntryUpdate (record m o fe) (cutOwners te k)).1 := by
      rw [hch.entry, Function.update_self]
    have hstands : Stands m' (heapSpec.step (table m c o, leaked.length) (.update (cutOwners te k))).1 :=
      Changes.stands (f := fun fe => (TeleSync.fileEntryUpdate fe (cutOwners te k)).1)
        (n := fun fe => updateDuplicates fe (cutOwners te k)) hr hwhole hsplit hl₁ hname hsearch hch hleft
    have hstep := fst_step_add (table m c o, leaked.length) (cutOwners te k) hsearch
    refine ⟨.add (cutOwners te k), m', ?_, hstep ▸ hstands, .inl ⟨k, rfl⟩,
      fun h => ⟨(hfailed h).1, congrArg HeapCall.add (hfailed h).2⟩⟩
    filter_upwards [hfind, hrun, eventually_gt_atTop (o' fe).length] with fuel hfind hrun hfuel
    rw [heapStep, fileTableAdd, hfind, heapSpec]
    simp only [Option.bind_eq_bind, Option.bind_some, hrun, Option.pure_def, answerEntry,
      transEntryFillFrom_eq hch.represents ((hch.live fe).trans hlive) hfuel, hrecord, TeleSync.fileTableAdd, hsame, hsearch]
    rfl

theorem answered_delete (hr : Represents m c o leaked) (hwhole : ∀ a, m.liveEntry a = true → ∃ i, a ∈ c i)
    (te : TransFileEntry) : Answered A m (table m c o, leaked.length) (.delete te) := by
  rcases search_cases hr te.name with ⟨hsearch, hfind⟩ | ⟨fe, l₁, l₂, hsplit, hl₁, hname, hsearch, hfind⟩
  · refine ⟨.delete te, m, ?_, ⟨c, o, leaked, hr, hwhole, ?_, rfl⟩, .refl _, fun h => ⟨h, rfl⟩⟩
    · filter_upwards [hfind] with fuel hfind
      rw [heapStep, fileTableDelete, hfind, heapSpec]
      simp only [TeleSync.fileTableDelete, hsearch]
      rfl
    · simp only [heapSpec, TeleSync.fileTableDelete, hsearch]
  · have hfe : fe ∈ c (searchBucket te.name) := hsplit ▸ List.mem_append_right l₁ List.mem_cons_self
    obtain ⟨m', o', hrun, hrem, hfailed⟩ := exists_fileEntryDelete hr hfe
    refine ⟨.delete te, m', ?_, ⟨_, o', leaked, hrem.represents, fun a ha => ?_, ?_, rfl⟩, .refl _,
      fun h => ⟨hfailed ▸ h, rfl⟩⟩
    · filter_upwards [hfind, hrun] with fuel hfind hrun
      rw [heapStep, fileTableDelete, hfind, heapSpec]
      simp only [Option.bind_eq_bind, Option.bind_some, hrun, TeleSync.fileTableDelete, hsearch]
      rfl
    · obtain ⟨hne, ha⟩ := (hrem.live a).mp ha
      obtain ⟨i, hi⟩ := hwhole a ha
      exact ⟨i, (List.mem_erase_of_ne hne).mpr hi⟩
    · simp only [heapSpec, TeleSync.fileTableDelete, hsearch]
      exact hrem.table_delete hr hsplit hl₁ hname

theorem answered_deleteOwner (hr : Represents m c o leaked) (hwhole : ∀ a, m.liveEntry a = true → ∃ i, a ∈ c i)
    (ip : UInt32) : Answered A m (table m c o, leaked.length) (.deleteOwner ip) := by
  obtain ⟨m', c', o', hrun, hr', hwhole', htable, hfailed⟩ := (sweeps_dropOwner ip).table hr hwhole
  rw [zero_mul, sub_zero] at htable
  refine ⟨.deleteOwner ip, m', ?_, ⟨c', o', leaked, hr', hwhole', htable, rfl⟩, .refl _, fun h => ⟨hfailed ▸ h, rfl⟩⟩
  filter_upwards [hrun] with fuel hrun
  rw [heapStep, fileTableDeleteOwner, hrun]
  rfl

theorem answered_destroy (hr : Represents m c o leaked) (hwhole : ∀ a, m.liveEntry a = true → ∃ i, a ∈ c i)
    (hw : (table m c o).Wf) : Answered A m (table m c o, leaked.length) .destroy := by
  obtain ⟨m', c', o', hrun, hr', hwhole', htable, hfailed⟩ := sweeps_fileEntryDelete.table hr hwhole
  have hall : ((table m c o).entries.countP fun _ => (none : Option FileEntry).isNone) = (table m c o).entries.length :=
    congrFun List.countP_true _
  have hnone : Scheme.sweep (table m c o).fileHtable (fun _ : FileEntry => (none : Option FileEntry)) = fun _ => [] := by
    funext i
    exact List.filterMap_none _
  rw [hall, one_mul, hnone] at htable
  refine ⟨.destroy, m', ?_, ⟨c', o', leaked, hr', hwhole', ?_, rfl⟩, .refl _, fun h => ⟨hfailed ▸ h, rfl⟩⟩
  · filter_upwards [hrun] with fuel hrun
    rw [heapStep, fileTableDestroy, hrun]
    rfl
  · exact htable.trans (fileTableDestroy_eq hw).symm

/-- **Every call in memory comes to an end**, and is a call on the table that the memory stands for. -/
theorem exists_heapStep {s : FileTable × ℕ} (h : Stands m s) (hw : s.1.Wf) (call : HeapCall) : Answered A m s call := by
  obtain ⟨c, o, leaked, hr, hwhole, htable, hlen⟩ := h
  obtain rfl : (table m c o, leaked.length) = s := Prod.ext htable hlen
  cases call with
  | find te => exact answered_find A hr hwhole te
  | add te => exact answered_add A hr hwhole te
  | update te => exact answered_update A hr hwhole te
  | delete te => exact answered_delete A hr hwhole te
  | deleteOwner ip => exact answered_deleteOwner A hr hwhole ip
  | destroy => exact answered_destroy A hr hwhole hw
  | fill =>
    refine ⟨.fill, m, ?_, ⟨c, o, leaked, hr, hwhole, rfl, rfl⟩, .refl _, fun h => ⟨h, rfl⟩⟩
    filter_upwards [transTableFillFrom_eq hr] with fuel hrun
    rw [heapStep, hrun]
    rfl
  | replace te =>
    obtain ⟨k, m', hrun, hstands, hfailed⟩ := exists_atEntry (f := fun fuel fe => peerIdListReplace A fuel fe te)
      (g := fun te fe => TeleSync.peerIdListReplace fe te) (n := fun te _ => duplicates [] te.owners) hr hwhole te
      fun fe hfe => by
        obtain ⟨k, m', l, left, hrun, hrw, hleft, hfailed⟩ := exists_peerIdListReplace A hr hfe te
        refine ⟨k, m', Function.update o fe l, left, ?_, hrw.changes, hleft, fun h => ⟨(hfailed h).1, ?_⟩⟩
        · filter_upwards [eventually_gt_atTop ((o fe).length + te.owners.length)] with fuel hfuel
          exact hrun fuel hfuel
        · rw [cutOwners, (hfailed h).2]
    exact ⟨.replace (cutOwners te k), m', hrun, hstands, .inl ⟨k, rfl⟩,
      fun h => ⟨(hfailed h).1, congrArg HeapCall.replace (hfailed h).2⟩⟩
  | removeMyself myIp te =>
    obtain ⟨k, m', hrun, hstands, hfailed⟩ := exists_atEntry (f := fun fuel => peerIdListRemoveMyself fuel myIp)
      (g := fun _ => TeleSync.peerIdListRemoveMyself myIp) (n := fun _ _ => 0) hr hwhole te
      fun fe hfe => by
        obtain ⟨m', l, hrun, hrw, hfailed⟩ := exists_removeMyself myIp hr hfe
        refine ⟨te.owners.length, m', Function.update o fe l, [], ?_, hrw.changes, rfl,
          fun h => ⟨hfailed ▸ h, HeapCall.cut_length te⟩⟩
        filter_upwards [eventually_gt_atTop (o fe).length] with fuel hfuel
        exact hrun fuel hfuel
    exact ⟨.removeMyself myIp te, m', hrun, hstands, .refl _, fun h => ⟨(hfailed h).1, rfl⟩⟩
  | updateTimestamp te =>
    obtain ⟨k, m', hrun, hstands, hfailed⟩ := exists_atEntry
      (f := fun _ fe m => m.setEntry fe fun d => { d with timestamp := te.timestamp })
      (g := fun _ fe => TeleSync.fileEntryUpdateTimestamp fe te.timestamp) (n := fun _ _ => 0) hr hwhole te
      fun fe hfe => by
        obtain ⟨m', hset, hch, hfailed⟩ := exists_setEntry hr hfe fun d => { d with timestamp := te.timestamp }
        exact ⟨te.owners.length, m', o, [], .of_forall fun _ => hset, hch, rfl,
          fun h => ⟨hfailed ▸ h, HeapCall.cut_length te⟩⟩
    exact ⟨.updateTimestamp te, m', hrun, hstands, .refl _, fun h => ⟨(hfailed h).1, rfl⟩⟩

end Calls

/-! ## Runs -/

section Runs
variable (A : Allocator α β) (chains : PointerChain.Heap (Fin HASH_SIZE) α) (lists : Ring.Heap (Cell α β))

/-- The calls in memory. -/
def heapMachine : Fuelled (Mem α β) HeapCall HeapAnswer := ⟨heapStep A⟩

omit [DecidableEq β] in
theorem stands_fileTableInit : Stands (Mem.fileTableInit chains lists) heapSpec.init := by
  have hchained : Chained (Mem.fileTableInit chains lists : Mem α β).chains fun _ => [] := by
    unfold Mem.fileTableInit
    dsimp only
    exact Hlist.chained_hashInit chains
  have hnone : ∀ d, rings (Mem.fileTableInit chains lists) (fun _ => []) d = none := by
    intro d
    cases d <;> rfl
  have hrings : Rings lists (rings (Mem.fileTableInit chains lists) fun _ => []) := by
    refine ⟨fun d l hd => ?_, fun d l hd => ?_, fun d e l k n hd => ?_⟩
    all_goals
      rw [hnone] at hd
      cases hd
  exact ⟨fun _ => [], fun _ => [], [],
    ⟨hchained, hrings, fun _ _ h => absurd h List.not_mem_nil, fun _ _ => rfl, fun _ _ h => absurd h List.not_mem_nil,
      fun _ h => absurd h List.not_mem_nil, List.nodup_nil, fun _ h => absurd h List.not_mem_nil,
      fun _ h => absurd h Bool.false_ne_true⟩, fun _ h => absurd h Bool.false_ne_true, rfl, rfl⟩

/-- Addresses in order. -/
def bump : Allocator ℕ ℕ where
  entry k entries := if (entries k).isNone then some k else none
  peer k peers := if (peers k).isNone then some k else none
  entry_fresh h := by
    split_ifs at h with hk
    exact Option.some.inj h ▸ Option.isNone_iff_eq_none.mp hk
  peer_fresh h := by
    split_ifs at h with hk
    exact Option.some.inj h ▸ Option.isNone_iff_eq_none.mp hk

/-- An entry that is reported twice has one owner, and the other one is left behind. -/
example :
    let te : TransFileEntry := { TransFileEntry.zero with owners := [⟨1, 5⟩] }
    ((heapMachine bump).runFrom 3 (Mem.fileTableInit ⟨fun _ => none, fun _ => none⟩ ⟨fun _ => none, fun _ => none⟩)
        [.add te, .add te]).map (fun r => (r.2, r.1.peers 1, r.1.peers 2)) =
      some ([.entry (some { te with opType := .fileNone }), .entry (some { te with opType := .fileNone })],
        some ⟨1, 5⟩, some ⟨1, 5⟩) := by
  decide +kernel

end Runs

end TeleSync.HeapTable
