import TeleSync.Table.HeapOwners

/-!
# The file table in memory is a file table

* `Changes`, `Removal` : an entry has changed, or has been unlinked and freed, and nothing else;
* `search_cases` : `__file_table_search` finds what the search of the table finds;
* `exists_fileEntryUpdate`, `exists_fileEntryDelete`, `exists_newEntry` : what is done to one entry in memory is done to
  the table, as far as the allocations go;
* `Sweeps`, `Sweeps.table` : `hash_for_each_safe` with a body that may unlink and free the entry that it visits;
* `transEntryFillFrom_eq`, `transTableFillFrom_eq` : what is read.
-/

namespace TeleSync.HeapTable
open ChainTable PointerChain Ring Transition Filter

variable {α β : Type}

section Entries
variable {m : Mem α β} {c : Buckets HASH_SIZE α} {o : α → List β}

theorem entries_table : (table m c o).entries = ((List.finRange HASH_SIZE).flatMap c).map (record m o) := by
  rw [FileTable.entries, Scheme.toList, List.map_flatMap]
  rfl

end Entries

/-! ## One entry changes -/

/-- The entry `fe` has become `e`. -/
structure Changes [DecidableEq α] (m m' : Mem α β) (c : Buckets HASH_SIZE α) (o o' : α → List β) (leaked : List β)
    (fe : α) (e : FileEntry) : Prop where
  represents : Represents m' c o' leaked
  n : m'.n = m.n
  live : ∀ a, m'.liveEntry a = m.liveEntry a
  owners : ∀ a, a ≠ fe → o' a = o a
  entry : record m' o' = Function.update (record m o) fe e

section Changing
variable [DecidableEq α] {m m' m'' : Mem α β} {c : Buckets HASH_SIZE α} {o o' o'' : α → List β}
  {leaked leaked' l : List β} {fe : α} {e e' : FileEntry} {owners : List PeerId}

theorem Changes.trans (h : Changes m m' c o o' leaked fe e) (h' : Changes m' m'' c o' o'' leaked' fe e') :
    Changes m m'' c o o'' leaked' fe e' where
  represents := h'.represents
  n := h'.n.trans h.n
  live a := (h'.live a).trans (h.live a)
  owners a ha := (h'.owners a ha).trans (h.owners a ha)
  entry := by rw [h'.entry, h.entry, Function.update_idem]

theorem Changes.refl (hr : Represents m c o leaked) (fe : α) : Changes m m c o o leaked fe (record m o fe) :=
  ⟨hr, rfl, fun _ => rfl, fun _ _ => rfl, (Function.update_eq_self fe _).symm⟩

theorem Rewrites.changes (h : Rewrites m m' c o fe l leaked owners) :
    Changes m m' c o (Function.update o fe l) leaked fe { record m o fe with owners := owners } where
  represents := h.represents
  n := h.kept.n
  live := h.kept.liveEntry
  owners a ha := Function.update_of_ne ha l o
  entry := by
    funext a
    have hdata : m'.dataOf a = m.dataOf a := by rw [Mem.dataOf, Mem.dataOf, h.kept.entries]
    by_cases ha : a = fe
    · subst ha
      rw [Function.update_self, record, record, Function.update_self, hdata, h.owners]
    · rw [Function.update_of_ne ha, record, record, Function.update_of_ne ha, hdata,
        map_peerOf (h.kept.peers a ha)]

theorem exists_setEntry (hr : Represents m c o leaked) (hfe : m.liveEntry fe = true) (f : EntryData → EntryData) :
    ∃ m', m.setEntry fe f = some m' ∧
      Changes m m' c o o leaked fe
        ⟨⟨(f (m.dataOf fe)).timestamp, (f (m.dataOf fe)).type, (record m o fe).owners⟩, (f (m.dataOf fe)).name⟩ ∧
      m'.failed = m.failed := by
  have hlive : ∀ a, (Function.update m.entries fe (some (f (m.dataOf fe))) a).isSome = (m.entries a).isSome := by
    intro a
    rw [Function.update_apply]
    split_ifs with ha
    · rw [ha, Mem.entries_eq hfe]
      rfl
    · rfl
  let m' : Mem α β := { m with entries := Function.update m.entries fe (some (f (m.dataOf fe))) }
  have hrings : rings m' o = rings m o := by
    funext d
    cases d with
    | elm p => rfl
    | head a => rw [rings, rings, Mem.liveEntry, Mem.liveEntry, hlive]
  refine ⟨m', ?_, ⟨?_, rfl, hlive, fun _ _ => rfl, ?_⟩, rfl⟩
  · rw [Mem.setEntry, Mem.entries_eq hfe, Option.map_some]
  · exact ⟨hr.chained, hrings ▸ hr.ringed, fun i a ha => (hlive a).trans (hr.live i a ha),
      fun a ha => hr.dead a ((hlive a).symm.trans ha), hr.owned, hr.leaked_live, hr.leaked_nodup, hr.leaked_alone,
      hr.found⟩
  · funext a
    by_cases ha : a = fe
    · subst ha
      have hdata : m'.dataOf a = f (m.dataOf a) := by
        show (Function.update m.entries a _ a).getD _ = _
        rw [Function.update_self]
        rfl
      rw [Function.update_self, record, hdata]
      rfl
    · have hdata : m'.dataOf a = m.dataOf a := by
        show (Function.update m.entries fe _ a).getD _ = _
        rw [Function.update_of_ne ha]
        rfl
      rw [Function.update_of_ne ha, record, hdata]
      rfl

end Changing

/-! ## The search -/

section Search
variable {m : Mem α β} {c : Buckets HASH_SIZE α} {o : α → List β} {leaked l : List β} {fe : α}

theorem searchChain_eq {r : Slot (Fin HASH_SIZE) α} {l : List α} (hl : Chain m.chains r l)
    (hlive : ∀ a ∈ l, m.liveEntry a = true) (name : Name) {fuel : ℕ} (hfuel : l.length < fuel) :
    searchChain m name fuel (m.chains.ptr r) = some (l.find? fun a => decide ((m.dataOf a).name = name)) := by
  induction l generalizing r fuel with
  | nil =>
    obtain ⟨fuel, rfl⟩ := Nat.exists_eq_add_of_le' (Nat.one_le_of_lt hfuel)
    have hptr : m.chains.ptr r = none := hl
    rw [hptr]
    rfl
  | cons a l ih =>
    obtain ⟨fuel, rfl⟩ := Nat.exists_eq_add_of_le' (Nat.one_le_of_lt hfuel)
    obtain ⟨ha, hlive⟩ := List.forall_mem_cons.mp hlive
    have hrest := ih hl.2.2 hlive (Nat.lt_of_succ_lt_succ hfuel)
    rw [hl.1, searchChain, Mem.entries_eq ha]
    simp only [Option.bind_eq_bind, Option.bind_some, hrest]
    by_cases hname : (m.dataOf a).name = name
    · rw [if_pos hname, List.find?_cons_of_pos (by simpa using hname)]
      rfl
    · rw [if_neg hname, List.find?_cons_of_neg (by simpa using hname)]

/-- The entry of a name: where it hangs, and that the search in memory and that of the table agree on it. -/
theorem search_cases (hr : Represents m c o leaked) (name : Name) :
    (TeleSync.fileTableSearch (table m c o) name = none ∧ ∀ᶠ fuel in atTop, fileTableSearch fuel name m = some none) ∨
      ∃ fe l₁ l₂, c (searchBucket name) = l₁ ++ fe :: l₂ ∧ (∀ a ∈ l₁, (record m o a).name ≠ name) ∧
        (record m o fe).name = name ∧ TeleSync.fileTableSearch (table m c o) name = some (record m o fe) ∧
        ∀ᶠ fuel in atTop, fileTableSearch fuel name m = some (some fe) := by
  have hheap : ∀ᶠ fuel in atTop, fileTableSearch fuel name m =
      some ((c (searchBucket name)).find? fun a => decide ((record m o a).name = name)) := by
    filter_upwards [eventually_gt_atTop (c (searchBucket name)).length] with fuel hfuel
    exact searchChain_eq (hr.chained.chain _) (hr.live _) name hfuel
  have htable : TeleSync.fileTableSearch (table m c o) name =
      ((c (searchBucket name)).find? fun a => decide ((record m o a).name = name)).map (record m o) := List.find?_map
  cases hfind : (c (searchBucket name)).find? fun a => decide ((record m o a).name = name) with
  | none =>
    rw [hfind] at hheap htable
    exact .inl ⟨htable, hheap⟩
  | some fe =>
    rw [hfind] at hheap htable
    obtain ⟨hname, l₁, l₂, hsplit, hl₁⟩ := List.find?_eq_some_iff_append.mp hfind
    exact .inr ⟨fe, l₁, l₂, hsplit, fun a ha => by simpa using hl₁ a ha, of_decide_eq_true hname, htable, hheap⟩

end Search

variable [DecidableEq α] [DecidableEq β]

/-! ## `file_entry_update` -/

/-- A `calloc` for an owner failed after `k` of them. -/
def cutOwners (te : TransFileEntry) (k : ℕ) : TransFileEntry := { te with owners := te.owners.take k }

/-- The owners that `file_entry_update` leaves behind. -/
def updateDuplicates (fe : FileEntry) (te : TransFileEntry) : ℕ :=
  if te.timestamp > fe.timestamp then duplicates [] te.owners
  else if te.timestamp = fe.timestamp then duplicates fe.owners te.owners
  else 0

section Updates
variable {m : Mem α β} {c : Buckets HASH_SIZE α} {o : α → List β} {leaked : List β} {fe : α} (A : Allocator α β)

theorem exists_fileEntryUpdate (hr : Represents m c o leaked) (hfe : m.liveEntry fe = true) (te : TransFileEntry) :
    ∃ k m' o' left,
      (∀ᶠ fuel in atTop, fileEntryUpdate A fuel fe te m =
        some (m', (TeleSync.fileEntryUpdate (record m o fe) (cutOwners te k)).2)) ∧
      Changes m m' c o o' (left ++ leaked) fe (TeleSync.fileEntryUpdate (record m o fe) (cutOwners te k)).1 ∧
      left.length = updateDuplicates (record m o fe) (cutOwners te k) ∧
      (m'.failed = false → m.failed = false ∧ cutOwners te k = te) := by
  have hts : (record m o fe).timestamp = (m.dataOf fe).timestamp := rfl
  have hcut : ∀ {k}, te.owners.take k = te.owners → cutOwners te k = te := fun h => by rw [cutOwners, h]
  rcases lt_trichotomy (m.dataOf fe).timestamp te.timestamp with hlt | heq | hgt
  · obtain ⟨m₁, hset, hch₁, hfailed₁⟩ := exists_setEntry hr hfe fun d => { d with timestamp := te.timestamp }
    obtain ⟨k, m', l, left, hrun, hrw, hleft, hfailed⟩ :=
      exists_peerIdListReplace A hch₁.represents ((hch₁.live fe).trans hfe) te
    refine ⟨k, m', Function.update o fe l, left, ?_, ?_, ?_, fun h => ?_⟩
    · filter_upwards [eventually_gt_atTop ((o fe).length + te.owners.length)] with fuel hfuel
      rw [fileEntryUpdate, Mem.entries_eq hfe]
      simp only [Option.bind_eq_bind, Option.bind_some, if_pos hlt, hset, hrun fuel hfuel]
      rw [TeleSync.fileEntryUpdate, if_pos (show (cutOwners te k).timestamp > (record m o fe).timestamp from hlt)]
      rfl
    · rw [TeleSync.fileEntryUpdate, if_pos (show (cutOwners te k).timestamp > (record m o fe).timestamp from hlt)]
      have hch := hch₁.trans hrw.changes
      rw [hch₁.entry, Function.update_self] at hch
      exact hch
    · rw [updateDuplicates, if_pos (show (cutOwners te k).timestamp > (record m o fe).timestamp from hlt)]
      exact hleft
    · exact ⟨hfailed₁ ▸ (hfailed h).1, hcut (hfailed h).2⟩
  · obtain ⟨k, m', l, left, hrun, hrw, hleft, hfailed⟩ := exists_peerIdListAdd A hr hfe te.owners
    have hnot : ¬ (cutOwners te k).timestamp > (record m o fe).timestamp := not_lt.mpr heq.ge
    have hsame : (cutOwners te k).timestamp = (record m o fe).timestamp := heq.symm
    refine ⟨k, m', Function.update o fe l, left, ?_, ?_, ?_, fun h => ⟨(hfailed h).1, hcut (hfailed h).2⟩⟩
    · filter_upwards [eventually_gt_atTop ((o fe).length + te.owners.length)] with fuel hfuel
      rw [fileEntryUpdate, Mem.entries_eq hfe]
      simp only [Option.bind_eq_bind, Option.bind_some, if_neg (not_lt.mpr heq.ge), if_pos heq.symm, hrun fuel hfuel]
      rw [TeleSync.fileEntryUpdate, if_neg hnot, if_pos hsame]
      rfl
    · rw [TeleSync.fileEntryUpdate, if_neg hnot, if_pos hsame]
      exact hrw.changes
    · rw [updateDuplicates, if_neg hnot, if_pos hsame]
      exact hleft
  · have hnot : ¬ te.timestamp > (record m o fe).timestamp := not_lt.mpr hgt.le
    have hne : te.timestamp ≠ (record m o fe).timestamp := hgt.ne
    have hall : cutOwners te te.owners.length = te := hcut (List.take_length)
    refine ⟨te.owners.length, m, o, [], .of_forall fun fuel => ?_, ?_, ?_, fun h => ⟨h, hall⟩⟩
    · rw [fileEntryUpdate, Mem.entries_eq hfe]
      simp only [Option.bind_eq_bind, Option.bind_some, if_neg hnot, if_neg hne, hall, TeleSync.fileEntryUpdate,
        if_neg (not_lt.mpr hgt.le), if_neg hgt.ne]
      rfl
    · rw [hall, TeleSync.fileEntryUpdate, if_neg hnot, if_neg hne]
      exact .refl hr fe
    · rw [hall, updateDuplicates, if_neg hnot, if_neg hne]
      rfl

end Updates

/-! ## The table around an entry -/

section Tables
variable {m m' : Mem α β} {c : Buckets HASH_SIZE α} {o o' : α → List β} {leaked leaked' : List β} {fe : α}
  {e : FileEntry} {name : Name} {l₁ l₂ : List α}

omit [DecidableEq β] in
/-- What happens to the entry that the search finds happens to the table. -/
theorem Changes.table_modify (hr : Represents m c o leaked) (hsplit : c (searchBucket name) = l₁ ++ fe :: l₂)
    (hl₁ : ∀ a ∈ l₁, (record m o a).name ≠ name) (hname : (record m o fe).name = name) {f : FileEntry → FileEntry}
    (h : Changes m m' c o o' leaked' fe (f (record m o fe))) : table m' c o' = (table m c o).modify name f := by
  have hnodup := hr.chained.nodup (searchBucket name)
  have hmap : ∀ l : List α, fe ∉ l → l.map (record m' o') = l.map (record m o) := fun l hl =>
    List.map_congr_left fun a ha => by
      rw [h.entry, Function.update_of_ne fun hafe : a = fe => hl (hafe ▸ ha)]
  rw [table, FileTable.modify, h.n]
  congr 1
  funext i
  show (c i).map (record m' o') = Scheme.modify scheme (fun i => (c i).map (record m o)) name f i
  rw [Scheme.modify, Function.update_apply]
  split_ifs with hi
  · subst hi
    show (c (searchBucket name)).map (record m' o') = scheme.alter name f ((c (searchBucket name)).map (record m o))
    rw [hsplit] at hnodup
    obtain ⟨hl₁fe, hl₂fe⟩ : fe ∉ l₁ ∧ fe ∉ l₂ := by
      have hmid := List.nodup_middle.mp hnodup
      simpa using (List.nodup_cons.mp hmid).1
    have halter : scheme.alter name f (l₁.map (record m o) ++ record m o fe :: l₂.map (record m o)) =
        l₁.map (record m o) ++ f (record m o fe) :: l₂.map (record m o) :=
      Scheme.alter_append (List.forall_mem_map.mpr hl₁) hname
    rw [hsplit, List.map_append, List.map_cons, List.map_append, List.map_cons, halter, hmap l₁ hl₁fe, hmap l₂ hl₂fe,
      h.entry, Function.update_self]
  · refine hmap _ fun hfe => hi (hr.chained.unique _ _ fe hfe ?_)
    show fe ∈ c (searchBucket name)
    rw [hsplit]
    exact List.mem_append_right _ List.mem_cons_self

end Tables

/-! ## One entry goes -/

/-- The entry `fe` has been unlinked and freed, and the counter lowered by `d`. -/
structure Removal (m m' : Mem α β) (c : Buckets HASH_SIZE α) (o o' : α → List β) (leaked : List β) (fe : α) (d : ℤ) :
    Prop where
  represents : Represents m' (fun i => (c i).erase fe) o' leaked
  n : m'.n = m.n - d
  live : ∀ a, m'.liveEntry a = true ↔ a ≠ fe ∧ m.liveEntry a = true
  owners : ∀ a, a ≠ fe → o' a = o a
  entry : ∀ a, a ≠ fe → record m' o' a = record m o a

section Removing
variable {m m' m'' : Mem α β} {c : Buckets HASH_SIZE α} {o o' : α → List β} {leaked l : List β} {fe : α}
  {i : Fin HASH_SIZE} {owners : List PeerId} {d : ℤ}

omit [DecidableEq β] in
theorem exists_unlink (hr : Represents m c o leaked) (hfe : fe ∈ c i) (hempty : o fe = []) :
    ∃ m', (m.hashDel fe).bind (fun m => m.freeEntry fe) = some m' ∧ Removal m m' c o o leaked fe 0 ∧
      m'.failed = m.failed := by
  obtain ⟨s, hs, hu, -⟩ := Hlist.unlinks_of_chained hr.chained hfe
  obtain ⟨s', hs', -, hslot⟩ := hr.chained.pprev_eq hfe
  obtain rfl : s' = s := Option.some.inj (hs'.symm.trans hs)
  have hlive := hr.live i fe hfe
  have hupdate : ∀ a, a ≠ fe → Function.update m.entries fe none a = m.entries a := fun a ha =>
    Function.update_of_ne ha _ _
  let m' : Mem α β :=
    { m with chains := Hlist.hashDel fe m.chains, entries := Function.update m.entries fe none }
  have hlive' : ∀ a, m'.liveEntry a = true ↔ a ≠ fe ∧ m.liveEntry a = true := by
    intro a
    show (Function.update m.entries fe none a).isSome = true ↔ _
    by_cases ha : a = fe
    · subst ha
      rw [Function.update_self]
      exact iff_of_false Bool.false_ne_true fun h => h.1 rfl
    · rw [hupdate a ha]
      exact (and_iff_right ha).symm
  refine ⟨m', ?_, ⟨⟨?_, ?_, ?_, ?_, hr.owned, hr.leaked_live, hr.leaked_nodup, hr.leaked_alone, hr.found⟩,
    (sub_zero _).symm, hlive', fun _ _ => rfl, fun a ha => ?_⟩, rfl⟩
  · have hnodes : ([some fe, (m.chains.pprev fe).bind Mem.slotNode, m.chains.ptr (.next fe)] : List (Option α)).all
        (fun fe => fe.all m.liveEntry) = true := by
      have hprev : ((m.chains.pprev fe).bind Mem.slotNode).all m.liveEntry = true := by
        rw [hs, Option.bind_some]
        rcases hslot with rfl | ⟨a, ha, rfl⟩
        · rfl
        · exact hr.live i a ha
      have hnext : (m.chains.ptr (.next fe)).all m.liveEntry = true := by
        cases hptr : m.chains.ptr (.next fe) with
        | none => rfl
        | some a => exact hr.live i a (hr.chained.next_mem hfe hptr)
      simp [hlive, hprev, hnext]
    rw [Mem.hashDel, Mem.withChains, if_pos hnodes, Option.bind_some, Mem.freeEntry,
      Mem.entries_eq (m := { m with chains := Hlist.hashDel fe m.chains }) hlive, Option.map_some]
  · exact hr.chained.unlink hfe hs hu
  · refine hr.ringed.mono fun d k hd => ?_
    obtain ⟨a, rfl, ha, rfl⟩ := rings_eq_some hd
    exact rings_head ((hlive' a).mp ha).2
  · intro j a ha
    refine (hlive' a).mpr ⟨?_, hr.live j a (List.mem_of_mem_erase ha)⟩
    rintro rfl
    exact (hr.chained.nodup j).not_mem_erase ha
  · intro a ha
    by_cases hafe : a = fe
    · rw [hafe, hempty]
    · refine hr.dead a (eq_false_of_ne_true fun h => ?_)
      rw [(hlive' a).mpr ⟨hafe, h⟩] at ha
      cases ha
  · have hdata : m'.dataOf a = m.dataOf a := congrArg (fun d => d.getD ⟨Name.empty, 0, .regular⟩) (hupdate a ha)
    rw [record, hdata]
    rfl

omit [DecidableEq β] in
theorem Rewrites.removal (h : Rewrites m m' c o fe l leaked owners)
    (h' : Removal m' m'' c (Function.update o fe l) o' leaked fe d) : Removal m m'' c o o' leaked fe d where
  represents := h'.represents
  n := by rw [h'.n, h.kept.n]
  live a := by rw [h'.live, h.kept.liveEntry]
  owners a ha := (h'.owners a ha).trans (Function.update_of_ne ha l o)
  entry a ha := by rw [h'.entry a ha, h.changes.entry, Function.update_of_ne ha]

theorem exists_fileEntryDelete (hr : Represents m c o leaked) (hfe : fe ∈ c i) :
    ∃ m' o', (∀ᶠ fuel in atTop, fileEntryDelete fuel fe m = some m') ∧ Removal m m' c o o' leaked fe 1 ∧
      m'.failed = m.failed := by
  obtain ⟨m₁, hrun₁, hrw₁, hfailed₁⟩ := exists_peerIdListDestroy hr (hr.live i fe hfe)
  obtain ⟨m₂, hunlink, hrem, hfailed₂⟩ := exists_unlink hrw₁.represents hfe (Function.update_self _ _ _)
  refine ⟨{ m₂ with n := m₂.n - 1 }, _, ?_, hrw₁.removal (d := 1) ⟨?_, ?_, hrem.live, hrem.owners, hrem.entry⟩,
    hfailed₂.trans hfailed₁⟩
  · filter_upwards [eventually_gt_atTop (o fe).length] with fuel hfuel
    obtain ⟨m₃, hdel, hfree⟩ := Option.bind_eq_some_iff.mp hunlink
    rw [fileEntryDelete, hrun₁ fuel hfuel]
    simp only [Option.bind_eq_bind, Option.bind_some, hdel, hfree]
    rfl
  · have hr₂ := hrem.represents
    exact ⟨hr₂.chained, hr₂.ringed, hr₂.live, hr₂.dead, hr₂.owned, hr₂.leaked_live, hr₂.leaked_nodup, hr₂.leaked_alone,
      hr₂.found⟩
  · show m₂.n - 1 = _
    rw [hrem.n, sub_zero]

end Removing

section Deleting
variable {m m' : Mem α β} {c : Buckets HASH_SIZE α} {o o' : α → List β} {leaked : List β} {fe : α} {name : Name}
  {l₁ l₂ : List α}

omit [DecidableEq β] in
theorem Removal.table_delete (hr : Represents m c o leaked) (hsplit : c (searchBucket name) = l₁ ++ fe :: l₂)
    (hl₁ : ∀ a ∈ l₁, (record m o a).name ≠ name) (hname : (record m o fe).name = name)
    (h : Removal m m' c o o' leaked fe 1) :
    table m' (fun i => (c i).erase fe) o' = TeleSync.fileEntryDelete (table m c o) name := by
  have hchain : ∀ i, ((c i).erase fe).map (record m' o') = Scheme.erase scheme
    (fun i => (c i).map (record m o)) name i := by
    intro i
    have hsame : ((c i).erase fe).map (record m' o') = ((c i).erase fe).map (record m o) :=
      List.map_congr_left fun a ha => h.entry a fun hafe =>
        (hr.chained.nodup i).not_mem_erase (hafe ▸ ha)
    rw [hsame, Scheme.erase, Function.update_apply]
    split_ifs with hi
    · subst hi
      have hnodup := hr.chained.nodup (searchBucket name)
      rw [hsplit] at hnodup
      have hunlink : scheme.unlink name (l₁.map (record m o) ++ record m o fe :: l₂.map (record m o)) =
          l₁.map (record m o) ++ l₂.map (record m o) :=
        Scheme.unlink_append (List.forall_mem_map.mpr hl₁) hname
      show ((c (searchBucket name)).erase fe).map (record m o) =
        scheme.unlink name ((c (searchBucket name)).map (record m o))
      rw [hsplit, KeyedList.erase_append_cons hnodup, List.map_append, List.map_append, List.map_cons, hunlink]
    · rw [List.erase_of_not_mem fun hfe => hi (hr.chained.unique _ _ fe hfe ?_)]
      show fe ∈ c (searchBucket name)
      rw [hsplit]
      exact List.mem_append_right _ List.mem_cons_self
  exact congrArg₂ FileTable.mk h.n (funext hchain)

end Deleting

/-! ## Every entry is visited -/

/-- The body of a loop turns each entry that it visits into what `g` says, or unlinks and frees it and lowers the
counter by `d`. -/
def Sweeps (g : FileEntry → Option FileEntry) (d : ℤ) (body : ℕ → α → Mem α β → Option (Mem α β)) : Prop :=
  ∀ m c o leaked i fe, Represents m c o leaked → fe ∈ c i → ∃ m' o', (∀ᶠ fuel in atTop, body fuel fe m = some m') ∧
    m'.failed = m.failed ∧ match g (record m o fe) with
      | none => Removal m m' c o o' leaked fe d
      | some e => Changes m m' c o o' leaked fe e

/-- The entry is among those that have been visited, and has gone. -/
def gone (g : FileEntry → Option FileEntry) (r : α → FileEntry) (visited : List α) (a : α) : Bool :=
  decide (a ∈ visited) && (g (r a)).isNone

/-- What visits leave. -/
structure Swept (g : FileEntry → Option FileEntry) (d : ℤ) (m m' : Mem α β) (c c' : Buckets HASH_SIZE α)
    (o o' : α → List β) (leaked : List β) (visited : List α) : Prop where
  represents : Represents m' c' o' leaked
  chains : ∀ i, c' i = (c i).filter fun a => !gone g (record m o) visited a
  n : m'.n = m.n - d * visited.countP fun a => (g (record m o a)).isNone
  live : ∀ a, m'.liveEntry a = (m.liveEntry a && !gone g (record m o) visited a)
  kept : ∀ a ∈ visited, ∀ e, g (record m o a) = some e → record m' o' a = e
  others : ∀ a, a ∉ visited → record m' o' a = record m o a
  failed : m'.failed = m.failed

section Sweeping
variable {g : FileEntry → Option FileEntry} {d : ℤ} {body : ℕ → α → Mem α β → Option (Mem α β)}
  {m m' m'' : Mem α β} {c c' c'' : Buckets HASH_SIZE α} {o o' o'' : α → List β} {leaked : List β}
  {visited visited' : List α} {fe a : α} {i : Fin HASH_SIZE}

omit [DecidableEq α] [DecidableEq β] in
theorem gone_of_not_mem [DecidableEq α] {r : α → FileEntry} (ha : a ∉ visited) : gone g r visited a = false := by
  rw [gone, decide_eq_false ha, Bool.false_and]

omit [DecidableEq β] in
theorem Swept.refl (hr : Represents m c o leaked) : Swept g d m m c c o o leaked [] := by
  refine ⟨hr, fun i => ?_, ?_, fun a => ?_, fun _ ha => absurd ha List.not_mem_nil, fun _ _ => rfl, rfl⟩
  · exact (List.filter_eq_self.mpr fun a _ => by rw [gone_of_not_mem List.not_mem_nil]; rfl).symm
  · rw [List.countP_nil, Nat.cast_zero, mul_zero, sub_zero]
  · rw [gone_of_not_mem List.not_mem_nil, Bool.not_false, Bool.and_true]

omit [DecidableEq β] in
theorem Swept.trans (h : Swept g d m m' c c' o o' leaked visited)
    (h' : Swept g d m' m'' c' c'' o' o'' leaked visited') (hdisj : ∀ a ∈ visited', a ∉ visited) :
    Swept g d m m'' c c'' o o'' leaked (visited ++ visited') := by
  have hgone : ∀ a, (!gone g (record m o) visited a && !gone g (record m' o') visited' a) =
      !gone g (record m o) (visited ++ visited') a := by
    intro a
    by_cases ha : a ∈ visited
    · have ha' : a ∉ visited' := fun h => hdisj a h ha
      simp [gone, ha, ha']
    · simp [gone, ha, h.others a ha]
  refine ⟨h'.represents, fun i => ?_, ?_, fun a => ?_, fun a ha e he => ?_, fun a ha => ?_, h'.failed.trans h.failed⟩
  · rw [h'.chains, h.chains, List.filter_filter]
    exact List.filter_congr fun a _ => by rw [Bool.and_comm, hgone]
  · have hcount : (visited'.countP fun a => (g (record m' o' a)).isNone) =
        visited'.countP fun a => (g (record m o a)).isNone :=
      List.countP_congr fun a ha => by rw [h.others a (hdisj a ha)]
    rw [h'.n, h.n, hcount, List.countP_append]
    push_cast
    ring
  · rw [h'.live, h.live, Bool.and_assoc, hgone]
  · rcases List.mem_append.mp ha with ha | ha
    · have ha' : a ∉ visited' := fun h => hdisj a h ‹_›
      rw [h'.others a ha']
      exact h.kept a ha e he
    · refine h'.kept a ha e ?_
      rw [h.others a (hdisj a ha)]
      exact he
  · rw [List.mem_append, not_or] at ha
    rw [h'.others a ha.2, h.others a ha.1]

omit [DecidableEq β] in
theorem Sweeps.visit (hb : Sweeps g d body) (hr : Represents m c o leaked) (hfe : fe ∈ c i) :
    ∃ m' c' o', (∀ᶠ fuel in atTop, body fuel fe m = some m') ∧ Swept g d m m' c c' o o' leaked [fe] := by
  obtain ⟨m', o', hrun, hfailed, hdone⟩ := hb m c o leaked i fe hr hfe
  cases hg : g (record m o fe) with
  | none =>
    rw [hg] at hdone
    have hgone : ∀ a, gone g (record m o) [fe] a = decide (a = fe) := by
      intro a
      by_cases ha : a = fe
      · simp [gone, ha, hg]
      · simp [gone, ha]
    refine ⟨m', _, o', hrun, hdone.represents, fun j => ?_, ?_, fun a => ?_, fun a ha e he => ?_, fun a ha => ?_, hfailed⟩
    · rw [(hr.chained.nodup j).erase_eq_filter]
      exact List.filter_congr fun a _ => by rw [hgone]; rfl
    · rw [hdone.n, List.countP_singleton, hg]
      simp
    · rw [hgone, Bool.eq_iff_iff, hdone.live]
      simp [and_comm]
    · rw [List.mem_singleton.mp ha, hg] at he
      cases he
    · exact hdone.entry a fun h => ha (List.mem_singleton.mpr h)
  | some e =>
    rw [hg] at hdone
    have hgone : ∀ a, gone g (record m o) [fe] a = false := by
      intro a
      by_cases ha : a = fe
      · simp [gone, ha, hg]
      · simp [gone, ha]
    refine ⟨m', c, o', hrun, hdone.represents, fun j => ?_, ?_, fun a => ?_, fun a ha e' he => ?_, fun a ha => ?_,
      hfailed⟩
    · exact (List.filter_eq_self.mpr fun a _ => by rw [hgone]; rfl).symm
    · rw [hdone.n, List.countP_singleton, hg]
      simp
    · rw [hgone, hdone.live, Bool.not_false, Bool.and_true]
    · obtain rfl := List.mem_singleton.mp ha
      rw [hg] at he
      rw [hdone.entry, Function.update_self]
      exact Option.some.inj he
    · rw [hdone.entry, Function.update_of_ne fun h : a = fe => ha (List.mem_singleton.mpr h)]

omit [DecidableEq β] in
/-- The inner loop, from any node of a chain on: the next node has been read before the body runs. -/
theorem Sweeps.chain (hb : Sweeps g d body) (hr : Represents m c o leaked) (l₁ l₂ : List α) (hsplit : c i = l₁ ++ l₂) :
    ∃ m' c' o', (∀ᶠ f in atTop, ∀ fuel, l₂.length < fuel →
        hlistForEachEntrySafe id (body f) fuel l₂.head? m = some m') ∧
      Swept g d m m' c c' o o' leaked l₂ := by
  induction l₂ generalizing m c o l₁ with
  | nil =>
    refine ⟨m, c, o, .of_forall fun f fuel hfuel => ?_, .refl hr⟩
    obtain ⟨fuel, rfl⟩ := Nat.exists_eq_add_of_le' (Nat.one_le_of_lt hfuel)
    rfl
  | cons a l₂ ih =>
    have ha : a ∈ c i := hsplit ▸ List.mem_append_right l₁ List.mem_cons_self
    have hnodup := hr.chained.nodup i
    have hnext : m.hlistNext a = some l₂.head? := by
      have hchain := hr.chained.chain i
      rw [hsplit] at hchain
      rw [Mem.hlistNext, if_pos (hr.live i a ha), hchain.drop.ptr_eq]
    obtain ⟨m₁, c₁, o₁, hbody, hswept⟩ := hb.visit hr ha
    rw [hsplit] at hnodup
    have hne : ∀ b ∈ l₁ ++ l₂, b ∉ [a] := by
      rintro b hb hba
      obtain rfl := List.mem_singleton.mp hba
      exact (List.nodup_cons.mp (List.nodup_middle.mp hnodup)).1 hb
    have hkept : ∀ l : List α, (∀ b ∈ l, b ∉ [a]) → (l.filter fun b => !gone g (record m o) [a] b) = l := fun l hl =>
      List.filter_eq_self.mpr fun b hb => by rw [gone_of_not_mem (hl b hb)]; rfl
    have hc₁ : c₁ i = (l₁ ++ [a].filter fun b => !gone g (record m o) [a] b) ++ l₂ := by
      rw [hswept.chains, hsplit, List.append_cons, List.filter_append, List.filter_append,
        hkept l₁ fun b hb => hne b (List.mem_append_left _ hb), hkept l₂ fun b hb => hne b (List.mem_append_right _ hb)]
    obtain ⟨m', c', o', hrun, hswept'⟩ := ih hswept.represents _ hc₁
    refine ⟨m', c', o', ?_, hswept.trans hswept' fun b hb => hne b (List.mem_append_right _ hb)⟩
    filter_upwards [hbody, hrun] with f hbody hrun fuel hfuel
    obtain ⟨fuel, rfl⟩ := Nat.exists_eq_add_of_le' (Nat.one_le_of_lt hfuel)
    rw [List.head?_cons, hlistForEachEntrySafe]
    simp only [id_eq, hnext, hbody, Option.bind_eq_bind, Option.bind_some]
    exact hrun fuel (Nat.lt_of_succ_lt_succ hfuel)

omit [DecidableEq β] in
theorem Sweeps.buckets (hb : Sweeps g d body) (hr : Represents m c o leaked) {is : List (Fin HASH_SIZE)}
    (hnodup : is.Nodup) :
    ∃ m' c' o', (∀ᶠ f in atTop, is.foldlM (fun s bkt =>
        hlistForEachEntrySafe id (body f) f (s.chains.ptr (.first bkt)) s) m = some m') ∧
      Swept g d m m' c c' o o' leaked (is.flatMap c) := by
  induction is generalizing m c o with
  | nil => exact ⟨m, c, o, .of_forall fun _ => rfl, .refl hr⟩
  | cons i is ih =>
    obtain ⟨hi, hnodup⟩ := List.nodup_cons.mp hnodup
    obtain ⟨m₁, c₁, o₁, hchain, hswept⟩ := hb.chain hr (i := i) [] (c i) rfl
    have hout : ∀ j ∈ is, ∀ a ∈ c j, a ∉ c i := fun j hj a haj hai => hi (hr.chained.unique i j a hai haj ▸ hj)
    have hsame : is.flatMap c₁ = is.flatMap c := List.flatMap_congr fun j hj => by
      rw [hswept.chains]
      exact List.filter_eq_self.mpr fun a ha => by rw [gone_of_not_mem (hout j hj a ha)]; rfl
    obtain ⟨m', c', o', hrun, hswept'⟩ := ih hswept.represents hnodup
    rw [hsame] at hswept'
    refine ⟨m', c', o', ?_, hswept.trans hswept' fun a ha => ?_⟩
    · filter_upwards [hchain, hrun, eventually_gt_atTop (c i).length] with f hchain hrun hf
      rw [List.foldlM_cons, hr.chained.ptr_first, hchain f hf]
      exact hrun
    · obtain ⟨j, hj, haj⟩ := List.mem_flatMap.mp ha
      exact hout j hj a haj

omit [DecidableEq β] in
theorem Swept.map_filter (h : Swept g d m m' c c' o o' leaked visited) {l : List α} (hl : ∀ a ∈ l, a ∈ visited) :
    (l.filter fun a => !gone g (record m o) visited a).map (record m' o') = l.filterMap (g ∘ record m o) := by
  induction l with
  | nil => rfl
  | cons a l ih =>
    obtain ⟨ha, hl⟩ := List.forall_mem_cons.mp hl
    cases hg : g (record m o a) with
    | none =>
      have hcomp : (g ∘ record m o) a = none := hg
      rw [List.filter_cons_of_neg (by simp [gone, ha, hg]), List.filterMap_cons_none hcomp, ih hl]
    | some e =>
      have hcomp : (g ∘ record m o) a = some e := hg
      rw [List.filter_cons_of_pos (by simp [gone, hg]), List.filterMap_cons_some hcomp, List.map_cons, h.kept a ha e hg,
        ih hl]

omit [DecidableEq β] in
/-- `hash_for_each_safe` over the whole table. -/
theorem Sweeps.table (hb : Sweeps g d body) (hr : Represents m c o leaked)
    (hwhole : ∀ a, m.liveEntry a = true → ∃ i, a ∈ c i) :
    ∃ m' c' o', (∀ᶠ f in atTop, hashForEachSafe f id (body f) m = some m') ∧ Represents m' c' o' leaked ∧
      (∀ a, m'.liveEntry a = true → ∃ i, a ∈ c' i) ∧
      table m' c' o' = ⟨m.n - d * ((table m c o).entries.countP fun fe => (g fe).isNone),
        Scheme.sweep (table m c o).fileHtable g⟩ ∧
      m'.failed = m.failed := by
  obtain ⟨m', c', o', hrun, hswept⟩ := hb.buckets hr (List.nodup_finRange HASH_SIZE)
  have hvisited : ∀ {i a}, a ∈ c i → a ∈ (List.finRange HASH_SIZE).flatMap c := fun ha =>
    List.mem_flatMap.mpr ⟨_, List.mem_finRange _, ha⟩
  refine ⟨m', c', o', hrun, hswept.represents, fun a ha => ?_, ?_, hswept.failed⟩
  · rw [hswept.live, Bool.and_eq_true] at ha
    obtain ⟨i, hi⟩ := hwhole a ha.1
    refine ⟨i, ?_⟩
    rw [hswept.chains]
    exact List.mem_filter.mpr ⟨hi, ha.2⟩
  · have hn : m'.n = m.n - d * ((HeapTable.table m c o).entries.countP fun fe => (g fe).isNone) := by
      rw [hswept.n, entries_table, List.countP_map]
      rfl
    have hchain : ∀ i, (c' i).map (record m' o') = ((c i).map (record m o)).filterMap g := by
      intro i
      rw [hswept.chains, List.filterMap_map]
      exact hswept.map_filter fun a ha => hvisited ha
    exact congrArg₂ FileTable.mk hn (funext hchain)

theorem sweeps_dropOwner (ip : UInt32) :
    Sweeps (TeleSync.dropOwner ip) 0 fun fuel => dropOwner (α := α) (β := β) fuel ip := by
  intro m c o leaked i fe hr hfe
  have hlive := hr.live i fe hfe
  obtain ⟨m₁, hrun, hrw, hfailed⟩ := exists_ownersSafe (fun p => p.ip == ip) hr hlive
  have hlive₁ : m₁.liveEntry fe = true := (hrw.kept.liveEntry fe).trans hlive
  have hr₁ := hrw.represents
  have hnext := (hr₁.ring hlive₁).next_eq
  rw [Function.update_self] at hnext
  have hspec : TeleSync.dropOwner ip (record m o fe) =
      if (((o fe).map m.peerOf).filter fun p => !(p.ip == ip)).isEmpty then none
      else some { record m o fe with owners := ((o fe).map m.peerOf).filter fun p => !(p.ip == ip) } := rfl
  have hround : ∀ fuel, (o fe).length < fuel → dropOwner fuel ip fe m =
      if m₁.lists.next (.head fe) = some (.head fe) then (m₁.hashDel fe).bind fun m => m.freeEntry fe else some m₁ := by
    intro fuel hfuel
    rw [dropOwner, hrun fuel hfuel]
    simp only [Option.bind_eq_bind, Option.bind_some, Mem.listNext_eq (a := .head fe) hlive₁]
    rfl
  cases hl : (o fe).filter fun p => !((m.peerOf p).ip == ip) with
  | nil =>
    have hempty : ((o fe).map m.peerOf).filter (fun p => !(p.ip == ip)) = [] := by
      rw [List.filter_map]
      exact congrArg (List.map m.peerOf) hl
    rw [hl] at hnext hrw
    rw [List.map_nil, List.headD_nil] at hnext
    obtain ⟨m', hunlink, hrem, hfailed'⟩ := exists_unlink hrw.represents hfe (Function.update_self _ _ _)
    refine ⟨m', Function.update o fe [], ?_, hfailed'.trans hfailed, ?_⟩
    · filter_upwards [eventually_gt_atTop (o fe).length] with fuel hfuel
      rw [hround fuel hfuel, if_pos hnext, hunlink]
    · rw [hspec, hempty]
      exact hrw.removal hrem
  | cons p l =>
    have hfull : ((o fe).map m.peerOf).filter (fun p => !(p.ip == ip)) = (p :: l).map m.peerOf := by
      rw [List.filter_map]
      exact congrArg (List.map m.peerOf) hl
    rw [hl] at hnext
    refine ⟨m₁, Function.update o fe ((o fe).filter fun p => !((m.peerOf p).ip == ip)), ?_, hfailed, ?_⟩
    · filter_upwards [eventually_gt_atTop (o fe).length] with fuel hfuel
      rw [hround fuel hfuel, if_neg]
      rw [hnext]
      exact nofun
    · rw [hspec, if_neg (by rw [hfull]; exact Bool.false_ne_true)]
      exact hrw.changes

theorem sweeps_fileEntryDelete : Sweeps (fun _ => none) 1 fun fuel => fileEntryDelete (α := α) (β := β) fuel := by
  intro m c o leaked i fe hr hfe
  obtain ⟨m', o', hrun, hrem, hfailed⟩ := exists_fileEntryDelete hr hfe
  exact ⟨m', o', hrun, hfailed, hrem⟩

end Sweeping

/-! ## Reading -/

section Filling
variable {m : Mem α β} {c : Buckets HASH_SIZE α} {o : α → List β} {leaked : List β} {fe : α} {i : Fin HASH_SIZE}

theorem transEntryFillFrom_eq (hr : Represents m c o leaked) (hfe : m.liveEntry fe = true) {fuel : ℕ}
    (hfuel : (o fe).length < fuel) :
    transEntryFillFrom fuel fe m = some (TeleSync.transEntryFillFrom (record m o fe)) := by
  rw [transEntryFillFrom, Mem.entries_eq hfe]
  simp only [Option.bind_eq_bind, Option.bind_some, Mem.listNext_eq (a := .head fe) hfe,
    fillOwners_eq (hr.ring hfe) (hr.owned fe) [] hfuel]
  rfl

theorem eventually_fillChain (hr : Represents m c o leaked) (l₁ l₂ : List α) (hsplit : c i = l₁ ++ l₂) :
    ∀ᶠ f in atTop, ∀ fuel tft, l₂.length < fuel →
      hlistForEachEntrySafe Prod.fst (fillEntry f) fuel l₂.head? (m, tft) =
        some (m, tft ++ l₂.map fun fe => TeleSync.transEntryFillFrom (record m o fe)) := by
  induction l₂ generalizing l₁ with
  | nil =>
    refine .of_forall fun f fuel tft hfuel => ?_
    obtain ⟨fuel, rfl⟩ := Nat.exists_eq_add_of_le' (Nat.one_le_of_lt hfuel)
    rw [List.map_nil, List.append_nil]
    rfl
  | cons a l₂ ih =>
    have ha : a ∈ c i := hsplit ▸ List.mem_append_right l₁ List.mem_cons_self
    have hnext : m.hlistNext a = some l₂.head? := by
      have hchain := hr.chained.chain i
      rw [hsplit] at hchain
      rw [Mem.hlistNext, if_pos (hr.live i a ha), hchain.drop.ptr_eq]
    have hrest := ih (l₁ ++ [a]) (by rw [hsplit, List.append_cons])
    filter_upwards [hrest, eventually_gt_atTop (o a).length] with f hrest hf fuel tft hfuel
    obtain ⟨fuel, rfl⟩ := Nat.exists_eq_add_of_le' (Nat.one_le_of_lt hfuel)
    have hbody : fillEntry f a (m, tft) = some (m, tft ++ [TeleSync.transEntryFillFrom (record m o a)]) := by
      rw [fillEntry, transEntryFillFrom_eq hr (hr.live i a ha) hf]
      rfl
    rw [List.head?_cons, hlistForEachEntrySafe]
    simp only [hnext, hbody, Option.bind_eq_bind, Option.bind_some]
    rw [hrest fuel _ (Nat.lt_of_succ_lt_succ hfuel), List.append_assoc]
    rfl

theorem eventually_fillBuckets (hr : Represents m c o leaked) (is : List (Fin HASH_SIZE)) :
    ∀ᶠ f in atTop, ∀ tft, is.foldlM (fun s bkt =>
        hlistForEachEntrySafe Prod.fst (fillEntry f) f (s.1.chains.ptr (.first bkt)) s) (m, tft) =
      some (m, tft ++ (is.flatMap c).map fun fe => TeleSync.transEntryFillFrom (record m o fe)) := by
  induction is with
  | nil => exact .of_forall fun f tft => by rw [List.flatMap_nil, List.map_nil, List.append_nil]; rfl
  | cons i is ih =>
    filter_upwards [eventually_fillChain hr (i := i) [] (c i) rfl, ih, eventually_gt_atTop (c i).length]
      with f hchain hrest hf tft
    rw [List.foldlM_cons, hr.chained.ptr_first, hchain f tft hf, Option.bind_eq_bind, Option.bind_some, hrest,
      List.flatMap_cons, List.map_append, List.append_assoc]

theorem transTableFillFrom_eq (hr : Represents m c o leaked) :
    ∀ᶠ fuel in atTop, transTableFillFrom fuel m = some (TeleSync.transTableFillFrom (table m c o)) := by
  filter_upwards [eventually_fillBuckets hr (List.finRange HASH_SIZE)] with fuel hrun
  have htable : TeleSync.transTableFillFrom (table m c o) =
      ((List.finRange HASH_SIZE).flatMap c).map fun fe => TeleSync.transEntryFillFrom (record m o fe) := by
    rw [TeleSync.transTableFillFrom, entries_table, List.map_map]
    rfl
  rw [transTableFillFrom, hashForEachSafe, hrun, htable, Option.map_some, List.nil_append]

end Filling

/-! ## Entries come -/

section Adding
variable {m : Mem α β} {c : Buckets HASH_SIZE α} {o : α → List β} {leaked : List β} {fe : α} (A : Allocator α β)

theorem Represents.fileEntryAlloc (hr : Represents m c o leaked) (hfe : m.entries fe = none) :
    Represents (m.fileEntryAlloc fe) c o leaked ∧ (∀ a, (m.fileEntryAlloc fe).liveEntry a = true ↔
      a = fe ∨ m.liveEntry a = true) ∧ ∀ a, a ≠ fe → record (m.fileEntryAlloc fe) o a = record m o a := by
  have hdead : m.liveEntry fe = false := by rw [Mem.liveEntry, hfe]; rfl
  have hout : ∀ i, fe ∉ c i := by
    intro i hi
    rw [hr.live i fe hi] at hdead
    cases hdead
  have hentry : ∀ a, a ≠ fe → (m.fileEntryAlloc fe).entries a = m.entries a := fun a ha => Function.update_of_ne ha _ _
  have hlive : ∀ a, (m.fileEntryAlloc fe).liveEntry a = true ↔ a = fe ∨ m.liveEntry a = true := by
    intro a
    by_cases ha : a = fe
    · subst ha
      refine iff_of_true ?_ (.inl rfl)
      rw [Mem.liveEntry, Mem.fileEntryAlloc]
      dsimp only
      rw [Function.update_self]
      rfl
    · rw [Mem.liveEntry, hentry a ha]
      exact (or_iff_right ha).symm
  have hold : ∀ a, a ≠ fe → ((m.fileEntryAlloc fe).liveEntry a = m.liveEntry a) := fun a ha => by
    rw [Mem.liveEntry, Mem.liveEntry, hentry a ha]
  have hnone : ∀ d k, rings m o d = some k → d ≠ .head fe := by
    rintro d k hd rfl
    obtain ⟨a, ha, hlivea, -⟩ := rings_eq_some hd
    rw [← Cell.head.inj ha, hdead] at hlivea
    cases hlivea
  have hrings : rings (m.fileEntryAlloc fe) o = Function.update (rings m o) (.head fe) (some []) := by
    funext d
    by_cases hd : d = .head fe
    · subst hd
      rw [Function.update_self, rings_head ((hlive fe).mpr (.inl rfl)), hr.dead fe hdead]
      rfl
    · rw [Function.update_of_ne hd]
      cases d with
      | elm p => rfl
      | head a => rw [rings, rings, hold a fun h => hd (congrArg Cell.head h)]
  have hsame : ∀ b : Cell α β, b ≠ .head fe → SameCell m.lists (m.fileEntryAlloc fe).lists b := fun b hb => by
    constructor <;> simp [Mem.fileEntryAlloc, ListHead.initListHead, hb]
  have hfree : Free (rings m o) (.head fe) := by
    intro d k hd hmem
    rcases List.mem_cons.mp hmem with h | h
    · exact hnone d k hd h.symm
    · obtain ⟨a, -, -, rfl⟩ := rings_eq_some hd
      obtain ⟨p, -, hp⟩ := List.mem_map.mp h
      cases hp
  refine ⟨⟨⟨fun i => ?_, hr.chained.nodup, hr.chained.unique⟩, ?_, fun i a ha => (hlive a).mpr (.inr (hr.live i a ha)),
    fun a ha => ?_, hr.owned, hr.leaked_live, hr.leaked_nodup, hr.leaked_alone, hr.found⟩, hlive, fun a ha => ?_⟩
  · refine (hr.chained.chain i).frame ?_ fun a ha => ?_
    · simp [Mem.fileEntryAlloc, Hlist.initHlistNode]
    · have hne : a ≠ fe := fun h => hout i (h ▸ ha)
      simp [Mem.fileEntryAlloc, Hlist.initHlistNode, hne]
  · rw [hrings]
    refine hr.ringed.update ?_ (List.nodup_singleton _) (fun a ha => .inl ?_) fun e k _ he b hb => hsame b ?_
    · constructor <;> simp [Mem.fileEntryAlloc, ListHead.initListHead]
    · rw [List.mem_singleton.mp ha]
      exact hfree
    · rintro rfl
      exact hfree e k he hb
  · refine hr.dead a (eq_false_of_ne_true fun h => ?_)
    rw [(hlive a).mpr (.inr h)] at ha
    cases ha
  · rw [record, Mem.dataOf, hentry a ha]
    rfl

omit [DecidableEq β] in
theorem exists_fileEntryAdd (hr : Represents m c o leaked) (hfe : m.liveEntry fe = true) (hout : ∀ i, fe ∉ c i) :
    ∃ m', fileEntryAdd fe m = some m' ∧
      Represents m' (Scheme.addHead c (addBucket (record m o fe).name) fe) o leaked ∧ m'.n = m.n + 1 ∧
      (∀ a, m'.liveEntry a = m.liveEntry a) ∧ record m' o = record m o ∧ m'.failed = m.failed := by
  let i := addBucket (record m o fe).name
  have hfirst : m.chains.ptr (.first i) ≠ some fe := by
    rw [hr.chained.ptr_first]
    exact fun h => hout i (List.mem_of_mem_head? h)
  have hl := Hlist.links_hlistAddHead hfirst
  let m' : Mem α β := { m with chains := Hlist.hlistAddHead fe i m.chains, n := m.n + 1 }
  refine ⟨m', ?_, ⟨hr.chained.link hout hl, hr.ringed, fun j a ha => ?_, hr.dead, hr.owned, hr.leaked_live,
    hr.leaked_nodup, hr.leaked_alone, hr.found⟩, rfl, fun _ => rfl, rfl, rfl⟩
  · have hnodes : ([some fe, m.chains.ptr (.first i)] : List (Option α)).all (fun fe => fe.all m.liveEntry) = true := by
      have hhead : (m.chains.ptr (.first i)).all m.liveEntry = true := by
        rw [hr.chained.ptr_first]
        cases hc : c i with
        | nil => rfl
        | cons a l => exact hr.live i a (hc ▸ List.mem_cons_self)
      simp [hfe, hhead]
    have hadd : m.hashAdd fe i = some { m with chains := Hlist.hlistAddHead fe i m.chains } := by
      rw [Mem.hashAdd, Mem.withChains, if_pos hnodes]
    rw [fileEntryAdd, Mem.entries_eq hfe]
    show (m.hashAdd fe i).bind _ = _
    rw [hadd]
    rfl
  · rcases Scheme.mem_addHead.mp ha with ⟨-, rfl⟩ | ha
    · exact hfe
    · exact hr.live j a ha

theorem exists_newEntry (hr : Represents m c o leaked) (hwhole : ∀ a, m.liveEntry a = true → ∃ i, a ∈ c i)
    (hfe : m.entries fe = none) (te : TransFileEntry) :
    ∃ k m' c' o' left,
      (∀ᶠ fuel in atTop, (fileEntryFillFrom A fuel fe te (m.fileEntryAlloc fe)).bind (fileEntryAdd fe) = some m') ∧
      Represents m' c' o' (left ++ leaked) ∧ (∀ a, m'.liveEntry a = true → ∃ i, a ∈ c' i) ∧
      table m' c' o' = TeleSync.fileEntryAdd (table m c o) (TeleSync.fileEntryFillFrom (cutOwners te k)) ∧
      record m' o' fe = TeleSync.fileEntryFillFrom (cutOwners te k) ∧ m'.liveEntry fe = true ∧
      left.length = duplicates [] (cutOwners te k).owners ∧
      (m'.failed = false → m.failed = false ∧ cutOwners te k = te) := by
  obtain ⟨hr₁, hlive₁, hrec₁⟩ := hr.fileEntryAlloc hfe
  have hdead : m.liveEntry fe = false := by rw [Mem.liveEntry, hfe]; rfl
  have hout : ∀ i, fe ∉ c i := by
    intro i hi
    rw [hr.live i fe hi] at hdead
    cases hdead
  obtain ⟨m₂, hset, hch₂, hfailed₂⟩ :=
    exists_setEntry hr₁ ((hlive₁ fe).mpr (.inl rfl)) fun _ => ⟨te.name, te.timestamp, te.fileType⟩
  have hlive₂ : m₂.liveEntry fe = true := (hch₂.live fe).trans ((hlive₁ fe).mpr (.inl rfl))
  obtain ⟨k, m₃, l, left, hrun, hrw, hleft, hfailed₃⟩ := exists_peerIdListAdd A hch₂.represents hlive₂ te.owners
  have hempty : o fe = [] := hr.dead fe hdead
  rw [hempty, List.map_nil] at hrw hleft
  rw [hempty] at hrun
  have hch := hch₂.trans hrw.changes
  have hself : record m₃ (Function.update o fe l) fe = TeleSync.fileEntryFillFrom (cutOwners te k) := by
    rw [hch.entry, Function.update_self, hch₂.entry, Function.update_self]
    rfl
  have hlive₃ : m₃.liveEntry fe = true := (hrw.kept.liveEntry fe).trans hlive₂
  obtain ⟨m', hadd, hr', hn', hlive', hrec', hfailed'⟩ := exists_fileEntryAdd hrw.represents hlive₃ hout
  have hname : (record m₃ (Function.update o fe l) fe).name = te.name := congrArg FileEntry.name hself
  rw [hname] at hr'
  refine ⟨k, m', _, _, left, ?_, hr', fun a ha => ?_, ?_, ?_, (hlive' fe).trans hlive₃, hleft, fun h => ?_⟩
  · filter_upwards [eventually_gt_atTop (([] : List β).length + te.owners.length)] with fuel hfuel
    rw [fileEntryFillFrom, hset]
    simp only [Option.bind_eq_bind, Option.bind_some]
    rw [hrun fuel hfuel, Option.bind_some, hadd]
  · rw [hlive', hrw.kept.liveEntry, hch₂.live, hlive₁] at ha
    rcases ha with rfl | ha
    · exact ⟨addBucket te.name, Scheme.mem_addHead.mpr (.inl ⟨rfl, rfl⟩)⟩
    · obtain ⟨i, hi⟩ := hwhole a ha
      exact ⟨i, Scheme.mem_addHead.mpr (.inr hi)⟩
  · have hn : m'.n = m.n + 1 := by rw [hn', hch.n]; rfl
    have hold : (fun i => (c i).map (record m₃ (Function.update o fe l))) = fun i => (c i).map (record m o) := by
      funext i
      refine List.map_congr_left fun a ha => ?_
      have hne : a ≠ fe := fun h => hout i (h ▸ ha)
      rw [hch.entry, Function.update_of_ne hne, hrec₁ a hne]
    have hchains : (fun i => (Scheme.addHead c (addBucket te.name) fe i).map (record m' (Function.update o fe l))) =
        Scheme.addHead (fun i => (c i).map (record m o)) (addBucket te.name)
          (TeleSync.fileEntryFillFrom (cutOwners te k)) := by
      rw [Scheme.map_addHead, hrec', hold, hself]
    exact congrArg₂ FileTable.mk hn hchains
  · rw [hrec', hself]
  · obtain ⟨h₃, hk⟩ := hfailed₃ (hfailed'.symm.trans h)
    refine ⟨hfailed₂.symm.trans h₃, ?_⟩
    rw [cutOwners, hk]

end Adding

end TeleSync.HeapTable
