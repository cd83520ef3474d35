import TeleSync.Wire.TableLayout
import TeleSync.Tracker.Order
import TeleSync.Tracker.Server

/-!
# Counts that come from the wire

`receiver_task` copies the data of a `PEER_SYNC` or `PEER_FILE_UPDATE` packet into a zeroed `trans_file_table`, and
`sync_task` or `peer_file_update_task` goes through it up to the `n` and the `owner_n` it finds there.

* `transEntryAt` : an entry of a table in memory, as the tasks take it;
* `TableAccess` : an entry or an owner that a task looks at; `taskLoop`, `taskAccesses` : all of them;
* `IndicesBounded` : they lie in the table, in the data that was received and in the owner array;
* `received_indices_bounded_iff` : which packets are as good as that.
-/

namespace TeleSync
open Memory

/-! ## Entries in memory -/

/-- The string at `te->name`, if it ends within its array. -/
def nameAt (t : Mem) (i : ℕ) : Option Name :=
  let s := (entryAt t i).name.takeWhile (· ≠ 0)
  if h : s.length < MAX_NAME_LEN then some ⟨s, fun h0 => by simpa using List.mem_takeWhile_imp h0, h⟩ else none

/-- The value of `enum operation_type` with this code. -/
def operationType (v : UInt16) : OperationType :=
  if v = 0 then .fileNone else if v = 1 then .fileAdd else if v = 2 then .fileDelete else if v = 3 then .fileModify
  else .other v

/-- The value of `enum file_type` with this code. -/
def fileType (v : UInt16) : FileType :=
  if v = 0 then .regular else if v = 1 then .directory else if v = 2 then .softLink else .other v

def opTypeAt (t : Mem) (i : ℕ) : OperationType := operationType (entryAt t i).opType

def transEntryAt (t : Mem) (i : ℕ) : Option TransFileEntry :=
  (nameAt t i).map fun name =>
    ⟨name, (entryAt t i).timestamp.toNat, opTypeAt t i, fileType (entryAt t i).fileType, (entryAt t i).owners⟩

theorem transEntryAt_opType {t : Mem} {i : ℕ} {te : TransFileEntry} (h : transEntryAt t i = some te) :
    te.opType = opTypeAt t i := by
  obtain ⟨name, -, rfl⟩ := Option.map_eq_some_iff.mp h
  rfl

/-! ## What the tasks look at -/

/-- The two tasks that go through a received table. -/
inductive TableTask where
  | sync
  | fileUpdate
  deriving DecidableEq

/-- The `switch` of `receiver_task`. -/
def tableTask (pkt : Mem) : Option TableTask :=
  if (ptotPacketHeader pkt).type = .ofNat PtotPacketType.sync.ctorIdx then some .sync
  else if (ptotPacketHeader pkt).type = .ofNat PtotPacketType.fileUpdate.ctorIdx then some .fileUpdate
  else none

/-- An index into the received table: an entry, or an owner of an entry. -/
inductive TableAccess where
  | entry (i : ℕ)
  | owner (i j : ℕ)
  deriving DecidableEq

/-- `__peer_id_list_add` for entry `i`. -/
def peerIdListAddAccesses (t : Mem) (i : ℕ) : List TableAccess := (List.range (ownerN t i).toNat).map (.owner i)

/-- `trans_file_search`, which stops at the first entry with the name. -/
def transFileSearchAccesses (t : Mem) (name : Name) : List ℕ → List TableAccess
  | [] => []
  | i :: is => .entry i :: if nameAt t i = some name then [] else transFileSearchAccesses t name is

/-- `file_table_add` and `file_entry_update` leave the owners of an entry alone that is older than the table's. -/
def readsOwners (ft : FileTable) (te : TransFileEntry) : Bool :=
  (fileTableFind ft te).all fun fe => fe.timestamp ≤ te.timestamp

namespace TableTask

/-- The operations that merge the entry into the tracker's table. A sync does not look at `op_type`. -/
def merges (k : TableTask) (op : OperationType) : Prop :=
  match k with
  | .sync => True
  | .fileUpdate => op = .fileAdd ∨ op = .fileModify

instance (k : TableTask) (op : OperationType) : Decidable (k.merges op) :=
  match k with
  | .sync => instDecidableTrue
  | .fileUpdate => inferInstanceAs (Decidable (op = .fileAdd ∨ op = .fileModify))

/-- The tracker's table after one entry. -/
def handle (k : TableTask) (ft : FileTable) (te : TransFileEntry) : FileTable :=
  match k with
  | .sync => (syncStep ⟨ft, []⟩ te).ft
  | .fileUpdate => (peerFileUpdateStep ⟨ft, []⟩ te).ft

/-- The entry as an update: a sync merges it whatever its `op_type`. -/
def asUpdate (k : TableTask) (te : TransFileEntry) : TransFileEntry :=
  match k with
  | .sync => { te with opType := .fileAdd }
  | .fileUpdate => te

end TableTask

/-- The tracker's table, and what was looked at so far. -/
structure TaskState where
  ft : FileTable
  log : List TableAccess

/-- One round of a task's loop. A name that does not end in its array is not found in the table, and `strcpy` would
write it over the end of a new entry: nothing is known from there on. -/
def taskStep (k : TableTask) (t : Mem) (s : TaskState) (i : ℕ) : Option TaskState :=
  match transEntryAt t i with
  | none => if k.merges (opTypeAt t i) then none else some { s with log := s.log ++ [.entry i] }
  | some te =>
    some ⟨k.handle s.ft te, s.log ++
      .entry i :: (if k.merges te.opType ∧ readsOwners s.ft te then peerIdListAddAccesses t i else [])⟩

/-- The first `n` rounds. -/
def taskLoop (k : TableTask) (t : Mem) (ft : FileTable) (n : ℕ) : Option TaskState :=
  (List.range n).foldlM (taskStep k t) ⟨ft, []⟩

/-- What the task looks at in the table `t`: `sync_task` searches it for every file of the tracker first. -/
def taskAccesses (k : TableTask) (t : Mem) (ft : FileTable) : Option (List TableAccess) :=
  (taskLoop k t ft (tableN t).toNat).map fun s =>
    match k with
    | .sync => (ft.entries.flatMap fun fe => transFileSearchAccesses t fe.name (List.range (tableN t).toNat)) ++ s.log
    | .fileUpdate => s.log

/-- `memcpy(tft, pkt.data, data_len)` over a zeroed table. -/
def receivedTable (pkt : Mem) : Mem := receiveTable ptotPacket zeroed pkt

/-- One round of `receiver_task` on the bytes of a connection: what the task it starts looks at. -/
def receiverTaskAccesses (pkt₀ : Mem) (stream : Bytes) (ft : FileTable) : Option (List TableAccess) :=
  let r := recvPtotPacket pkt₀ stream
  if 0 < r.ret then
    match tableTask r.pkt with
    | some k => taskAccesses k (receivedTable r.pkt) ft
    | none => some []
  else some []

/-! ## Bounds -/

/-- The entry is one of the table and all of it was received, the owner is one of the array. -/
def TableAccess.InBounds (dataLen : ℕ) : TableAccess → Prop
  | .entry i => i < MAX_FILE_ENTRIES ∧ entryOffset (i + 1) ≤ dataLen
  | .owner _ j => j < MAX_PEER_ENTRIES

instance (dataLen : ℕ) : (a : TableAccess) → Decidable (a.InBounds dataLen)
  | .entry _ => inferInstanceAs (Decidable (_ ∧ _))
  | .owner _ _ => Nat.decLt _ _

/-- Everything is in bounds that is looked at in one round of `receiver_task`. -/
def IndicesBounded (pkt₀ : Mem) (stream : Bytes) (ft : FileTable) : Prop :=
  ∃ log, receiverTaskAccesses pkt₀ stream ft = some log ∧
    ∀ a ∈ log, a.InBounds (ptotPacketHeader (recvPtotPacket pkt₀ stream).pkt).dataLen.toNat

/-- The timestamp that the tracker has for `f` when it comes to entry `i`. -/
def stampBefore (k : TableTask) (t : Mem) (ft : FileTable) (i : ℕ) (f : Name) : WithBot ℕ :=
  (((List.range i).filterMap (transEntryAt t)).map k.asUpdate).foldl (leavesStep f) (ft.stamp f)

/-- Entry `i` is not merged, or its name has an end and its owners fit unless a newer version is known. -/
def EntryFits (k : TableTask) (t : Mem) (ft : FileTable) (i : ℕ) : Prop :=
  k.merges (opTypeAt t i) → ∃ te, transEntryAt t i = some te ∧
    (stampBefore k t ft i te.name ≤ te.timestamp → (ownerN t i).toNat ≤ MAX_PEER_ENTRIES)

/-- The counts of the packet are what its length and the arrays allow. -/
structure CountsFit (k : TableTask) (pkt : Mem) (ft : FileTable) : Prop where
  entries : tableN (receivedTable pkt) ≤ 0 ∨
    entryOffset (tableN (receivedTable pkt)).toNat ≤ (ptotPacketHeader pkt).dataLen.toNat
  owners : ∀ i < (tableN (receivedTable pkt)).toNat, EntryFits k (receivedTable pkt) ft i

/-! ## One round -/

theorem readsOwners_iff (ft : FileTable) (te : TransFileEntry) :
    readsOwners ft te ↔ ft.stamp te.name ≤ te.timestamp := by
  unfold readsOwners
  cases hfind : fileTableFind ft te with
  | none =>
    have hbot : ft.stamp te.name = ⊥ := FileTable.stamp_eq_bot.mpr (FileTable.view_eq_none.mpr hfind)
    simp [hbot]
  | some fe =>
    rw [FileTable.stamp_of_view (FileTable.view_of_search hfind), Option.all_some, decide_eq_true_iff]
    exact WithBot.coe_le_coe.symm

theorem TableTask.handle_wf (k : TableTask) {ft : FileTable} (h : ft.Wf) (te : TransFileEntry) :
    (k.handle ft te).Wf := by
  cases k with
  | sync => exact syncStep_wf (s := ⟨ft, []⟩) h te
  | fileUpdate => exact peerFileUpdateStep_wf (s := ⟨ft, []⟩) h te

theorem TableTask.stamp_handle (k : TableTask) {ft : FileTable} (h : ft.Wf) (te : TransFileEntry) (f : Name) :
    (k.handle ft te).stamp f = leavesStep f (ft.stamp f) (k.asUpdate te) := by
  cases k with
  | sync =>
    show (syncStep ⟨ft, []⟩ te).ft.stamp f = leavesStep f (ft.stamp f) { te with opType := .fileAdd }
    rw [stamp_syncStep]
    unfold leavesStep
    by_cases hn : te.name = f
    · rw [if_pos hn, ← hn, Function.update_self]
    · rw [if_neg hn, Function.update_of_ne (Ne.symm hn)]
  | fileUpdate => exact stamp_updateStep (s := ⟨ft, []⟩) h te f

/-- Everything looked at so far is in bounds. -/
def TaskState.InBounds (dataLen : ℕ) (s : TaskState) : Prop := ∀ a ∈ s.log, a.InBounds dataLen

theorem peerIdListAddAccesses_inBounds (t : Mem) (i dataLen : ℕ) :
    (∀ a ∈ peerIdListAddAccesses t i, a.InBounds dataLen) ↔ (ownerN t i).toNat ≤ MAX_PEER_ENTRIES := by
  unfold peerIdListAddAccesses
  rw [List.forall_mem_map]
  constructor
  · intro h
    by_contra hgt
    exact absurd (h MAX_PEER_ENTRIES (List.mem_range.mpr (not_le.mp hgt))) (lt_irrefl _)
  · intro h j hj
    exact (List.mem_range.mp hj).trans_le h

theorem taskStep_inBounds_iff (k : TableTask) (t : Mem) (dataLen : ℕ) (s : TaskState) (i : ℕ) :
    (∃ s', taskStep k t s i = some s' ∧ s'.InBounds dataLen) ↔
      s.InBounds dataLen ∧ (TableAccess.entry i).InBounds dataLen ∧
        (k.merges (opTypeAt t i) → ∃ te, transEntryAt t i = some te ∧
          (s.ft.stamp te.name ≤ te.timestamp → (ownerN t i).toNat ≤ MAX_PEER_ENTRIES)) := by
  unfold taskStep TaskState.InBounds
  cases hte : transEntryAt t i with
  | none =>
    dsimp only
    split_ifs with hm
    · simp [hm]
    · simp [hm, or_imp, forall_and]
  | some te =>
    rw [← transEntryAt_opType hte]
    simp only [← readsOwners_iff, Option.some.injEq, exists_eq_left', List.mem_append, List.mem_cons, or_imp,
      forall_and, forall_eq]
    refine and_congr Iff.rfl (and_congr Iff.rfl ?_)
    by_cases hm : k.merges te.opType
    · by_cases hr : readsOwners s.ft te = true
      · rw [if_pos ⟨hm, hr⟩, peerIdListAddAccesses_inBounds]
        exact ⟨fun h _ => fun _ => h, fun h => h hm hr⟩
      · simp [hm, hr]
    · simp [hm]

/-! ## The loop -/

theorem taskLoop_succ (k : TableTask) (t : Mem) (ft : FileTable) (n : ℕ) :
    taskLoop k t ft (n + 1) = (taskLoop k t ft n).bind fun s => taskStep k t s n := by
  unfold taskLoop
  rw [List.range_succ, List.foldlM_append]
  refine congrArg (Option.bind _) (funext fun s => ?_)
  exact bind_pure _

theorem stampBefore_succ (k : TableTask) (t : Mem) (ft : FileTable) (n : ℕ) (f : Name) :
    stampBefore k t ft (n + 1) f =
      (transEntryAt t n).elim (stampBefore k t ft n f) fun te =>
        leavesStep f (stampBefore k t ft n f) (k.asUpdate te) := by
  unfold stampBefore
  rw [List.range_succ, List.filterMap_append, List.map_append, List.foldl_append]
  cases hte : transEntryAt t n with
  | none => simp [hte]
  | some te => simp [hte]

/-- The table on the way: its timestamps are those of the packet merged into the old ones. -/
theorem taskLoop_table {k : TableTask} {t : Mem} {ft : FileTable} (hw : ft.Wf) {n : ℕ} {s : TaskState}
    (h : taskLoop k t ft n = some s) : s.ft.Wf ∧ ∀ f, s.ft.stamp f = stampBefore k t ft n f := by
  induction n generalizing s with
  | zero =>
    cases h
    exact ⟨hw, fun _ => rfl⟩
  | succ n ih =>
    rw [taskLoop_succ] at h
    obtain ⟨s₁, hs₁, hstep⟩ := Option.bind_eq_some_iff.mp h
    obtain ⟨hw₁, hstamp⟩ := ih hs₁
    unfold taskStep at hstep
    simp only [stampBefore_succ]
    cases hte : transEntryAt t n with
    | none =>
      rw [hte] at hstep
      dsimp only at hstep
      split_ifs at hstep
      cases hstep
      exact ⟨hw₁, hstamp⟩
    | some te =>
      rw [hte] at hstep
      cases hstep
      refine ⟨k.handle_wf hw₁ te, fun f => ?_⟩
      rw [Option.elim_some, ← hstamp]
      exact k.stamp_handle hw₁ te f

theorem taskLoop_inBounds_iff (k : TableTask) (t : Mem) {ft : FileTable} (hw : ft.Wf) (dataLen n : ℕ) :
    (∃ s, taskLoop k t ft n = some s ∧ s.InBounds dataLen) ↔
      ∀ i < n, (TableAccess.entry i).InBounds dataLen ∧ EntryFits k t ft i := by
  induction n with
  | zero =>
    refine ⟨fun _ i hi => absurd hi (Nat.not_lt_zero i), fun _ => ⟨⟨ft, []⟩, rfl, fun a ha => ?_⟩⟩
    exact absurd ha List.not_mem_nil
  | succ n ih =>
    have hlast : (∃ s, taskLoop k t ft (n + 1) = some s ∧ s.InBounds dataLen) ↔
        (∃ s, taskLoop k t ft n = some s ∧ s.InBounds dataLen) ∧
          (TableAccess.entry n).InBounds dataLen ∧ EntryFits k t ft n := by
      rw [taskLoop_succ]
      cases hs : taskLoop k t ft n with
      | none => simp
      | some s =>
        have hstep := taskStep_inBounds_iff k t dataLen s n
        simp only [(taskLoop_table hw hs).2] at hstep
        rw [Option.bind_some, hstep]
        simp [EntryFits]
    rw [hlast, ih, Nat.forall_lt_succ_right]

/-- The entries below `n` are in bounds exactly if the last one is: as many as can be received are far fewer than the
table has. -/
theorem entries_inBounds_iff (n : ℕ) {dataLen : ℕ} (h : dataLen < 2 ^ 16) :
    (∀ i < n, (TableAccess.entry i).InBounds dataLen) ↔ (n = 0 ∨ entryOffset n ≤ dataLen) := by
  have hmax : MAX_FILE_ENTRIES = 4096 := rfl
  constructor
  · intro hall
    by_cases h0 : n = 0
    · exact Or.inl h0
    · have hlast : entryOffset (n - 1 + 1) ≤ dataLen := (hall (n - 1) (by omega)).2
      rw [Nat.sub_add_cancel (by omega)] at hlast
      exact Or.inr hlast
  · intro hn i hi
    have hle := hn.resolve_left (by omega)
    rw [entryOffset_eq] at hle
    show i < MAX_FILE_ENTRIES ∧ entryOffset (i + 1) ≤ dataLen
    rw [entryOffset_eq, hmax]
    omega

/-- The searches of `sync_task` look at no other entries than its loop. -/
theorem transFileSearchAccesses_inBounds {t : Mem} {dataLen : ℕ} {is : List ℕ}
    (h : ∀ i ∈ is, (TableAccess.entry i).InBounds dataLen) (name : Name) :
    ∀ a ∈ transFileSearchAccesses t name is, a.InBounds dataLen := by
  induction is with
  | nil => exact fun a ha => absurd ha List.not_mem_nil
  | cons i is ih =>
    unfold transFileSearchAccesses
    rw [List.forall_mem_cons]
    refine ⟨h i List.mem_cons_self, ?_⟩
    split_ifs
    · exact fun a ha => absurd ha List.not_mem_nil
    · exact ih fun j hj => h j (List.mem_cons_of_mem i hj)

theorem taskAccesses_inBounds_iff (k : TableTask) (t : Mem) {ft : FileTable} (hw : ft.Wf) (dataLen : ℕ) :
    (∃ log, taskAccesses k t ft = some log ∧ ∀ a ∈ log, a.InBounds dataLen) ↔
      ∀ i < (tableN t).toNat, (TableAccess.entry i).InBounds dataLen ∧ EntryFits k t ft i := by
  rw [← taskLoop_inBounds_iff k t hw]
  unfold taskAccesses
  constructor
  · rintro ⟨log, hlog, hall⟩
    obtain ⟨s, hs, rfl⟩ := Option.map_eq_some_iff.mp hlog
    refine ⟨s, hs, fun a ha => hall a ?_⟩
    cases k with
    | sync => exact List.mem_append_right _ ha
    | fileUpdate => exact ha
  · rintro ⟨s, hs, hall⟩
    refine ⟨_, Option.map_eq_some_iff.mpr ⟨s, hs, rfl⟩, ?_⟩
    cases k with
    | sync =>
      have hentries := (taskLoop_inBounds_iff .sync t hw dataLen _).mp ⟨s, hs, hall⟩
      intro a ha
      rcases List.mem_append.mp ha with ha | ha
      · obtain ⟨fe, -, ha⟩ := List.mem_flatMap.mp ha
        exact transFileSearchAccesses_inBounds (fun i hi => (hentries i (List.mem_range.mp hi)).1) fe.name a ha
      · exact hall a ha
    | fileUpdate => exact hall

theorem taskAccesses_receivedTable_iff (k : TableTask) (pkt : Mem) {ft : FileTable} (hw : ft.Wf) :
    (∃ log, taskAccesses k (receivedTable pkt) ft = some log ∧
      ∀ a ∈ log, a.InBounds (ptotPacketHeader pkt).dataLen.toNat) ↔ CountsFit k pkt ft := by
  have hlt := (ptotPacketHeader pkt).dataLen.toNat_lt
  have hzero : (tableN (receivedTable pkt)).toNat = 0 ↔ tableN (receivedTable pkt) ≤ 0 := Int.toNat_eq_zero
  rw [taskAccesses_inBounds_iff k _ hw]
  constructor
  · intro h
    refine ⟨?_, fun i hi => (h i hi).2⟩
    rw [← hzero]
    exact (entries_inBounds_iff _ hlt).mp fun i hi => (h i hi).1
  · rintro ⟨hentries, howners⟩ i hi
    rw [← hzero] at hentries
    exact ⟨(entries_inBounds_iff _ hlt).mpr hentries i hi, howners i hi⟩

theorem indicesBounded_handled {pkt₀ : Mem} {stream : Bytes} {ft : FileTable} (hw : ft.Wf) {k : TableTask}
    (hret : 0 < (recvPtotPacket pkt₀ stream).ret) (htask : tableTask (recvPtotPacket pkt₀ stream).pkt = some k) :
    IndicesBounded pkt₀ stream ft ↔ CountsFit k (recvPtotPacket pkt₀ stream).pkt ft := by
  unfold IndicesBounded receiverTaskAccesses
  dsimp only
  rw [if_pos hret, htask]
  exact taskAccesses_receivedTable_iff k _ hw

/-- **Received counts.** Whatever bytes arrive, the indices that a round of `receiver_task` leads to are in bounds if
and only if the `n` entries of the packet lie within its data, and each entry that is merged has a name with an end and
at most sixteen owners, unless the tracker has a newer version when the entry's turn comes. -/
theorem received_indices_bounded_iff (pkt₀ : Mem) (stream : Bytes) (ft : FileTable) (hw : ft.Wf) :
    IndicesBounded pkt₀ stream ft ↔
      (0 < (recvPtotPacket pkt₀ stream).ret → ∀ k, tableTask (recvPtotPacket pkt₀ stream).pkt = some k →
        CountsFit k (recvPtotPacket pkt₀ stream).pkt ft) := by
  by_cases hret : 0 < (recvPtotPacket pkt₀ stream).ret
  · cases htask : tableTask (recvPtotPacket pkt₀ stream).pkt with
    | none => simp [IndicesBounded, receiverTaskAccesses, hret, htask]
    | some k =>
      rw [indicesBounded_handled hw hret htask]
      exact ⟨fun h _ k' hk => Option.some.inj hk ▸ h, fun h => h hret k rfl⟩
  · simp [IndicesBounded, receiverTaskAccesses, hret]

/-! ## The same loop as the tasks' -/

theorem foldl_handle_sync (ft : FileTable) (tft : TransFileTable) (broad : TransFileTable) :
    tft.foldl TableTask.sync.handle ft = (tft.foldl syncStep ⟨ft, broad⟩).ft := by
  induction tft generalizing ft broad with
  | nil => rfl
  | cons te tft ih =>
    have hstep : TableTask.sync.handle ft te = (syncStep ⟨ft, broad⟩ te).ft := ft_syncStep ⟨ft, broad⟩ te
    rw [List.foldl_cons, List.foldl_cons, hstep]
    exact ih _ _

theorem foldl_handle_fileUpdate (ft : FileTable) (tft : TransFileTable) :
    tft.foldl TableTask.fileUpdate.handle ft = (peerFileUpdateTask ft tft).ft := by
  induction tft generalizing ft with
  | nil => rfl
  | cons te tft ih =>
    rw [List.foldl_cons, peerFileUpdateTask_cons]
    exact ih _

/-- When all names have an end, the loop leaves the table that `syncTask` or `peerFileUpdateTask` leaves. -/
theorem taskLoop_eq_task {t : Mem} {n : ℕ} {tft : TransFileTable}
    (h : (List.range n).mapM (transEntryAt t) = some tft) (k : TableTask) (ft : FileTable) :
    ∃ s, taskLoop k t ft n = some s ∧
      s.ft = match k with
        | .sync => (syncTask ft tft).ft
        | .fileUpdate => (peerFileUpdateTask ft tft).ft := by
  have hloop : ∃ s, taskLoop k t ft n = some s ∧ s.ft = tft.foldl k.handle ft := by
    induction n generalizing tft with
    | zero =>
      cases h
      exact ⟨⟨ft, []⟩, rfl, rfl⟩
    | succ n ih =>
      rw [List.range_succ, List.mapM_append] at h
      obtain ⟨tft₁, htft₁, h⟩ := Option.bind_eq_some_iff.mp h
      obtain ⟨last, hlast, h⟩ := Option.bind_eq_some_iff.mp h
      cases h
      obtain ⟨te, hte, rfl⟩ : ∃ te, transEntryAt t n = some te ∧ last = [te] := by
        rw [List.mapM_cons, List.mapM_nil] at hlast
        obtain ⟨te, hte, hlast⟩ := Option.bind_eq_some_iff.mp hlast
        cases hlast
        exact ⟨te, hte, rfl⟩
      obtain ⟨s, hs, hft⟩ := ih htft₁
      rw [taskLoop_succ, hs, Option.bind_some]
      refine ⟨_, by rw [taskStep, hte], ?_⟩
      rw [hft, List.foldl_append]
      rfl
  obtain ⟨s, hs, hft⟩ := hloop
  refine ⟨s, hs, hft.trans ?_⟩
  cases k with
  | sync => exact foldl_handle_sync ft tft []
  | fileUpdate => exact foldl_handle_fileUpdate ft tft

/-! ## Packets that arrive as they were sent -/

theorem receivedTable_congr {pkt pkt' : Mem} (h : AgreeOn pkt pkt' 0 (ptotPacket.packetLen pkt')) :
    ptotPacketHeader pkt = ptotPacketHeader pkt' ∧ receivedTable pkt = receivedTable pkt' := by
  have hhdr : ptotPacketHeader pkt = ptotPacketHeader pkt' :=
    ptotPacket.hdr_congr (h.mono le_rfl (Nat.le_add_right _ _))
  refine ⟨hhdr, funext fun i => ?_⟩
  show memcpy _ _ _ _ (ptotPacketHeader pkt).dataLen.toNat i = memcpy _ _ _ _ (ptotPacketHeader pkt').dataLen.toNat i
  rw [hhdr]
  unfold memcpy
  split_ifs with hi
  · refine h _ (Nat.zero_le _) ?_
    show ptotPacketHeaderSize + (i - 0) < ptotPacketHeaderSize + (ptotPacketHeader pkt').dataLen.toNat
    omega
  · rfl

theorem countsFit_sent {pkt : Mem} (h : ¬ endMarker <:+: slice pkt 0 (ptotPacket.packetLen pkt)) (pkt₀ : Mem)
    (k : TableTask) (ft : FileTable) :
    0 < (recvPtotPacket pkt₀ (sendPtotPacket pkt)).ret ∧
      tableTask (recvPtotPacket pkt₀ (sendPtotPacket pkt)).pkt = tableTask pkt ∧
      (CountsFit k (recvPtotPacket pkt₀ (sendPtotPacket pkt)).pkt ft ↔ CountsFit k pkt ft) := by
  have hrecv : recvPtotPacket pkt₀ (sendPtotPacket pkt) = _ := ptotPacket.recv_send h pkt₀
  obtain ⟨hhdr, htable⟩ := receivedTable_congr (ptotPacket.agreeOn_recv pkt pkt₀ endMarker)
  rw [hrecv]
  dsimp only
  refine ⟨by omega, ?_, ?_⟩
  · unfold tableTask
    rw [hhdr]
  · constructor
    · rintro ⟨hentries, howners⟩
      rw [hhdr, htable] at hentries
      rw [htable] at howners
      exact ⟨hentries, howners⟩
    · rintro ⟨hentries, howners⟩
      refine ⟨?_, ?_⟩
      · rw [hhdr, htable]
        exact hentries
      · rw [htable]
        exact howners

/-- A `PEER_SYNC` packet with the first `len` bytes of a table. -/
def syncPacket (t : Mem) (len : ℕ) : Mem := ptotPacketFill (ptotPacketInit 7 .sync) t len

/-- A packet with one whole entry that has one owner. -/
theorem received_indices_bounded_one_entry :
    let pkt := syncPacket (oneEntryTable 1 P2P_PORT) 280
    tableN (receivedTable pkt) = 1 ∧ IndicesBounded zeroed (sendPtotPacket pkt) fileTableInit := by
  intro pkt
  have hn : tableN (receivedTable pkt) = 1 := by decide +kernel
  have hclean : ¬ endMarker <:+: slice pkt 0 (ptotPacket.packetLen pkt) := by decide +kernel
  refine ⟨hn, (received_indices_bounded_iff zeroed (sendPtotPacket pkt) fileTableInit FileTable.wf_init).mpr ?_⟩
  intro _ k hk
  obtain ⟨-, -, hcounts⟩ := countsFit_sent hclean zeroed k fileTableInit
  refine hcounts.mpr ⟨Or.inr (by decide +kernel), fun i hi _ => ?_⟩
  rw [hn] at hi
  have hi0 : i = 0 := by
    have : i < 1 := hi
    omega
  subst hi0
  have hsome : (transEntryAt (receivedTable pkt) 0).isSome = true := by decide +kernel
  obtain ⟨te, hte⟩ := Option.isSome_iff_exists.mp hsome
  exact ⟨te, hte, fun _ => by decide +kernel⟩

/-- Three packets with indices out of bounds: one that counts 5000 entries in four bytes of data, one with an entry of
seventeen owners, and one as `sync_files` sends it, whose last entry is four bytes short. -/
theorem received_counts_unchecked :
    let many := syncPacket (write zeroed 0 4 5000) 4
    let owners := syncPacket (oneEntryTable 17 P2P_PORT) 280
    let honest := syncPacket (oneEntryTable 1 P2P_PORT) (transTableLen (oneEntryTable 1 P2P_PORT))
    ¬ IndicesBounded zeroed (sendPtotPacket many) fileTableInit ∧
      ¬ IndicesBounded zeroed (sendPtotPacket owners) fileTableInit ∧
      ¬ IndicesBounded zeroed (sendPtotPacket honest) fileTableInit := by
  intro many owners honest
  have hsent : ∀ pkt, ¬ endMarker <:+: slice pkt 0 (ptotPacket.packetLen pkt) → tableTask pkt = some .sync →
      (IndicesBounded zeroed (sendPtotPacket pkt) fileTableInit ↔ CountsFit .sync pkt fileTableInit) := by
    intro pkt hclean htask
    obtain ⟨hret, htask', hcounts⟩ := countsFit_sent hclean zeroed .sync fileTableInit
    rw [indicesBounded_handled FileTable.wf_init hret (htask'.trans htask), hcounts]
  refine ⟨?_, ?_, ?_⟩
  · rw [hsent many (by decide +kernel) (by decide +kernel)]
    exact fun h => absurd h.entries (by decide +kernel)
  · rw [hsent owners (by decide +kernel) (by decide +kernel)]
    intro h
    obtain ⟨te, hte, hfit⟩ := h.owners 0 (by decide +kernel) trivial
    exact absurd (hfit bot_le) (by decide +kernel)
  · rw [hsent honest (by decide +kernel) (by decide +kernel)]
    exact fun h => absurd h.entries (by decide +kernel)

end TeleSync
