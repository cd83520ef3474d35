import TeleSync.Table.Refine

/-!
# The tracker's tasks

The tasks of `server/start.c` that work on the file table, each as a function of the table and the
received `trans_file_table`:

* `syncTask` : `sync_task`, with the `TRACKER_SYNC` reply and the table it broadcasts;
* `peerFileUpdateTask` : `peer_file_update_task`, with the table it broadcasts;
* `broadcastUpdate` : `broadcast_update`, the packets sent to the registered peers.
-/

namespace TeleSync

/-! ## Broadcasts -/

/-- `struct peer_entry`. -/
structure PeerEntry where
  conn : ℤ
  timestamp : BitVec 64
  peerid : PeerId

/-- `broadcast_update`: the tables sent, with their connections. -/
def broadcastUpdate (pt : List PeerEntry) (tft : TransFileTable) (exclusiveConn : ℤ) :
    List (ℤ × TransFileTable) :=
  if tft.length = 0 then []
  else (pt.filter fun pe => pe.conn != exclusiveConn).map fun pe => (pe.conn, tft)

/-! ## `sync_task` -/

/-- `trans_file_search` -/
def transFileSearch (tft : TransFileTable) (name : Name) : Option TransFileEntry :=
  tft.find? fun te => te.name = name

/-- The entry of the reply for an entry of the tracker's table, if the peer has to learn about it. -/
def syncReplyEntry (tft : TransFileTable) (fe : FileEntry) : Option TransFileEntry :=
  match transFileSearch tft fe.name with
  | none => some { transEntryFillFrom fe with opType := .fileAdd }
  | some te =>
    if fe.timestamp > te.timestamp ∨ (fe.timestamp = te.timestamp ∧ ¬ hasSameOwners fe te) then
      some { transEntryFillFrom fe with opType := .fileModify }
    else none

/-- The table and the broadcast under construction. -/
structure SyncState where
  ft : FileTable
  broadTft : TransFileTable

/-- One round of the loop that updates the tracker's own table. -/
def syncStep (s : SyncState) (te : TransFileEntry) : SyncState :=
  match fileTableFind s.ft te with
  | none => ⟨(fileTableAdd s.ft te).1, s.broadTft ++ [{ te with opType := .fileAdd }]⟩
  | some fe =>
    if fe.timestamp < te.timestamp then
      ⟨(fileTableUpdate s.ft te).1, s.broadTft ++ [{ te with opType := .fileModify }]⟩
    else ⟨(fileTableUpdate s.ft te).1, s.broadTft⟩

/-- What `sync_task` leaves and sends. -/
structure SyncOutcome where
  ft : FileTable
  peerTft : TransFileTable
  broadTft : TransFileTable

/-- `sync_task`: the reply is computed before the tracker's own table changes. -/
def syncTask (ft : FileTable) (tft : TransFileTable) : SyncOutcome :=
  let peerTft := ft.entries.filterMap (syncReplyEntry tft)
  let s := tft.foldl syncStep ⟨ft, []⟩
  ⟨s.ft, peerTft, s.broadTft⟩

/-! ## `peer_file_update_task` -/

/-- The table and the broadcast under construction. -/
structure UpdateState where
  ft : FileTable
  newTft : TransFileTable

/-- One round of the loop over the received entries. -/
def peerFileUpdateStep (s : UpdateState) (te : TransFileEntry) : UpdateState :=
  match te.opType with
  | .fileAdd =>
    let p := fileTableAdd s.ft te
    ⟨p.1, s.newTft ++ [{ transEntryFillFrom p.2 with opType := .fileAdd }]⟩
  | .fileDelete =>
    let p := fileTableDelete s.ft te
    if p.2 = 0 then ⟨p.1, s.newTft ++ [te]⟩ else ⟨p.1, s.newTft⟩
  | .fileModify =>
    match fileTableFind s.ft te with
    | none =>
      -- `fe` is still `NULL` after the add, so `trans_entry_fill_from` leaves the slot zeroed
      ⟨(fileTableAdd s.ft te).1, s.newTft ++ [{ TransFileEntry.zero with opType := .fileAdd }]⟩
    | some fe =>
      ⟨s.ft.modify te.name fun fe => (fileEntryUpdate fe te).1,
        s.newTft ++ [{ transEntryFillFrom (fileEntryUpdate fe te).1 with opType := .fileModify }]⟩
  | .fileNone => s
  | .other _ => s

/-- `peer_file_update_task` -/
def peerFileUpdateTask (ft : FileTable) (tft : TransFileTable) : UpdateState :=
  tft.foldl peerFileUpdateStep ⟨ft, []⟩

/-! ## What a sync does to the table -/

theorem view_syncStep (s : SyncState) (te : TransFileEntry) :
    (syncStep s te).ft.view =
      Function.update s.ft.view te.name (some (addRecord te (s.ft.view te.name))) := by
  unfold syncStep
  split
  · exact FileTable.view_add s.ft te
  · next fe hs =>
    have hupd := FileTable.view_update s.ft te
    rw [FileTable.view_of_search hs] at hupd ⊢
    split_ifs
    · exact hupd
    · exact hupd

theorem stamp_syncStep (s : SyncState) (te : TransFileEntry) :
    (syncStep s te).ft.stamp = Function.update s.ft.stamp te.name (max (s.ft.stamp te.name) te.timestamp) := by
  rw [FileTable.stamp_of_view_update (view_syncStep s te), FileTable.stampOf_addRecord]

/-- What becomes of the table does not depend on the broadcast. -/
theorem ft_syncStep (s : SyncState) (te : TransFileEntry) : (syncStep ⟨s.ft, []⟩ te).ft = (syncStep s te).ft := by
  unfold syncStep
  dsimp only
  split
  · rfl
  · split_ifs <;> rfl

theorem syncReplyEntry_name {tft : TransFileTable} {fe : FileEntry} {te : TransFileEntry}
    (h : syncReplyEntry tft fe = some te) : te.name = fe.name := by
  unfold syncReplyEntry at h
  split at h
  · cases h; rfl
  · split_ifs at h
    cases h; rfl

/-! ## What the update task does to the table -/

theorem peerFileUpdateStep_wf {s : UpdateState} (h : s.ft.Wf) (te : TransFileEntry) :
    (peerFileUpdateStep s te).ft.Wf := by
  unfold peerFileUpdateStep
  split
  · exact h.add te
  · dsimp only
    split_ifs
    · exact h.delete te
    · exact h.delete te
  · split
    · exact h.add te
    · exact h.modify te.name fun fe => fileEntryUpdate_name fe te
  · exact h
  · exact h

theorem view_updateStep_set {s : UpdateState} {te : TransFileEntry}
    (h : te.opType = .fileAdd ∨ te.opType = .fileModify) :
    (peerFileUpdateStep s te).ft.view =
      Function.update s.ft.view te.name (some (addRecord te (s.ft.view te.name))) := by
  unfold peerFileUpdateStep
  rcases h with h | h
  · rw [h]
    exact FileTable.view_add s.ft te
  · rw [h]
    dsimp only
    split
    · exact FileTable.view_add s.ft te
    · next fe hs =>
      have hv := FileTable.view_modify s.ft te.name (f := fun fe => (fileEntryUpdate fe te).1)
        (g := fun r => mergeRecord r te) (fun fe => fileEntryUpdate_name fe te)
        fun fe => fileEntryUpdate_record fe te
      rw [FileTable.view_of_search hs, Option.map_some] at hv
      rw [hv, FileTable.view_of_search hs]
      rfl

theorem view_updateStep_delete {s : UpdateState} {te : TransFileEntry} (hw : s.ft.Wf) (h : te.opType = .fileDelete) :
    (peerFileUpdateStep s te).ft.view = Function.update s.ft.view te.name none := by
  unfold peerFileUpdateStep
  rw [h]
  dsimp only
  split_ifs
  · exact FileTable.view_delete hw te
  · exact FileTable.view_delete hw te

theorem peerFileUpdateStep_append (s : UpdateState) (te : TransFileEntry) :
    peerFileUpdateStep s te =
      ⟨(peerFileUpdateStep ⟨s.ft, []⟩ te).ft, s.newTft ++ (peerFileUpdateStep ⟨s.ft, []⟩ te).newTft⟩ := by
  unfold peerFileUpdateStep
  split
  · rfl
  · dsimp only
    split_ifs <;> simp
  · dsimp only
    split <;> rfl
  · simp
  · simp

theorem foldl_peerFileUpdateStep_append (tft : TransFileTable) (s : UpdateState) :
    tft.foldl peerFileUpdateStep s =
      ⟨(peerFileUpdateTask s.ft tft).ft, s.newTft ++ (peerFileUpdateTask s.ft tft).newTft⟩ := by
  induction tft generalizing s with
  | nil => simp [peerFileUpdateTask]
  | cons te tft ih =>
    rw [peerFileUpdateTask, List.foldl_cons, List.foldl_cons, ih, ih (peerFileUpdateStep ⟨s.ft, []⟩ te),
      peerFileUpdateStep_append s te, List.append_assoc]

/-- The first entry is handled, then the rest from the table it leaves. -/
theorem peerFileUpdateTask_cons (ft : FileTable) (te : TransFileEntry) (tft : TransFileTable) :
    peerFileUpdateTask ft (te :: tft) =
      let s := peerFileUpdateStep ⟨ft, []⟩ te
      ⟨(peerFileUpdateTask s.ft tft).ft, s.newTft ++ (peerFileUpdateTask s.ft tft).newTft⟩ := by
  rw [peerFileUpdateTask, List.foldl_cons, foldl_peerFileUpdateStep_append]

theorem peerFileUpdateTask_wf {ft : FileTable} (h : ft.Wf) (tft : TransFileTable) :
    (peerFileUpdateTask ft tft).ft.Wf :=
  List.foldlRecOn tft peerFileUpdateStep (motive := fun s => s.ft.Wf) h
    fun _ hs te _ => peerFileUpdateStep_wf hs te

/-! ## Timestamps and broadcast entries -/

section Stamps
variable {s : UpdateState} {te : TransFileEntry}

theorem stamp_updateStep_set (h : te.opType = .fileAdd ∨ te.opType = .fileModify) :
    (peerFileUpdateStep s te).ft.stamp =
      Function.update s.ft.stamp te.name (max (s.ft.stamp te.name) te.timestamp) := by
  rw [FileTable.stamp_of_view_update (view_updateStep_set h), FileTable.stampOf_addRecord]

theorem stamp_updateStep_delete (hw : s.ft.Wf) (h : te.opType = .fileDelete) :
    (peerFileUpdateStep s te).ft.stamp = Function.update s.ft.stamp te.name ⊥ :=
  FileTable.stamp_of_view_update (view_updateStep_delete hw h)

/-- The entry a broadcast carries for an add, or for a modify of a known name: the state of the name
after the update. -/
theorem newTft_updateStep_set (ft : FileTable)
    (h : te.opType = .fileAdd ∨ te.opType = .fileModify ∧ ft.stamp te.name ≠ ⊥) :
    ∃ e, (peerFileUpdateStep ⟨ft, []⟩ te).newTft = [e] ∧ e.name = te.name ∧
      (e.timestamp : WithBot ℕ) = max (ft.stamp te.name) te.timestamp ∧
      (e.opType = .fileAdd ∨ e.opType = .fileModify) := by
  unfold peerFileUpdateStep
  rcases h with h | ⟨h, hb⟩
  · rw [h]
    refine ⟨_, rfl, FileTable.add_name ft te, ?_, Or.inl rfl⟩
    rw [← FileTable.stampOf_addRecord, ← FileTable.add_record]
    rfl
  · rw [h]
    dsimp only
    split
    · next hs => exact absurd (FileTable.stamp_eq_bot.mpr (FileTable.view_eq_none.mpr hs)) hb
    · next fe hs =>
      have hname : (fileEntryUpdate fe te).1.name = te.name :=
        (fileEntryUpdate_name fe te).trans (FileTable.search_name hs)
      refine ⟨_, rfl, hname, ?_, Or.inr rfl⟩
      rw [FileTable.stamp_of_view (FileTable.view_of_search hs), ← FileTable.stamp_coe_max,
        ← FileTable.mergeRecord_timestamp, ← fileEntryUpdate_record]
      rfl

/-- A modify of an unknown name is broadcast as the addition of a nameless entry. -/
theorem newTft_updateStep_unknown (ft : FileTable) (h : te.opType = .fileModify)
    (hb : ft.stamp te.name = ⊥) :
    (peerFileUpdateStep ⟨ft, []⟩ te).newTft = [{ TransFileEntry.zero with opType := .fileAdd }] := by
  unfold peerFileUpdateStep
  rw [h]
  dsimp only
  split
  · rfl
  · next fe hs =>
    rw [FileTable.stamp_of_view (FileTable.view_of_search hs)] at hb
    cases hb

theorem newTft_updateStep_delete (ft : FileTable) (h : te.opType = .fileDelete) :
    (peerFileUpdateStep ⟨ft, []⟩ te).newTft = if ft.stamp te.name = ⊥ then [] else [te] := by
  unfold peerFileUpdateStep
  rw [h]
  dsimp only
  rw [FileTable.delete_ret]
  cases hv : ft.view te.name with
  | none => simp [FileTable.stamp_eq_bot.mpr hv]
  | some r => simp [FileTable.stamp_of_view hv]

theorem updateStep_skip (h : te.opType = .fileNone ∨ ∃ c, te.opType = .other c) :
    peerFileUpdateStep s te = s := by
  unfold peerFileUpdateStep
  rcases h with h | ⟨c, h⟩
  · rw [h]
  · rw [h]

end Stamps

end TeleSync
