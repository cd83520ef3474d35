import TeleSync.Table.Refine

/-!
# The client's table handlers

`file_table_sync` and `broadcast_entry_handler` of `client/start.c`, as functions of the table that
also list the threads they start and the files they delete (`ClientAction`). The decision is written
three times in the source (`fileTableSyncEntry`, `broadcastFileAdd`, `broadcastFileModify`); the
three agree (`broadcastFileAdd_eq`, `broadcastFileModify_eq`), and on the view of the table they are
one update by `receiveRecord` (`view_receive`).
-/

namespace TeleSync

/-- What a handler sets off outside the table. -/
inductive ClientAction where
  /-- a `ptop_download_task` thread for the entry of this name -/
  | download (name : Name)
  /-- `file_delete` -/
  | fileDelete (te : TransFileEntry)
  deriving DecidableEq

/-! ## The handlers -/

/-- One round of the loop of `file_table_sync`. -/
def fileTableSyncEntry (myIp : UInt32) (ft : FileTable) (te : TransFileEntry) : FileTable × List ClientAction :=
  match fileTableFind ft te with
  | none => ((fileTableAdd ft te).1, [.download te.name])
  | some fe =>
    let ft := ft.modify te.name fun fe => peerIdListReplace fe te
    let ft := ft.modify te.name (peerIdListRemoveMyself myIp)
    if te.timestamp > fe.timestamp then
      (ft.modify te.name fun fe => fileEntryUpdateTimestamp fe te.timestamp, [.download te.name])
    else (ft, [])

/-- The table and the actions so far, after one more entry. -/
def fileTableSyncStep (myIp : UInt32) (s : FileTable × List ClientAction) (te : TransFileEntry) :
    FileTable × List ClientAction :=
  let p := fileTableSyncEntry myIp s.1 te
  (p.1, s.2 ++ p.2)

/-- `file_table_sync` -/
def fileTableSync (myIp : UInt32) (ft : FileTable) (tft : TransFileTable) : FileTable × List ClientAction :=
  tft.foldl (fileTableSyncStep myIp) (ft, [])

/-- The `FILE_ADD` case of `broadcast_entry_handler`. -/
def broadcastFileAdd (myIp : UInt32) (ft : FileTable) (te : TransFileEntry) : FileTable × List ClientAction :=
  match fileTableFind ft te with
  | some fe =>
    let ft := ft.modify te.name fun fe => peerIdListReplace fe te
    let ft := ft.modify te.name (peerIdListRemoveMyself myIp)
    if te.timestamp > fe.timestamp then
      (ft.modify te.name fun fe => fileEntryUpdateTimestamp fe te.timestamp, [.download te.name])
    else (ft, [])
  | none => ((fileTableAdd ft te).1, [.download te.name])

/-- The `FILE_MODIFY` case of `broadcast_entry_handler`. -/
def broadcastFileModify (myIp : UInt32) (ft : FileTable) (te : TransFileEntry) : FileTable × List ClientAction :=
  match fileTableFind ft te with
  | none => ((fileTableAdd ft te).1, [.download te.name])
  | some fe =>
    let ft := ft.modify te.name fun fe => peerIdListReplace fe te
    let ft := ft.modify te.name (peerIdListRemoveMyself myIp)
    if te.timestamp > fe.timestamp then
      (ft.modify te.name fun fe => fileEntryUpdateTimestamp fe te.timestamp, [.download te.name])
    else (ft, [])

/-- `broadcast_entry_handler` -/
def broadcastEntryHandler (myIp : UInt32) (ft : FileTable) (te : TransFileEntry) : FileTable × List ClientAction :=
  match te.opType with
  | .fileAdd => broadcastFileAdd myIp ft te
  | .fileDelete => ((fileTableDelete ft te).1, [.fileDelete te])
  | .fileModify => broadcastFileModify myIp ft te
  | .fileNone => (ft, [])
  | .other _ => (ft, [])

/-- The loop of `ttop_receiver_task` over a broadcast table, for its effect on the table. -/
def handleBroadcast (myIp : UInt32) (ft : FileTable) (tft : TransFileTable) : FileTable :=
  tft.foldl (fun ft te => (broadcastEntryHandler myIp ft te).1) ft

theorem broadcastFileAdd_eq (myIp : UInt32) (ft : FileTable) (te : TransFileEntry) :
    broadcastFileAdd myIp ft te = fileTableSyncEntry myIp ft te := by
  unfold broadcastFileAdd fileTableSyncEntry
  cases fileTableFind ft te <;> rfl

theorem broadcastFileModify_eq (myIp : UInt32) (ft : FileTable) (te : TransFileEntry) :
    broadcastFileModify myIp ft te = fileTableSyncEntry myIp ft te := rfl

/-! ## Effect on the view -/

/-- What receiving `te` makes of the record of its name: the owners are replaced even by an older
entry, the timestamp only grows. -/
def receiveRecord (myIp : UInt32) (te : TransFileEntry) : Option FileRecord → FileRecord
  | none => newRecord te
  | some r =>
    { r with timestamp := max r.timestamp te.timestamp
             owners := (peerIdListAdd [] te).eraseP fun p => p.ip == myIp }

theorem view_receive (myIp : UInt32) (ft : FileTable) (te : TransFileEntry) :
    (fileTableSyncEntry myIp ft te).1.view =
      Function.update ft.view te.name (some (receiveRecord myIp te (ft.view te.name))) := by
  unfold fileTableSyncEntry
  split
  · next hs =>
    rw [FileTable.view_add, FileTable.view_eq_none.mpr hs]
    rfl
  · next fe hs =>
    have hv : ft.view te.name = some fe.toFileRecord := FileTable.view_of_search hs
    have h1 := FileTable.view_modify ft te.name (f := fun fe => peerIdListReplace fe te)
      (g := fun r => { r with owners := peerIdListAdd [] te }) (fun _ => rfl) (fun _ => rfl)
    have h2 := FileTable.view_modify (ft.modify te.name fun fe => peerIdListReplace fe te) te.name
      (f := peerIdListRemoveMyself myIp)
      (g := fun r => { r with owners := r.owners.eraseP fun p => p.ip == myIp }) (fun _ => rfl) (fun _ => rfl)
    rw [h1, Function.update_self, Function.update_idem, hv] at h2
    dsimp only
    split_ifs with hlt
    · have h3 := FileTable.view_modify ((ft.modify te.name fun fe => peerIdListReplace fe te).modify te.name
        (peerIdListRemoveMyself myIp)) te.name (f := fun fe => fileEntryUpdateTimestamp fe te.timestamp)
        (g := fun r => { r with timestamp := te.timestamp }) (fun _ => rfl) (fun _ => rfl)
      rw [h2, Function.update_self, Function.update_idem] at h3
      rw [h3, hv]
      simp only [receiveRecord, Option.map_some, max_eq_right (le_of_lt hlt)]
    · rw [h2, hv]
      simp only [receiveRecord, Option.map_some, max_eq_left (not_lt.mp hlt)]

theorem wf_receive (myIp : UInt32) {ft : FileTable} (h : ft.Wf) (te : TransFileEntry) :
    (fileTableSyncEntry myIp ft te).1.Wf := by
  unfold fileTableSyncEntry
  split
  · exact h.add te
  · have h2 := (h.modify te.name (f := fun fe => peerIdListReplace fe te) fun _ => rfl).modify te.name
      (f := peerIdListRemoveMyself myIp) fun _ => rfl
    dsimp only
    split_ifs
    · exact h2.modify te.name fun _ => rfl
    · exact h2

theorem stamp_receive (myIp : UInt32) (ft : FileTable) (te : TransFileEntry) :
    (fileTableSyncEntry myIp ft te).1.stamp =
      Function.update ft.stamp te.name (max (ft.stamp te.name) te.timestamp) := by
  rw [FileTable.stamp_of_view_update (view_receive myIp ft te)]
  cases hv : ft.view te.name with
  | none => rw [FileTable.stamp_eq_bot.mpr hv, max_bot_left]; rfl
  | some r => rw [FileTable.stamp_of_view hv, ← FileTable.stamp_coe_max]; rfl

/-- A download starts for a name that is absent or older than the entry. -/
theorem actions_receive (myIp : UInt32) (ft : FileTable) (te : TransFileEntry) :
    (fileTableSyncEntry myIp ft te).2 =
      if ft.stamp te.name < (te.timestamp : WithBot ℕ) then [.download te.name] else [] := by
  unfold fileTableSyncEntry
  split
  · next hs =>
    have hlt : (⊥ : WithBot ℕ) < (te.timestamp : WithBot ℕ) := WithBot.bot_lt_coe _
    rw [FileTable.stamp_eq_bot.mpr (FileTable.view_eq_none.mpr hs), if_pos hlt]
  · next fe hs =>
    rw [FileTable.stamp_of_view (FileTable.view_of_search hs)]
    simp only [Nat.cast_lt, gt_iff_lt]
    split_ifs <;> rfl

/-! ## A whole reply -/

theorem view_fileTableSync (myIp : UInt32) (ft : FileTable) {tft : TransFileTable}
    (hnd : (tft.map TransFileEntry.name).Nodup) (name : Name) :
    (fileTableSync myIp ft tft).1.view name =
      ((KeyedList.find TransFileEntry.name name tft).map fun te =>
        some (receiveRecord myIp te (ft.view name))).getD (ft.view name) :=
  KeyedList.view_foldl (fun s => s.1.view) (fileTableSyncStep myIp)
    (fun te v => some (receiveRecord myIp te v)) (fun s te => view_receive myIp s.1 te) hnd (ft, []) name

theorem actions_foldl_sync (myIp : UInt32) {tft : TransFileTable} (hnd : (tft.map TransFileEntry.name).Nodup)
    (ft : FileTable) (acts : List ClientAction) :
    (tft.foldl (fileTableSyncStep myIp) (ft, acts)).2 =
      acts ++ (tft.filter fun te => ft.stamp te.name < (te.timestamp : WithBot ℕ)).map
        fun te => .download te.name := by
  induction tft generalizing ft acts with
  | nil => simp
  | cons te tft ih =>
    rw [List.map_cons, List.nodup_cons] at hnd
    have hrest : ∀ e ∈ tft, (fileTableSyncEntry myIp ft te).1.stamp e.name = ft.stamp e.name := by
      intro e he
      have hne : e.name ≠ te.name := fun h => hnd.1 (h ▸ List.mem_map_of_mem he)
      rw [stamp_receive, Function.update_of_ne hne]
    rw [List.foldl_cons, fileTableSyncStep, ih hnd.2, actions_receive, List.filter_cons,
      List.filter_congr (fun e he => by rw [hrest e he])]
    by_cases hlt : ft.stamp te.name < (te.timestamp : WithBot ℕ)
    · simp [hlt]
    · simp [hlt]

theorem actions_fileTableSync (myIp : UInt32) (ft : FileTable) {tft : TransFileTable}
    (hnd : (tft.map TransFileEntry.name).Nodup) :
    (fileTableSync myIp ft tft).2 =
      (tft.filter fun te => ft.stamp te.name < (te.timestamp : WithBot ℕ)).map fun te => .download te.name := by
  rw [fileTableSync, actions_foldl_sync myIp hnd, List.nil_append]

/-! ## Effect of a broadcast entry -/

theorem wf_broadcastEntryHandler (myIp : UInt32) {ft : FileTable} (h : ft.Wf) (te : TransFileEntry) :
    (broadcastEntryHandler myIp ft te).1.Wf := by
  unfold broadcastEntryHandler
  split
  · rw [broadcastFileAdd_eq]; exact wf_receive myIp h te
  · exact h.delete te
  · rw [broadcastFileModify_eq]; exact wf_receive myIp h te
  · exact h
  · exact h

theorem stamp_broadcast_set (myIp : UInt32) (ft : FileTable) {te : TransFileEntry}
    (h : te.opType = .fileAdd ∨ te.opType = .fileModify) :
    (broadcastEntryHandler myIp ft te).1.stamp =
      Function.update ft.stamp te.name (max (ft.stamp te.name) te.timestamp) := by
  unfold broadcastEntryHandler
  rcases h with h | h
  · rw [h]; dsimp only
    rw [broadcastFileAdd_eq, stamp_receive]
  · rw [h]; dsimp only
    rw [broadcastFileModify_eq, stamp_receive]

theorem stamp_broadcast_delete (myIp : UInt32) {ft : FileTable} (hw : ft.Wf) {te : TransFileEntry}
    (h : te.opType = .fileDelete) :
    (broadcastEntryHandler myIp ft te).1.stamp = Function.update ft.stamp te.name ⊥ := by
  unfold broadcastEntryHandler
  rw [h]
  exact FileTable.stamp_delete hw te

theorem wf_handleBroadcast (myIp : UInt32) {ft : FileTable} (h : ft.Wf) (tft : TransFileTable) :
    (handleBroadcast myIp ft tft).Wf :=
  List.foldlRecOn tft _ (motive := fun t : FileTable => t.Wf) h
    fun _ hs te _ => wf_broadcastEntryHandler myIp hs te

end TeleSync
