import TeleSync.Client.Owners

/-!
# The client's handlers agree

Entries that add or modify reach a client's table one by one, in a broadcast, or all together, in the reply to its
sync.

* `broadcastHandlerTask` : `broadcast_entry_handler` for each entry, with the downloads it starts;
* `maxStamp` : the greatest timestamp of a name, in a table and in entries;
* `handlers_agree` : both ways lead to the same table and the same downloads, the table keeps the maximum, and an
  entry starts a download exactly when it is above the maximum so far.
-/

namespace TeleSync

/-- `broadcast_handler_task`: the table and the actions after the entries, handled one at a time. -/
def broadcastHandlerTask (myIp : UInt32) (ft : FileTable) (tft : TransFileTable) : FileTable × List ClientAction :=
  tft.foldl (fun s te => ((broadcastEntryHandler myIp s.1 te).1, s.2 ++ (broadcastEntryHandler myIp s.1 te).2)) (ft, [])

/-- The greatest timestamp of `name` in the table and the entries, `⊥` if neither has the name. -/
def maxStamp (ft : FileTable) (tft : TransFileTable) (name : Name) : WithBot ℕ :=
  max (ft.stamp name) ((tft.filter fun te => te.name = name).map TransFileEntry.timestamp).maximum

section Handling
variable (myIp : UInt32) (ft : FileTable)

/-- All three copies of the decision are one, so the two loops are one. -/
theorem broadcastHandlerTask_eq {tft : TransFileTable}
    (h : ∀ te ∈ tft, te.opType = .fileAdd ∨ te.opType = .fileModify) :
    broadcastHandlerTask myIp ft tft = fileTableSync myIp ft tft := by
  apply List.foldl_ext
  intro s te hte
  have hreceives : Receives .broadcast te := Or.inr (h te hte)
  have hentry : broadcastEntryHandler myIp s.1 te = fileTableSyncEntry myIp s.1 te :=
    handleEntry_eq myIp s.1 hreceives
  rw [hentry]
  rfl

theorem fileTableSync_append (pre : TransFileTable) (te : TransFileEntry) :
    fileTableSync myIp ft (pre ++ [te]) =
      ((fileTableSyncEntry myIp (fileTableSync myIp ft pre).1 te).1,
        (fileTableSync myIp ft pre).2 ++ (fileTableSyncEntry myIp (fileTableSync myIp ft pre).1 te).2) := by
  rw [fileTableSync, List.foldl_append]
  rfl

theorem maxStamp_append (pre : TransFileTable) (te : TransFileEntry) (name : Name) :
    maxStamp ft (pre ++ [te]) name =
      if te.name = name then max (maxStamp ft pre name) te.timestamp else maxStamp ft pre name := by
  unfold maxStamp
  rw [List.filter_append, List.map_append]
  split_ifs with hn
  · rw [List.filter_cons_of_pos (by simpa using hn), List.filter_nil, List.map_cons, List.map_nil,
      List.maximum_concat, max_assoc]
    rfl
  · rw [List.filter_cons_of_neg (by simpa using hn), List.filter_nil, List.map_nil, List.append_nil]

theorem stamp_fileTableSync (tft : TransFileTable) (name : Name) :
    (fileTableSync myIp ft tft).1.stamp name = maxStamp ft tft name := by
  induction tft using List.reverseRecOn with
  | nil => exact (max_eq_left bot_le).symm
  | append_singleton pre te ih =>
    rw [fileTableSync_append, maxStamp_append, stamp_receive, Function.update_apply]
    by_cases hn : name = te.name
    · subst hn
      rw [if_pos rfl, if_pos rfl, ih]
    · rw [if_neg hn, if_neg (Ne.symm hn), ih]

theorem actions_fileTableSync_append (pre : TransFileTable) (te : TransFileEntry) :
    (fileTableSync myIp ft (pre ++ [te])).2 = (fileTableSync myIp ft pre).2 ++
      if maxStamp ft pre te.name < (te.timestamp : WithBot ℕ) then [.download te.name] else [] := by
  rw [fileTableSync_append, actions_receive, stamp_fileTableSync]

end Handling

/-- **The handlers agree and keep the maximum.** For every table and every list of entries that add or modify, one by
one through `broadcast_entry_handler` or together through `file_table_sync`: the same table and the same downloads in
the same order; each name ends with its greatest timestamp; and an entry starts a download exactly when its timestamp
is above the greatest one of its name so far, which an absent name does not have. -/
theorem handlers_agree (myIp : UInt32) (ft : FileTable) (tft : TransFileTable)
    (h : ∀ te ∈ tft, te.opType = .fileAdd ∨ te.opType = .fileModify) :
    broadcastHandlerTask myIp ft tft = fileTableSync myIp ft tft ∧
      (∀ name, (fileTableSync myIp ft tft).1.stamp name = maxStamp ft tft name) ∧
      ∀ pre te, pre ++ [te] <+: tft →
        (fileTableSync myIp ft (pre ++ [te])).2 = (fileTableSync myIp ft pre).2 ++
          if maxStamp ft pre te.name = ⊥ ∨ maxStamp ft pre te.name < (te.timestamp : WithBot ℕ) then
            [.download te.name]
          else [] := by
  refine ⟨broadcastHandlerTask_eq myIp ft h, stamp_fileTableSync myIp ft tft, fun pre te _ => ?_⟩
  have habsent : maxStamp ft pre te.name = ⊥ → maxStamp ft pre te.name < (te.timestamp : WithBot ℕ) := by
    intro hbot
    rw [hbot]
    exact WithBot.bot_lt_coe _
  simp only [actions_fileTableSync_append, or_iff_right_of_imp habsent]

/-- Three versions of a file, the newest in the middle: the first two are downloaded. -/
theorem handlers_agree_three_versions :
    let f : Name := ⟨[102], by decide, by decide⟩
    let tft : TransFileTable :=
      [⟨f, 3, .fileAdd, .regular, [⟨1, P2P_PORT⟩]⟩, ⟨f, 5, .fileModify, .regular, [⟨2, P2P_PORT⟩]⟩,
        ⟨f, 4, .fileAdd, .regular, [⟨1, P2P_PORT⟩]⟩]
    broadcastHandlerTask 9 fileTableInit tft = fileTableSync 9 fileTableInit tft ∧
      (fileTableSync 9 fileTableInit tft).1.stamp f = 5 ∧
      (fileTableSync 9 fileTableInit tft).2 = [.download f, .download f] := by
  intro f tft
  have hagree := handlers_agree 9 fileTableInit tft (by decide)
  exact ⟨hagree.1, by decide, by decide⟩

end TeleSync
