import TeleSync.Sync.Agreement

/-!
# What a sync announces to the other peers

`sync_task` merges the table of a syncing peer into the tracker's and fills the table it broadcasts on the side, from
the peer's entries. An entry that only adds the peer to the owners of a known version is merged, but not announced.

* `view_syncTask_of_mem`, `broadTft_syncTask` : the tracker's table after the task and the broadcast, name by name;
* `OwnersAnnouncedBySync` : each name whose owners change is broadcast with its new owners;
* `sync_owner_changes_broadcast_iff` : this holds exactly when the peer already is an owner of every file that it
  reports in the tracker's version.
-/

namespace TeleSync

/-! ## The merge and the broadcast, name by name -/

section OneSync
variable (T : FileTable) {tft : TransFileTable}

theorem view_syncTask_of_mem (hnd : (tft.map TransFileEntry.name).Nodup) {te : TransFileEntry} (hte : te ∈ tft) :
    (syncTask T tft).ft.view te.name = some (addRecord te (T.view te.name)) := by
  rw [view_syncTask T hnd, KeyedList.find_of_mem hnd hte]
  rfl

/-- What is broadcast for an entry: a new name or a newer version, as the peer reports it. -/
def announcedEntry (te : TransFileEntry) : Option TransFileEntry :=
  match T.view te.name with
  | none => some { te with opType := .fileAdd }
  | some r => if r.timestamp < te.timestamp then some { te with opType := .fileModify } else none

theorem broadTft_syncStep (s : SyncState) (te : TransFileEntry) :
    (syncStep s te).broadTft = s.broadTft ++ (announcedEntry s.ft te).toList := by
  unfold syncStep announcedEntry
  cases hs : fileTableFind s.ft te with
  | none =>
    rw [FileTable.view_eq_none.mpr hs]
    rfl
  | some fe =>
    rw [FileTable.view_of_search hs]
    dsimp only
    split_ifs
    · rfl
    · exact (List.append_nil _).symm

theorem announcedEntry_congr {T T' : FileTable} {te : TransFileEntry} (h : T.view te.name = T'.view te.name) :
    announcedEntry T te = announcedEntry T' te := by
  rw [announcedEntry, announcedEntry, h]

theorem broadTft_foldl_syncStep (hnd : (tft.map TransFileEntry.name).Nodup) (s : SyncState) :
    (tft.foldl syncStep s).broadTft = s.broadTft ++ tft.filterMap (announcedEntry s.ft) := by
  induction tft generalizing s with
  | nil => exact (List.append_nil _).symm
  | cons te tft ih =>
    rw [List.map_cons, List.nodup_cons] at hnd
    -- the entries behind `te` have other names, whose records the step leaves alone
    have hrest : tft.filterMap (announcedEntry (syncStep s te).ft) = tft.filterMap (announcedEntry s.ft) := by
      refine List.filterMap_congr fun e he => announcedEntry_congr ?_
      have hne : e.name ≠ te.name := fun heq => hnd.1 (heq ▸ List.mem_map_of_mem he)
      rw [view_syncStep, Function.update_of_ne hne]
    rw [List.foldl_cons, ih hnd.2, hrest, broadTft_syncStep, List.append_assoc, List.filterMap_cons]
    cases announcedEntry s.ft te <;> rfl

theorem broadTft_syncTask (hnd : (tft.map TransFileEntry.name).Nodup) :
    (syncTask T tft).broadTft = tft.filterMap (announcedEntry T) :=
  broadTft_foldl_syncStep hnd ⟨T, []⟩

theorem announcedEntry_fields {te e : TransFileEntry} (h : announcedEntry T te = some e) :
    e.name = te.name ∧ e.owners = te.owners := by
  unfold announcedEntry at h
  split at h
  · cases h
    exact ⟨rfl, rfl⟩
  · split_ifs at h
    cases h
    exact ⟨rfl, rfl⟩

end OneSync

/-! ## Owners -/

/-- The name is new at the tracker, or has other owner addresses than before. -/
def OwnersChanged (T T' : FileTable) (name : Name) : Prop :=
  T'.ownersAt name ≠ T.ownersAt name ∨ T.view name = none ∧ T'.view name ≠ none

/-- Each name whose owners the task changes is in the broadcast, with exactly the tracker's new owner addresses. -/
def OwnersAnnouncedBySync (T : FileTable) (tft : TransFileTable) : Prop :=
  ∀ name, OwnersChanged T (syncTask T tft).ft name →
    ∃ e ∈ (syncTask T tft).broadTft, e.name = name ∧ ips e.owners = (syncTask T tft).ft.ownersAt name

section Owners
variable {T : FileTable} {tft : TransFileTable} {me : UInt32} {te : TransFileEntry}

theorem ips_addRecord_new (h : ∀ r, T.view te.name = some r → r.timestamp < te.timestamp) :
    ips (addRecord te (T.view te.name)).owners = ips te.owners := by
  cases hv : T.view te.name with
  | none => simp [addRecord, newRecord]
  | some r => simp [addRecord, mergeRecord, h r hv]

theorem ips_addRecord_equal {r : FileRecord} (h : r.timestamp = te.timestamp) :
    ips (addRecord te (some r)).owners = ips r.owners ∪ ips te.owners := by
  simp [addRecord, mergeRecord, h]

theorem addRecord_older {r : FileRecord} (h : te.timestamp < r.timestamp) : addRecord te (some r) = r := by
  rw [addRecord, mergeRecord, if_neg h.not_gt, if_neg h.ne]

/-- A new name or version is announced with the peer's owners, which are the tracker's from then on. -/
theorem announced_of_new (hnd : (tft.map TransFileEntry.name).Nodup) (hte : te ∈ tft)
    (h : ∀ r, T.view te.name = some r → r.timestamp < te.timestamp) :
    ∃ e ∈ (syncTask T tft).broadTft, e.name = te.name ∧ ips e.owners = (syncTask T tft).ft.ownersAt te.name := by
  have hsome : ∃ e, announcedEntry T te = some e := by
    unfold announcedEntry
    cases hv : T.view te.name with
    | none => exact ⟨_, rfl⟩
    | some r => exact ⟨_, if_pos (h r hv)⟩
  obtain ⟨e, he⟩ := hsome
  obtain ⟨hname, howners⟩ := announcedEntry_fields T he
  refine ⟨e, ?_, hname, ?_⟩
  · rw [broadTft_syncTask T hnd]
    exact List.mem_filterMap.mpr ⟨te, hte, he⟩
  · rw [FileTable.ownersAt_of_view (view_syncTask_of_mem T hnd hte), ips_addRecord_new h, howners]

/-- A version that the tracker has is not announced. -/
theorem not_announced_of_known (hnd : (tft.map TransFileEntry.name).Nodup) (hte : te ∈ tft) {r : FileRecord}
    (hr : T.view te.name = some r) (h : te.timestamp ≤ r.timestamp) :
    ∀ e ∈ (syncTask T tft).broadTft, e.name ≠ te.name := by
  intro e he hname
  rw [broadTft_syncTask T hnd] at he
  obtain ⟨te', hte', hann⟩ := List.mem_filterMap.mp he
  have hsame : te'.name = te.name := (announcedEntry_fields T hann).1.symm.trans hname
  have heq : te' = te := List.inj_on_of_nodup_map hnd hte' hte hsame
  rw [heq, announcedEntry, hr] at hann
  dsimp only at hann
  rw [if_neg h.not_gt] at hann
  cases hann

end Owners

/-- **Owner changes made by a sync.** For every tracker table and every table of unique names whose entries are owned
by the syncing peer alone: each name that is new or whose owner addresses change is broadcast with exactly its new
owner addresses, if and only if the peer is already among the owners of every file that it reports with the
timestamp the tracker has. -/
theorem sync_owner_changes_broadcast_iff (T : FileTable) (tft : TransFileTable) (me : UInt32)
    (hnd : (tft.map TransFileEntry.name).Nodup) (hme : ∀ te ∈ tft, ips te.owners = {me}) :
    OwnersAnnouncedBySync T tft ↔
      ∀ te ∈ tft, ∀ r, T.view te.name = some r → r.timestamp = te.timestamp → me ∈ ips r.owners := by
  constructor
  · intro h te hte r hr heq
    by_contra hnew
    have hview := view_syncTask_of_mem T hnd hte
    have howners : (syncTask T tft).ft.ownersAt te.name = ips r.owners ∪ {me} := by
      rw [FileTable.ownersAt_of_view hview, hr, ips_addRecord_equal heq, hme te hte]
    have hchanged : OwnersChanged T (syncTask T tft).ft te.name := by
      left
      rw [howners, FileTable.ownersAt_of_view hr]
      intro hsame
      exact hnew (hsame ▸ Set.mem_union_right _ rfl)
    obtain ⟨e, he, hname, -⟩ := h te.name hchanged
    exact not_announced_of_known hnd hte hr heq.ge e he hname
  · intro h name hchanged
    cases hf : KeyedList.find TransFileEntry.name name tft with
    | none =>
      have hsame : (syncTask T tft).ft.view name = T.view name := by
        rw [view_syncTask T hnd, hf]
        rfl
      rcases hchanged with hne | ⟨hnone, hsome⟩
      · exact absurd (by rw [FileTable.ownersAt, FileTable.ownersAt, hsame]) hne
      · exact absurd (hsame.trans hnone) hsome
    | some te =>
      have hte := KeyedList.mem_of_find hf
      have hname : te.name = name := KeyedList.key_of_find hf
      subst hname
      by_cases hnew : ∀ r, T.view te.name = some r → r.timestamp < te.timestamp
      · exact announced_of_new hnd hte hnew
      · -- the tracker's version is at least as new: its owners stay as they are
        push Not at hnew
        obtain ⟨r, hr, hle⟩ := hnew
        have hview := view_syncTask_of_mem T hnd hte
        have hsame : ips (addRecord te (some r)).owners = ips r.owners := by
          rcases hle.eq_or_lt with heq | hlt
          · rw [ips_addRecord_equal heq.symm, hme te hte, Set.union_eq_left, Set.singleton_subset_iff]
            exact h te hte r hr heq.symm
          · rw [addRecord_older hlt]
        rcases hchanged with hne | ⟨hnone, -⟩
        · refine absurd ?_ hne
          rw [FileTable.ownersAt_of_view hview, FileTable.ownersAt_of_view hr, hr, hsame]
        · rw [hnone] at hr
          cases hr

/-- A peer reports a file that is new and another one in a newer version. -/
theorem sync_owner_changes_broadcast_new :
    let f : Name := ⟨[102], by decide, by decide⟩
    let g : Name := ⟨[103], by decide, by decide⟩
    let T := (fileTableAdd fileTableInit ⟨f, 1, .fileAdd, .regular, [⟨1, P2P_PORT⟩]⟩).1
    let tft : TransFileTable :=
      [⟨f, 2, .fileNone, .regular, [⟨2, P2P_PORT⟩]⟩, ⟨g, 1, .fileNone, .regular, [⟨2, P2P_PORT⟩]⟩]
    OwnersAnnouncedBySync T tft := by
  intro f g T tft
  refine (sync_owner_changes_broadcast_iff T tft 2 (by decide) ?_).mpr ?_
  · intro te hte
    have howners : te.owners = [⟨2, P2P_PORT⟩] := by
      have hall : ∀ te ∈ tft, te.owners = [⟨2, P2P_PORT⟩] := by decide
      exact hall te hte
    ext ip
    simp [howners, mem_ips, eq_comm]
  · have hall : ∀ te ∈ tft, ∀ r ∈ T.view te.name, r.timestamp ≠ te.timestamp := by decide
    intro te hte r hr heq
    exact absurd heq (hall te hte r hr)

/-- A peer reports the version of a file that the tracker has from another peer: it becomes the second owner and
nothing is broadcast. -/
theorem second_owner_not_broadcast :
    let f : Name := ⟨[102], by decide, by decide⟩
    let T := (fileTableAdd fileTableInit ⟨f, 1, .fileAdd, .regular, [⟨1, P2P_PORT⟩]⟩).1
    let tft : TransFileTable := [⟨f, 1, .fileNone, .regular, [⟨2, P2P_PORT⟩]⟩]
    (syncTask T tft).ft.view f = some ⟨1, .regular, [⟨1, P2P_PORT⟩, ⟨2, P2P_PORT⟩]⟩ ∧
      (syncTask T tft).broadTft = [] ∧ ¬ OwnersAnnouncedBySync T tft := by
  intro f T tft
  have hview : (syncTask T tft).ft.view f = some ⟨1, .regular, [⟨1, P2P_PORT⟩, ⟨2, P2P_PORT⟩]⟩ := by decide
  have hbroad : (syncTask T tft).broadTft = [] := by decide
  refine ⟨hview, hbroad, fun h => ?_⟩
  have hbefore : T.view f = some ⟨1, .regular, [⟨1, P2P_PORT⟩]⟩ := by decide
  have hchanged : OwnersChanged T (syncTask T tft).ft f := by
    left
    rw [FileTable.ownersAt_of_view hview, FileTable.ownersAt_of_view hbefore]
    intro hsame
    have hmem : (2 : UInt32) ∈ ips [⟨1, P2P_PORT⟩] := hsame ▸ ⟨⟨2, P2P_PORT⟩, by simp, rfl⟩
    simp [mem_ips] at hmem
  obtain ⟨e, he, -⟩ := h f hchanged
  rw [hbroad] at he
  cases he

end TeleSync
