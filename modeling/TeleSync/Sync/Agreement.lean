import TeleSync.Table.Merge
import TeleSync.Tracker.Tasks
import TeleSync.Client.Handlers

/-!
# A sync makes tracker and peer agree

A peer sends the table of its initial scan, `sync_task` answers with what the peer has to learn and
merges what it learns itself, and `file_table_sync` takes the answer. The reply is computed from the
tracker's table before the merge, and the peer does not tell the tracker what it took, so agreement
is a matter of both sides deciding alike for each name: `view_tracker`, `find_reply` and
`view_fileTableSync` give the two decisions, `sync_at` compares them.
-/

namespace TeleSync

/-- A tracker's table whose reply fits the arrays. -/
structure TrackerTable (T : FileTable) : Prop where
  wf : T.Wf
  owners_distinct : ∀ fe ∈ T.entries, (fe.owners.map PeerId.ip).Nodup
  owners_le : ∀ fe ∈ T.entries, fe.owners.length ≤ MAX_PEER_ENTRIES
  entries_le : T.entries.length ≤ MAX_FILE_ENTRIES

/-- A peer's table after its initial scan: everything is owned by the peer alone. -/
structure ScannedTable (me : PeerId) (P : FileTable) : Prop where
  wf : P.Wf
  owners_me : ∀ fe ∈ P.entries, fe.owners = [me]

/-- The owner addresses a table keeps for a name. -/
def FileTable.ownersAt (t : FileTable) (name : Name) : Set UInt32 := {ip | ∃ r, t.view name = some r ∧ ip ∈ ips r.owners}

theorem FileTable.ownersAt_of_view {t : FileTable} {name : Name} {r : FileRecord} (h : t.view name = some r) :
    t.ownersAt name = ips r.owners := by
  ext ip
  simp [FileTable.ownersAt, h]

/-! ## Owner addresses -/

theorem ips_eraseP_diff (myIp : UInt32) (l : List PeerId) :
    ips (l.eraseP fun p => p.ip == myIp) \ {myIp} = ips l \ {myIp} := by
  induction l with
  | nil => rfl
  | cons p l ih =>
    have hcons : ∀ m : List PeerId, ips (p :: m) = {p.ip} ∪ ips m := by
      intro m
      ext ip
      simp [mem_ips, eq_comm]
    by_cases h : p.ip = myIp
    · have he : (p :: l).eraseP (fun q => q.ip == myIp) = l := by simp [h]
      rw [he, hcons, h, Set.union_sdiff_distrib, Set.sdiff_self, Set.empty_union]
    · have he : (p :: l).eraseP (fun q => q.ip == myIp) = p :: l.eraseP (fun q => q.ip == myIp) := by simp [h]
      rw [he, hcons, hcons, Set.union_sdiff_distrib, Set.union_sdiff_distrib, ih]

theorem owners_eq_of_hasSameOwners {fe : FileEntry} {te : TransFileEntry} (h : hasSameOwners fe te = true) :
    fe.owners = te.owners := by
  rw [hasSameOwners, Bool.and_eq_true, beq_iff_eq, List.all_eq_true] at h
  obtain ⟨hlen, hall⟩ := h
  refine List.ext_getElem hlen fun i h1 h2 => ?_
  have hi : (fe.owners[i], te.owners[i]) ∈ fe.owners.zip te.owners := by
    rw [← List.getElem_zip (h := by simp [h1, h2])]
    exact List.getElem_mem _
  have := hall _ hi
  rw [Bool.and_eq_true, beq_iff_eq, beq_iff_eq] at this
  cases hp : fe.owners[i]
  cases hq : te.owners[i]
  rw [hp, hq] at this
  exact congrArg₂ PeerId.mk this.1 this.2

/-! ## The two decisions -/

section Decisions
variable {T P : FileTable}

theorem find_transTable (hP : P.Wf) (name : Name) :
    KeyedList.find TransFileEntry.name name (transTableFillFrom P) =
      (fileTableSearch P name).map transEntryFillFrom := by
  have hkey : ∀ fe te, (some ∘ transEntryFillFrom) fe = some te → te.name = fe.name := by
    rintro fe te h
    cases h
    rfl
  rw [transTableFillFrom, ← List.filterMap_eq_map, KeyedList.find_filterMap hkey hP.nodup_names,
    hP.find_entries, Option.map_eq_bind]

theorem nodup_transTable (hP : P.Wf) : ((transTableFillFrom P).map TransFileEntry.name).Nodup := by
  have h := hP.nodup_names
  rwa [transTableFillFrom, List.map_map]

theorem view_syncTask (T : FileTable) {tft : TransFileTable} (hnd : (tft.map TransFileEntry.name).Nodup) (name : Name) :
    (syncTask T tft).ft.view name =
      ((KeyedList.find TransFileEntry.name name tft).map fun te => some (addRecord te (T.view name))).getD
        (T.view name) :=
  KeyedList.view_foldl (fun s : SyncState => s.ft.view) syncStep (fun te v => some (addRecord te v)) view_syncStep hnd
    ⟨T, []⟩ name

/-- The tracker merges what the peer has for the name. -/
theorem view_tracker (T : FileTable) (hP : P.Wf) (name : Name) :
    (syncTask T (transTableFillFrom P)).ft.view name =
      ((fileTableSearch P name).map fun fe => some (addRecord (transEntryFillFrom fe) (T.view name))).getD
        (T.view name) := by
  rw [view_syncTask T (nodup_transTable hP), find_transTable hP, Option.map_map]
  rfl

/-- The reply has what the tracker decides to send for the name. -/
theorem find_reply (hT : T.Wf) (tft : TransFileTable) (name : Name) :
    KeyedList.find TransFileEntry.name name (syncTask T tft).peerTft =
      (fileTableSearch T name).bind (syncReplyEntry tft) := by
  rw [← hT.find_entries]
  exact KeyedList.find_filterMap (fun _ _ => syncReplyEntry_name) hT.nodup_names name

theorem nodup_reply (hT : T.Wf) (tft : TransFileTable) :
    ((syncTask T tft).peerTft.map TransFileEntry.name).Nodup :=
  hT.nodup_names.sublist (KeyedList.map_key_filterMap_sublist (fun _ _ => syncReplyEntry_name) _)

end Decisions

/-! ## One name -/

/-- The records of a name agree, up to the peer itself among the owners, at the later timestamp. -/
structure Agreed (me : PeerId) (ts : ℕ) (r q : FileRecord) : Prop where
  left : r.timestamp = ts
  right : q.timestamp = ts
  owners : ips r.owners \ {me.ip} = ips q.owners \ {me.ip}

theorem ips_newRecord (te : TransFileEntry) : ips (newRecord te).owners = ips te.owners := by
  simp [newRecord]

/-- What the peer makes of a name it has, given the tracker's entry for it. -/
def peerDecision (me : PeerId) (t p : FileEntry) : FileRecord :=
  if t.timestamp > p.timestamp ∨ (t.timestamp = p.timestamp ∧ ¬ hasSameOwners t (transEntryFillFrom p)) then
    receiveRecord me.ip { transEntryFillFrom t with opType := .fileModify } (some p.toFileRecord)
  else p.toFileRecord

theorem ips_receive_diff (me : PeerId) (te : TransFileEntry) (r : FileRecord) :
    ips (receiveRecord me.ip te (some r)).owners \ {me.ip} = ips te.owners \ {me.ip} := by
  rw [receiveRecord, ips_eraseP_diff, ips_peerIdListAdd, ips_nil, Set.empty_union]

section BothSides
variable {me : PeerId} {t p : FileEntry}

/-- The peer hears of a name it has when the tracker is newer, or as new with other owners. -/
theorem peerDecision_hears (me : PeerId) (h : t.timestamp > p.timestamp ∨
    (t.timestamp = p.timestamp ∧ ¬ hasSameOwners t (transEntryFillFrom p))) :
    (peerDecision me t p).timestamp = t.timestamp ∧
      ips (peerDecision me t p).owners \ {me.ip} = ips t.owners \ {me.ip} := by
  have hle : p.timestamp ≤ t.timestamp := h.elim le_of_lt fun h => h.1.ge
  rw [peerDecision, if_pos h]
  exact ⟨max_eq_right hle, ips_receive_diff me _ _⟩

/-- The peer is newer: the tracker takes its owners, the peer hears nothing. -/
theorem agreed_of_lt (hlt : t.timestamp < p.timestamp) :
    Agreed me p.timestamp (mergeRecord t.toFileRecord (transEntryFillFrom p)) (peerDecision me t p) := by
  have hd : peerDecision me t p = p.toFileRecord := by
    rw [peerDecision, if_neg]
    rintro (h | ⟨h, -⟩)
    · exact absurd hlt (lt_asymm h)
    · exact absurd h hlt.ne
  have h1 : t.timestamp < (transEntryFillFrom p).timestamp := hlt
  rw [hd, mergeRecord, if_pos h1]
  refine ⟨rfl, rfl, ?_⟩
  rw [ips_peerIdListAdd, ips_nil, Set.empty_union]
  rfl

/-- Both are as new: the tracker joins the owners, the peer hears of them if they differ. -/
theorem agreed_of_eq (hp : p.owners = [me]) (heq : t.timestamp = p.timestamp) :
    Agreed me p.timestamp (mergeRecord t.toFileRecord (transEntryFillFrom p)) (peerDecision me t p) := by
  have hmine : ips p.owners = {me.ip} := by
    ext ip
    simp [hp, mem_ips, eq_comm]
  have h1 : ¬ t.timestamp < (transEntryFillFrom p).timestamp := not_lt.mpr heq.ge
  have h2 : (transEntryFillFrom p).timestamp = t.timestamp := heq.symm
  have hm : ips (peerIdListAdd t.owners (transEntryFillFrom p)) \ {me.ip} = ips t.owners \ {me.ip} := by
    rw [ips_peerIdListAdd, show ips (transEntryFillFrom p).owners = {me.ip} from hmine, Set.union_sdiff_right]
  rw [mergeRecord, if_neg h1, if_pos h2]
  by_cases hs : hasSameOwners t (transEntryFillFrom p)
  · have hd : peerDecision me t p = p.toFileRecord := by
      rw [peerDecision, if_neg]
      rintro (h | ⟨-, h⟩)
      · exact absurd heq h.ne'
      · exact h hs
    rw [hd]
    have ho : t.owners = p.owners := owners_eq_of_hasSameOwners hs
    exact ⟨heq, rfl, hm.trans (by rw [ho])⟩
  · obtain ⟨hts, howners⟩ := peerDecision_hears me (Or.inr ⟨heq, hs⟩)
    exact ⟨heq, hts.trans heq, hm.trans howners.symm⟩

/-- The tracker is newer: the peer takes its owners, the tracker ignores the peer. -/
theorem agreed_of_gt (hgt : p.timestamp < t.timestamp) :
    Agreed me t.timestamp (mergeRecord t.toFileRecord (transEntryFillFrom p)) (peerDecision me t p) := by
  have h1 : ¬ t.timestamp < (transEntryFillFrom p).timestamp := lt_asymm hgt
  have h2 : (transEntryFillFrom p).timestamp ≠ t.timestamp := hgt.ne
  obtain ⟨hts, howners⟩ := peerDecision_hears me (Or.inl hgt)
  rw [mergeRecord, if_neg h1, if_neg h2]
  exact ⟨rfl, hts, howners.symm⟩

theorem agreed_both (hp : p.owners = [me]) :
    Agreed me (max t.timestamp p.timestamp) (mergeRecord t.toFileRecord (transEntryFillFrom p))
      (peerDecision me t p) := by
  rcases lt_trichotomy t.timestamp p.timestamp with hlt | heq | hgt
  · rw [max_eq_right hlt.le]
    exact agreed_of_lt hlt
  · rw [max_eq_right heq.le]
    exact agreed_of_eq hp heq
  · rw [max_eq_left hgt.le]
    exact agreed_of_gt hgt

end BothSides

section Exchange
variable {me : PeerId} {T P : FileTable}

theorem transFileSearch_peer (hP : P.Wf) {name : Name} {t : FileEntry} (ht : fileTableSearch T name = some t) :
    transFileSearch (transTableFillFrom P) t.name = (fileTableSearch P name).map transEntryFillFrom := by
  rw [FileTable.search_name ht]
  exact find_transTable hP name

/-- The reply's entry for a name that both sides have. -/
theorem reply_both (hT : T.Wf) (hP : P.Wf) {name : Name} {t p : FileEntry} (ht : fileTableSearch T name = some t)
    (hp : fileTableSearch P name = some p) :
    (fileTableSync me.ip P (syncTask T (transTableFillFrom P)).peerTft).1.view name =
      some (peerDecision me t p) := by
  rw [view_fileTableSync me.ip P (nodup_reply hT _), find_reply hT, ht, Option.bind_some, syncReplyEntry,
    transFileSearch_peer hP ht, hp, Option.map_some, FileTable.view_of_search hp, peerDecision]
  by_cases hc : t.timestamp > (transEntryFillFrom p).timestamp ∨
      (t.timestamp = (transEntryFillFrom p).timestamp ∧ ¬ hasSameOwners t (transEntryFillFrom p))
  · dsimp only
    rw [if_pos hc]
    exact congrArg some (if_pos hc).symm
  · dsimp only
    rw [if_neg hc]
    exact congrArg some (if_neg hc).symm

/-- The reply's entry for a name that only the tracker has. -/
theorem reply_tracker_only (hT : T.Wf) (hP : P.Wf) {name : Name} {t : FileEntry}
    (ht : fileTableSearch T name = some t) (hp : fileTableSearch P name = none) :
    (fileTableSync me.ip P (syncTask T (transTableFillFrom P)).peerTft).1.view name =
      some (newRecord { transEntryFillFrom t with opType := .fileAdd }) := by
  rw [view_fileTableSync me.ip P (nodup_reply hT _), find_reply hT, ht, Option.bind_some, syncReplyEntry,
    transFileSearch_peer hP ht, hp, Option.map_none, FileTable.view_eq_none.mpr hp]
  rfl

theorem reply_peer_only (hT : T.Wf) {name : Name} (ht : fileTableSearch T name = none) (tft : TransFileTable) :
    (fileTableSync me.ip P (syncTask T tft).peerTft).1.view name = P.view name := by
  rw [view_fileTableSync me.ip P (nodup_reply hT _), find_reply hT, ht]
  rfl

/-- After the exchange a name is absent on both sides, as it was before, or agreed. -/
theorem sync_at (hT : T.Wf) (hP : ScannedTable me P) (name : Name) :
    let T' := (syncTask T (transTableFillFrom P)).ft
    let P' := (fileTableSync me.ip P (syncTask T (transTableFillFrom P)).peerTft).1
    (T.stamp name = ⊥ ∧ P.stamp name = ⊥ ∧ T'.view name = none ∧ P'.view name = none) ∨
      ∃ (ts : ℕ) (r q : FileRecord), max (T.stamp name) (P.stamp name) = (ts : WithBot ℕ) ∧ T'.view name = some r ∧
        P'.view name = some q ∧ Agreed me ts r q := by
  intro T' P'
  have htr := view_tracker T hP.wf name
  cases ht : fileTableSearch T name with
  | none =>
    have hTv := FileTable.view_eq_none.mpr ht
    have hTs := FileTable.stamp_eq_bot.mpr hTv
    have hP' : P'.view name = P.view name := reply_peer_only hT ht (transTableFillFrom P)
    cases hp : fileTableSearch P name with
    | none =>
      have hPv := FileTable.view_eq_none.mpr hp
      rw [hp, hTv] at htr
      exact Or.inl ⟨hTs, FileTable.stamp_eq_bot.mpr hPv, htr, hP'.trans hPv⟩
    | some p =>
      have hPv := FileTable.view_of_search hp
      rw [hp, hTv] at htr
      refine Or.inr ⟨p.timestamp, _, _, ?_, htr, hP'.trans hPv, ⟨rfl, rfl, ?_⟩⟩
      · rw [hTs, FileTable.stamp_of_view hPv, max_bot_left]
      · rw [addRecord, ips_newRecord]
        rfl
  | some t =>
    have hTv := FileTable.view_of_search ht
    cases hp : fileTableSearch P name with
    | none =>
      have hPv := FileTable.view_eq_none.mpr hp
      rw [hp, hTv] at htr
      refine Or.inr ⟨t.timestamp, _, _, ?_, htr, reply_tracker_only hT hP.wf ht hp, ⟨rfl, rfl, ?_⟩⟩
      · rw [FileTable.stamp_eq_bot.mpr hPv, FileTable.stamp_of_view hTv, max_bot_right]
      · rw [ips_newRecord]
        rfl
    | some p =>
      have hPv := FileTable.view_of_search hp
      have hmine : p.owners = [me] :=
        hP.owners_me p (hP.wf.mem_entries.mpr ((FileTable.search_name hp).symm ▸ hp))
      rw [hp, hTv] at htr
      refine Or.inr ⟨_, _, _, ?_, htr, reply_both hT hP.wf ht hp, agreed_both hmine⟩
      rw [FileTable.stamp_of_view hTv, FileTable.stamp_of_view hPv, FileTable.stamp_coe_max]

theorem syncReplyEntry_timestamp {tft : TransFileTable} {t : FileEntry} {te : TransFileEntry}
    (h : syncReplyEntry tft t = some te) : te.timestamp = t.timestamp := by
  unfold syncReplyEntry at h
  split at h
  · cases h
    rfl
  · split_ifs at h
    cases h
    rfl

theorem syncReplyEntry_of_lt (hP : P.Wf) {name : Name} {t : FileEntry} (ht : fileTableSearch T name = some t)
    (hlt : P.stamp name < t.timestamp) : ∃ te, syncReplyEntry (transTableFillFrom P) t = some te := by
  rw [syncReplyEntry, transFileSearch_peer hP ht]
  cases hp : fileTableSearch P name with
  | none => exact ⟨_, rfl⟩
  | some p =>
    rw [FileTable.stamp_of_view (FileTable.view_of_search hp)] at hlt
    have hgt : t.timestamp > (transEntryFillFrom p).timestamp := Nat.cast_lt.mp hlt
    exact ⟨_, if_pos (Or.inl hgt)⟩

/-- A download is started for the names where the tracker is strictly ahead. -/
theorem download_iff (hT : T.Wf) (hP : P.Wf) (a : ClientAction) :
    a ∈ (fileTableSync me.ip P (syncTask T (transTableFillFrom P)).peerTft).2 ↔
      ∃ name, a = .download name ∧ P.stamp name < T.stamp name := by
  rw [actions_fileTableSync me.ip P (nodup_reply hT _), List.mem_map]
  constructor
  · rintro ⟨te, hte, rfl⟩
    obtain ⟨hmem, hlt⟩ := List.mem_filter.mp hte
    refine ⟨te.name, rfl, lt_of_lt_of_le (of_decide_eq_true hlt) ?_⟩
    have hfind := KeyedList.find_of_mem (nodup_reply hT (transTableFillFrom P)) hmem
    rw [find_reply hT] at hfind
    obtain ⟨t, ht, hreply⟩ := Option.bind_eq_some_iff.mp hfind
    rw [FileTable.stamp_of_view (FileTable.view_of_search ht), syncReplyEntry_timestamp hreply]
  · rintro ⟨name, rfl, hlt⟩
    have hne : T.view name ≠ none := by
      intro h
      rw [FileTable.stamp_eq_bot.mpr h] at hlt
      exact not_lt_bot hlt
    obtain ⟨t, ht⟩ := Option.ne_none_iff_exists'.mp (mt FileTable.view_eq_none.mpr hne)
    rw [FileTable.stamp_of_view (FileTable.view_of_search ht)] at hlt
    obtain ⟨te, hte⟩ := syncReplyEntry_of_lt hP ht hlt
    have hname : te.name = name := (syncReplyEntry_name hte).trans (FileTable.search_name ht)
    refine ⟨te, List.mem_filter.mpr ⟨?_, ?_⟩, by rw [hname]⟩
    · have hfind := find_reply hT (transTableFillFrom P) name
      rw [ht, Option.bind_some, hte] at hfind
      exact KeyedList.mem_of_find hfind
    · rw [hname, syncReplyEntry_timestamp hte]
      exact decide_eq_true hlt

end Exchange

/-- **Sync agreement.** After `sync_task` on the tracker and `file_table_sync` on the peer both have
the same names, each with the later of the two timestamps and with the same owners apart from the
peer itself, and the peer downloads exactly what it lacked or had in an older version. -/
theorem sync_agreement (me : PeerId) (T P : FileTable) (hT : TrackerTable T) (hP : ScannedTable me P) :
    let out := syncTask T (transTableFillFrom P)
    let res := fileTableSync me.ip P out.peerTft
    out.ft.names = res.1.names ∧
      (∀ name, out.ft.stamp name = max (T.stamp name) (P.stamp name) ∧
        res.1.stamp name = max (T.stamp name) (P.stamp name)) ∧
      (∀ name, out.ft.ownersAt name \ {me.ip} = res.1.ownersAt name \ {me.ip}) ∧
      res.2.Nodup ∧
      ∀ a, a ∈ res.2 ↔ ∃ name, a = .download name ∧ P.stamp name < T.stamp name := by
  intro out res
  have hstamp : ∀ name, out.ft.stamp name = max (T.stamp name) (P.stamp name) ∧
      res.1.stamp name = max (T.stamp name) (P.stamp name) := by
    intro name
    rcases sync_at hT.wf hP name with ⟨h1, h2, h3, h4⟩ | ⟨ts, r, q, hmax, hr, hq, hagree⟩
    · rw [h1, h2, max_self]
      exact ⟨FileTable.stamp_eq_bot.mpr h3, FileTable.stamp_eq_bot.mpr h4⟩
    · rw [hmax]
      refine ⟨(FileTable.stamp_of_view hr).trans ?_, (FileTable.stamp_of_view hq).trans ?_⟩
      · rw [hagree.left]
      · rw [hagree.right]
  refine ⟨?_, hstamp, fun name => ?_, ?_, download_iff hT.wf hP.wf⟩
  · ext name
    rw [FileTable.mem_names, FileTable.mem_names, (hstamp name).1, (hstamp name).2]
  · rcases sync_at hT.wf hP name with ⟨-, -, h3, h4⟩ | ⟨ts, r, q, -, hr, hq, hagree⟩
    · simp only [FileTable.ownersAt, out, res, h3, h4]
    · rw [FileTable.ownersAt_of_view hr, FileTable.ownersAt_of_view hq]
      exact hagree.owners
  · have hnd := nodup_reply hT.wf (transTableFillFrom P)
    have hacts : res.2 = _ := actions_fileTableSync me.ip P hnd
    rw [hacts]
    refine (List.Nodup.of_map TransFileEntry.name ?_).map_on ?_
    · exact hnd.sublist (List.filter_sublist.map _)
    · intro te hte te' hte' heq
      exact List.inj_on_of_nodup_map hnd (List.mem_of_mem_filter hte) (List.mem_of_mem_filter hte')
        (ClientAction.download.inj heq)

/-! ## Tables built from entries -/

theorem trackerTable_addAll {es : List TransFileEntry} (hnd : (es.map TransFileEntry.name).Nodup)
    (howners : ∀ te ∈ es, (te.owners.map PeerId.ip).Nodup ∧ te.owners.length ≤ MAX_PEER_ENTRIES)
    (hlen : es.length ≤ MAX_FILE_ENTRIES) : TrackerTable (addAll fileTableInit es) := by
  have hentry : ∀ fe ∈ (addAll fileTableInit es).entries, ∃ te ∈ es, te.owners = fe.owners := by
    intro fe hfe
    obtain ⟨te, hte, -, hrecord⟩ := exists_of_mem_addAll_init hnd hfe
    refine ⟨te, hte, ?_⟩
    rw [← hrecord, newRecord, peerIdListAdd_nil_of_nodup (howners te hte).1]
  refine ⟨wf_addAll FileTable.wf_init es, fun fe hfe => ?_, fun fe hfe => ?_, (length_addAll_init_le hnd).trans hlen⟩
  · obtain ⟨te, hte, heq⟩ := hentry fe hfe
    exact heq ▸ (howners te hte).1
  · obtain ⟨te, hte, heq⟩ := hentry fe hfe
    exact heq ▸ (howners te hte).2

theorem scannedTable_addAll {me : PeerId} {es : List TransFileEntry} (hnd : (es.map TransFileEntry.name).Nodup)
    (howners : ∀ te ∈ es, te.owners = [me]) : ScannedTable me (addAll fileTableInit es) := by
  refine ⟨wf_addAll FileTable.wf_init es, fun fe hfe => ?_⟩
  obtain ⟨te, hte, -, hrecord⟩ := exists_of_mem_addAll_init hnd hfe
  rw [← hrecord, newRecord, peerIdListAdd_nil_of_nodup (by simp [howners te hte]), howners te hte]

/-- The tracker has `1/a`, `1/b` and `1/c` at timestamp 5 from peer 1, peer 2 has an older `1/a`, a newer `1/b` and
`1/c` at the same timestamp. -/
theorem sync_agreement_three_files :
    let a : Name := ⟨[49, 47, 97], by decide, by decide⟩
    let b : Name := ⟨[49, 47, 98], by decide, by decide⟩
    let c : Name := ⟨[49, 47, 99], by decide, by decide⟩
    let T := addAll fileTableInit [⟨a, 5, .fileAdd, .regular, [⟨1, P2P_PORT⟩]⟩,
      ⟨b, 5, .fileAdd, .regular, [⟨1, P2P_PORT⟩]⟩, ⟨c, 5, .fileAdd, .regular, [⟨1, P2P_PORT⟩]⟩]
    let P := addAll fileTableInit [⟨a, 3, .fileAdd, .regular, [⟨2, P2P_PORT⟩]⟩,
      ⟨b, 7, .fileAdd, .regular, [⟨2, P2P_PORT⟩]⟩, ⟨c, 5, .fileAdd, .regular, [⟨2, P2P_PORT⟩]⟩]
    let out := syncTask T (transTableFillFrom P)
    let res := fileTableSync 2 P out.peerTft
    TrackerTable T ∧ ScannedTable ⟨2, P2P_PORT⟩ P ∧
      (res.1.stamp a = 5 ∧ res.1.stamp b = 7 ∧ res.1.stamp c = 5) ∧
      (∀ name, out.ft.ownersAt name \ {2} = res.1.ownersAt name \ {2}) ∧
      ∀ act, act ∈ res.2 ↔ act = .download a := by
  intro a b c T P
  have hT : TrackerTable T := trackerTable_addAll (by decide) (by decide) (by decide)
  have hP : ScannedTable ⟨2, P2P_PORT⟩ P := scannedTable_addAll (by decide) (by decide)
  have hTs : ∀ name, T.stamp name = if a = name then 5 else if b = name then 5 else if c = name then 5 else ⊥ := by
    intro name
    rw [stamp_addAll_init (by decide), KeyedList.find_cons, KeyedList.find_cons, KeyedList.find_cons]
    split_ifs <;> rfl
  have hPs : ∀ name, P.stamp name = if a = name then 3 else if b = name then 7 else if c = name then 5 else ⊥ := by
    intro name
    rw [stamp_addAll_init (by decide), KeyedList.find_cons, KeyedList.find_cons, KeyedList.find_cons]
    split_ifs <;> rfl
  obtain ⟨-, hstamp, howners, -, hdown⟩ := sync_agreement ⟨2, P2P_PORT⟩ T P hT hP
  -- The values of `out` and `res` are written out: the kernel would run the handshake to compare the names with them.
  show TrackerTable T ∧ ScannedTable ⟨2, P2P_PORT⟩ P ∧
    ((fileTableSync 2 P (syncTask T (transTableFillFrom P)).peerTft).1.stamp a = 5 ∧
      (fileTableSync 2 P (syncTask T (transTableFillFrom P)).peerTft).1.stamp b = 7 ∧
      (fileTableSync 2 P (syncTask T (transTableFillFrom P)).peerTft).1.stamp c = 5) ∧
    (∀ name, (syncTask T (transTableFillFrom P)).ft.ownersAt name \ {2} =
      (fileTableSync 2 P (syncTask T (transTableFillFrom P)).peerTft).1.ownersAt name \ {2}) ∧
    ∀ act, act ∈ (fileTableSync 2 P (syncTask T (transTableFillFrom P)).peerTft).2 ↔ act = .download a
  refine ⟨hT, hP, ⟨?_, ?_, ?_⟩, howners, fun act => ?_⟩
  · rw [(hstamp a).2, hTs, hPs]
    decide
  · rw [(hstamp b).2, hTs, hPs]
    decide
  · rw [(hstamp c).2, hTs, hPs]
    decide
  · rw [hdown]
    constructor
    · rintro ⟨name, rfl, hlt⟩
      rw [hTs, hPs] at hlt
      by_cases ha : a = name
      · rw [ha]
      · rw [if_neg ha, if_neg ha] at hlt
        split_ifs at hlt <;> exact absurd hlt (by decide)
    · rintro rfl
      refine ⟨a, rfl, ?_⟩
      rw [hTs, hPs, if_pos rfl, if_pos rfl]
      decide

end TeleSync
