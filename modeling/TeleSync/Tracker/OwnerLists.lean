import TeleSync.Table.Merge
import TeleSync.Tracker.Rounds

/-!
# The tracker's owner lists

Owners enter a list when an entry is created, replaced or joined with another one of the same timestamp, and leave it
when their peer disconnects.

* `owners_nonempty_distinct` : no list is empty and none has an address twice, in every run of the tasks;
* `OwnersFit`, `FillsFit` : the lists, and the lists that `trans_entry_fill_from` copies, fit the array of a
  `trans_file_entry`;
* `Room` : the owners of an entry and those recorded for the same version are at most sixteen together;
* `owner_arrays_fit_iff` : the lists fit throughout a run exactly when every round has room.
-/

namespace TeleSync
open Transition

/-! ## Lists of owners -/

theorem nodup_peerIdListAdd {head : List PeerId} (h : (head.map PeerId.ip).Nodup) (te : TransFileEntry) :
    ((peerIdListAdd head te).map PeerId.ip).Nodup := by
  refine List.foldlRecOn te.owners _ (motive := fun l : List PeerId => (l.map PeerId.ip).Nodup) h fun l hl p _ => ?_
  split_ifs with hin
  · exact hl
  · rw [alreadyInOwners_iff] at hin
    rw [List.map_append, List.map_singleton]
    refine List.nodup_append.mpr ⟨hl, List.nodup_singleton _, fun a ha b hb heq => hin ?_⟩
    rw [List.mem_singleton.mp hb] at heq
    obtain ⟨q, hq, rfl⟩ := List.mem_map.mp ha
    exact ⟨q, hq, heq⟩

theorem ips_eq_empty {owners : List PeerId} : ips owners = ∅ ↔ owners = [] := by
  constructor
  · intro h
    cases owners with
    | nil => rfl
    | cons p owners => exact absurd (h ▸ ⟨p, List.mem_cons_self, rfl⟩ : p.ip ∈ (∅ : Set UInt32)) (Set.notMem_empty _)
  · rintro rfl
    exact ips_nil

theorem nodup_peerIdListAdd_nil (te : TransFileEntry) : ((peerIdListAdd [] te).map PeerId.ip).Nodup := by
  apply nodup_peerIdListAdd
  exact List.nodup_nil

/-- Without repeated addresses, the length of a list is the number of its addresses. -/
theorem ncard_ips {owners : List PeerId} (h : (owners.map PeerId.ip).Nodup) : (ips owners).ncard = owners.length := by
  have hset : ips owners = ↑(owners.map PeerId.ip).toFinset := by
    ext ip
    simp [mem_ips]
  rw [hset, Set.ncard_coe_finset, List.toFinset_card_of_nodup h, List.length_map]

/-! ## Neither empty nor repeating -/

/-- The owners of a record: at least one, and no address twice. -/
def OwnersApart (r : FileRecord) : Prop := r.owners ≠ [] ∧ (r.owners.map PeerId.ip).Nodup

/-- No address twice, also in a list that may be empty. -/
def OwnersDistinct (r : FileRecord) : Prop := (r.owners.map PeerId.ip).Nodup

theorem ownersDistinct_addRecord {te : TransFileEntry} {o : Option FileRecord}
    (h : ∀ r, o = some r → OwnersDistinct r) :
    OwnersDistinct (addRecord te o) := by
  unfold OwnersDistinct
  rcases addRecord_owners te o with heq | ⟨r, hr, heq | ⟨-, heq⟩⟩
  · rw [heq]
    exact nodup_peerIdListAdd_nil te
  · rw [heq]
    exact h r hr
  · rw [heq]
    exact nodup_peerIdListAdd (h r hr) te

theorem addRecord_owners_ne_nil {te : TransFileEntry} (hte : te.owners ≠ []) {o : Option FileRecord}
    (h : ∀ r, o = some r → r.owners ≠ []) : (addRecord te o).owners ≠ [] := by
  have hadd : ∀ head, peerIdListAdd head te ≠ [] := by
    intro head hnil
    have hunion := ips_peerIdListAdd head te
    rw [hnil, ips_nil] at hunion
    exact hte (ips_eq_empty.mp (Set.union_empty_iff.mp hunion.symm).2)
  rcases addRecord_owners te o with heq | ⟨r, hr, heq | ⟨-, heq⟩⟩
  · rw [heq]
    exact hadd []
  · rw [heq]
    exact h r hr
  · rw [heq]
    exact hadd r.owners

/-- What each round needs to keep a property of records: it holds of what is merged in, and of what is left when an
owner goes. -/
theorem FileTable.Every.roundStep {R : FileRecord → Prop} {ft : FileTable} (hw : ft.Wf) (h : ft.Every R) {r : Round}
    (hR : r.Carries fun te => R (addRecord te (ft.view te.name)))
    (hdrop : ∀ rec owners, R rec → owners.Sublist rec.owners → owners ≠ [] → R { rec with owners := owners }) :
    (roundStep ft r).Every R := by
  cases r with
  | reply tft => exact h
  | merge te => exact FileTable.Every.syncStep (s := ⟨ft, []⟩) h hR
  | apply te => exact FileTable.Every.updateStep (s := ⟨ft, []⟩) hw h fun _ => hR
  | deleteOwner ip =>
    refine FileTable.Every.deleteOwner hw h ?_
    rintro rec owners hrec rfl hne
    exact hdrop rec _ hrec List.filter_sublist hne
  | snapshot => exact h

theorem ownersDistinct_roundStep {ft : FileTable} (hw : ft.Wf) (h : ft.Every OwnersDistinct) (r : Round) :
    (roundStep ft r).Every OwnersDistinct := by
  refine h.roundStep hw ?_ fun rec owners hrec hsub _ => hrec.sublist (hsub.map PeerId.ip)
  have hall : ∀ te, OwnersDistinct (addRecord te (ft.view te.name)) := fun te => ownersDistinct_addRecord (h te.name)
  cases r with
  | merge te => exact hall te
  | apply te => exact hall te
  | reply tft => trivial
  | deleteOwner ip => trivial
  | snapshot => trivial

theorem ownersApart_roundStep {ft : FileTable} (hw : ft.Wf) (h : ft.Every OwnersApart) {r : Round}
    (hr : r.Carries fun te => te.owners ≠ []) : (roundStep ft r).Every OwnersApart := by
  have hall : ∀ te : TransFileEntry, te.owners ≠ [] → OwnersApart (addRecord te (ft.view te.name)) := fun te hte =>
    ⟨addRecord_owners_ne_nil hte fun rec hrec => (h te.name rec hrec).1,
      ownersDistinct_addRecord fun rec hrec => (h te.name rec hrec).2⟩
  refine h.roundStep hw ?_ fun rec owners hrec hsub hne => ⟨hne, hrec.2.sublist (hsub.map PeerId.ip)⟩
  cases r with
  | merge te => exact hall te hr
  | apply te => exact hall te hr
  | reply tft => trivial
  | deleteOwner ip => trivial
  | snapshot => trivial

theorem every_init (R : FileRecord → Prop) : fileTableInit.Every R := by
  intro name r hr
  cases hr

/-- **Owner lists are never empty and never repeat an address.** In every run of the tracker's tasks, in any order and
for any connections, on packets whose entries have between one and `MAX_PEER_ENTRIES` owners, each entry of the
tracker's table has at least one owner, and its owners have distinct addresses. -/
theorem owners_nonempty_distinct (ctrInfo : TtopControlInfo) (es : List (ℤ × PeerActivity)) (t : Tracker)
    (hes : ∀ e ∈ es, e.2.Carries fun te => 1 ≤ te.owners.length ∧ te.owners.length ≤ MAX_PEER_ENTRIES)
    (hrun : (tracking ctrInfo).run Tracker.start es = some t) :
    ∀ fe ∈ t.ft.entries, fe.owners ≠ [] ∧ (fe.owners.map PeerId.ip).Nodup := by
  obtain ⟨rs, hrs, hcarries⟩ := tracking_rounds hes hrun
  have hstep : ∀ ft r ft', ft.Wf ∧ ft.Every OwnersApart →
      r.Carries (fun te => 1 ≤ te.owners.length ∧ te.owners.length ≤ MAX_PEER_ENTRIES) →
        rounds.step ft r = some ft' → ft'.Wf ∧ ft'.Every OwnersApart := by
    rintro ft r ft' ⟨hw, h⟩ hr ⟨⟩
    refine ⟨roundStep_wf hw r, ownersApart_roundStep hw h ?_⟩
    cases r with
    | merge te => exact List.ne_nil_of_length_pos hr.1
    | apply te => exact List.ne_nil_of_length_pos hr.1
    | reply tft => trivial
    | deleteOwner ip => trivial
    | snapshot => trivial
  have hstart : fileTableInit.Wf ∧ fileTableInit.Every OwnersApart := ⟨FileTable.wf_init, every_init _⟩
  obtain ⟨hw, h⟩ := System.runMeets_invariant hstep hstart (System.runMeets_of_mem _ hcarries) hrs
  intro fe hfe
  exact h fe.name fe.toFileRecord (hw.view_of_mem hfe)

/-- Two peers report the same version of a file, one of them twice in one list, and the first leaves. -/
theorem owners_nonempty_distinct_two_peers :
    let f : Name := ⟨[102], by decide, by decide⟩
    let es : List (ℤ × PeerActivity) :=
      [(1, .register ⟨1, P2P_PORT⟩ 0),
        (1, .update [⟨f, 5, .fileAdd, .regular, [⟨1, P2P_PORT⟩]⟩]),
        (2, .sync [⟨f, 5, .fileNone, .regular, [⟨2, P2P_PORT⟩, ⟨1, P2P_PORT⟩, ⟨2, P2P_PORT⟩]⟩]), (1, .cleanup)]
    ∃ t, (tracking ⟨1, 1⟩).run Tracker.start es = some t ∧
      t.ft.view f = some ⟨5, .regular, [⟨2, P2P_PORT⟩]⟩ ∧
      ∀ fe ∈ t.ft.entries, fe.owners ≠ [] ∧ (fe.owners.map PeerId.ip).Nodup := by
  intro f es
  have hlast : ((tracking ⟨1, 1⟩).run Tracker.start es).map (fun t => t.ft.view f) =
      some (some ⟨5, .regular, [⟨2, P2P_PORT⟩]⟩) := by decide
  obtain ⟨t, hrun, ht⟩ := Option.map_eq_some_iff.mp hlast
  refine ⟨t, hrun, ht, owners_nonempty_distinct ⟨1, 1⟩ es t ?_ hrun⟩
  simp [es, PeerActivity.Carries, MAX_PEER_ENTRIES]

/-! ## The array of owners -/

/-- Every owner list fits `owners[MAX_PEER_ENTRIES]`. -/
def OwnersFit (ft : FileTable) : Prop := ∀ fe ∈ ft.entries, fe.owners.length ≤ MAX_PEER_ENTRIES

/-- Every list that the round copies with `trans_entry_fill_from` fits, so that no `owners[k]` behind the array is
written. -/
def FillsFit (ft : FileTable) (r : Round) : Prop := ∀ fe ∈ filled ft r, fe.owners.length ≤ MAX_PEER_ENTRIES

/-- If the table has the version of the entry, its recorded owners and those of the entry are not too many together. -/
def HasRoom (ft : FileTable) (te : TransFileEntry) : Prop :=
  ∀ r, ft.view te.name = some r → r.timestamp = te.timestamp →
    (ips r.owners ∪ ips te.owners).ncard ≤ MAX_PEER_ENTRIES

/-- There is room for the entry that the round merges. -/
def Room (ft : FileTable) : Round → Prop
  | .merge te => HasRoom ft te
  | .apply te => te.opType = .fileAdd ∨ te.opType = .fileModify → HasRoom ft te
  | .reply _ => True
  | .deleteOwner _ => True
  | .snapshot => True

/-- The owners of a record fit. -/
def RecordFits (r : FileRecord) : Prop := r.owners.length ≤ MAX_PEER_ENTRIES

section Fit
variable {ft : FileTable} {te : TransFileEntry}

theorem ownersFit_iff (hw : ft.Wf) : OwnersFit ft ↔ ft.Every RecordFits := by
  constructor
  · intro h name r hr
    obtain ⟨fe, hfe, rfl⟩ := Option.map_eq_some_iff.mp hr
    apply h fe
    rw [hw.mem_entries, FileTable.search_name hfe]
    exact hfe
  · exact fun h fe hfe => h fe.name fe.toFileRecord (hw.view_of_mem hfe)

theorem length_peerIdListAdd {head : List PeerId} (h : (head.map PeerId.ip).Nodup) (te : TransFileEntry) :
    (peerIdListAdd head te).length = (ips head ∪ ips te.owners).ncard := by
  rw [← ncard_ips (nodup_peerIdListAdd h te), ips_peerIdListAdd]

theorem length_peerIdListAdd_nil_le (te : TransFileEntry) : (peerIdListAdd [] te).length ≤ te.owners.length := by
  have hset : ips te.owners = ↑(te.owners.map PeerId.ip).toFinset := by
    ext ip
    simp [mem_ips]
  rw [← ncard_ips (nodup_peerIdListAdd_nil te), ips_peerIdListAdd, ips_nil, Set.empty_union, hset,
    Set.ncard_coe_finset]
  exact (List.toFinset_card_le _).trans (List.length_map _).le

/-- Only the union with the owners of the same version can be too long. -/
theorem recordFits_addRecord_iff (hd : ft.Every OwnersDistinct) (h : ft.Every RecordFits)
    (hte : te.owners.length ≤ MAX_PEER_ENTRIES) : RecordFits (addRecord te (ft.view te.name)) ↔ HasRoom ft te := by
  constructor
  · intro hfits r hr heq
    have howners : (addRecord te (ft.view te.name)).owners = peerIdListAdd r.owners te := by
      rw [hr, addRecord, mergeRecord, if_neg heq.not_lt, if_pos heq.symm]
    rwa [RecordFits, howners, length_peerIdListAdd (hd te.name r hr)] at hfits
  · intro hroom
    unfold RecordFits
    rcases addRecord_owners te (ft.view te.name) with heq | ⟨r, hr, heq | ⟨hts, heq⟩⟩
    · rw [heq]
      exact (length_peerIdListAdd_nil_le te).trans hte
    · rw [heq]
      exact h te.name r hr
    · rw [heq, length_peerIdListAdd (hd te.name r hr)]
      exact hroom r hr hts

theorem recordFits_merge_iff (hd : ft.Every OwnersDistinct) (h : ft.Every RecordFits)
    (hte : te.owners.length ≤ MAX_PEER_ENTRIES) {ft' : FileTable}
    (hv : ft'.view = Function.update ft.view te.name (some (addRecord te (ft.view te.name)))) :
    ft'.Every RecordFits ↔ HasRoom ft te := by
  rw [← recordFits_addRecord_iff hd h hte]
  constructor
  · intro h'
    apply h' te.name
    rw [hv, Function.update_self]
  · intro hfits
    apply h.of_update hv
    rintro r ⟨⟩
    exact hfits

theorem recordFits_sublist {r : FileRecord} {owners : List PeerId} (h : RecordFits r) (hsub : owners.Sublist r.owners) :
    RecordFits { r with owners := owners } := hsub.length_le.trans h

theorem recordFits_roundStep_iff (hw : ft.Wf) (hd : ft.Every OwnersDistinct) (h : ft.Every RecordFits) {r : Round}
    (hr : r.Carries fun te => te.owners.length ≤ MAX_PEER_ENTRIES) :
    (roundStep ft r).Every RecordFits ↔ Room ft r := by
  cases r with
  | reply tft => exact iff_of_true h trivial
  | merge te => exact recordFits_merge_iff hd h hr (view_syncStep ⟨ft, []⟩ te)
  | apply te =>
    by_cases hop : te.opType = .fileAdd ∨ te.opType = .fileModify
    · rw [Room, imp_iff_right hop]
      exact recordFits_merge_iff hd h hr (view_updateStep_set (s := ⟨ft, []⟩) hop)
    · refine iff_of_true ?_ fun hset => absurd hset hop
      exact FileTable.Every.updateStep (s := ⟨ft, []⟩) hw h fun hset => absurd hset hop
  | deleteOwner ip =>
    refine iff_of_true (FileTable.Every.deleteOwner hw h ?_) trivial
    rintro rec owners hrec rfl -
    exact recordFits_sublist hrec List.filter_sublist
  | snapshot => exact iff_of_true h trivial

/-- What a round copies is in the table before it or after it. -/
theorem filled_record (hw : ft.Wf) {r : Round} {fe : FileEntry} (hfe : fe ∈ filled ft r) :
    ft.view fe.name = some fe.toFileRecord ∨ (roundStep ft r).view fe.name = some fe.toFileRecord := by
  cases r with
  | reply tft => exact Or.inl (hw.view_of_mem (List.mem_of_mem_filter hfe))
  | merge te => cases hfe
  | apply te =>
    right
    unfold filled at hfe
    cases hop : te.opType with
    | fileAdd =>
      simp only [hop, List.mem_singleton] at hfe
      subst hfe
      rw [FileTable.add_name, FileTable.add_record]
      show (peerFileUpdateStep ⟨ft, []⟩ te).ft.view te.name = _
      rw [view_updateStep_set (Or.inl hop), Function.update_self]
    | fileModify =>
      simp only [hop, Option.mem_toList, Option.map_eq_some_iff] at hfe
      obtain ⟨fe₀, hfind, rfl⟩ := hfe
      have hname : (fileEntryUpdate fe₀ te).1.name = te.name :=
        (fileEntryUpdate_name fe₀ te).trans (FileTable.search_name hfind)
      rw [hname, fileEntryUpdate_record]
      show (peerFileUpdateStep ⟨ft, []⟩ te).ft.view te.name = _
      rw [view_updateStep_set (Or.inr hop), Function.update_self]
      show some (addRecord te (ft.view te.name)) = _
      rw [FileTable.view_of_search hfind]
      rfl
    | fileDelete => simp [hop] at hfe
    | fileNone => simp [hop] at hfe
    | other c => simp [hop] at hfe
  | deleteOwner ip => cases hfe
  | snapshot => exact Or.inl (hw.view_of_mem hfe)

end Fit

/-- What every round keeps, whether lists fit or not. -/
def TidyTable (ft : FileTable) : Prop := ft.Wf ∧ ft.Every OwnersDistinct

theorem tidyTable_step {ft ft' : FileTable} {r : Round} (h : TidyTable ft) (hs : rounds.step ft r = some ft') :
    TidyTable ft' := by
  cases hs
  exact ⟨roundStep_wf h.1 r, ownersDistinct_roundStep h.1 h.2 r⟩

/-- **When owner arrays do not overflow.** Take any run of the rounds of the tracker's tasks, for any number of peers,
on packets whose entries have at most `MAX_PEER_ENTRIES` owners. Every owner list stays within `MAX_PEER_ENTRIES`, and
`trans_entry_fill_from` never writes behind `owners`, if and only if each entry that a round merges into a record of
the same timestamp has, together with that record, at most `MAX_PEER_ENTRIES` owner addresses. -/
theorem owner_arrays_fit_iff (rs : List Round)
    (hrs : ∀ r ∈ rs, r.Carries fun te => te.owners.length ≤ MAX_PEER_ENTRIES) :
    (rounds.Always OwnersFit fileTableInit rs ∧ rounds.RunMeets FillsFit fileTableInit rs) ↔
      rounds.RunMeets Room fileTableInit rs := by
  have henabled : ∀ ft r, ∃ ft', rounds.step ft r = some ft' := fun ft r => ⟨_, rfl⟩
  have htidy : TidyTable fileTableInit := ⟨FileTable.wf_init, every_init _⟩
  have hfits : OwnersFit fileTableInit := (ownersFit_iff FileTable.wf_init).mpr (every_init _)
  have hiff : rounds.Always OwnersFit fileTableInit rs ↔ rounds.RunMeets Room fileTableInit rs := by
    refine System.always_iff_runMeets henabled (fun _ _ _ h hs => tidyTable_step h hs) ?_ hrs htidy hfits
    rintro ft r ft' h hr hq ⟨⟩
    rw [ownersFit_iff (roundStep_wf h.1 r)]
    exact recordFits_roundStep_iff h.1 h.2 ((ownersFit_iff h.1).mp hq) hr
  rw [← hiff]
  refine ⟨And.left, fun halways => ⟨halways, ?_⟩⟩
  have hwf : rounds.Always FileTable.Wf fileTableInit rs := by
    refine System.always_of_runMeets ?_ FileTable.wf_init (System.runMeets_of_mem _ hrs)
    rintro ft r ft' hw - ⟨⟩
    exact roundStep_wf hw r
  refine (halways.and hwf).runMeets henabled ?_
  rintro ft r ft' ⟨hq, hw⟩ ⟨hq', hw'⟩ ⟨⟩ fe hfe
  rcases filled_record hw hfe with hr | hr
  · exact (ownersFit_iff hw).mp hq fe.name _ hr
  · exact (ownersFit_iff hw').mp hq' fe.name _ hr

/-- A second peer reports the version of the first. -/
theorem owner_arrays_fit_two_peers :
    let f : Name := ⟨[102], by decide, by decide⟩
    let rs : List Round :=
      [.apply ⟨f, 1, .fileAdd, .regular, [⟨1, P2P_PORT⟩]⟩, .apply ⟨f, 1, .fileAdd, .regular, [⟨2, P2P_PORT⟩]⟩]
    rounds.Always OwnersFit fileTableInit rs ∧ rounds.RunMeets FillsFit fileTableInit rs := by
  intro f rs
  refine (owner_arrays_fit_iff rs ?_).mpr ⟨fun _ r hr => ?_, ?_⟩
  · simp [rs, Round.Carries, MAX_PEER_ENTRIES]
  · cases hr
  · rintro ft ⟨⟩
    refine ⟨fun _ r hr _ => ?_, fun _ _ => trivial⟩
    have hview : (roundStep fileTableInit (.apply ⟨f, 1, .fileAdd, .regular, [⟨1, P2P_PORT⟩]⟩)).view f =
        some ⟨1, .regular, [⟨1, P2P_PORT⟩]⟩ := by decide
    rw [hview, Option.some.injEq] at hr
    have hset : ips r.owners ∪ ips [⟨2, P2P_PORT⟩] = {1, 2} := by
      ext ip
      simp [← hr, mem_ips, eq_comm]
    rw [hset, Set.ncard_pair (by decide)]
    decide

/-- Seventeen peers report the same version of a file: the seventeenth owner has no place in the array. -/
theorem seventeen_owners :
    let f : Name := ⟨[102], by decide, by decide⟩
    let rs : List Round :=
      (List.range 17).map fun i => .apply ⟨f, 1, .fileAdd, .regular, [⟨UInt32.ofNat i, P2P_PORT⟩]⟩
    (∀ r ∈ rs, r.Carries fun te => te.owners.length ≤ MAX_PEER_ENTRIES) ∧
      ¬ rounds.Always OwnersFit fileTableInit rs := by
  intro f rs
  have hcarries : ∀ r ∈ rs, r.Carries fun te => te.owners.length ≤ MAX_PEER_ENTRIES := by
    intro r hr
    obtain ⟨i, -, rfl⟩ := List.mem_map.mp hr
    show 1 ≤ MAX_PEER_ENTRIES
    decide
  refine ⟨hcarries, fun h => ?_⟩
  have hlast : (rounds.run fileTableInit rs).map (fun ft => (ft.view f).map fun r => r.owners.length) =
      some (some 17) := by
    decide +kernel
  obtain ⟨ft, hrun, hft⟩ := Option.map_eq_some_iff.mp hlast
  obtain ⟨r, hr, hlen⟩ := Option.map_eq_some_iff.mp hft
  have hwf : ft.Wf := by
    refine System.run_invariant (I := FileTable.Wf) ?_ FileTable.wf_init hrun
    rintro ft r ft' hw ⟨⟩
    exact roundStep_wf hw r
  have hfits : r.owners.length ≤ MAX_PEER_ENTRIES := (ownersFit_iff hwf).mp (h.last hrun) f r hr
  rw [hlen] at hfits
  exact absurd hfits (by decide)

end TeleSync
