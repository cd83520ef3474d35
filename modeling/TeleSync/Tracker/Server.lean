import TeleSync.Tracker.Tasks

/-!
# The tracker's connections

The tables of the tracker and the tasks that `receiver_task` (`server/start.c`) starts for the packets of a
connection, each with the packets it sends:

* `peerTableAdd`, `peerTableDelete`, `peerTableFind` : `peer_table.c`;
* `Tracker.addPeer`, `Tracker.lifeUpdate`, `Tracker.sync`, `Tracker.update`, `Tracker.cleanup` : the tasks and
  `receiver_task_cleanup`;
* `FileTable.Every R ft` : every record has `R`, with what each task needs to keep it;
* `OwnersIn S ft` : all owners in the table have their address in `S`, which the tasks keep for the addresses
  they bring in (`OwnersIn.sync`, `OwnersIn.update`) and `cleanup` narrows (`OwnersIn.deleteOwner`).
-/

namespace TeleSync

/-! ## The peer table -/

/-- `peer_table_add`: `list_add` links at the head. -/
def peerTableAdd (pt : List PeerEntry) (pe : PeerEntry) : List PeerEntry := pe :: pt

/-- `peer_table_delete`: the first entry of the connection goes, and its address is returned as an `int`. -/
def peerTableDelete (pt : List PeerEntry) (conn : ℤ) : List PeerEntry × Int32 :=
  match pt.find? fun pe => pe.conn == conn with
  | some pe => (pt.eraseP fun pe => pe.conn == conn, pe.peerid.ip.toInt32)
  | none => (pt, -1)

/-- `peer_table_find`: the first entry with the address. -/
def peerTableFind (pt : List PeerEntry) (ip : UInt32) : Option PeerEntry := pt.find? fun pe => pe.peerid.ip == ip

/-! ## Packets and tasks -/

/-- `struct ttop_control_info`. -/
structure TtopControlInfo where
  interval : Int32
  pieceLen : Int32
  deriving DecidableEq

/-- `struct ttop_packet`, by type; the tracker sends no `TRACKER_CLOSE`. -/
inductive TtopPacket where
  | accept (ctrInfo : TtopControlInfo)
  | broadcast (tft : TransFileTable)
  | sync (tft : TransFileTable)
  deriving DecidableEq

/-- The static tables `ft` and `pt`. -/
structure Tracker where
  ft : FileTable
  pt : List PeerEntry

namespace Tracker

/-- The connection has an entry in the peer table. -/
def Registered (t : Tracker) (conn : ℤ) : Prop := ∃ pe ∈ t.pt, pe.conn = conn

instance (t : Tracker) (conn : ℤ) : Decidable (t.Registered conn) :=
  inferInstanceAs (Decidable (∃ pe ∈ t.pt, pe.conn = conn))

/-- `broadcast_update`, as packets. -/
def broadcast (t : Tracker) (tft : TransFileTable) (exclusiveConn : ℤ) : List (ℤ × TtopPacket) :=
  (broadcastUpdate t.pt tft exclusiveConn).map fun p => (p.1, .broadcast p.2)

/-- `peer_register_handler_task` once the `TRACKER_ACCEPT` is out: `now` is the time of `peer_entry_alloc`. -/
def addPeer (t : Tracker) (conn : ℤ) (peerid : PeerId) (now : BitVec 64) : Tracker :=
  { t with pt := peerTableAdd t.pt ⟨conn, now, peerid⟩ }

/-- `peer_life_update_task` -/
def lifeUpdate (ctrInfo : TtopControlInfo) (t : Tracker) (ip : UInt32) : Tracker :=
  match peerTableFind t.pt ip with
  | none => t
  | some _ =>
    { t with pt := t.pt.modify (t.pt.findIdx fun pe => pe.peerid.ip == ip) fun pe =>
      { pe with timestamp := pe.timestamp + ctrInfo.interval.toBitVec.signExtend 64 } }

/-- `sync_task`: the reply to the peer goes out first. -/
def sync (t : Tracker) (conn : ℤ) (tft : TransFileTable) : Tracker × List (ℤ × TtopPacket) :=
  let out := syncTask t.ft tft
  ({ t with ft := out.ft }, (conn, .sync out.peerTft) :: t.broadcast out.broadTft conn)

/-- `peer_file_update_task` -/
def update (t : Tracker) (conn : ℤ) (tft : TransFileTable) : Tracker × List (ℤ × TtopPacket) :=
  let out := peerFileUpdateTask t.ft tft
  ({ t with ft := out.ft }, if out.newTft.length > 0 then t.broadcast out.newTft conn else [])

/-- `receiver_task_cleanup`: without an entry for the connection the address is -1 as an unsigned number. -/
def cleanup (t : Tracker) (conn : ℤ) : Tracker × List (ℤ × TtopPacket) :=
  let p := peerTableDelete t.pt conn
  let t : Tracker := ⟨fileTableDeleteOwner t.ft p.2.toUInt32, p.1⟩
  (t, t.broadcast ((transTableFillFrom t.ft).map fun te => { te with opType := .fileModify }) (-1))

end Tracker

/-! ## Records -/

/-- Every record in the table has the property. -/
def FileTable.Every (R : FileRecord → Prop) (ft : FileTable) : Prop := ∀ name r, ft.view name = some r → R r

section Records
variable {R : FileRecord → Prop} {ft : FileTable} {te : TransFileEntry}

theorem FileTable.Every.of_update (h : ft.Every R) {ft' : FileTable} {name : Name} {o : Option FileRecord}
    (hv : ft'.view = Function.update ft.view name o) (ho : ∀ r, o = some r → R r) : ft'.Every R := by
  intro k r hr
  rw [hv] at hr
  by_cases hk : k = name
  · rw [hk, Function.update_self] at hr
    exact ho r hr
  · rw [Function.update_of_ne hk] at hr
    exact h k r hr

theorem FileTable.Every.syncStep {s : SyncState} (h : s.ft.Every R) (hR : R (addRecord te (s.ft.view te.name))) :
    (syncStep s te).ft.Every R := by
  apply h.of_update (view_syncStep s te)
  rintro r ⟨⟩
  exact hR

theorem FileTable.Every.updateStep {s : UpdateState} (hw : s.ft.Wf) (h : s.ft.Every R)
    (hR : te.opType = .fileAdd ∨ te.opType = .fileModify → R (addRecord te (s.ft.view te.name))) :
    (peerFileUpdateStep s te).ft.Every R := by
  have hset : te.opType = .fileAdd ∨ te.opType = .fileModify → (peerFileUpdateStep s te).ft.Every R := by
    intro hop
    apply h.of_update (view_updateStep_set hop)
    rintro r ⟨⟩
    exact hR hop
  cases hop : te.opType with
  | fileAdd => exact hset (Or.inl hop)
  | fileModify => exact hset (Or.inr hop)
  | fileDelete =>
    apply h.of_update (view_updateStep_delete hw hop)
    rintro r ⟨⟩
  | fileNone => rwa [updateStep_skip (Or.inl hop)]
  | other c => rwa [updateStep_skip (Or.inr ⟨c, hop⟩)]

/-- `file_table_delete_owner` narrows the owners and leaves no record without one. -/
theorem FileTable.Every.deleteOwner {R' : FileRecord → Prop} (hw : ft.Wf) (h : ft.Every R) {ip : UInt32}
    (hR : ∀ r owners, R r → owners = r.owners.filter (fun p => p.ip != ip) → owners ≠ [] →
      R' { r with owners := owners }) : (fileTableDeleteOwner ft ip).Every R' := by
  intro name r hr
  rw [FileTable.view_deleteOwner hw] at hr
  obtain ⟨r', hr', hdrop⟩ := Option.bind_eq_some_iff.mp hr
  simp only [dropRecord] at hdrop
  split_ifs at hdrop with hempty
  cases hdrop
  exact hR r' _ (h name r' hr') rfl (by simpa using hempty)

end Records

/-! ## Owners -/

/-- Every owner in the table has an address in `S`. -/
def OwnersIn (S : Set UInt32) (ft : FileTable) : Prop :=
  ∀ name r, ft.view name = some r → ∀ p ∈ r.owners, p.ip ∈ S

/-- Every owner in a received table has an address in `S`. -/
def OwnedIn (S : Set UInt32) (tft : TransFileTable) : Prop := ∀ te ∈ tft, ∀ p ∈ te.owners, p.ip ∈ S

section Owners
variable {S : Set UInt32} {ft : FileTable} {tft : TransFileTable}

theorem OwnersIn.mono {S' : Set UInt32} (h : OwnersIn S ft) (hsub : S ⊆ S') : OwnersIn S' ft :=
  fun name r hr p hp => hsub (h name r hr p hp)

theorem mem_addRecord {p : PeerId} {te : TransFileEntry} {o : Option FileRecord} (h : p ∈ (addRecord te o).owners) :
    p ∈ te.owners ∨ ∃ r, o = some r ∧ p ∈ r.owners := by
  rcases addRecord_owners te o with heq | ⟨r, rfl, heq | ⟨-, heq⟩⟩
  · exact Or.inl ((mem_peerIdListAdd (heq ▸ h)).resolve_left List.not_mem_nil)
  · exact Or.inr ⟨r, rfl, heq ▸ h⟩
  · rcases mem_peerIdListAdd (heq ▸ h) with hmem | hmem
    · exact Or.inr ⟨r, rfl, hmem⟩
    · exact Or.inl hmem

theorem OwnersIn.addRecord {te : TransFileEntry} (h : OwnersIn S ft) (hte : ∀ p ∈ te.owners, p.ip ∈ S) :
    ∀ p ∈ (addRecord te (ft.view te.name)).owners, p.ip ∈ S := by
  intro p hp
  rcases mem_addRecord hp with hmem | ⟨r, hr, hmem⟩
  · exact hte p hmem
  · exact h te.name r hr p hmem

theorem OwnersIn.syncStep {s : SyncState} {te : TransFileEntry} (h : OwnersIn S s.ft)
    (hte : ∀ p ∈ te.owners, p.ip ∈ S) : OwnersIn S (syncStep s te).ft :=
  FileTable.Every.syncStep h (h.addRecord hte)

theorem syncStep_wf {s : SyncState} (h : s.ft.Wf) (te : TransFileEntry) : (syncStep s te).ft.Wf := by
  unfold TeleSync.syncStep
  split
  · exact h.add te
  · split_ifs
    · exact h.update te
    · exact h.update te

theorem syncTask_wf (h : ft.Wf) (tft : TransFileTable) : (syncTask ft tft).ft.Wf :=
  List.foldlRecOn tft TeleSync.syncStep (motive := fun s => s.ft.Wf) h fun _ hs te _ => syncStep_wf hs te

theorem OwnersIn.sync (h : OwnersIn S ft) (htft : OwnedIn S tft) : OwnersIn S (syncTask ft tft).ft :=
  List.foldlRecOn tft TeleSync.syncStep (motive := fun s => OwnersIn S s.ft) h
    fun _ hs te hmem => hs.syncStep (htft te hmem)

theorem OwnersIn.updateStep {s : UpdateState} {te : TransFileEntry} (hw : s.ft.Wf) (h : OwnersIn S s.ft)
    (hte : ∀ p ∈ te.owners, p.ip ∈ S) : OwnersIn S (peerFileUpdateStep s te).ft :=
  FileTable.Every.updateStep hw h fun _ => h.addRecord hte

theorem OwnersIn.update (hw : ft.Wf) (h : OwnersIn S ft) (htft : OwnedIn S tft) :
    OwnersIn S (peerFileUpdateTask ft tft).ft := by
  have hrun : (peerFileUpdateTask ft tft).ft.Wf ∧ OwnersIn S (peerFileUpdateTask ft tft).ft :=
    List.foldlRecOn tft peerFileUpdateStep (motive := fun s => s.ft.Wf ∧ OwnersIn S s.ft) ⟨hw, h⟩
      fun s hs te hmem => ⟨peerFileUpdateStep_wf hs.1 te, hs.2.updateStep hs.1 (htft te hmem)⟩
  exact hrun.2

theorem OwnersIn.deleteOwner (hw : ft.Wf) (h : OwnersIn S ft) (ip : UInt32) :
    OwnersIn (S \ {ip}) (fileTableDeleteOwner ft ip) := by
  show FileTable.Every (fun r => ∀ p ∈ r.owners, p.ip ∈ S \ {ip}) (fileTableDeleteOwner ft ip)
  refine FileTable.Every.deleteOwner hw h ?_
  rintro r owners hr rfl - p hp
  obtain ⟨hmem, hne⟩ := List.mem_filter.mp hp
  exact ⟨hr p hmem, by simpa using hne⟩

end Owners

end TeleSync
