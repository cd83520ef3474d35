import TeleSync.Tracker.Tasks
import TeleSync.Client.Handlers
import TeleSync.Lib.Transition

/-!
# A tracker, its peers and the messages in flight

* `Network` : the tracker's tables, the table of each peer, and the update and broadcast messages
  that are under way;
* `Network.report` : a peer handles local events (the table update of `handle_event`) and reports
  them in one `PEER_FILE_UPDATE` packet, as `file_monitor_task` does;
* `Network.handleUpdate` : the tracker handles an update with `peer_file_update_task` and broadcasts;
* `Network.deliver` : a peer handles a broadcast entry.

Peers are named by their connection. Messages are kept in lists, from which any one may be taken.
-/

namespace TeleSync

/-- The table update at the end of `handle_event`. -/
def eventTableUpdate (ft : FileTable) (te : TransFileEntry) : FileTable :=
  match te.opType with
  | .fileAdd => (fileTableAdd ft te).1
  | .fileModify => (fileTableUpdate ft te).1
  | .fileDelete => (fileTableDelete ft te).1
  | .fileNone => ft
  | .other _ => ft

theorem eventTableUpdate_wf {ft : FileTable} (h : ft.Wf) (te : TransFileEntry) : (eventTableUpdate ft te).Wf := by
  unfold eventTableUpdate
  split
  · exact h.add te
  · exact h.update te
  · exact h.delete te
  · exact h
  · exact h

theorem foldl_eventTableUpdate_wf {ft : FileTable} (h : ft.Wf) (tft : TransFileTable) :
    (tft.foldl eventTableUpdate ft).Wf :=
  List.foldlRecOn tft eventTableUpdate (motive := fun t : FileTable => t.Wf) h
    fun _ hs te _ => eventTableUpdate_wf hs te

/-- The state of tracker, peers and channels. -/
structure Network where
  ft : FileTable
  pt : List PeerEntry
  peerFt : ℤ → FileTable
  updates : List (ℤ × TransFileTable)
  broadcasts : List (ℤ × TransFileEntry)

namespace Network

/-- The connection is in the peer table. -/
def Registered (s : Network) (conn : ℤ) : Prop := ∃ pe ∈ s.pt, pe.conn = conn

instance (s : Network) (conn : ℤ) : Decidable (s.Registered conn) :=
  inferInstanceAs (Decidable (∃ pe ∈ s.pt, pe.conn = conn))

/-- The address behind a connection. -/
def ipOf (s : Network) (conn : ℤ) : UInt32 :=
  ((s.pt.find? fun pe => pe.conn == conn).map fun pe => pe.peerid.ip).getD 0

/-- A peer handles its events in order and reports them. -/
def report (s : Network) (conn : ℤ) (tft : TransFileTable) : Network :=
  { s with
    peerFt := Function.update s.peerFt conn (tft.foldl eventTableUpdate (s.peerFt conn))
    updates := s.updates ++ [(conn, tft)] }

/-- The tracker handles an update, whichever it is. -/
def handleUpdate (s : Network) (u : ℤ × TransFileTable) : Network :=
  let out := peerFileUpdateTask s.ft u.2
  let sent := if out.newTft.length > 0 then broadcastUpdate s.pt out.newTft u.1 else []
  { s with
    ft := out.ft
    updates := s.updates.erase u
    broadcasts := s.broadcasts ++ sent.flatMap fun p => p.2.map fun te => (p.1, te) }

/-- A peer handles a broadcast entry, whichever it is. -/
def deliver (s : Network) (b : ℤ × TransFileEntry) : Network :=
  { s with
    peerFt := Function.update s.peerFt b.1 (broadcastEntryHandler (s.ipOf b.1) (s.peerFt b.1) b.2).1
    broadcasts := s.broadcasts.erase b }

/-- No message is under way. -/
def Quiescent (s : Network) : Prop := s.updates = [] ∧ s.broadcasts = []

theorem mem_broadcasts_handleUpdate {s : Network} {u : ℤ × TransFileTable} {b : ℤ × TransFileEntry} :
    b ∈ (s.handleUpdate u).broadcasts ↔
      b ∈ s.broadcasts ∨
        s.Registered b.1 ∧ b.1 ≠ u.1 ∧ b.2 ∈ (peerFileUpdateTask s.ft u.2).newTft := by
  unfold handleUpdate broadcastUpdate Registered
  dsimp only
  rw [List.mem_append]
  apply or_congr_right
  constructor
  · intro h
    split_ifs at h with h0 h1
    · simp at h
    · obtain ⟨p, hp, hb⟩ := List.mem_flatMap.mp h
      obtain ⟨pe, hpe, rfl⟩ := List.mem_map.mp hp
      obtain ⟨te, hte, rfl⟩ := List.mem_map.mp hb
      obtain ⟨hpt, hne⟩ := List.mem_filter.mp hpe
      exact ⟨⟨pe, hpt, rfl⟩, by simpa using hne, hte⟩
    · simp at h
  · rintro ⟨⟨pe, hpe, hconn⟩, hne, hte⟩
    have hpos : (peerFileUpdateTask s.ft u.2).newTft.length > 0 := List.length_pos_of_mem hte
    rw [if_pos hpos, if_neg hpos.ne']
    refine List.mem_flatMap.mpr ⟨(pe.conn, _), List.mem_map.mpr ⟨pe, List.mem_filter.mpr ⟨hpe, ?_⟩, rfl⟩,
      List.mem_map.mpr ⟨b.2, hte, ?_⟩⟩
    · rw [hconn]
      simpa using hne
    · rw [hconn]

end Network

end TeleSync
