import TeleSync.Tracker.Server
import TeleSync.Lib.Transition

/-!
# Disconnects

`receiver_task` starts a task for each packet of its connection, waits for none of them, and runs
`receiver_task_cleanup` when the connection ends.

* `PeerTask`, `Server` : the tasks, and the tables with the tasks that have not run and the connections that
  have been cleaned up;
* `serving` : packets, tasks and cleanups in any order, for peers `ipOf` that only name themselves as owners;
* `NoGhosts` : nothing of a cleaned up connection is left once its tasks have run;
* `WhileRegistered` : a connection registers once, and its syncs and updates run while it is registered;
* `no_ghosts` : then there are no ghosts.
-/

namespace TeleSync
open Transition

/-! ## Receivers, tasks and cleanups -/

/-- What `receiver_task` starts a thread for. -/
inductive PeerTask where
  | register (peerid : PeerId)
  | lifeUpdate (ip : UInt32)
  | sync (tft : TransFileTable)
  | update (tft : TransFileTable)
  deriving DecidableEq

/-- The tables, the tasks that have not run yet and the connections after `receiver_task_cleanup`. -/
structure Server where
  tracker : Tracker
  pending : List (ℤ × PeerTask)
  closed : List ℤ

/-- A packet arrives, a task runs (`sent`: its `TRACKER_ACCEPT` goes out; `now`: the time it reads), or a
connection ends. -/
inductive ServerEvent where
  | receive (conn : ℤ) (task : PeerTask)
  | run (conn : ℤ) (task : PeerTask) (sent : Bool) (now : BitVec 64)
  | cleanup (conn : ℤ)

/-- A peer with address `ip` registers with it and names only itself as an owner. -/
def PeerTask.Own (ip : UInt32) : PeerTask → Prop
  | .register peerid => peerid.ip = ip
  | .lifeUpdate _ => True
  | .sync tft => ∀ te ∈ tft, ∀ p ∈ te.owners, p.ip = ip
  | .update tft => ∀ te ∈ tft, ∀ p ∈ te.owners, p.ip = ip

instance (ip : UInt32) : ∀ task : PeerTask, Decidable (task.Own ip)
  | .register peerid => inferInstanceAs (Decidable (peerid.ip = ip))
  | .lifeUpdate _ => isTrue trivial
  | .sync tft => inferInstanceAs (Decidable (∀ te ∈ tft, ∀ p ∈ te.owners, p.ip = ip))
  | .update tft => inferInstanceAs (Decidable (∀ te ∈ tft, ∀ p ∈ te.owners, p.ip = ip))

/-- A task at work on the tables. Nothing can be sent on a closed connection, and a registration that cannot
send gives up. -/
def Server.runTask (ctrInfo : TtopControlInfo) (s : Server) (conn : ℤ) (task : PeerTask) (sent : Bool)
    (now : BitVec 64) : Tracker :=
  match task with
  | .register peerid => if sent ∧ conn ∉ s.closed then s.tracker.addPeer conn peerid now else s.tracker
  | .lifeUpdate ip => s.tracker.lifeUpdate ctrInfo ip
  | .sync tft => (s.tracker.sync conn tft).1
  | .update tft => (s.tracker.update conn tft).1

/-- The tracker with the peers `ipOf` behind its connections. -/
def serving (ctrInfo : TtopControlInfo) (ipOf : ℤ → UInt32) : System Server ServerEvent where
  step s
    | .receive conn task =>
      if conn ∉ s.closed ∧ task.Own (ipOf conn) then some { s with pending := s.pending ++ [(conn, task)] } else none
    | .run conn task sent now =>
      if (conn, task) ∈ s.pending then
        some { s with tracker := s.runTask ctrInfo conn task sent now, pending := s.pending.erase (conn, task) }
      else none
    | .cleanup conn =>
      if conn ∉ s.closed then some { s with tracker := (s.tracker.cleanup conn).1, closed := conn :: s.closed }
      else none

/-- `file_table_init` and `peer_table_init`. -/
def Server.start : Server := ⟨⟨fileTableInit, []⟩, [], []⟩

/-! ## Ghosts -/

/-- Once a connection is cleaned up and its tasks have run, the peer table has no entry for it and no file
lists its address as an owner, unless another registered connection has that address. -/
def NoGhosts (ipOf : ℤ → UInt32) (s : Server) : Prop :=
  ∀ conn ∈ s.closed, (∀ task, (conn, task) ∉ s.pending) →
    ¬ s.tracker.Registered conn ∧
      ∀ name r, s.tracker.ft.view name = some r → ∀ p ∈ r.owners, p.ip = ipOf conn →
        ∃ pe ∈ s.tracker.pt, pe.conn ≠ conn ∧ pe.peerid.ip = ipOf conn

/-- A connection does not register twice, and its syncs and updates run while it is registered: after its
registration and before its cleanup. -/
def WhileRegistered (s : Server) : ServerEvent → Prop
  | .run conn (.register _) _ _ => ¬ s.tracker.Registered conn
  | .run conn (.sync _) _ _ => s.tracker.Registered conn
  | .run conn (.update _) _ _ => s.tracker.Registered conn
  | _ => True

instance (s : Server) : ∀ e, Decidable (WhileRegistered s e)
  | .run conn (.register _) _ _ => inferInstanceAs (Decidable (¬ s.tracker.Registered conn))
  | .run conn (.sync _) _ _ => inferInstanceAs (Decidable (s.tracker.Registered conn))
  | .run conn (.update _) _ _ => inferInstanceAs (Decidable (s.tracker.Registered conn))
  | .run _ (.lifeUpdate _) _ _ => isTrue trivial
  | .receive _ _ => isTrue trivial
  | .cleanup _ => isTrue trivial

/-! ## The invariant -/

/-- Connections and addresses in the peer table. -/
def Tracker.peers (t : Tracker) : List (ℤ × UInt32) := t.pt.map fun pe => (pe.conn, pe.peerid.ip)

/-- The addresses of the registered peers. -/
def Tracker.peerIps (t : Tracker) : Set UInt32 := {ip | ∃ conn, (conn, ip) ∈ t.peers}

/-- What holds between the tables, the tasks and the connections. -/
structure Clean (ipOf : ℤ → UInt32) (s : Server) : Prop where
  wf : s.tracker.ft.Wf
  own : ∀ u ∈ s.pending, u.2.Own (ipOf u.1)
  ip : ∀ u ∈ s.tracker.peers, u.2 = ipOf u.1
  once : (s.tracker.peers.map Prod.fst).Nodup
  gone : ∀ conn ∈ s.closed, conn ∉ s.tracker.peers.map Prod.fst
  owners : OwnersIn s.tracker.peerIps s.tracker.ft

section Steps
variable {ipOf : ℤ → UInt32} {s : Server} {t : Tracker} {conn : ℤ}

theorem registered_iff : t.Registered conn ↔ conn ∈ t.peers.map Prod.fst := by
  simp [Tracker.Registered, Tracker.peers]

theorem peers_lifeUpdate (ctrInfo : TtopControlInfo) (t : Tracker) (ip : UInt32) :
    (t.lifeUpdate ctrInfo ip).peers = t.peers := by
  unfold Tracker.lifeUpdate
  split
  · rfl
  · apply List.ext_getElem?
    intro i
    simp only [Tracker.peers, List.getElem?_map, List.getElem?_modify]
    split_ifs
    · cases t.pt[i]? <;> rfl
    · cases t.pt[i]? <;> rfl

theorem ft_lifeUpdate (ctrInfo : TtopControlInfo) (t : Tracker) (ip : UInt32) :
    (t.lifeUpdate ctrInfo ip).ft = t.ft := by
  unfold Tracker.lifeUpdate
  split
  · rfl
  · rfl

/-- Tables with the same peers, and owners that are theirs. -/
theorem Clean.of_tables (h : Clean ipOf s) {pending : List (ℤ × PeerTask)} (hsub : pending ⊆ s.pending)
    (hpeers : t.peers = s.tracker.peers) (hw : t.ft.Wf) (howners : OwnersIn s.tracker.peerIps t.ft) :
    Clean ipOf { s with tracker := t, pending := pending } := by
  refine ⟨hw, fun u hu => h.own u (hsub hu), ?_, ?_, ?_, ?_⟩
  · rw [hpeers]
    exact h.ip
  · rw [hpeers]
    exact h.once
  · rw [hpeers]
    exact h.gone
  · rw [Tracker.peerIps, hpeers]
    exact howners

theorem Clean.ownedIn (h : Clean ipOf s) (hreg : s.tracker.Registered conn) {tft : TransFileTable}
    (hown : ∀ te ∈ tft, ∀ p ∈ te.owners, p.ip = ipOf conn) : OwnedIn s.tracker.peerIps tft := by
  obtain ⟨u, hu, hconn⟩ := List.mem_map.mp (registered_iff.mp hreg)
  intro te hte p hp
  refine ⟨u.1, ?_⟩
  rw [hown te hte p hp, ← hconn, ← h.ip u hu]
  exact hu

theorem Clean.addPeer (h : Clean ipOf s) {pending : List (ℤ × PeerTask)} (hsub : pending ⊆ s.pending)
    {peerid : PeerId} (hip : peerid.ip = ipOf conn) (hnew : ¬ s.tracker.Registered conn) (hopen : conn ∉ s.closed)
    (now : BitVec 64) : Clean ipOf { s with tracker := s.tracker.addPeer conn peerid now, pending := pending } := by
  have hpeers : (s.tracker.addPeer conn peerid now).peers = (conn, peerid.ip) :: s.tracker.peers := rfl
  refine ⟨h.wf, fun u hu => h.own u (hsub hu), fun u hu => ?_, ?_, fun c hc => ?_, ?_⟩
  · rcases List.mem_cons.mp (hpeers ▸ hu) with rfl | hu
    · exact hip
    · exact h.ip u hu
  · rw [hpeers, List.map_cons, List.nodup_cons]
    exact ⟨fun hmem => hnew (registered_iff.mpr hmem), h.once⟩
  · rw [hpeers, List.map_cons, List.mem_cons, not_or]
    refine ⟨fun heq => hopen ?_, h.gone c hc⟩
    rw [← show c = conn from heq]
    exact hc
  · refine h.owners.mono ?_
    rintro ip ⟨c, hc⟩
    exact ⟨c, hpeers ▸ List.mem_cons_of_mem _ hc⟩

/-- The entry of the connection goes, with its address; or there was none. -/
theorem peers_cleanup (h : Clean ipOf s) (conn : ℤ) :
    (s.tracker.cleanup conn).1.peers = s.tracker.peers.filter (fun u => u.1 != conn) ∧
      (s.tracker.Registered conn →
        (s.tracker.cleanup conn).1.ft = fileTableDeleteOwner s.tracker.ft (ipOf conn)) := by
  have hfst : s.tracker.peers.map Prod.fst = s.tracker.pt.map PeerEntry.conn := by
    rw [Tracker.peers, List.map_map]
    rfl
  unfold Tracker.cleanup peerTableDelete
  cases hf : s.tracker.pt.find? fun pe => pe.conn == conn with
  | none =>
    have hnone : ∀ pe ∈ s.tracker.pt, ¬ (pe.conn == conn) = true := List.find?_eq_none.mp hf
    refine ⟨?_, fun hreg => ?_⟩
    · symm
      apply List.filter_eq_self.mpr
      intro u hu
      obtain ⟨pe, hpe, rfl⟩ := List.mem_map.mp hu
      simpa using hnone pe hpe
    · obtain ⟨pe, hpe, hconn⟩ := hreg
      exact absurd (by simpa using hconn) (hnone pe hpe)
  | some pe =>
    have hmem := List.mem_of_find?_eq_some hf
    have hconn : pe.conn = conn := by simpa using List.find?_some hf
    have hip : pe.peerid.ip = ipOf conn := by
      rw [← hconn]
      exact h.ip (pe.conn, pe.peerid.ip) (List.mem_map.mpr ⟨pe, hmem, rfl⟩)
    have hnodup : (s.tracker.pt.map PeerEntry.conn).Nodup := hfst ▸ h.once
    refine ⟨?_, fun _ => ?_⟩
    · change (s.tracker.pt.eraseP _).map _ = (s.tracker.pt.map _).filter _
      rw [KeyedList.eraseP_eq_filter hnodup, List.filter_map]
      rfl
    · change fileTableDeleteOwner _ _ = _
      rw [UInt32.toUInt32_toInt32, hip]

theorem Clean.cleanup (h : Clean ipOf s) (conn : ℤ) :
    Clean ipOf { s with tracker := (s.tracker.cleanup conn).1, closed := conn :: s.closed } := by
  obtain ⟨hpeers, hft⟩ := peers_cleanup h conn
  have hsub : ∀ u ∈ (s.tracker.cleanup conn).1.peers, u ∈ s.tracker.peers ∧ u.1 ≠ conn := by
    intro u hu
    rw [hpeers] at hu
    obtain ⟨hmem, hne⟩ := List.mem_filter.mp hu
    exact ⟨hmem, by simpa using hne⟩
  have hkeep : ∀ u ∈ s.tracker.peers, u.1 ≠ conn → u ∈ (s.tracker.cleanup conn).1.peers := by
    intro u hu hne
    rw [hpeers]
    exact List.mem_filter.mpr ⟨hu, by simpa using hne⟩
  have hdel : ∃ ip, (s.tracker.cleanup conn).1.ft = fileTableDeleteOwner s.tracker.ft ip := ⟨_, rfl⟩
  refine ⟨?_, h.own, fun u hu => h.ip u (hsub u hu).1, ?_, fun c hc hmem => ?_, ?_⟩
  · obtain ⟨ip, hip⟩ := hdel
    rw [hip]
    exact h.wf.deleteOwner ip
  · rw [hpeers]
    exact h.once.sublist (List.filter_sublist.map Prod.fst)
  · obtain ⟨u, hu, rfl⟩ := List.mem_map.mp hmem
    rcases List.mem_cons.mp hc with hcu | hc
    · exact (hsub u hu).2 hcu
    · exact h.gone u.1 hc (List.mem_map_of_mem (hsub u hu).1)
  · by_cases hreg : s.tracker.Registered conn
    · change OwnersIn _ (s.tracker.cleanup conn).1.ft
      rw [hft hreg]
      refine (h.owners.deleteOwner h.wf (ipOf conn)).mono ?_
      rintro ip ⟨⟨c, hc⟩, hne⟩
      refine ⟨c, hkeep _ hc fun hcc => hne ?_⟩
      have hip : ip = ipOf c := h.ip _ hc
      rw [hip, show c = conn from hcc]
      rfl
    · obtain ⟨ip, hip⟩ := hdel
      change OwnersIn _ (s.tracker.cleanup conn).1.ft
      rw [hip]
      refine (h.owners.deleteOwner h.wf ip).mono ?_
      rintro ip' ⟨⟨c, hc⟩, -⟩
      refine ⟨c, hkeep _ hc fun hcc => hreg (registered_iff.mpr ?_)⟩
      exact List.mem_map.mpr ⟨_, hc, hcc⟩

theorem Clean.step {ctrInfo : TtopControlInfo} (h : Clean ipOf s) {e : ServerEvent} (hok : WhileRegistered s e) {s' : Server}
    (hs : (serving ctrInfo ipOf).step s e = some s') : Clean ipOf s' := by
  cases e with
  | receive conn task =>
    simp only [serving] at hs
    split_ifs at hs with hg
    cases hs
    refine ⟨h.wf, fun u hu => ?_, h.ip, h.once, h.gone, h.owners⟩
    rcases List.mem_append.mp hu with hu | hu
    · exact h.own u hu
    · rw [List.mem_singleton.mp hu]
      exact hg.2
  | run conn task sent now =>
    simp only [serving] at hs
    split_ifs at hs with hg
    cases hs
    have hown := h.own (conn, task) hg
    have hsub : s.pending.erase (conn, task) ⊆ s.pending := fun u hu => List.mem_of_mem_erase hu
    cases task with
    | register peerid =>
      simp only [Server.runTask]
      split_ifs with hsend
      · exact h.addPeer hsub hown hok hsend.2 now
      · exact h.of_tables hsub rfl h.wf h.owners
    | lifeUpdate ip =>
      apply h.of_tables hsub (peers_lifeUpdate ctrInfo s.tracker ip)
      · rw [ft_lifeUpdate]
        exact h.wf
      · rw [ft_lifeUpdate]
        exact h.owners
    | sync tft => exact h.of_tables hsub rfl (syncTask_wf h.wf tft) (h.owners.sync (h.ownedIn hok hown))
    | update tft =>
      exact h.of_tables hsub rfl (peerFileUpdateTask_wf h.wf tft) (h.owners.update h.wf (h.ownedIn hok hown))
  | cleanup conn =>
    simp only [serving] at hs
    split_ifs at hs with hg
    cases hs
    exact h.cleanup conn

theorem Clean.start : Clean ipOf Server.start := by
  refine ⟨FileTable.wf_init, fun u hu => ?_, fun u hu => ?_, List.nodup_nil, fun c hc => ?_, fun name r hr => ?_⟩
  · cases hu
  · cases hu
  · cases hc
  · cases hr

/-- Owners are registered peers, and a cleaned up connection is not registered. -/
theorem Clean.noGhosts (h : Clean ipOf s) : NoGhosts ipOf s := by
  intro conn hclosed _
  have hgone := h.gone conn hclosed
  refine ⟨fun hreg => hgone (registered_iff.mp hreg), fun name r hr p hp hip => ?_⟩
  obtain ⟨c, hc⟩ := h.owners name r hr p hp
  obtain ⟨pe, hpe, heq⟩ := List.mem_map.mp hc
  obtain ⟨hconn, hpip⟩ := Prod.mk.inj heq
  refine ⟨pe, hpe, fun hcc => hgone ?_, hpip.trans hip⟩
  rw [← hcc, hconn]
  exact List.mem_map.mpr ⟨_, hc, rfl⟩

end Steps

/-- **No ghosts after a disconnect.** In every run in which connections register once and their syncs and updates
run while they are registered, whatever else the order of packets, tasks and cleanups, nothing is left of a
connection after its cleanup. -/
theorem no_ghosts (ctrInfo : TtopControlInfo) (ipOf : ℤ → UInt32) (es : List ServerEvent) (s : Server)
    (hok : (serving ctrInfo ipOf).RunMeets WhileRegistered Server.start es)
    (hrun : (serving ctrInfo ipOf).run Server.start es = some s) : NoGhosts ipOf s :=
  (System.runMeets_invariant (I := Clean ipOf) (fun _ _ _ ht hmeets hstep => ht.step hmeets hstep)
    Clean.start hok hrun).noGhosts

/-- A peer registers, reports a file and disconnects. -/
theorem no_ghosts_one_peer :
    let f : Name := ⟨[102], by decide, by decide⟩
    let add : TransFileTable := [⟨f, 5, .fileAdd, .regular, [⟨7, P2P_PORT⟩]⟩]
    let es : List ServerEvent :=
      [.receive 1 (.register ⟨7, P2P_PORT⟩), .run 1 (.register ⟨7, P2P_PORT⟩) true 0,
        .receive 1 (.update add), .run 1 (.update add) true 0, .cleanup 1]
    ∃ s, (serving ⟨1, 1⟩ fun _ => 7).run Server.start es = some s ∧ s.closed = [1] ∧ s.pending = [] ∧
      NoGhosts (fun _ => 7) s := by
  intro f add es
  have hok : (serving ⟨1, 1⟩ fun _ => 7).RunMeets WhileRegistered Server.start es := by decide
  have hlast : ((serving ⟨1, 1⟩ fun _ => 7).run Server.start es).map (fun s => (s.closed, s.pending)) =
      some ([1], []) := by decide
  obtain ⟨s, hrun, hs⟩ := Option.map_eq_some_iff.mp hlast
  obtain ⟨hclosed, hpending⟩ := Prod.mk.inj hs
  exact ⟨s, hrun, hclosed, hpending, no_ghosts ⟨1, 1⟩ _ es s hok hrun⟩

/-- The same peer, but its update runs after the cleanup: its address stays an owner of `f`, and nobody with that
address is registered. -/
theorem ghost_owner :
    let f : Name := ⟨[102], by decide, by decide⟩
    let add : TransFileTable := [⟨f, 5, .fileAdd, .regular, [⟨7, P2P_PORT⟩]⟩]
    let es : List ServerEvent :=
      [.receive 1 (.register ⟨7, P2P_PORT⟩), .run 1 (.register ⟨7, P2P_PORT⟩) true 0,
        .receive 1 (.update add), .cleanup 1, .run 1 (.update add) true 0]
    ∃ s, (serving ⟨1, 1⟩ fun _ => 7).run Server.start es = some s ∧ ¬ NoGhosts (fun _ => 7) s := by
  intro f add es
  have hlast : ((serving ⟨1, 1⟩ fun _ => 7).run Server.start es).map
      (fun s => (s.closed, s.pending, s.tracker.pt.length, s.tracker.ft.view f)) =
      some ([1], [], 0, some ⟨5, .regular, [⟨7, P2P_PORT⟩]⟩) := by decide
  obtain ⟨s, hrun, hs⟩ := Option.map_eq_some_iff.mp hlast
  simp only [Prod.mk.injEq, List.length_eq_zero_iff] at hs
  obtain ⟨hclosed, hpending, hpt, hview⟩ := hs
  refine ⟨s, hrun, fun h => ?_⟩
  obtain ⟨-, howner⟩ := h 1 (by rw [hclosed]; decide) (by rw [hpending]; simp)
  obtain ⟨pe, hpe, -⟩ := howner f _ hview ⟨7, P2P_PORT⟩ (List.mem_singleton_self _) rfl
  rw [hpt] at hpe
  cases hpe

end TeleSync
