import TeleSync.Tracker.Server
import TeleSync.Lib.Transition

/-!
# The start-up handshake

A starting client registers, waits for the `TRACKER_ACCEPT`, sends its table in a `PEER_SYNC` and takes the next
packet for the reply (`register_to_tracker` and `sync_files` of `client/start.c`). The tracker handles its two
packets in threads of their own, while other peers go on.

* `PeerActivity`, `Tracker.perform` : what the tracker does for another peer, with the packets it sends;
  `Tracker.announced` : the table that it broadcasts;
* `Handshake`, `handshaking` : the client, its connection in both directions and the tracker's tasks for it,
  with every other activity in between;
* `Quiet` : nothing is broadcast between the moment the client is in the peer table and the moment the reply
  is sent;
* `handshake_succeeds_iff` : `sync_files` succeeds exactly when that is so, and always comes to an end.
-/

namespace TeleSync
open Transition

/-! ## Other peers -/

/-- A task that the tracker runs for another connection, or its cleanup. -/
inductive PeerActivity where
  | register (peerid : PeerId) (now : BitVec 64)
  | lifeUpdate (ip : UInt32)
  | sync (tft : TransFileTable)
  | update (tft : TransFileTable)
  | cleanup
  deriving DecidableEq

namespace Tracker

/-- The activity, with the packets it sends. -/
def perform (ctrInfo : TtopControlInfo) (t : Tracker) (conn : ℤ) : PeerActivity → Tracker × List (ℤ × TtopPacket)
  | .register peerid now => (t.addPeer conn peerid now, [(conn, .accept ctrInfo)])
  | .lifeUpdate ip => (t.lifeUpdate ctrInfo ip, [])
  | .sync tft => t.sync conn tft
  | .update tft => t.update conn tft
  | .cleanup => t.cleanup conn

/-- The table that the activity hands to `broadcast_update`. -/
def announced (t : Tracker) (conn : ℤ) : PeerActivity → TransFileTable
  | .register _ _ => []
  | .lifeUpdate _ => []
  | .sync tft => (syncTask t.ft tft).broadTft
  | .update tft => (peerFileUpdateTask t.ft tft).newTft
  | .cleanup => transTableFillFrom (fileTableDeleteOwner t.ft (peerTableDelete t.pt conn).2.toUInt32)

end Tracker

/-- The packets among `ps` that go to connection `c`. -/
def packetsFor (c : ℤ) (ps : List (ℤ × TtopPacket)) : List TtopPacket := (ps.filter fun p => p.1 == c).map Prod.snd

/-! ## The client and its connection -/

/-- Where the client is; `synced` with the table it got. -/
inductive ClientPhase where
  | start
  | waitAccept
  | registered
  | waitSync
  | synced (tft : TransFileTable)
  | failed
  deriving DecidableEq

/-- The handshake is over. -/
def ClientPhase.Returned : ClientPhase → Prop
  | .synced _ => True
  | .failed => True
  | _ => False

/-- What the client sends. -/
inductive PtotPacket where
  | register
  | sync (tft : TransFileTable)
  deriving DecidableEq

/-- The tracker's tasks for the client: `add` is a registration that has sent its `TRACKER_ACCEPT`. -/
inductive HandshakeTask where
  | register
  | add
  | sync (tft : TransFileTable)
  deriving DecidableEq

/-- The tracker, the packets under way in both directions, the tasks that have not run, the packets that the
client has read, and the client. -/
structure Handshake where
  tracker : Tracker
  up : List PtotPacket
  pending : List HandshakeTask
  down : List TtopPacket
  taken : List TtopPacket
  phase : ClientPhase

inductive HandshakeEvent where
  | sendRegister
  | recvAccept
  | sendSync (tft : TransFileTable)
  | recvSync
  | receive
  | sendAccept
  | addPeer (now : BitVec 64)
  | runSync (tft : TransFileTable)
  | other (conn : ℤ) (act : PeerActivity)
  deriving DecidableEq

/-- The task that `receiver_task` starts for a packet. -/
def PtotPacket.task : PtotPacket → HandshakeTask
  | .register => .register
  | .sync tft => .sync tft

/-- The next packet is taken for the answer to `PEER_REGISTER`. -/
def afterAccept : TtopPacket → ClientPhase
  | .accept _ => .registered
  | _ => .failed

/-- The next packet is taken for the answer to `PEER_SYNC`. -/
def afterSync : TtopPacket → ClientPhase
  | .sync tft => .synced tft
  | _ => .failed

namespace Handshake

/-- The client reads the next packet. -/
def recv (s : Handshake) (phase : TtopPacket → ClientPhase) : Option Handshake :=
  match s.down with
  | [] => none
  | p :: down => some { s with down := down, taken := s.taken ++ [p], phase := phase p }

/-- All packets sent to the client so far. -/
def sent (s : Handshake) : List TtopPacket := s.taken ++ s.down

/-- The `TRACKER_SYNC` reply has been sent. -/
def Replied (s : Handshake) : Prop := ∃ tft, .sync tft ∈ s.sent

end Handshake

/-- One step of the client `me` on connection `c`, of the tracker's tasks for it, or of another peer's. -/
def handshakeStep (ctrInfo : TtopControlInfo) (c : ℤ) (me : PeerId) (s : Handshake) :
    HandshakeEvent → Option Handshake
  | .sendRegister =>
    if s.phase = .start then some { s with phase := .waitAccept, up := s.up ++ [.register] } else none
  | .recvAccept => if s.phase = .waitAccept then s.recv afterAccept else none
  | .sendSync tft =>
    if s.phase = .registered then some { s with phase := .waitSync, up := s.up ++ [.sync tft] } else none
  | .recvSync => if s.phase = .waitSync then s.recv afterSync else none
  | .receive =>
    match s.up with
    | [] => none
    | p :: up => some { s with up := up, pending := s.pending ++ [p.task] }
  | .sendAccept =>
    if .register ∈ s.pending then
      some { s with down := s.down ++ [.accept ctrInfo], pending := s.pending.erase .register ++ [.add] }
    else none
  | .addPeer now =>
    if .add ∈ s.pending then
      some { s with tracker := s.tracker.addPeer c me now, pending := s.pending.erase .add }
    else none
  | .runSync tft =>
    if .sync tft ∈ s.pending then
      let out := s.tracker.sync c tft
      some { s with tracker := out.1, down := s.down ++ packetsFor c out.2, pending := s.pending.erase (.sync tft) }
    else none
  | .other conn act =>
    if conn ≠ c then
      let out := s.tracker.perform ctrInfo conn act
      some { s with tracker := out.1, down := s.down ++ packetsFor c out.2 }
    else none

def handshaking (ctrInfo : TtopControlInfo) (c : ℤ) (me : PeerId) : System Handshake HandshakeEvent where
  step := handshakeStep ctrInfo c me

/-- The client starts, the tracker is in any state. -/
def Handshake.start (t : Tracker) : Handshake := ⟨t, [], [], [], [], .start⟩

/-- Another peer's activity broadcasts nothing while the client is in the peer table and its reply is not out. -/
def Quiet (c : ℤ) (s : Handshake) : HandshakeEvent → Prop
  | .other conn act => s.tracker.Registered c → s.tracker.announced conn act = [] ∨ s.Replied
  | _ => True

/-! ## Packets to the client -/

section Packets
variable {c : ℤ} {t : Tracker}

theorem packetsFor_cons_self (c : ℤ) (p : TtopPacket) (ps : List (ℤ × TtopPacket)) :
    packetsFor c ((c, p) :: ps) = p :: packetsFor c ps := by
  rw [packetsFor, List.filter_cons_of_pos (by simp), List.map_cons]
  rfl

theorem packetsFor_cons_of_ne {conn : ℤ} (h : conn ≠ c) (p : TtopPacket) (ps : List (ℤ × TtopPacket)) :
    packetsFor c ((conn, p) :: ps) = packetsFor c ps := by
  rw [packetsFor, List.filter_cons_of_neg (by simpa using h)]
  rfl

theorem mem_packetsFor_broadcast {tft : TransFileTable} {conn : ℤ} {p : TtopPacket} :
    p ∈ packetsFor c (t.broadcast tft conn) ↔ p = .broadcast tft ∧ tft ≠ [] ∧ c ≠ conn ∧ t.Registered c := by
  unfold packetsFor Tracker.broadcast broadcastUpdate Tracker.Registered
  split_ifs with h0
  · simp [List.length_eq_zero_iff.mp h0]
  · have hne : tft ≠ [] := fun h => h0 (List.length_eq_zero_iff.mpr h)
    constructor
    · intro hp
      obtain ⟨q, hq, rfl⟩ := List.mem_map.mp hp
      obtain ⟨hq, hqc⟩ := List.mem_filter.mp hq
      obtain ⟨r, hr, rfl⟩ := List.mem_map.mp hq
      obtain ⟨pe, hpe, rfl⟩ := List.mem_map.mp hr
      obtain ⟨hpt, hex⟩ := List.mem_filter.mp hpe
      have hconn : pe.conn = c := by simpa using hqc
      refine ⟨rfl, hne, ?_, pe, hpt, hconn⟩
      rw [← hconn]
      simpa using hex
    · rintro ⟨rfl, -, hex, pe, hpe, hconn⟩
      refine List.mem_map.mpr ⟨(pe.conn, .broadcast tft), List.mem_filter.mpr ⟨?_, by simpa using hconn⟩, rfl⟩
      refine List.mem_map.mpr ⟨(pe.conn, tft), List.mem_map.mpr ⟨pe, List.mem_filter.mpr ⟨hpe, ?_⟩, rfl⟩, rfl⟩
      rw [hconn]
      simpa using hex

/-- The reply is all that the client gets from its own sync. -/
theorem packetsFor_sync (t : Tracker) (c : ℤ) (tft : TransFileTable) :
    packetsFor c (t.sync c tft).2 = [.sync (syncTask t.ft tft).peerTft] := by
  have hnone : packetsFor c (t.broadcast (syncTask t.ft tft).broadTft c) = [] := by
    apply List.eq_nil_iff_forall_not_mem.mpr
    intro p hp
    exact (mem_packetsFor_broadcast.mp hp).2.2.1 rfl
  rw [Tracker.sync, packetsFor_cons_self, hnone]

theorem registered_perform (ctrInfo : TtopControlInfo) {conn : ℤ} (hne : conn ≠ c) (act : PeerActivity) :
    (t.perform ctrInfo conn act).1.Registered c ↔ t.Registered c := by
  cases act with
  | register peerid now => simp [Tracker.perform, Tracker.addPeer, peerTableAdd, Tracker.Registered, hne]
  | lifeUpdate ip =>
    simp only [Tracker.perform, Tracker.lifeUpdate]
    split
    · rfl
    · simp only [Tracker.Registered, List.mem_iff_getElem?, List.getElem?_modify]
      constructor
      · rintro ⟨pe, ⟨i, hi⟩, hconn⟩
        obtain ⟨pe', hpe', rfl⟩ := Option.map_eq_some_iff.mp hi
        refine ⟨pe', ⟨i, hpe'⟩, ?_⟩
        rw [← hconn]
        split_ifs <;> rfl
      · rintro ⟨pe, ⟨i, hi⟩, hconn⟩
        refine ⟨_, ⟨i, by rw [hi]; rfl⟩, ?_⟩
        rw [← hconn]
        split_ifs <;> rfl
  | sync tft => rfl
  | update tft => rfl
  | cleanup =>
    simp only [Tracker.perform, Tracker.cleanup, peerTableDelete]
    cases t.pt.find? fun pe => pe.conn == conn with
    | none => rfl
    | some pe =>
      constructor
      · rintro ⟨q, hq, hconn⟩
        exact ⟨q, List.mem_of_mem_eraseP hq, hconn⟩
      · rintro ⟨q, hq, hconn⟩
        refine ⟨q, (List.mem_eraseP_of_neg ?_).mpr hq, hconn⟩
        rw [hconn]
        simpa using hne.symm

theorem mem_packetsFor_perform (ctrInfo : TtopControlInfo) {conn : ℤ} (hne : conn ≠ c)
    (act : PeerActivity) {p : TtopPacket} (hp : p ∈ packetsFor c (t.perform ctrInfo conn act).2) :
    (∃ tft, p = .broadcast tft) ∧ t.announced conn act ≠ [] ∧ t.Registered c := by
  cases act with
  | register peerid now =>
    rw [Tracker.perform, packetsFor_cons_of_ne hne] at hp
    cases hp
  | lifeUpdate ip => cases hp
  | sync tft =>
    rw [Tracker.perform, Tracker.sync, packetsFor_cons_of_ne hne] at hp
    obtain ⟨hp, hnil, -, hreg⟩ := mem_packetsFor_broadcast.mp hp
    exact ⟨⟨_, hp⟩, hnil, hreg⟩
  | update tft =>
    simp only [Tracker.perform, Tracker.update] at hp
    split_ifs at hp
    · obtain ⟨hp, hnil, -, hreg⟩ := mem_packetsFor_broadcast.mp hp
      exact ⟨⟨_, hp⟩, hnil, hreg⟩
    · cases hp
  | cleanup =>
    obtain ⟨hp, hnil, -, hreg⟩ := mem_packetsFor_broadcast.mp hp
    refine ⟨⟨_, hp⟩, fun h => hnil ?_, (registered_perform ctrInfo hne .cleanup).mp hreg⟩
    rw [Tracker.announced] at h
    exact List.map_eq_nil_iff.mpr h

theorem packetsFor_perform_ne_nil (ctrInfo : TtopControlInfo) {conn : ℤ} (hne : conn ≠ c) (hc : 0 ≤ c)
    {act : PeerActivity} (hann : t.announced conn act ≠ []) (hreg : t.Registered c) :
    ∃ tft, .broadcast tft ∈ packetsFor c (t.perform ctrInfo conn act).2 := by
  cases act with
  | register peerid now => exact absurd rfl hann
  | lifeUpdate ip => exact absurd rfl hann
  | sync tft =>
    refine ⟨(syncTask t.ft tft).broadTft, ?_⟩
    rw [Tracker.perform, Tracker.sync, packetsFor_cons_of_ne hne]
    exact mem_packetsFor_broadcast.mpr ⟨rfl, hann, hne.symm, hreg⟩
  | update tft =>
    have hpos : (peerFileUpdateTask t.ft tft).newTft.length > 0 := List.length_pos_of_ne_nil hann
    refine ⟨(peerFileUpdateTask t.ft tft).newTft, ?_⟩
    simp only [Tracker.perform, Tracker.update, if_pos hpos]
    exact mem_packetsFor_broadcast.mpr ⟨rfl, hann, hne.symm, hreg⟩
  | cleanup =>
    refine ⟨_, mem_packetsFor_broadcast.mpr ⟨rfl, fun h => hann ?_, by omega,
      (registered_perform ctrInfo hne .cleanup).mpr hreg⟩⟩
    rw [Tracker.announced]
    exact List.map_eq_nil_iff.mp h

end Packets

/-! ## The order of the packets -/

/-- No broadcast comes before the reply. -/
def Late : List TtopPacket → Prop
  | [] => True
  | .accept _ :: l => Late l
  | .sync _ :: _ => True
  | .broadcast _ :: _ => False

theorem late_append (l m : List TtopPacket) : Late (l ++ m) ↔ Late l ∧ ((∃ tft, .sync tft ∈ l) ∨ Late m) := by
  induction l with
  | nil => simp [Late]
  | cons p l ih =>
    cases p with
    | accept i => simpa [Late] using ih
    | sync tft => simp [Late]
    | broadcast tft => simp [Late]

theorem late_broadcasts {l : List TtopPacket} (h : ∀ p ∈ l, ∃ tft, p = .broadcast tft) : Late l ↔ l = [] := by
  cases l with
  | nil => simp [Late]
  | cons p l =>
    obtain ⟨tft, rfl⟩ := h p List.mem_cons_self
    simp [Late]

section Order
variable {ctrInfo : TtopControlInfo} {c : ℤ} {me : PeerId} {s s' : Handshake}

/-- The packets that a step sends to the client. -/
def sends (ctrInfo : TtopControlInfo) (c : ℤ) (s : Handshake) : HandshakeEvent → List TtopPacket
  | .sendAccept => [.accept ctrInfo]
  | .runSync tft => [.sync (syncTask s.tracker.ft tft).peerTft]
  | .other conn act => packetsFor c (s.tracker.perform ctrInfo conn act).2
  | _ => []

theorem sent_recv {phase : TtopPacket → ClientPhase} (hs : s.recv phase = some s') : s'.sent = s.sent := by
  unfold Handshake.recv at hs
  split at hs
  · cases hs
  · next p down hdown =>
    cases hs
    simp [Handshake.sent, hdown]

theorem sent_step {e : HandshakeEvent} (hs : (handshaking ctrInfo c me).step s e = some s') :
    s'.sent = s.sent ++ sends ctrInfo c s e := by
  cases e with
  | sendRegister =>
    simp only [handshaking, handshakeStep] at hs
    split_ifs at hs
    cases hs
    simp [Handshake.sent, sends]
  | recvAccept =>
    simp only [handshaking, handshakeStep] at hs
    split_ifs at hs
    rw [sent_recv hs]
    simp [sends]
  | sendSync tft =>
    simp only [handshaking, handshakeStep] at hs
    split_ifs at hs
    cases hs
    simp [Handshake.sent, sends]
  | recvSync =>
    simp only [handshaking, handshakeStep] at hs
    split_ifs at hs
    rw [sent_recv hs]
    simp [sends]
  | receive =>
    simp only [handshaking, handshakeStep] at hs
    split at hs
    · cases hs
    · cases hs
      simp [Handshake.sent, sends]
  | sendAccept =>
    simp only [handshaking, handshakeStep] at hs
    split_ifs at hs
    cases hs
    simp [Handshake.sent, sends]
  | addPeer now =>
    simp only [handshaking, handshakeStep] at hs
    split_ifs at hs
    cases hs
    simp [Handshake.sent, sends]
  | runSync tft =>
    simp only [handshaking, handshakeStep, packetsFor_sync] at hs
    split_ifs at hs
    cases hs
    simp [Handshake.sent, sends]
  | other conn act =>
    simp only [handshaking, handshakeStep] at hs
    split_ifs at hs
    cases hs
    simp [Handshake.sent, sends]

/-- A step keeps broadcasts behind the reply exactly when it is quiet. -/
theorem late_step_iff (hc : 0 ≤ c) {e : HandshakeEvent} (hs : (handshaking ctrInfo c me).step s e = some s') :
    Late s'.sent ↔ Late s.sent ∧ Quiet c s e := by
  rw [sent_step hs, late_append]
  refine and_congr_right fun _ => ?_
  cases e with
  | other conn act =>
    simp only [handshaking, handshakeStep] at hs
    split_ifs at hs with hne
    rw [sends, Quiet, late_broadcasts fun p hp => (mem_packetsFor_perform ctrInfo hne act hp).1]
    constructor
    · rintro (hrep | hnil) hreg
      · exact Or.inr hrep
      · by_contra hcon
        rw [not_or] at hcon
        obtain ⟨tft, hmem⟩ := packetsFor_perform_ne_nil ctrInfo hne hc hcon.1 hreg
        rw [hnil] at hmem
        cases hmem
    · intro hq
      by_cases hnil : packetsFor c (s.tracker.perform ctrInfo conn act).2 = []
      · exact Or.inr hnil
      · obtain ⟨p, hp⟩ := List.exists_mem_of_ne_nil _ hnil
        obtain ⟨-, hann, hreg⟩ := mem_packetsFor_perform ctrInfo hne act hp
        exact Or.inl ((hq hreg).resolve_left hann)
  | sendRegister | recvAccept | sendSync | recvSync | receive | sendAccept | addPeer | runSync =>
    simp [sends, Late, Quiet]

end Order

/-! ## The invariant -/

namespace Handshake

/-- The registration of the client has been accepted, or is not under way. -/
def NoRegister (s : Handshake) : Prop := .register ∉ s.up ∧ .register ∉ s.pending

/-- What the client has read in each phase, and where its own packets are. -/
def PhaseOk (s : Handshake) : ClientPhase → Prop
  | .start => s.up = [] ∧ s.pending = [] ∧ s.taken = [] ∧ s.sent = []
  | .waitAccept => s.taken = [] ∧
      (s.up = [.register] ∧ s.pending = [] ∧ s.sent = [] ∨ s.up = [] ∧ s.pending = [.register] ∧ s.sent = [] ∨
        s.NoRegister ∧ s.sent ≠ [])
  | .registered => (∃ i, s.taken = [.accept i]) ∧ s.NoRegister
  | .waitSync => (∃ i, s.taken = [.accept i]) ∧ s.NoRegister ∧
      (s.up ≠ [] ∨ (∃ tft, .sync tft ∈ s.pending) ∨ s.Replied)
  | .synced tft => (∃ i, s.taken = [.accept i, .sync tft]) ∧ s.NoRegister
  | .failed => (∃ i tft, s.taken = [.accept i, .broadcast tft]) ∧ s.NoRegister

end Handshake

/-- What holds in every reachable state: the `TRACKER_ACCEPT` comes first and once, and nothing but the registration
is under way before it. -/
structure Shaking (c : ℤ) (s : Handshake) : Prop where
  first : s.sent = [] ∨ ∃ i rest, s.sent = .accept i :: rest ∧ ∀ j, .accept j ∉ rest
  known : (s.tracker.Registered c ∨ .add ∈ s.pending ∨ (∃ tft, .sync tft ∈ s.pending) ∨ ∃ tft, .sync tft ∈ s.up) →
    s.sent ≠ []
  phase : s.PhaseOk s.phase

namespace Shaking

variable {ctrInfo : TtopControlInfo} {c : ℤ} {me : PeerId} {s : Handshake}

theorem start {t : Tracker} (h : ¬ t.Registered c) : Shaking c (.start t) := by
  refine ⟨Or.inl rfl, ?_, rfl, rfl, rfl, rfl⟩
  rintro (hreg | hadd | ⟨tft, hsync⟩ | ⟨tft, hsync⟩)
  · exact absurd hreg h
  · cases hadd
  · cases hsync
  · cases hsync

theorem first_append (h : Shaking c s) {new : List TtopPacket} (hnew : new ≠ [] → s.sent ≠ [])
    (hacc : ∀ j, .accept j ∉ new) :
    s.sent ++ new = [] ∨ ∃ i rest, s.sent ++ new = .accept i :: rest ∧ ∀ j, .accept j ∉ rest := by
  rcases h.first with hnil | ⟨i, rest, hsent, hrest⟩
  · have : new = [] := by
      by_contra hne
      exact hnew hne hnil
    rw [hnil, this]
    exact Or.inl rfl
  · refine Or.inr ⟨i, rest ++ new, by rw [hsent, List.cons_append], fun j hj => ?_⟩
    rcases List.mem_append.mp hj with hj | hj
    · exact hrest j hj
    · exact hacc j hj

theorem sendRegister (h : Shaking c s) (hph : s.phase = .start) :
    Shaking c { s with phase := .waitAccept, up := s.up ++ [.register] } := by
  have hphase := h.phase
  rw [hph] at hphase
  obtain ⟨hup, hpend, htaken, hsent⟩ := hphase
  refine ⟨h.first, ?_, htaken, Or.inl ⟨by rw [hup]; rfl, hpend, hsent⟩⟩
  rintro (hreg | hadd | hsync | ⟨tft, hsync⟩)
  · exact h.known (Or.inl hreg)
  · exact h.known (Or.inr (Or.inl hadd))
  · exact h.known (Or.inr (Or.inr (Or.inl hsync)))
  · rw [hup] at hsync
    simp at hsync

theorem sendSync (h : Shaking c s) (hph : s.phase = .registered) (tft : TransFileTable) :
    Shaking c { s with phase := .waitSync, up := s.up ++ [.sync tft] } := by
  have hphase := h.phase
  rw [hph] at hphase
  obtain ⟨⟨i, htaken⟩, hup, hpend⟩ := hphase
  refine ⟨h.first, fun _ => ?_, ⟨i, htaken⟩, ⟨?_, hpend⟩, Or.inl (by simp)⟩
  · simp [Handshake.sent, htaken]
  · simpa using hup

theorem recvAccept (h : Shaking c s) (hph : s.phase = .waitAccept) {s' : Handshake}
    (hs : s.recv afterAccept = some s') : Shaking c s' := by
  have hphase := h.phase
  rw [hph] at hphase
  obtain ⟨htaken, hreg⟩ := hphase
  have hsent := sent_recv hs
  unfold Handshake.recv at hs
  split at hs
  · cases hs
  · next p down hdown =>
    cases hs
    have hall : s.sent = p :: down := by rw [Handshake.sent, htaken, hdown, List.nil_append]
    have hne : s.sent ≠ [] := by simp [hall]
    obtain ⟨i, rest, hfirst, -⟩ := h.first.resolve_left hne
    obtain ⟨rfl, -⟩ := List.cons.inj (hall.symm.trans hfirst)
    have hno : s.NoRegister := by
      rcases hreg with ⟨-, -, hnil⟩ | ⟨-, -, hnil⟩ | ⟨hno, -⟩
      · exact absurd hnil hne
      · exact absurd hnil hne
      · exact hno
    refine ⟨hsent ▸ h.first, fun hk => hsent ▸ h.known hk, ⟨i, ?_⟩, hno⟩
    rw [htaken, List.nil_append]

theorem recvSync (h : Shaking c s) (hph : s.phase = .waitSync) {s' : Handshake}
    (hs : s.recv afterSync = some s') : Shaking c s' := by
  have hphase := h.phase
  rw [hph] at hphase
  obtain ⟨⟨i, htaken⟩, hno, -⟩ := hphase
  have hsent := sent_recv hs
  unfold Handshake.recv at hs
  split at hs
  · cases hs
  · next p down hdown =>
    cases hs
    have hall : s.sent = .accept i :: p :: down := by rw [Handshake.sent, htaken, hdown]; rfl
    have hne : s.sent ≠ [] := by simp [hall]
    obtain ⟨j, rest, hfirst, hrest⟩ := h.first.resolve_left hne
    obtain ⟨-, rfl⟩ := List.cons.inj (hall.symm.trans hfirst)
    refine ⟨hsent ▸ h.first, fun hk => hsent ▸ h.known hk, ?_⟩
    -- a second `TRACKER_ACCEPT` is out of the question
    cases p with
    | accept j => exact absurd List.mem_cons_self (hrest j)
    | sync tft => exact ⟨⟨i, by rw [htaken]; rfl⟩, hno⟩
    | broadcast tft => exact ⟨⟨i, tft, by rw [htaken]; rfl⟩, hno⟩

theorem receive (h : Shaking c s) {p : PtotPacket} {up : List PtotPacket} (hup : s.up = p :: up) :
    Shaking c { s with up := up, pending := s.pending ++ [p.task] } := by
  have hno : s.NoRegister → Handshake.NoRegister { s with up := up, pending := s.pending ++ [p.task] } := by
    rintro ⟨h1, h2⟩
    rw [hup, List.mem_cons, not_or] at h1
    refine ⟨h1.2, fun hmem => ?_⟩
    rcases List.mem_append.mp hmem with hmem | hmem
    · exact h2 hmem
    · cases p with
      | register => exact h1.1 rfl
      | sync tft => cases List.mem_singleton.mp hmem
  refine ⟨h.first, fun hk => h.known ?_, ?_⟩
  · rcases hk with hreg | hadd | ⟨tft, hsync⟩ | ⟨tft, hsync⟩
    · exact Or.inl hreg
    · rcases List.mem_append.mp hadd with hadd | hadd
      · exact Or.inr (Or.inl hadd)
      · cases p <;> cases List.mem_singleton.mp hadd
    · rcases List.mem_append.mp hsync with hsync | hsync
      · exact Or.inr (Or.inr (Or.inl ⟨tft, hsync⟩))
      · refine Or.inr (Or.inr (Or.inr ⟨tft, ?_⟩))
        cases p with
        | register => cases List.mem_singleton.mp hsync
        | sync tft' =>
          cases List.mem_singleton.mp hsync
          rw [hup]
          exact List.mem_cons_self
    · exact Or.inr (Or.inr (Or.inr ⟨tft, hup ▸ List.mem_cons_of_mem p hsync⟩))
  · have hphase := h.phase
    change Handshake.PhaseOk _ s.phase
    cases hph : s.phase with
    | start =>
      rw [hph] at hphase
      rw [hphase.1] at hup
      cases hup
    | waitAccept =>
      rw [hph] at hphase
      obtain ⟨htaken, hreg⟩ := hphase
      refine ⟨htaken, ?_⟩
      rcases hreg with ⟨h1, h2, h3⟩ | ⟨h1, -, -⟩ | ⟨h1, h2⟩
      · obtain ⟨rfl, rfl⟩ := List.cons.inj (hup.symm.trans h1)
        exact Or.inr (Or.inl ⟨rfl, by rw [h2]; rfl, h3⟩)
      · rw [h1] at hup
        cases hup
      · exact Or.inr (Or.inr ⟨hno h1, h2⟩)
    | registered =>
      rw [hph] at hphase
      exact ⟨hphase.1, hno hphase.2⟩
    | waitSync =>
      rw [hph] at hphase
      refine ⟨hphase.1, hno hphase.2.1, Or.inr (Or.inl ?_)⟩
      cases p with
      | register => exact absurd (hup ▸ List.mem_cons_self) hphase.2.1.1
      | sync tft => exact ⟨tft, List.mem_append_right _ (List.mem_singleton_self _)⟩
    | synced tft =>
      rw [hph] at hphase
      exact ⟨hphase.1, hno hphase.2⟩
    | failed =>
      rw [hph] at hphase
      exact ⟨hphase.1, hno hphase.2⟩

/-- While the registration waits to run, nothing else has happened. -/
theorem register_pending (h : Shaking c s) (hmem : .register ∈ s.pending) :
    s.phase = .waitAccept ∧ s.up = [] ∧ s.pending = [.register] ∧ s.taken = [] ∧ s.down = [] := by
  have hphase := h.phase
  have hno : ¬ s.NoRegister := fun hno => hno.2 hmem
  cases hph : s.phase with
  | start =>
    obtain ⟨-, hnil, -⟩ : s.PhaseOk .start := hph ▸ hphase
    rw [hnil] at hmem
    cases hmem
  | waitAccept =>
    obtain ⟨htaken, ⟨-, hnil, -⟩ | ⟨hup, hpend, hsent⟩ | ⟨h1, -⟩⟩ : s.PhaseOk .waitAccept := hph ▸ hphase
    · rw [hnil] at hmem
      cases hmem
    · exact ⟨rfl, hup, hpend, htaken, (List.append_eq_nil_iff.mp hsent).2⟩
    · exact absurd h1 hno
  | registered => exact absurd (hph ▸ hphase).2 hno
  | waitSync => exact absurd (hph ▸ hphase).2.1 hno
  | synced tft => exact absurd (hph ▸ hphase).2 hno
  | failed => exact absurd (hph ▸ hphase).2 hno

theorem sendAccept (h : Shaking c s) (hmem : .register ∈ s.pending) (ctrInfo : TtopControlInfo) :
    Shaking c { s with down := s.down ++ [.accept ctrInfo], pending := s.pending.erase .register ++ [.add] } := by
  obtain ⟨hph, hup, hpend, htaken, hdown⟩ := h.register_pending hmem
  have hsent : Handshake.sent { s with
      down := s.down ++ [.accept ctrInfo], pending := s.pending.erase .register ++ [.add] } = [.accept ctrInfo] := by
    simp [Handshake.sent, htaken, hdown]
  refine ⟨Or.inr ⟨ctrInfo, [], hsent, fun j => List.not_mem_nil⟩, fun _ => ?_, ?_⟩
  · rw [hsent]
    exact List.cons_ne_nil _ _
  rw [hph]
  refine ⟨htaken, Or.inr (Or.inr ⟨⟨?_, ?_⟩, ?_⟩)⟩
  · simp [hup]
  · simp [hpend]
  · simp [Handshake.sent]

/-- A step of the tracker after the registration: the client stays where it is, at most one task has run, and the
packets it sends are no `TRACKER_ACCEPT`. -/
theorem keep (h : Shaking c s) {s' : Handshake} {new : List TtopPacket} (hph : s'.phase = s.phase)
    (hup : s'.up = s.up) (htaken : s'.taken = s.taken) (hsent : s'.sent = s.sent ++ new)
    (hnew : new ≠ [] → s.sent ≠ []) (hacc : ∀ j, .accept j ∉ new)
    (hreg : s'.tracker.Registered c → s.sent ≠ [])
    (hpend : s'.pending = s.pending ∨ ∃ task ∈ s.pending, task ≠ .register ∧ s'.pending = s.pending.erase task ∧
      ((∃ tft, task = .sync tft) → s'.Replied)) : Shaking c s' := by
  have hsub : ∀ task ∈ s'.pending, task ∈ s.pending := by
    intro task htask
    rcases hpend with heq | ⟨_, _, _, heq, _⟩
    · exact heq ▸ htask
    · exact List.mem_of_mem_erase (heq ▸ htask)
  have hno : s.NoRegister → s'.NoRegister := fun hno => ⟨hup ▸ hno.1, fun hmem => hno.2 (hsub _ hmem)⟩
  have hgrow : s.sent ≠ [] → s'.sent ≠ [] := fun hne => by
    rw [hsent]
    exact List.append_ne_nil_of_left_ne_nil hne new
  have hnil : s.sent = [] → s'.sent = [] := fun hnil => by
    rw [hsent, hnil, List.nil_append]
    by_contra hne
    exact hnew hne hnil
  -- before the `TRACKER_ACCEPT` there is no task but the registration
  have hsame : (∀ task ∈ s.pending, task = .register) → s'.pending = s.pending := by
    intro hall
    rcases hpend with heq | ⟨task, htask, hne, -⟩
    · exact heq
    · exact absurd (hall task htask) hne
  refine ⟨?_, fun hk => hgrow ?_, ?_⟩
  · rw [hsent]
    exact h.first_append hnew hacc
  · rcases hk with hk | hk | ⟨tft, hk⟩ | ⟨tft, hk⟩
    · exact hreg hk
    · exact h.known (Or.inr (Or.inl (hsub _ hk)))
    · exact h.known (Or.inr (Or.inr (Or.inl ⟨tft, hsub _ hk⟩)))
    · exact h.known (Or.inr (Or.inr (Or.inr ⟨tft, hup ▸ hk⟩)))
  · have hphase := h.phase
    rw [hph]
    cases hp : s.phase with
    | start =>
      obtain ⟨h1, h2, h3, h4⟩ : s.PhaseOk .start := hp ▸ hphase
      exact ⟨hup.trans h1, (hsame (by simp [h2])).trans h2, htaken.trans h3, hnil h4⟩
    | waitAccept =>
      obtain ⟨h1, h2⟩ : s.PhaseOk .waitAccept := hp ▸ hphase
      refine ⟨htaken.trans h1, ?_⟩
      rcases h2 with ⟨h2, h3, h4⟩ | ⟨h2, h3, h4⟩ | ⟨h2, h3⟩
      · exact Or.inl ⟨hup.trans h2, (hsame (by simp [h3])).trans h3, hnil h4⟩
      · exact Or.inr (Or.inl ⟨hup.trans h2, (hsame (by simp [h3])).trans h3, hnil h4⟩)
      · exact Or.inr (Or.inr ⟨hno h2, hgrow h3⟩)
    | registered =>
      obtain ⟨h1, h2⟩ : s.PhaseOk .registered := hp ▸ hphase
      exact ⟨htaken ▸ h1, hno h2⟩
    | waitSync =>
      obtain ⟨h1, h2, h3⟩ : s.PhaseOk .waitSync := hp ▸ hphase
      refine ⟨htaken ▸ h1, hno h2, ?_⟩
      rcases h3 with h3 | ⟨tft, h3⟩ | ⟨tft, h3⟩
      · exact Or.inl (hup ▸ h3)
      · rcases hpend with heq | ⟨task, -, -, heq, hrep⟩
        · exact Or.inr (Or.inl ⟨tft, heq ▸ h3⟩)
        · by_cases htask : task = .sync tft
          · exact Or.inr (Or.inr (hrep ⟨tft, htask⟩))
          · exact Or.inr (Or.inl ⟨tft, heq ▸ (List.mem_erase_of_ne (Ne.symm htask)).mpr h3⟩)
      · exact Or.inr (Or.inr ⟨tft, hsent ▸ List.mem_append_left new h3⟩)
    | synced tft =>
      obtain ⟨h1, h2⟩ : s.PhaseOk (.synced tft) := hp ▸ hphase
      exact ⟨htaken ▸ h1, hno h2⟩
    | failed =>
      obtain ⟨h1, h2⟩ : s.PhaseOk .failed := hp ▸ hphase
      exact ⟨htaken ▸ h1, hno h2⟩

theorem step (h : Shaking c s) {e : HandshakeEvent} {s' : Handshake}
    (hs : (handshaking ctrInfo c me).step s e = some s') : Shaking c s' := by
  have hsent := sent_step hs
  cases e with
  | sendRegister =>
    simp only [handshaking, handshakeStep] at hs
    split_ifs at hs with hg
    cases hs
    exact h.sendRegister hg
  | recvAccept =>
    simp only [handshaking, handshakeStep] at hs
    split_ifs at hs with hg
    exact h.recvAccept hg hs
  | sendSync tft =>
    simp only [handshaking, handshakeStep] at hs
    split_ifs at hs with hg
    cases hs
    exact h.sendSync hg tft
  | recvSync =>
    simp only [handshaking, handshakeStep] at hs
    split_ifs at hs with hg
    exact h.recvSync hg hs
  | receive =>
    simp only [handshaking, handshakeStep] at hs
    split at hs
    · cases hs
    · next p up hup =>
      cases hs
      exact h.receive hup
  | sendAccept =>
    simp only [handshaking, handshakeStep] at hs
    split_ifs at hs with hg
    cases hs
    exact h.sendAccept hg ctrInfo
  | addPeer now =>
    simp only [handshaking, handshakeStep] at hs
    split_ifs at hs with hg
    cases hs
    have hne : s.sent ≠ [] := h.known (Or.inr (Or.inl hg))
    refine h.keep rfl rfl rfl hsent (fun _ => hne) (by simp [sends]) (fun _ => hne) (Or.inr ⟨.add, hg, by simp, rfl, ?_⟩)
    rintro ⟨tft, htft⟩
    cases htft
  | runSync tft =>
    simp only [handshaking, handshakeStep] at hs
    split_ifs at hs with hg
    cases hs
    have hne : s.sent ≠ [] := h.known (Or.inr (Or.inr (Or.inl ⟨tft, hg⟩)))
    refine h.keep rfl rfl rfl hsent (fun _ => hne) (by simp [sends]) (fun _ => hne)
      (Or.inr ⟨.sync tft, hg, by simp, rfl, fun _ => ?_⟩)
    exact ⟨_, hsent ▸ List.mem_append_right _ (List.mem_singleton_self _)⟩
  | other conn act =>
    simp only [handshaking, handshakeStep] at hs
    split_ifs at hs with hne
    cases hs
    refine h.keep rfl rfl rfl hsent (fun hnil => ?_) (fun j hj => ?_) (fun hreg => ?_) (Or.inl rfl)
    · obtain ⟨p, hp⟩ := List.exists_mem_of_ne_nil _ hnil
      exact h.known (Or.inl (mem_packetsFor_perform ctrInfo hne act hp).2.2)
    · obtain ⟨⟨tft, htft⟩, -⟩ := mem_packetsFor_perform ctrInfo hne act hj
      cases htft
    · exact h.known (Or.inl ((registered_perform ctrInfo hne act).mp hreg))

/-- When `sync_files` has returned, it has the reply and no broadcast was read instead, if and only if no broadcast
came before the reply. -/
theorem returned_iff (h : Shaking c s) (hret : s.phase.Returned) :
    ((∃ tft, s.phase = .synced tft) ∧ ∀ tft, .broadcast tft ∉ s.taken) ↔ Late s.sent := by
  have hphase := h.phase
  cases hp : s.phase with
  | synced tft =>
    obtain ⟨⟨i, htaken⟩, -⟩ : s.PhaseOk (.synced tft) := hp ▸ hphase
    simp [Handshake.sent, htaken, Late]
  | failed =>
    obtain ⟨⟨i, tft, htaken⟩, -⟩ : s.PhaseOk .failed := hp ▸ hphase
    simp [Handshake.sent, htaken, Late]
  | start | waitAccept | registered | waitSync =>
    rw [hp] at hret
    exact absurd hret id

end Shaking

/-! ## Progress -/

/-- The steps of the client and of the tracker's tasks for it. -/
def HandshakeEvent.Own : HandshakeEvent → Prop
  | .other _ _ => False
  | _ => True

/-- How far the client still has to go. -/
def ClientPhase.left : ClientPhase → ℕ
  | .start => 20
  | .waitAccept => 16
  | .registered => 12
  | .waitSync => 8
  | .synced _ => 0
  | .failed => 0

/-- What a task still has to do. -/
def HandshakeTask.left : HandshakeTask → ℕ
  | .register => 2
  | .add => 0
  | .sync _ => 2

/-- The steps that the client's own packets and answers still need, at most. -/
def Handshake.left (s : Handshake) : ℕ :=
  s.phase.left + 3 * s.up.length + (s.pending.map HandshakeTask.left).sum

section Progress
variable {ctrInfo : TtopControlInfo} {c : ℤ} {me : PeerId} {s : Handshake}

theorem left_erase {task : HandshakeTask} {l : List HandshakeTask} (h : task ∈ l) :
    ((l.erase task).map HandshakeTask.left).sum + task.left = (l.map HandshakeTask.left).sum := by
  have hperm := (List.perm_cons_erase h).map HandshakeTask.left
  rw [hperm.sum_eq, List.map_cons, List.sum_cons, Nat.add_comm]

theorem recv_left (phase : TtopPacket → ClientPhase) (hdown : s.down ≠ [])
    (hlt : ∀ p, (phase p).left < s.phase.left) : ∃ s', s.recv phase = some s' ∧ s'.left < s.left := by
  obtain ⟨p, down, heq⟩ := List.exists_cons_of_ne_nil hdown
  refine ⟨{ s with down := down, taken := s.taken ++ [p], phase := phase p }, by rw [Handshake.recv, heq], ?_⟩
  have := hlt p
  simp only [Handshake.left]
  omega

theorem Shaking.progress (h : Shaking c s) (hret : ¬ s.phase.Returned) :
    ∃ e s', e.Own ∧ (handshaking ctrInfo c me).step s e = some s' ∧ Shaking c s' ∧ s'.left < s.left := by
  -- it is enough to find the step: every step keeps the invariant
  suffices hstep : ∃ e s', e.Own ∧ (handshaking ctrInfo c me).step s e = some s' ∧ s'.left < s.left by
    obtain ⟨e, s', hown, hs, hlt⟩ := hstep
    exact ⟨e, s', hown, hs, h.step hs, hlt⟩
  have hphase := h.phase
  have hreceive : s.up ≠ [] → ∃ e s', e.Own ∧ (handshaking ctrInfo c me).step s e = some s' ∧ s'.left < s.left := by
    intro hup
    obtain ⟨p, up, heq⟩ := List.exists_cons_of_ne_nil hup
    refine ⟨.receive, { s with up := up, pending := s.pending ++ [p.task] }, trivial, ?_, ?_⟩
    · simp only [handshaking, handshakeStep, heq]
    · have htask : p.task.left = 2 := by cases p <;> rfl
      simp only [Handshake.left, heq, List.length_cons, List.map_append, List.sum_append, List.map_cons, List.map_nil,
        List.sum_cons, List.sum_nil, htask]
      omega
  cases hp : s.phase with
  | start =>
    refine ⟨.sendRegister, _, trivial, if_pos hp, ?_⟩
    simp only [Handshake.left, hp, ClientPhase.left, List.length_append, List.length_singleton]
    omega
  | waitAccept =>
    obtain ⟨htaken, ⟨hup, -⟩ | ⟨-, hpend, -⟩ | ⟨-, hsent⟩⟩ : s.PhaseOk .waitAccept := hp ▸ hphase
    · exact hreceive (by simp [hup])
    · have hmem : .register ∈ s.pending := by simp [hpend]
      refine ⟨.sendAccept, _, trivial, if_pos hmem, ?_⟩
      have := left_erase hmem
      simp only [HandshakeTask.left] at this
      simp only [Handshake.left, List.map_append, List.sum_append, List.map_cons, List.map_nil, List.sum_cons,
        List.sum_nil, HandshakeTask.left]
      omega
    · have hdown : s.down ≠ [] := by
        rwa [Handshake.sent, htaken, List.nil_append] at hsent
      have hleft : ∀ p, (afterAccept p).left < s.phase.left := by
        intro p
        cases p <;> simp [afterAccept, hp, ClientPhase.left]
      obtain ⟨s', hs, hlt⟩ := recv_left afterAccept hdown hleft
      exact ⟨.recvAccept, s', trivial, (if_pos hp).trans hs, hlt⟩
  | registered =>
    refine ⟨.sendSync [], _, trivial, if_pos hp, ?_⟩
    simp only [Handshake.left, hp, ClientPhase.left, List.length_append, List.length_singleton]
    omega
  | waitSync =>
    obtain ⟨⟨i, htaken⟩, -, hup | ⟨tft, hmem⟩ | ⟨tft, hmem⟩⟩ : s.PhaseOk .waitSync := hp ▸ hphase
    · exact hreceive hup
    · refine ⟨.runSync tft, _, trivial, if_pos hmem, ?_⟩
      have := left_erase hmem
      simp only [HandshakeTask.left] at this
      simp only [Handshake.left]
      omega
    · have hdown : s.down ≠ [] := by
        intro hnil
        rw [Handshake.sent, htaken, hnil] at hmem
        simp at hmem
      have hleft : ∀ p, (afterSync p).left < s.phase.left := by
        intro p
        cases p <;> simp [afterSync, hp, ClientPhase.left]
      obtain ⟨s', hs, hlt⟩ := recv_left afterSync hdown hleft
      exact ⟨.recvSync, s', trivial, (if_pos hp).trans hs, hlt⟩
  | synced tft => exact absurd (hp ▸ trivial) hret
  | failed => exact absurd (hp ▸ trivial) hret

end Progress

/-- **The start-up handshake.** From every state of the tracker and through every interleaving with other peers:
when `sync_files` returns, the packet it read for the reply is the `TRACKER_SYNC` and no broadcast was lost if and
only if nothing was broadcast between the moment the client was in the peer table and the moment the reply was sent;
and as long as it has not returned, steps of the client and of its own tasks bring it there. -/
theorem handshake_succeeds_iff (ctrInfo : TtopControlInfo) (c : ℤ) (hc : 0 ≤ c) (me : PeerId) (t : Tracker)
    (hnew : ¬ t.Registered c) (es : List HandshakeEvent) (s : Handshake)
    (hrun : (handshaking ctrInfo c me).run (.start t) es = some s) :
    (s.phase.Returned → (((∃ tft, s.phase = .synced tft) ∧ ∀ tft, .broadcast tft ∉ s.taken) ↔
        (handshaking ctrInfo c me).RunMeets (Quiet c) (.start t) es)) ∧
      (¬ s.phase.Returned → ∃ es' s', (∀ e ∈ es', e.Own) ∧ (handshaking ctrInfo c me).run s es' = some s' ∧
        s'.phase.Returned) := by
  have hinv : Shaking c s :=
    System.run_invariant (I := Shaking c) (fun _ _ _ ht hstep => ht.step hstep) (Shaking.start hnew) hrun
  refine ⟨fun hret => ?_, fun _ => ?_⟩
  · have hlate : Late s.sent ↔
        Late (Handshake.start t).sent ∧ (handshaking ctrInfo c me).RunMeets (Quiet c) (.start t) es :=
      System.run_iff_runMeets (I := fun _ => True) (Q := fun s => Late s.sent) (fun _ _ _ _ _ => trivial)
        (fun _ _ _ _ hstep => late_step_iff hc hstep) trivial hrun
    rw [hinv.returned_iff hret, hlate]
    exact and_iff_right trivial
  · have hwork : ∀ s : Handshake, Shaking c s → ¬ s.phase.Returned → ∃ e s', HandshakeEvent.Own e ∧
        (handshaking ctrInfo c me).step s e = some s' ∧ Shaking c s' ∧ s'.left < s.left :=
      fun s hs hnot => hs.progress hnot
    obtain ⟨es', s', hown, hrun', -, hret⟩ := System.exists_run_within Handshake.left hwork hinv
    exact ⟨es', s', hown, hrun', hret⟩

/-- Another peer reports a file right after the reply: the client gets its reply, the broadcast comes behind it. -/
theorem handshake_succeeds_update_after :
    let f : Name := ⟨[102], by decide, by decide⟩
    let add : TransFileTable := [⟨f, 5, .fileAdd, .regular, [⟨8, P2P_PORT⟩]⟩]
    let t : Tracker := ⟨fileTableInit, [⟨2, 0, ⟨8, P2P_PORT⟩⟩]⟩
    let es : List HandshakeEvent := [.sendRegister, .receive, .sendAccept, .addPeer 0, .recvAccept, .sendSync [], .receive,
      .runSync [], .other 2 (.update add), .recvSync]
    ∃ s, (handshaking ⟨1, 1⟩ 1 ⟨7, P2P_PORT⟩).run (.start t) es = some s ∧ s.phase = .synced [] ∧
      s.down = [.broadcast add] ∧ (handshaking ⟨1, 1⟩ 1 ⟨7, P2P_PORT⟩).RunMeets (Quiet 1) (.start t) es := by
  intro f add t es
  have hlast : ((handshaking ⟨1, 1⟩ 1 ⟨7, P2P_PORT⟩).run (.start t) es).map (fun s => (s.phase, s.taken, s.down)) =
      some (.synced [], [.accept ⟨1, 1⟩, .sync []], [.broadcast add]) := by decide +kernel
  obtain ⟨s, hrun, hs⟩ := Option.map_eq_some_iff.mp hlast
  simp only [Prod.mk.injEq] at hs
  obtain ⟨hphase, htaken, hdown⟩ := hs
  have hiff := (handshake_succeeds_iff ⟨1, 1⟩ 1 (by decide) ⟨7, P2P_PORT⟩ t (by decide) es s hrun).1
    (by rw [hphase]; trivial)
  exact ⟨s, hrun, hphase, hdown, hiff.mp ⟨⟨_, hphase⟩, by simp [htaken]⟩⟩

/-- The same report before the reply: the client takes the broadcast for the reply and gives up. -/
theorem handshake_fails_update_before :
    let f : Name := ⟨[102], by decide, by decide⟩
    let add : TransFileTable := [⟨f, 5, .fileAdd, .regular, [⟨8, P2P_PORT⟩]⟩]
    let t : Tracker := ⟨fileTableInit, [⟨2, 0, ⟨8, P2P_PORT⟩⟩]⟩
    let es : List HandshakeEvent := [.sendRegister, .receive, .sendAccept, .addPeer 0, .recvAccept, .sendSync [], .receive,
      .other 2 (.update add), .runSync [], .recvSync]
    ∃ s, (handshaking ⟨1, 1⟩ 1 ⟨7, P2P_PORT⟩).run (.start t) es = some s ∧ s.phase = .failed ∧
      .broadcast add ∈ s.taken := by
  intro f add t es
  have hlast : ((handshaking ⟨1, 1⟩ 1 ⟨7, P2P_PORT⟩).run (.start t) es).map (fun s => (s.phase, s.taken)) =
      some (.failed, [.accept ⟨1, 1⟩, .broadcast add]) := by decide +kernel
  obtain ⟨s, hrun, hs⟩ := Option.map_eq_some_iff.mp hlast
  simp only [Prod.mk.injEq] at hs
  exact ⟨s, hrun, hs.1, by simp [hs.2]⟩

end TeleSync
