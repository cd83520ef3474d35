import TeleSync.Client.Tasks
import TeleSync.Sync.Joined
import TeleSync.Sync.PacketBytes

/-!
# Tracker and clients over the bytes of their connections

The threads and clients of `Sync/Threads`, with a byte channel in each direction of a connection for the packets under
way: senders fill packets from memory and send them buffer by buffer, receivers read segments and take them apart.

* `WiredCluster`, `WireEvent`, `wiredCluster` : the system;
* `WireOrderly` : what a run respects, beside `Orderly`: packets that fit and have no end marker in them, and no two of
  them mixed on a connection;
* `Images` : the bytes stand for the packets of a `Cluster`, and `Images.step` : they do so after each step.
-/

namespace TeleSync.Threads
open Memory Transition Channel

/-! ## The system -/

/-- The tracker with its threads, the clients, and both directions of each connection. -/
structure WiredCluster where
  tracker : Tracker
  threads : List Thread
  phase : ℤ → ClientPhase
  peerFt : ℤ → FileTable
  myIp : ℤ → UInt32
  up : ℤ → Channel
  down : ℤ → Channel

/-- The bytes of a packet. -/
def ttopBytes (pkt : Mem) : Bytes := slice pkt 0 (ttopPacket.packetLen pkt)

def ptotBytes (pkt : Mem) : Bytes := slice pkt 0 (ptotPacket.packetLen pkt)

/-- The memory has the table that the packet is to carry, if it is to carry one. -/
def TtopFrom (t : Mem) : TtopPacket → Prop
  | .accept _ => True
  | .broadcast tft => HoldsTable t tft
  | .sync tft => HoldsTable t tft

instance decidableHoldsTable (t : Mem) (tft : TransFileTable) : Decidable (HoldsTable t tft) :=
  decidable_of_iff (tableN t = tft.length ∧ ∀ i < tft.length, transEntryAt t i = tft[i]?) (by
    constructor
    · rintro ⟨hn, hentries⟩
      refine ⟨hn, fun i te hi => ?_⟩
      obtain ⟨hlt, -⟩ := List.getElem?_eq_some_iff.mp hi
      rw [hentries i hlt, hi]
    · rintro ⟨hn, hentries⟩
      exact ⟨hn, fun i hi => (hentries i _ (List.getElem?_eq_getElem hi)).trans (List.getElem?_eq_getElem hi).symm⟩)

instance (t : Mem) : (p : TtopPacket) → Decidable (TtopFrom t p)
  | .accept _ => isTrue trivial
  | .broadcast tft => decidableHoldsTable t tft
  | .sync tft => decidableHoldsTable t tft

namespace WiredCluster

/-- Before any client has come. -/
def start : WiredCluster :=
  ⟨⟨fileTableInit, []⟩, [], fun _ => .absent, fun _ => fileTableInit, fun _ => 0, fun _ => .idle, fun _ => .idle⟩

def client (w : WiredCluster) (conn : ℤ) (phase : ClientPhase) (ft : FileTable) : WiredCluster :=
  { w with phase := Function.update w.phase conn phase, peerFt := Function.update w.peerFt conn ft }

/-- A client comes to `send_ptot_packet`. -/
def send (w : WiredCluster) (conn : ℤ) (pkt : Mem) : WiredCluster :=
  { w with up := Function.update w.up conn ((w.up conn).put (ptotBytes pkt)) }

/-- Thread `i` has made a step, and comes to `send_ttop_packet` for what it sends. -/
def moved (w : WiredCluster) (i : ℕ) (a : Advance) (pkt t : Mem) : WiredCluster :=
  { w with
    tracker := a.tracker
    threads := w.threads.eraseIdx i ++ a.rest.toList
    down := fun c => (packetsFor c a.sent).foldl (fun ch p => ch.put (ttopBytes (ttopImage pkt t p))) (w.down c) }

/-- `connect_tracker` and the first packet of `register_to_tracker`. -/
def connect (w : WiredCluster) (conn : ℤ) (ip : UInt32) : WiredCluster :=
  { w with phase := Function.update w.phase conn .connecting, myIp := Function.update w.myIp conn ip }.send conn
    (ptotPacketInit ip .register)

/-- The client handles the entry that it has at hand, or reads a packet over `pkt`, with its data going to `dst`. -/
def receive (w : WiredCluster) (conn : ℤ) (pkt dst : Mem) : Option WiredCluster :=
  match w.phase conn with
  | .syncing (te :: tft) =>
    some (w.client conn (.syncing tft) (fileTableSyncEntry (w.myIp conn) (w.peerFt conn) te).1)
  | .syncing [] => some (w.client conn .running (w.peerFt conn))
  | .handling (te :: tft) =>
    some (w.client conn (.handling tft) (broadcastEntryHandler (w.myIp conn) (w.peerFt conn) te).1)
  | .handling [] => some (w.client conn .running (w.peerFt conn))
  | phase =>
    ((w.down conn).recv ttopPacket pkt).bind fun r =>
      (ttopPacketAt dst r.1).bind fun p =>
        (phase.take p).map fun phase' =>
          { w with down := Function.update w.down conn r.2 }.client conn phase' (w.peerFt conn)

/-- The same with no packet under way. -/
def packets (w : WiredCluster) (up : List (ℤ × ClientPacket)) (down : ℤ → List TtopPacket) : Cluster :=
  ⟨w.tracker, up, w.threads, down, w.phase, w.peerFt, w.myIp⟩

/-- Nothing is under way and no thread runs; no client is in the middle of a packet. -/
def Quiescent (w : WiredCluster) : Prop :=
  (∀ c, (w.up c).Empty) ∧ w.threads = [] ∧ ∀ c, (w.phase c).Joined → (w.down c).Empty ∧ w.phase c = .running

end WiredCluster

/-- The events of `ClusterEvent`, with the memory that packets are filled from and read into, and the `send()` calls. -/
inductive WireEvent where
  | connect (conn : ℤ) (ip : UInt32)
  | scan (conn : ℤ) (ft : FileTable) (t : Mem)
  | report (conn : ℤ) (tft : TransFileTable) (t : Mem)
  | announce (conn : ℤ) (fe : FileEntry) (t : Mem)
  /-- `receiver_task` reads a packet and starts the thread for it -/
  | start (conn : ℤ) (pkt : Mem)
  | step (i : ℕ) (now : BitVec 64) (pkt t : Mem)
  | skip (i : ℕ) (n : ℕ)
  | receive (conn : ℤ) (pkt dst : Mem)
  /-- a `send()` of a client, for its packet `k` that is not out -/
  | pushUp (conn : ℤ) (k : ℕ)
  | pushDown (conn : ℤ) (k : ℕ)

/-- The packet of `file_monitor_task`. -/
def reportImage (myIp : UInt32) (t : Mem) : Mem := ptotPacketFill (ptotPacketInit myIp .fileUpdate) t (transTableLen t)

/-- The packet of `sync_files`. -/
def syncImage (myIp : UInt32) (t : Mem) : Mem := ptotPacketFill (ptotPacketInit myIp .sync) t (transTableLen t)

def wiredCluster (ctrInfo : TtopControlInfo) : System WiredCluster WireEvent where
  step w
    | .connect conn ip => if w.phase conn = .absent then some (w.connect conn ip) else none
    | .scan conn ft t =>
      if w.phase conn = .accepted ∧ HoldsTable t (transTableFillFrom ft) then
        some ((w.client conn .waiting ft).send conn (syncImage (w.myIp conn) t))
      else none
    | .report conn tft t =>
      if (w.phase conn).Joined ∧ HoldsTable t tft then
        some ((w.client conn (w.phase conn) (tft.foldl eventTableUpdate (w.peerFt conn))).send conn
          (reportImage (w.myIp conn) t))
      else none
    | .announce conn fe t =>
      if (w.phase conn).Joined ∧ fileTableSearch (w.peerFt conn) fe.name = some fe ∧
          HoldsTable t [notifyTrackerAddMe (w.myIp conn) fe.name fe.toFileRecord] then
        some (w.send conn (reportImage (w.myIp conn) t))
      else none
    | .start conn pkt =>
      ((w.up conn).recv ptotPacket pkt).bind fun r =>
        (clientPacketAt r.1).map fun p =>
          { w with up := Function.update w.up conn r.2, threads := w.threads ++ [p.thread conn] }
    | .step i now pkt t =>
      w.threads[i]?.bind fun th =>
        (th.advance ctrInfo w.tracker now).bind fun a =>
          if ∀ q ∈ a.sent, TtopFrom t q.2 then some (w.moved i a pkt t) else none
    | .skip i n => w.threads[i]?.bind fun th => (th.skip w.tracker n).map fun a => w.moved i a zeroed zeroed
    | .receive conn pkt dst => w.receive conn pkt dst
    | .pushUp conn k => ((w.up conn).push k).map fun ch => { w with up := Function.update w.up conn ch }
    | .pushDown conn k => ((w.down conn).push k).map fun ch => { w with down := Function.update w.down conn ch }

/-- No end marker is in the bytes. -/
def Unmarked (bs : Bytes) : Prop := ¬ endMarker <:+: bs

/-- The steps are those of an orderly run; each packet that is filled fits, and its bytes have no end marker among them;
and the packets of a connection go out one after another. -/
def WireOrderly (ctrInfo : TtopControlInfo) (w : WiredCluster) : WireEvent → Prop
  | .connect _ ip => Unmarked (ptotBytes (ptotPacketInit ip .register))
  | .scan conn ft t =>
    ft.Wf ∧ InPacket (transTableFillFrom ft) ∧ Unmarked (ptotBytes (syncImage (w.myIp conn) t))
  | .report conn tft t =>
    LocalNews (w.peerFt conn) tft ∧ InPacket tft ∧ Unmarked (ptotBytes (reportImage (w.myIp conn) t))
  | .announce conn _ t => Unmarked (ptotBytes (reportImage (w.myIp conn) t))
  | .start conn pkt =>
    ∀ r tft, (w.up conn).recv ptotPacket pkt = some r → clientPacketAt r.1 = some (.sync tft) →
      w.tracker.Registered conn
  | .step i now pkt t =>
    Orderly (w.packets [] fun _ => []) (.step i now) ∧
      ∀ th a, w.threads[i]? = some th → th.advance ctrInfo w.tracker now = some a → ∀ q ∈ a.sent,
        InPacket (ttopTable q.2) ∧ Unmarked (ttopBytes (ttopImage pkt t q.2))
  | .pushUp conn k => (w.up conn).InTurn k
  | .pushDown conn k => (w.down conn).InTurn k
  | .skip _ _ => True
  | .receive _ _ _ => True

/-! ## The bytes stand for packets -/

/-- The packets to the tracker on connection `c`. -/
def packetsOf (c : ℤ) (up : List (ℤ × ClientPacket)) : List ClientPacket := (up.filter fun u => u.1 == c).map Prod.snd

/-- The channels have these packets under way. -/
structure Images (w : WiredCluster) (up : List (ℤ × ClientPacket)) (down : ℤ → List TtopPacket) : Prop where
  up : ∀ c, (w.up c).Holds ptotPacket IsPtot (packetsOf c up)
  down : ∀ c, (w.down c).Holds ttopPacket IsTtop (down c)

section Packets
variable {c conn : ℤ} {up : List (ℤ × ClientPacket)} {p : ClientPacket} {rest : List ClientPacket}

theorem packetsOf_append_self (conn : ℤ) (up : List (ℤ × ClientPacket)) (p : ClientPacket) :
    packetsOf conn (up ++ [(conn, p)]) = packetsOf conn up ++ [p] := by
  simp [packetsOf]

theorem packetsOf_append_of_ne (h : c ≠ conn) (up : List (ℤ × ClientPacket)) (p : ClientPacket) :
    packetsOf c (up ++ [(conn, p)]) = packetsOf c up := by
  have hne : (conn == c) = false := beq_eq_false_iff_ne.mpr h.symm
  simp [packetsOf, hne]

theorem packetsOf_cons_self (conn : ℤ) (p : ClientPacket) (up : List (ℤ × ClientPacket)) :
    packetsOf conn ((conn, p) :: up) = p :: packetsOf conn up := by
  simp [packetsOf]

theorem packetsOf_cons_of_ne (h : c ≠ conn) (p : ClientPacket) (up : List (ℤ × ClientPacket)) :
    packetsOf c ((conn, p) :: up) = packetsOf c up := by
  have hne : (conn == c) = false := beq_eq_false_iff_ne.mpr h.symm
  simp [packetsOf, hne]

/-- The first packet of a connection is under way, and taking it leaves the rest and the other connections. -/
theorem packetsOf_erase (h : packetsOf conn up = p :: rest) :
    (conn, p) ∈ up ∧ packetsOf conn (up.erase (conn, p)) = rest ∧
      ∀ c, c ≠ conn → packetsOf c (up.erase (conn, p)) = packetsOf c up := by
  induction up with
  | nil => simp [packetsOf] at h
  | cons u up ih =>
    obtain ⟨conn', q⟩ := u
    by_cases hconn : conn' = conn
    · subst hconn
      rw [packetsOf_cons_self, List.cons.injEq] at h
      obtain ⟨rfl, hrest⟩ := h
      rw [List.erase_cons_head]
      exact ⟨List.mem_cons_self, hrest, fun c hc => (packetsOf_cons_of_ne hc _ _).symm⟩
    · rw [packetsOf_cons_of_ne (Ne.symm hconn)] at h
      obtain ⟨hmem, hself, hother⟩ := ih h
      have hne : ¬ ((conn', q) == (conn, p)) = true := by
        rw [beq_iff_eq]
        exact fun heq => hconn (Prod.mk.inj heq).1
      rw [List.erase_cons_tail hne]
      refine ⟨List.mem_cons_of_mem _ hmem, ?_, fun c hc => ?_⟩
      · rw [packetsOf_cons_of_ne (Ne.symm hconn), hself]
      · by_cases hc' : c = conn'
        · subst hc'
          rw [packetsOf_cons_self, packetsOf_cons_self, hother c hc]
        · rw [packetsOf_cons_of_ne hc', packetsOf_cons_of_ne hc', hother c hc]

end Packets

section Steps
variable {ctrInfo : TtopControlInfo} {w w' : WiredCluster} {up : List (ℤ × ClientPacket)} {down : ℤ → List TtopPacket}
  {conn : ℤ}

theorem Images.send (h : Images w up down) {pkt : Mem} {p : ClientPacket} (hclean : Unmarked (ptotBytes pkt))
    (his : IsPtot pkt p) : Images (w.send conn pkt) (up ++ [(conn, p)]) down := by
  refine ⟨fun c => ?_, h.down⟩
  by_cases hc : c = conn
  · subst hc
    rw [packetsOf_append_self, WiredCluster.send]
    dsimp only
    rw [Function.update_self]
    exact (h.up c).put hclean his
  · rw [packetsOf_append_of_ne hc, WiredCluster.send]
    dsimp only
    rw [Function.update_of_ne hc]
    exact h.up c

theorem Images.moved (h : Images w up down) {i : ℕ} {a : Advance} {pkt t : Mem}
    (hsent : ∀ q ∈ a.sent, IsTtop (ttopImage pkt t q.2) q.2 ∧ Unmarked (ttopBytes (ttopImage pkt t q.2))) :
    Images (w.moved i a pkt t) up (fun c => down c ++ packetsFor c a.sent) := by
  refine ⟨h.up, fun c => ?_⟩
  have hput : ∀ (ps : List TtopPacket) (ch : Channel) (qs : List TtopPacket), ch.Holds ttopPacket IsTtop qs →
      (∀ p ∈ ps, IsTtop (ttopImage pkt t p) p ∧ Unmarked (ttopBytes (ttopImage pkt t p))) →
      (ps.foldl (fun ch p => ch.put (ttopBytes (ttopImage pkt t p))) ch).Holds ttopPacket IsTtop (qs ++ ps) := by
    intro ps
    induction ps with
    | nil =>
      intro ch qs hch _
      rwa [List.append_nil]
    | cons p ps ih =>
      intro ch qs hch hps
      rw [List.forall_mem_cons] at hps
      have hnext := ih _ _ (hch.put hps.1.2 hps.1.1) hps.2
      rwa [List.append_assoc, List.singleton_append] at hnext
  refine hput _ _ _ (h.down c) fun p hp => ?_
  obtain ⟨q, hq, rfl⟩ := List.mem_map.mp hp
  exact hsent q (List.mem_filter.mp hq).1

theorem Images.recvUp (h : Images w up down) {pkt m : Mem} {ch : Channel}
    (hrecv : (w.up conn).recv ptotPacket pkt = some (m, ch)) :
    ∃ p rest, packetsOf conn up = p :: rest ∧ clientPacketAt m = some p ∧ (conn, p) ∈ up ∧
      Images { w with up := Function.update w.up conn ch } (up.erase (conn, p)) down := by
  obtain ⟨img, p, rest, hfirst, his, hagree, hch⟩ := (h.up conn).recv hrecv
  obtain ⟨hmem, hself, hother⟩ := packetsOf_erase hfirst
  have hup : ∀ c, (Function.update w.up conn ch c).Holds ptotPacket IsPtot (packetsOf c (up.erase (conn, p))) := by
    refine (Function.forall_update_iff w.up fun c ch =>
      ch.Holds ptotPacket IsPtot (packetsOf c (up.erase (conn, p)))).mpr ⟨?_, fun c hc => ?_⟩
    · rwa [hself]
    · rw [hother c hc]
      exact h.up c
  exact ⟨p, rest, hfirst, his.clientPacketAt hagree, hmem, hup, h.down⟩

theorem Images.recvDown (h : Images w up down) {pkt m : Mem} {ch : Channel}
    (hrecv : (w.down conn).recv ttopPacket pkt = some (m, ch)) (dst : Mem) :
    ∃ p rest, down conn = p :: rest ∧ ttopPacketAt dst m = some p ∧
      Images { w with down := Function.update w.down conn ch } up (Function.update down conn rest) := by
  obtain ⟨img, p, rest, hfirst, his, hagree, hch⟩ := (h.down conn).recv hrecv
  refine ⟨p, rest, hfirst, his.ttopPacketAt hagree dst, h.up, fun c => ?_⟩
  by_cases hc : c = conn
  · subst hc
    dsimp only
    rw [Function.update_self, Function.update_self]
    exact hch
  · dsimp only
    rw [Function.update_of_ne hc, Function.update_of_ne hc]
    exact h.down c

theorem Images.pushUp (h : Images w up down) {k : ℕ} {ch : Channel} (hturn : (w.up conn).InTurn k)
    (hpush : (w.up conn).push k = some ch) : Images { w with up := Function.update w.up conn ch } up down := by
  have hup := (Function.forall_update_iff w.up fun c ch => ch.Holds ptotPacket IsPtot (packetsOf c up)).mpr
    ⟨(h.up conn).push hturn hpush, fun c _ => h.up c⟩
  exact ⟨hup, h.down⟩

theorem Images.pushDown (h : Images w up down) {k : ℕ} {ch : Channel} (hturn : (w.down conn).InTurn k)
    (hpush : (w.down conn).push k = some ch) : Images { w with down := Function.update w.down conn ch } up down := by
  have hdown := (Function.forall_update_iff w.down fun c ch => ch.Holds ttopPacket IsTtop (down c)).mpr
    ⟨(h.down conn).push hturn hpush, fun c _ => h.down c⟩
  exact ⟨h.up, hdown⟩

/-! ## Each step is one of packets -/

theorem holdsTable_nil : HoldsTable zeroed [] := ⟨by decide, fun i te h => by simp at h⟩

theorem inPacket_nil : InPacket [] := ⟨by decide, nofun, nofun⟩

theorem isTtop_image {pkt t : Mem} {p : TtopPacket} (hfrom : TtopFrom t p) (hin : InPacket (ttopTable p)) :
    IsTtop (ttopImage pkt t p) p := by
  cases p with
  | accept ctrInfo => exact ⟨hin, pkt, zeroed, holdsTable_nil, rfl⟩
  | broadcast tft => exact ⟨hin, pkt, t, hfrom, rfl⟩
  | sync tft => exact ⟨hin, pkt, t, hfrom, rfl⟩

theorem Images.connect (h : Images w up down) {ip : UInt32} (hclean : Unmarked (ptotBytes (ptotPacketInit ip .register))) :
    Images (w.connect conn ip) (up ++ [(conn, .register ⟨ip, P2P_PORT⟩)]) down := by
  have hself : Images
      { w with phase := Function.update w.phase conn .connecting, myIp := Function.update w.myIp conn ip } up down :=
    ⟨h.up, h.down⟩
  exact hself.send hclean ⟨inPacket_nil, ip, zeroed, holdsTable_nil, rfl, by rintro _ ⟨⟩; rfl⟩

theorem Images.scan (h : Images w up down) {ft : FileTable} {t : Mem} (ht : HoldsTable t (transTableFillFrom ft))
    (hin : InPacket (transTableFillFrom ft)) (hclean : Unmarked (ptotBytes (syncImage (w.myIp conn) t))) :
    Images ((w.client conn .waiting ft).send conn (syncImage (w.myIp conn) t))
      (up ++ [(conn, .sync (transTableFillFrom ft))]) down := by
  have hself : Images (w.client conn .waiting ft) up down := ⟨h.up, h.down⟩
  exact hself.send hclean ⟨hin, w.myIp conn, t, ht, rfl, by rintro _ ⟨⟩⟩

theorem Images.report (h : Images w up down) {tft : TransFileTable} {t : Mem} (ht : HoldsTable t tft) (hin : InPacket tft)
    (hclean : Unmarked (ptotBytes (reportImage (w.myIp conn) t))) (phase : ClientPhase) (ft : FileTable) :
    Images ((w.client conn phase ft).send conn (reportImage (w.myIp conn) t)) (up ++ [(conn, .update tft)]) down ∧
      Images (w.send conn (reportImage (w.myIp conn) t)) (up ++ [(conn, .update tft)]) down := by
  have hself : Images (w.client conn phase ft) up down := ⟨h.up, h.down⟩
  have his : IsPtot (reportImage (w.myIp conn) t) (.update tft) := ⟨hin, w.myIp conn, t, ht, rfl, by rintro _ ⟨⟩⟩
  exact ⟨hself.send hclean his, h.send hclean his⟩

theorem inPacket_notify (myIp : UInt32) (name : Name) (fe : FileRecord) : InPacket [notifyTrackerAddMe myIp name fe] := by
  refine ⟨show 1 ≤ 240 by decide, fun te hte => ?_, fun te hte => ?_⟩
  · obtain rfl := List.mem_singleton.mp hte
    exact show 1 ≤ MAX_PEER_ENTRIES by decide
  · obtain rfl := Option.some.inj hte
    exact show 1 < MAX_PEER_ENTRIES by decide

theorem exists_run_of_step {e : ClusterEvent} {s s' : Cluster} (hok : Orderly s e)
    (hs : (cluster ctrInfo).step s e = some s') (himg : ∃ up down, s' = w'.packets up down ∧ Images w' up down) :
    ∃ es t, (cluster ctrInfo).run s es = some t ∧ (cluster ctrInfo).RunMeets Orderly s es ∧
      ∃ up down, t = w'.packets up down ∧ Images w' up down :=
  ⟨[e], s', System.run_cons_eq_some.mpr ⟨s', hs, rfl⟩, ⟨hok, fun _ _ => trivial⟩, himg⟩

theorem Images.receive (h : Images w up down) {pkt dst : Mem} (hs : w.receive conn pkt dst = some w') :
    ∃ down', (w.packets up down).receive conn = some (w'.packets up down') ∧ Images w' up down' := by
  have hread : ∀ phase : ClientPhase, ((w.down conn).recv ttopPacket pkt).bind (fun r =>
        (ttopPacketAt dst r.1).bind fun p => (phase.take p).map fun phase' =>
          { w with down := Function.update w.down conn r.2 }.client conn phase' (w.peerFt conn)) = some w' →
      ∃ p rest phase', down conn = p :: rest ∧ phase.take p = some phase' ∧
        ((w.packets up down).read conn rest).client conn phase' (w.peerFt conn) =
          w'.packets up (Function.update down conn rest) ∧ Images w' up (Function.update down conn rest) := by
    intro phase hbind
    obtain ⟨⟨m, ch⟩, hrecv, hbind⟩ := Option.bind_eq_some_iff.mp hbind
    obtain ⟨p, hp, hbind⟩ := Option.bind_eq_some_iff.mp hbind
    obtain ⟨phase', htake, rfl⟩ := Option.map_eq_some_iff.mp hbind
    obtain ⟨p', rest, hfirst, hp', himg⟩ := h.recvDown hrecv dst
    obtain rfl : p' = p := Option.some.inj (hp'.symm.trans hp)
    exact ⟨p', rest, phase', hfirst, htake, rfl, himg.up, himg.down⟩
  have hphase : (w.packets up down).phase conn = w.phase conn := rfl
  have hdown : (w.packets up down).down conn = down conn := rfl
  unfold WiredCluster.receive at hs
  unfold Cluster.receive
  rw [hphase, hdown]
  cases hp : w.phase conn with
  | absent =>
    rw [hp] at hs
    obtain ⟨p, _, _, -, htake, -⟩ := hread .absent hs
    cases p <;> cases htake
  | accepted =>
    rw [hp] at hs
    obtain ⟨p, _, _, -, htake, -⟩ := hread .accepted hs
    cases p <;> cases htake
  | failed =>
    rw [hp] at hs
    obtain ⟨p, _, _, -, htake, -⟩ := hread .failed hs
    cases p <;> cases htake
  | connecting =>
    rw [hp] at hs
    obtain ⟨p, rest, phase', hfirst, htake, heq, himg⟩ := hread .connecting hs
    refine ⟨_, ?_, himg⟩
    rw [hfirst]
    dsimp only
    rw [htake, ← heq]
    rfl
  | waiting =>
    rw [hp] at hs
    obtain ⟨p, rest, phase', hfirst, htake, heq, himg⟩ := hread .waiting hs
    refine ⟨_, ?_, himg⟩
    rw [hfirst]
    dsimp only
    rw [htake, ← heq]
    rfl
  | running =>
    rw [hp] at hs
    obtain ⟨p, rest, phase', hfirst, htake, heq, himg⟩ := hread .running hs
    refine ⟨_, ?_, himg⟩
    rw [hfirst]
    dsimp only
    rw [htake, ← heq]
    rfl
  | syncing tft =>
    rw [hp] at hs
    cases tft with
    | nil =>
      cases hs
      exact ⟨down, rfl, h.up, h.down⟩
    | cons te tft =>
      cases hs
      exact ⟨down, rfl, h.up, h.down⟩
  | handling tft =>
    rw [hp] at hs
    cases tft with
    | nil =>
      cases hs
      exact ⟨down, rfl, h.up, h.down⟩
    | cons te tft =>
      cases hs
      exact ⟨down, rfl, h.up, h.down⟩

theorem sent_skip {tr : Tracker} {n : ℕ} {th : Thread} {a : Advance} (h : th.skip tr n = some a) : a.sent = [] := by
  unfold Thread.skip at h
  split at h
  · obtain ⟨-, h⟩ := Option.ite_none_right_eq_some.mp h
    obtain rfl := Option.some.inj h
    rfl
  · cases h

theorem Images.step (h : Images w up down) {e : WireEvent} (hok : WireOrderly ctrInfo w e)
    (hs : (wiredCluster ctrInfo).step w e = some w') :
    ∃ es t, (cluster ctrInfo).run (w.packets up down) es = some t ∧
      (cluster ctrInfo).RunMeets Orderly (w.packets up down) es ∧ ∃ up down, t = w'.packets up down ∧ Images w' up down := by
  cases e with
  | connect conn ip =>
    obtain ⟨habsent, hs⟩ := Option.ite_none_right_eq_some.mp hs
    obtain rfl := Option.some.inj hs
    exact exists_run_of_step (e := .connect conn ip) trivial (if_pos habsent) ⟨_, _, rfl, h.connect hok⟩
  | scan conn ft t =>
    obtain ⟨⟨haccepted, ht⟩, hs⟩ := Option.ite_none_right_eq_some.mp hs
    obtain rfl := Option.some.inj hs
    obtain ⟨hwf, hin, hclean⟩ := hok
    exact exists_run_of_step (e := .scan conn ft) hwf (if_pos haccepted) ⟨_, _, rfl, h.scan ht hin hclean⟩
  | report conn tft t =>
    obtain ⟨⟨hjoined, ht⟩, hs⟩ := Option.ite_none_right_eq_some.mp hs
    obtain rfl := Option.some.inj hs
    obtain ⟨hnews, hin, hclean⟩ := hok
    exact exists_run_of_step (e := .report conn tft) hnews (if_pos hjoined)
      ⟨_, _, rfl, (h.report ht hin hclean _ _).1⟩
  | announce conn fe t =>
    obtain ⟨⟨hjoined, hfound, ht⟩, hs⟩ := Option.ite_none_right_eq_some.mp hs
    obtain rfl := Option.some.inj hs
    exact exists_run_of_step (e := .announce conn fe) trivial (if_pos ⟨hjoined, hfound⟩)
      ⟨_, _, rfl, (h.report ht (inPacket_notify _ _ _) hok (w.phase conn) (w.peerFt conn)).2⟩
  | start conn pkt =>
    obtain ⟨⟨m, ch⟩, hrecv, hs⟩ := Option.bind_eq_some_iff.mp hs
    obtain ⟨p, hp, rfl⟩ := Option.map_eq_some_iff.mp hs
    obtain ⟨p', -, -, hp', hmem, himg⟩ := h.recvUp hrecv
    obtain rfl : p' = p := Option.some.inj (hp'.symm.trans hp)
    refine exists_run_of_step (e := .start conn p') ?_ (if_pos hmem) ⟨_, _, rfl, himg.up, himg.down⟩
    cases p' with
    | sync tft => exact hok _ tft hrecv hp
    | register peerid => trivial
    | update tft => trivial
  | step i now pkt t =>
    obtain ⟨th, hi, hs⟩ := Option.bind_eq_some_iff.mp hs
    obtain ⟨a, hadv, hs⟩ := Option.bind_eq_some_iff.mp hs
    obtain ⟨hfrom, hs⟩ := Option.ite_none_right_eq_some.mp hs
    obtain rfl := Option.some.inj hs
    obtain ⟨horderly, hfit⟩ := hok
    have himg : Images (w.moved i a pkt t) up _ := h.moved fun q hq =>
      ⟨isTtop_image (hfrom q hq) (hfit th a hi hadv q hq).1, (hfit th a hi hadv q hq).2⟩
    refine exists_run_of_step (e := .step i now) horderly ?_ ⟨_, _, rfl, himg⟩
    exact Option.bind_eq_some_iff.mpr ⟨th, hi, Option.map_eq_some_iff.mpr ⟨a, hadv, rfl⟩⟩
  | skip i n =>
    obtain ⟨th, hi, hs⟩ := Option.bind_eq_some_iff.mp hs
    obtain ⟨a, hadv, rfl⟩ := Option.map_eq_some_iff.mp hs
    have himg : Images (w.moved i a zeroed zeroed) up _ := h.moved fun q hq => by
      rw [sent_skip hadv] at hq
      cases hq
    refine exists_run_of_step (e := .skip i n) trivial ?_ ⟨_, _, rfl, himg⟩
    exact Option.bind_eq_some_iff.mpr ⟨th, hi, Option.map_eq_some_iff.mpr ⟨a, hadv, rfl⟩⟩
  | receive conn pkt dst =>
    obtain ⟨down', hstep, himg⟩ := h.receive hs
    exact exists_run_of_step (e := .receive conn) trivial hstep ⟨_, _, rfl, himg⟩
  | pushUp conn k =>
    obtain ⟨ch, hpush, rfl⟩ := Option.map_eq_some_iff.mp hs
    exact ⟨[], _, rfl, trivial, up, down, rfl, h.pushUp hok hpush⟩
  | pushDown conn k =>
    obtain ⟨ch, hpush, rfl⟩ := Option.map_eq_some_iff.mp hs
    exact ⟨[], _, rfl, trivial, up, down, rfl, h.pushDown hok hpush⟩

end Steps

end TeleSync.Threads
