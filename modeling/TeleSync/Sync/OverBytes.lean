import TeleSync.Sync.Wired

/-!
# Runs of bytes and runs of packets

* `Settled` : the bytes stand for the packets, and everything that was to be sent is out;
* `Carried` : what a run of packets respects so that bytes can carry it: each packet fits, and the bytes it is filled
  from have no end marker among them; the packets of a connection are read in the order they were sent;
* `Settled.run` : such a run is a run of bytes, in which each packet is sent out at once;
* `wired_cluster_converges` : and a run of bytes is one of packets, so that clients and tracker agree once nothing is
  under way.
-/

namespace TeleSync.Threads
open Memory Transition Channel

section Runs
variable {ctrInfo : TtopControlInfo} {w w' : WiredCluster} {up : List (ℤ × ClientPacket)} {down : ℤ → List TtopPacket}
  {conn : ℤ} {s s' : Cluster}

/-! ## Everything is out -/

structure Settled (w : WiredCluster) (up : List (ℤ × ClientPacket)) (down : ℤ → List TtopPacket) : Prop where
  images : Images w up down
  flushedUp : ∀ c, (w.up c).Flushed
  flushedDown : ∀ c, (w.down c).Flushed

/-- What a run of packets respects so that bytes can carry it. -/
def Carried (ctrInfo : TtopControlInfo) (s : Cluster) : ClusterEvent → Prop
  | .connect _ ip => Unmarked (ptotBytes (ptotPacketInit ip .register))
  | .scan conn ft =>
    ft.Wf ∧ InPacket (transTableFillFrom ft) ∧
      ∃ t, HoldsTable t (transTableFillFrom ft) ∧ Unmarked (ptotBytes (syncImage (s.myIp conn) t))
  | .report conn tft =>
    LocalNews (s.peerFt conn) tft ∧ InPacket tft ∧
      ∃ t, HoldsTable t tft ∧ Unmarked (ptotBytes (reportImage (s.myIp conn) t))
  | .announce conn fe =>
    ∃ t, HoldsTable t [notifyTrackerAddMe (s.myIp conn) fe.name fe.toFileRecord] ∧
      Unmarked (ptotBytes (reportImage (s.myIp conn) t))
  | .start conn p => (packetsOf conn s.up).head? = some p ∧ Orderly s (.start conn p)
  | .step i now =>
    Orderly s (.step i now) ∧
      ∀ th a, s.threads[i]? = some th → th.advance ctrInfo s.tracker now = some a → ∃ t, ∀ q ∈ a.sent,
        TtopFrom t q.2 ∧ InPacket (ttopTable q.2) ∧ Unmarked (ttopBytes (ttopImage zeroed t q.2))
  | .skip _ _ => True
  | .receive _ => True

/-- The bytes get to where everything is out and they stand for `s`. -/
def Reaches (ctrInfo : TtopControlInfo) (w : WiredCluster) (s : Cluster) : Prop :=
  ∃ es w', (wiredCluster ctrInfo).run w es = some w' ∧ (wiredCluster ctrInfo).RunMeets (WireOrderly ctrInfo) w es ∧
    ∃ up down, s = w'.packets up down ∧ Settled w' up down

theorem reaches_of_settled (h : Settled w up down) : Reaches ctrInfo w (w.packets up down) :=
  ⟨[], w, rfl, trivial, up, down, rfl, h⟩

theorem Reaches.of_step {e : WireEvent} (hok : WireOrderly ctrInfo w e) (hs : (wiredCluster ctrInfo).step w e = some w')
    (h : Reaches ctrInfo w' s) : Reaches ctrInfo w s := by
  obtain ⟨es, w'', hrun, hmeets, hsettled⟩ := h
  refine ⟨e :: es, w'', System.run_cons_eq_some.mpr ⟨w', hs, hrun⟩, ⟨hok, fun v hv => ?_⟩, hsettled⟩
  obtain rfl : w' = v := Option.some.inj (hs.symm.trans hv)
  exact hmeets

theorem Reaches.of_run {es : List WireEvent} (hrun : (wiredCluster ctrInfo).run w es = some w')
    (hok : (wiredCluster ctrInfo).RunMeets (WireOrderly ctrInfo) w es) (h : Reaches ctrInfo w' s) :
    Reaches ctrInfo w s := by
  obtain ⟨es', w'', hrun', hok', hsettled⟩ := h
  exact ⟨es ++ es', w'', System.run_append_eq_some.mpr ⟨w', hrun, hrun'⟩, hok.append hrun hok', hsettled⟩

/-! ## Sending what is left -/

/-- The calls of one channel alone; `put` has that channel at its place. -/
theorem exists_run_flushed {put : Channel → WiredCluster} (ch : Channel)
    (hpush : ∀ c k c', c.InTurn k → c.push k = some c' →
      ∃ e, WireOrderly ctrInfo (put c) e ∧ (wiredCluster ctrInfo).step (put c) e = some (put c')) :
    ∃ es ch', (wiredCluster ctrInfo).run (put ch) es = some (put ch') ∧
      (wiredCluster ctrInfo).RunMeets (WireOrderly ctrInfo) (put ch) es ∧ ch'.Flushed ∧ ch'.all = ch.all := by
  obtain ⟨ks, ch', hrun, hmeets, hf, hall⟩ := exists_flushed ch
  have hstep : ∀ (c : Channel) v k c', v = put c → c.InTurn k → Channel.sends.step c k = some c' →
      ∃ es v', (wiredCluster ctrInfo).run v es = some v' ∧
        (wiredCluster ctrInfo).RunMeets (WireOrderly ctrInfo) v es ∧ v' = put c' := by
    rintro c v k c' rfl hturn hk
    obtain ⟨e, hok, hs⟩ := hpush c k c' hturn hk
    exact ⟨[e], _, System.run_cons_eq_some.mpr ⟨_, hs, rfl⟩, ⟨hok, fun _ _ => trivial⟩, rfl⟩
  obtain ⟨es, v, hrun', hmeets', rfl⟩ := System.exists_simulating_run hstep rfl hmeets hrun
  exact ⟨es, ch', hrun', hmeets', hf, hall⟩

theorem exists_run_pushUp (ctrInfo : TtopControlInfo) (w : WiredCluster) (conn : ℤ) : ∃ es ch,
    (wiredCluster ctrInfo).run w es = some { w with up := Function.update w.up conn ch } ∧
      (wiredCluster ctrInfo).RunMeets (WireOrderly ctrInfo) w es ∧ ch.Flushed ∧ ch.all = (w.up conn).all := by
  have hself : ∀ c, Function.update w.up conn c conn = c := fun c => Function.update_self conn c w.up
  let put (c : Channel) : WiredCluster := { w with up := Function.update w.up conn c }
  have hput : put (w.up conn) = w := by
    simp only [put, Function.update_eq_self]
  have hpush : ∀ c k c', c.InTurn k → c.push k = some c' →
      ∃ e, WireOrderly ctrInfo (put c) e ∧ (wiredCluster ctrInfo).step (put c) e = some (put c') := by
    intro c k c' hturn hk
    refine ⟨.pushUp conn k, ?_, Option.map_eq_some_iff.mpr ⟨c', ?_, ?_⟩⟩
    · show (Function.update w.up conn c conn).InTurn k
      rwa [hself]
    · show (Function.update w.up conn c conn).push k = some c'
      rwa [hself]
    · simp only [put, Function.update_idem]
  have hrun := exists_run_flushed (w.up conn) hpush
  rwa [hput] at hrun

theorem exists_run_pushDown (ctrInfo : TtopControlInfo) (w : WiredCluster) (conn : ℤ) : ∃ es ch,
    (wiredCluster ctrInfo).run w es = some { w with down := Function.update w.down conn ch } ∧
      (wiredCluster ctrInfo).RunMeets (WireOrderly ctrInfo) w es ∧ ch.Flushed ∧ ch.all = (w.down conn).all := by
  have hself : ∀ c, Function.update w.down conn c conn = c := fun c => Function.update_self conn c w.down
  let put (c : Channel) : WiredCluster := { w with down := Function.update w.down conn c }
  have hput : put (w.down conn) = w := by
    simp only [put, Function.update_eq_self]
  have hpush : ∀ c k c', c.InTurn k → c.push k = some c' →
      ∃ e, WireOrderly ctrInfo (put c) e ∧ (wiredCluster ctrInfo).step (put c) e = some (put c') := by
    intro c k c' hturn hk
    refine ⟨.pushDown conn k, ?_, Option.map_eq_some_iff.mpr ⟨c', ?_, ?_⟩⟩
    · show (Function.update w.down conn c conn).InTurn k
      rwa [hself]
    · show (Function.update w.down conn c conn).push k = some c'
      rwa [hself]
    · simp only [put, Function.update_idem]
  have hrun := exists_run_flushed (w.down conn) hpush
  rwa [hput] at hrun

theorem reaches_of_sending (h : Images w up down) (hup : ∀ c, c ≠ conn → (w.up c).Flushed)
    (hdown : ∀ c, (w.down c).Flushed) : Reaches ctrInfo w (w.packets up down) := by
  obtain ⟨es, ch, hrun, hmeets, hf, hall⟩ := exists_run_pushUp ctrInfo w conn
  have hholds := (Function.forall_update_iff w.up fun c ch => ch.Holds ptotPacket IsPtot (packetsOf c up)).mpr
    ⟨(h.up conn).of_all_eq hall, fun c _ => h.up c⟩
  have hflushed := (Function.forall_update_iff w.up fun _ ch => ch.Flushed).mpr ⟨hf, hup⟩
  exact ⟨es, _, hrun, hmeets, up, down, rfl, ⟨hholds, h.down⟩, hflushed, hdown⟩

theorem reaches_of_broadcasting (conns : List ℤ) (h : Images w up down) (hup : ∀ c, (w.up c).Flushed)
    (hdown : ∀ c, c ∉ conns → (w.down c).Flushed) : Reaches ctrInfo w (w.packets up down) := by
  induction conns generalizing w with
  | nil => exact reaches_of_settled ⟨h, hup, fun c => hdown c List.not_mem_nil⟩
  | cons conn conns ih =>
    obtain ⟨es, ch, hrun, hmeets, hf, hall⟩ := exists_run_pushDown ctrInfo w conn
    have hholds := (Function.forall_update_iff w.down fun c ch => ch.Holds ttopPacket IsTtop (down c)).mpr
      ⟨(h.down conn).of_all_eq hall, fun c _ => h.down c⟩
    have hflushed := (Function.forall_update_iff w.down fun c ch => c ∉ conns → ch.Flushed).mpr
      ⟨fun _ => hf, fun c hne hc => hdown c fun hmem => (List.mem_cons.mp hmem).elim hne hc⟩
    exact Reaches.of_run hrun hmeets (ih ⟨h.up, hholds⟩ hup hflushed)

/-! ## From packets to bytes -/

theorem packetsFor_eq_nil {c : ℤ} {ps : List (ℤ × TtopPacket)} (h : c ∉ ps.map Prod.fst) : packetsFor c ps = [] := by
  rw [packetsFor, List.map_eq_nil_iff, List.filter_eq_nil_iff]
  intro q hq heq
  exact h (List.mem_map.mpr ⟨q, hq, beq_iff_eq.mp heq⟩)

/-- A client goes on with what it has at hand, or with the first packet that is under way for it. -/
theorem Settled.receive (h : Settled w up down) (hs : (w.packets up down).receive conn = some s') :
    Reaches ctrInfo w s' := by
  have hread : ∀ (phase phase' : ClientPhase) p rest, down conn = p :: rest → phase.take p = some phase' →
      ∃ w₁, ((w.down conn).recv ttopPacket zeroed).bind (fun r => (ttopPacketAt zeroed r.1).bind fun p =>
        (phase.take p).map fun phase' =>
          { w with down := Function.update w.down conn r.2 }.client conn phase' (w.peerFt conn)) = some w₁ ∧
        (∀ c, (w₁.up c).Flushed) ∧ ∀ c, (w₁.down c).Flushed := by
    intro phase phase' p rest hfirst htake
    have hholds := h.images.down conn
    rw [hfirst] at hholds
    obtain ⟨m, stream, hrecv⟩ := hholds.exists_recv (h.flushedDown conn) zeroed
    obtain ⟨p', rest', hfirst', hp', -⟩ := h.images.recvDown hrecv zeroed
    obtain rfl : p' = p := (List.cons.inj (hfirst'.symm.trans hfirst)).1
    refine ⟨_, Option.bind_eq_some_iff.mpr ⟨_, hrecv, Option.bind_eq_some_iff.mpr
      ⟨p', hp', Option.map_eq_some_iff.mpr ⟨phase', htake, rfl⟩⟩⟩, h.flushedUp, ?_⟩
    exact (Function.forall_update_iff w.down fun _ ch => ch.Flushed).mpr
      ⟨h.flushedDown conn, fun c _ => h.flushedDown c⟩
  have hwired : ∃ w₁, w.receive conn zeroed zeroed = some w₁ ∧ (∀ c, (w₁.up c).Flushed) ∧
      ∀ c, (w₁.down c).Flushed := by
    unfold WiredCluster.receive
    split
    · exact ⟨_, rfl, h.flushedUp, h.flushedDown⟩
    · exact ⟨_, rfl, h.flushedUp, h.flushedDown⟩
    · exact ⟨_, rfl, h.flushedUp, h.flushedDown⟩
    · exact ⟨_, rfl, h.flushedUp, h.flushedDown⟩
    · next hsyncing hsynced hhandling hhandled =>
      unfold Cluster.receive at hs
      split at hs
      · next hp => exact absurd hp (hsyncing _ _)
      · next hp => exact absurd hp hsynced
      · next hp => exact absurd hp (hhandling _ _)
      · next hp => exact absurd hp hhandled
      · split at hs
        · cases hs
        · next hd =>
          obtain ⟨phase', htake, -⟩ := Option.map_eq_some_iff.mp hs
          exact hread _ phase' _ _ hd htake
  obtain ⟨w₁, hw₁, hup, hdown⟩ := hwired
  obtain ⟨down', hs', himg⟩ := h.images.receive hw₁
  obtain rfl := Option.some.inj (hs'.symm.trans hs)
  exact Reaches.of_step (e := .receive conn zeroed zeroed) trivial hw₁ (reaches_of_settled ⟨himg, hup, hdown⟩)

theorem flushed_send (h : ∀ c, (w.up c).Flushed) (pkt : Mem) : ∀ c, c ≠ conn → ((w.send conn pkt).up c).Flushed := by
  intro c hc
  unfold WiredCluster.send
  dsimp only
  rw [Function.update_of_ne hc]
  exact h c

theorem flushed_moved (h : ∀ c, (w.down c).Flushed) (i : ℕ) (a : Advance) (pkt t : Mem) :
    ∀ c, c ∉ a.sent.map Prod.fst → ((w.moved i a pkt t).down c).Flushed := by
  intro c hc
  unfold WiredCluster.moved
  dsimp only
  rw [packetsFor_eq_nil hc]
  exact h c

theorem Settled.start (h : Settled w up down) {p : ClientPacket} (hfirst : (packetsOf conn up).head? = some p)
    (hok : Orderly (w.packets up down) (.start conn p)) :
    Reaches ctrInfo w { w.packets up down with up := up.erase (conn, p), threads := w.threads ++ [p.thread conn] } := by
  obtain ⟨rest, hrest⟩ := List.head?_eq_some_iff.mp hfirst
  have hholds := h.images.up conn
  rw [hrest] at hholds
  obtain ⟨m, stream, hrecv⟩ := hholds.exists_recv (h.flushedUp conn) zeroed
  obtain ⟨p', rest', hfirst', hp', -, himg⟩ := h.images.recvUp hrecv
  obtain rfl : p' = p := (List.cons.inj (hfirst'.symm.trans hrest)).1
  have hregistered : WireOrderly ctrInfo w (.start conn zeroed) := by
    intro r tft hr hsync
    obtain rfl := Option.some.inj (hrecv.symm.trans hr)
    obtain rfl := Option.some.inj (hp'.symm.trans hsync)
    exact hok
  refine Reaches.of_step hregistered
    (Option.bind_eq_some_iff.mpr ⟨_, hrecv, Option.map_eq_some_iff.mpr ⟨p', hp', rfl⟩⟩)
    (reaches_of_settled ⟨⟨himg.up, himg.down⟩, ?_, h.flushedDown⟩)
  exact (Function.forall_update_iff w.up fun _ ch => ch.Flushed).mpr
    ⟨h.flushedUp conn, fun c _ => h.flushedUp c⟩

theorem Settled.step (h : Settled w up down) {e : ClusterEvent} (hok : Carried ctrInfo (w.packets up down) e)
    (hs : (cluster ctrInfo).step (w.packets up down) e = some s') : Reaches ctrInfo w s' := by
  cases e with
  | connect conn ip =>
    obtain ⟨habsent, hs⟩ := Option.ite_none_right_eq_some.mp hs
    obtain rfl := Option.some.inj hs
    exact Reaches.of_step (e := .connect conn ip) hok (if_pos habsent)
      (reaches_of_sending (h.images.connect hok) (flushed_send h.flushedUp _) h.flushedDown)
  | scan conn ft =>
    obtain ⟨haccepted, hs⟩ := Option.ite_none_right_eq_some.mp hs
    obtain rfl := Option.some.inj hs
    obtain ⟨hwf, hin, t, ht, hclean⟩ := hok
    exact Reaches.of_step (e := .scan conn ft t) ⟨hwf, hin, hclean⟩ (if_pos ⟨haccepted, ht⟩)
      (reaches_of_sending (h.images.scan ht hin hclean) (flushed_send h.flushedUp _) h.flushedDown)
  | report conn tft =>
    obtain ⟨hjoined, hs⟩ := Option.ite_none_right_eq_some.mp hs
    obtain rfl := Option.some.inj hs
    obtain ⟨hnews, hin, t, ht, hclean⟩ := hok
    exact Reaches.of_step (e := .report conn tft t) ⟨hnews, hin, hclean⟩ (if_pos ⟨hjoined, ht⟩)
      (reaches_of_sending (h.images.report ht hin hclean _ _).1 (flushed_send h.flushedUp _) h.flushedDown)
  | announce conn fe =>
    obtain ⟨⟨hjoined, hfound⟩, hs⟩ := Option.ite_none_right_eq_some.mp hs
    obtain rfl := Option.some.inj hs
    obtain ⟨t, ht, hclean⟩ := hok
    exact Reaches.of_step (e := .announce conn fe t) hclean (if_pos ⟨hjoined, hfound, ht⟩)
      (reaches_of_sending (h.images.report ht (inPacket_notify _ _ _) hclean (w.phase conn) (w.peerFt conn)).2
        (flushed_send h.flushedUp _) h.flushedDown)
  | start conn p =>
    obtain ⟨-, hs⟩ := Option.ite_none_right_eq_some.mp hs
    obtain rfl := Option.some.inj hs
    exact h.start hok.1 hok.2
  | step i now =>
    obtain ⟨th, hi, hs⟩ := Option.bind_eq_some_iff.mp hs
    obtain ⟨a, hadv, rfl⟩ := Option.map_eq_some_iff.mp hs
    obtain ⟨horderly, hfit⟩ := hok
    obtain ⟨t, ht⟩ := hfit th a hi hadv
    have himg : Images (w.moved i a zeroed t) up _ := h.images.moved fun q hq =>
      ⟨isTtop_image (ht q hq).1 (ht q hq).2.1, (ht q hq).2.2⟩
    have hwire : WireOrderly ctrInfo w (.step i now zeroed t) := by
      refine ⟨horderly, fun th' a' hi' hadv' q hq => ?_⟩
      obtain rfl := Option.some.inj (hi.symm.trans hi')
      obtain rfl := Option.some.inj (hadv.symm.trans hadv')
      exact (ht q hq).2
    refine Reaches.of_step hwire (Option.bind_eq_some_iff.mpr
      ⟨th, hi, Option.bind_eq_some_iff.mpr ⟨a, hadv, if_pos fun q hq => (ht q hq).1⟩⟩) ?_
    exact reaches_of_broadcasting (a.sent.map Prod.fst) himg h.flushedUp (flushed_moved h.flushedDown i a zeroed t)
  | skip i n =>
    obtain ⟨th, hi, hs⟩ := Option.bind_eq_some_iff.mp hs
    obtain ⟨a, hadv, rfl⟩ := Option.map_eq_some_iff.mp hs
    have himg : Images (w.moved i a zeroed zeroed) up _ := h.images.moved fun q hq => by
      rw [sent_skip hadv] at hq
      cases hq
    refine Reaches.of_step (e := .skip i n) trivial
      (Option.bind_eq_some_iff.mpr ⟨th, hi, Option.map_eq_some_iff.mpr ⟨a, hadv, rfl⟩⟩) ?_
    exact reaches_of_broadcasting (a.sent.map Prod.fst) himg h.flushedUp (flushed_moved h.flushedDown i a zeroed zeroed)
  | receive conn => exact h.receive hs

/-- A run of packets is one of bytes, where each packet goes out at once. -/
theorem Settled.run {es : List ClusterEvent} (h : Settled w up down)
    (hok : (cluster ctrInfo).RunMeets (Carried ctrInfo) (w.packets up down) es)
    (hrun : (cluster ctrInfo).run (w.packets up down) es = some s') : Reaches ctrInfo w s' := by
  have hstep : ∀ s w e s', (∃ up down, s = w.packets up down ∧ Settled w up down) → Carried ctrInfo s e →
      (cluster ctrInfo).step s e = some s' → ∃ es w', (wiredCluster ctrInfo).run w es = some w' ∧
        (wiredCluster ctrInfo).RunMeets (WireOrderly ctrInfo) w es ∧
        ∃ up down, s' = w'.packets up down ∧ Settled w' up down := by
    rintro s w e s' ⟨up, down, rfl, hsettled⟩ hok hs
    exact hsettled.step hok hs
  exact System.exists_simulating_run hstep ⟨up, down, rfl, h⟩ hok hrun

/-! ## From bytes to packets -/

theorem images_start : Images WiredCluster.start [] fun _ => [] := ⟨fun _ => holds_idle, fun _ => holds_idle⟩

theorem Images.quiescent (h : Images w up down) (hq : w.Quiescent) : (w.packets up down).Quiescent := by
  obtain ⟨hup, hthreads, hclients⟩ := hq
  refine ⟨List.eq_nil_iff_forall_not_mem.mpr fun u hu => ?_, hthreads, fun c hc => ?_⟩
  · have hnil := (h.up u.1).eq_nil (hup u.1)
    have hmem : u.2 ∈ packetsOf u.1 up := List.mem_map.mpr ⟨u, List.mem_filter.mpr ⟨hu, beq_self_eq_true _⟩, rfl⟩
    rw [hnil] at hmem
    exact List.not_mem_nil hmem
  · obtain ⟨hempty, hphase⟩ := hclients c hc
    exact ⟨(h.down c).eq_nil hempty, hphase⟩

theorem Settled.quiescent (h : Settled w up down) (hq : (w.packets up down).Quiescent) : w.Quiescent := by
  obtain ⟨rfl, hthreads, hclients⟩ := hq
  refine ⟨fun c => (h.images.up c).empty (h.flushedUp c), hthreads, fun c hc => ?_⟩
  obtain ⟨hnil, hphase⟩ := hclients c hc
  have hholds := h.images.down c
  have hnone : down c = [] := hnil
  rw [hnone] at hholds
  exact ⟨hholds.empty (h.flushedDown c), hphase⟩

/-- **Tracker and clients over their connections.** The packets are bytes that the code fills, sends buffer by buffer,
reads as segments and takes apart, while threads and clients run in any order. The run respects `Orderly` (a scan finds
one entry for a name, no file is deleted, a synchronisation starts once its client is registered, and a change reaches
the tracker after it knows the file), every packet fits, has no end marker in it and goes out in one piece. Then it is an
orderly run of packets with the same tables; and whenever nothing is under way, every client that has scanned and has not
failed has the tracker's names and timestamps. -/
theorem wired_cluster_converges (ctrInfo : TtopControlInfo) {es : List WireEvent} {w : WiredCluster}
    (hrun : (wiredCluster ctrInfo).run WiredCluster.start es = some w)
    (hok : (wiredCluster ctrInfo).RunMeets (WireOrderly ctrInfo) WiredCluster.start es) :
    (∃ es' s, (cluster ctrInfo).run Cluster.start es' = some s ∧
      (cluster ctrInfo).RunMeets Orderly Cluster.start es' ∧ s.tracker = w.tracker ∧ s.threads = w.threads ∧
      s.phase = w.phase ∧ s.peerFt = w.peerFt) ∧
    (w.Quiescent → ∀ c, (w.phase c).Joined → (w.peerFt c).stamp = w.tracker.ft.stamp) := by
  have hstep : ∀ w s e w', (∃ up down, s = w.packets up down ∧ Images w up down) → WireOrderly ctrInfo w e →
      (wiredCluster ctrInfo).step w e = some w' → ∃ es' t, (cluster ctrInfo).run s es' = some t ∧
        (cluster ctrInfo).RunMeets Orderly s es' ∧ ∃ up down, t = w'.packets up down ∧ Images w' up down := by
    rintro w s e w' ⟨up, down, rfl, himg⟩ hok hs
    exact himg.step hok hs
  obtain ⟨es', s, hrun', hok', up, down, rfl, himg⟩ :=
    System.exists_simulating_run hstep ⟨[], fun _ => [], rfl, images_start⟩ hok hrun
  have hempty : Answered Cluster.start := fun _ => le_rfl
  have hinv : Settling (w.packets up down) ∧ Answered (w.packets up down) :=
    System.runMeets_invariant (fun _ _ _ h hok hs => Settling.step h hok hs) ⟨settling_start, hempty⟩ hok' hrun'
  exact ⟨⟨es', _, hrun', hok', rfl, rfl, rfl, rfl⟩, fun hq c hc => hinv.1.agree (himg.quiescent hq) hc⟩

end Runs

/-! ## Two clients -/

section TwoClients
variable {ctrInfo : TtopControlInfo} {s : Cluster} {i : ℕ} {now : BitVec 64} {th : Thread} {a : Advance}

instance (bs : Bytes) : Decidable (Unmarked bs) := inferInstanceAs (Decidable (¬ endMarker <:+: bs))

theorem carried_quiet (hi : s.threads[i]? = some th) (hadv : th.advance ctrInfo s.tracker now = some a)
    (hok : Orderly s (.step i now)) (hsent : a.sent = []) : Carried ctrInfo s (.step i now) := by
  refine ⟨hok, fun th' a' hi' hadv' => ⟨zeroed, fun q hq => ?_⟩⟩
  obtain rfl := Option.some.inj (hi.symm.trans hi')
  obtain rfl := Option.some.inj (hadv.symm.trans hadv')
  rw [hsent] at hq
  cases hq

theorem carried_sent {c : ℤ} {p : TtopPacket} {t : Mem} (hi : s.threads[i]? = some th)
    (hadv : th.advance ctrInfo s.tracker now = some a) (hok : Orderly s (.step i now)) (hsent : a.sent = [(c, p)])
    (hp : TtopFrom t p ∧ InPacket (ttopTable p) ∧ Unmarked (ttopBytes (ttopImage zeroed t p))) :
    Carried ctrInfo s (.step i now) := by
  refine ⟨hok, fun th' a' hi' hadv' => ⟨t, fun q hq => ?_⟩⟩
  obtain rfl := Option.some.inj (hi.symm.trans hi')
  obtain rfl := Option.some.inj (hadv.symm.trans hadv')
  rw [hsent] at hq
  obtain rfl := List.mem_singleton.mp hq
  exact hp

theorem carried_scan {conn : ℤ} {ft : FileTable} {tft : TransFileTable} {t : Mem} (hwf : ft.Wf)
    (htft : transTableFillFrom ft = tft) (hin : InPacket tft) (ht : HoldsTable t tft)
    (hclean : Unmarked (ptotBytes (syncImage (s.myIp conn) t))) : Carried ctrInfo s (.scan conn ft) := by
  subst htft
  exact ⟨hwf, hin, t, ht, hclean⟩

/-- Client 1 joins while the tracker has no file; client 2 brings one, and the broadcast of it reaches client 1 as bytes
of its connection. -/
theorem wired_cluster_converges_two_clients :
    ∃ es w, (wiredCluster ⟨1, 2⟩).run WiredCluster.start es = some w ∧ w.Quiescent ∧
      (w.peerFt 1).stamp = w.tracker.ft.stamp ∧ (w.peerFt 2).stamp = w.tracker.ft.stamp ∧
      w.tracker.ft.stamp ⟨[102], by decide, by decide⟩ = 5 := by
  let te : TransFileEntry := ⟨⟨[102], by decide, by decide⟩, 5, .fileNone, .regular, []⟩
  let added : TransFileEntry := { te with opType := .fileAdd }
  let ft := fileEntryAdd fileTableInit (fileEntryFillFrom te)
  have hone : ∀ te' ∈ [te, added], HoldsTable (tableImage [te']) [te'] ∧ InPacket [te'] := by
    intro te' hte'
    have hfields : InFields te' ∧ te'.owners.length < MAX_PEER_ENTRIES := by
      rcases List.mem_pair.mp hte' with rfl | rfl
      · exact ⟨⟨by decide, rfl, rfl, by decide⟩, by decide⟩
      · exact ⟨⟨by decide, rfl, rfl, by decide⟩, by decide⟩
    refine ⟨holdsTable_tableImage (show 1 ≤ MAX_FILE_ENTRIES by decide) ?_, show 1 ≤ 240 by decide, ?_, ?_⟩
    · exact List.forall_mem_singleton.mpr hfields.1
    · exact List.forall_mem_singleton.mpr hfields.2.le
    · rintro _ ⟨⟩
      exact hfields.2
  have haccept : TtopFrom zeroed (.accept ⟨1, 2⟩) ∧ InPacket [] ∧
      Unmarked (ttopBytes (ttopImage zeroed zeroed (.accept ⟨1, 2⟩))) :=
    ⟨trivial, inPacket_nil, by decide +kernel⟩
  have hreply : TtopFrom zeroed (.sync []) ∧ InPacket [] ∧ Unmarked (ttopBytes (ttopImage zeroed zeroed (.sync []))) :=
    ⟨holdsTable_nil, inPacket_nil, by decide +kernel⟩
  have hbroadcast : TtopFrom (tableImage [added]) (.broadcast [added]) ∧ InPacket [added] ∧
      Unmarked (ttopBytes (ttopImage zeroed (tableImage [added]) (.broadcast [added]))) :=
    ⟨(hone added (by simp)).1, (hone added (by simp)).2, by decide +kernel⟩
  have hempty : Unmarked (ptotBytes (syncImage 1 zeroed)) := by decide +kernel
  have hfile : Unmarked (ptotBytes (syncImage 2 (tableImage [te]))) := by decide +kernel
  have hregister : Unmarked (ptotBytes (ptotPacketInit 1 .register)) ∧ Unmarked (ptotBytes (ptotPacketInit 2 .register)) := by
    decide +kernel
  have hrun : ∃ es s', (cluster ⟨1, 2⟩).run Cluster.start es = some s' ∧
      (cluster ⟨1, 2⟩).RunMeets (Carried ⟨1, 2⟩) Cluster.start es ∧ s'.Quiescent ∧ s'.phase 1 = .running ∧
      s'.phase 2 = .running ∧ s'.tracker.ft.stamp te.name = 5 := by
    refine exists_run_cons (.connect 1 1) hregister.1 rfl ?_
    refine exists_run_cons (.start 1 (.register ⟨1, P2P_PORT⟩)) ⟨rfl, trivial⟩ rfl ?_
    refine exists_run_cons (.step 0 0) (carried_sent rfl rfl trivial rfl haccept) rfl ?_
    refine exists_run_cons (.step 0 0) (carried_quiet rfl rfl trivial rfl) rfl ?_
    refine exists_run_cons (.receive 1) trivial rfl ?_
    refine exists_run_cons (.scan 1 _)
      (carried_scan FileTable.wf_init transTableFillFrom_init inPacket_nil holdsTable_nil hempty)
      ((step_scan transTableFillFrom_init).trans rfl) ?_
    refine exists_run_cons (.start 1 (.sync [])) ⟨rfl, _, .head _, rfl⟩ rfl ?_
    refine exists_run_cons (.skip 0 HASH_SIZE) trivial (step_skip le_rfl rfl rfl) ?_
    refine exists_run_cons (.step 0 0) (carried_sent rfl rfl trivial rfl hreply) rfl ?_
    refine exists_run_cons (.step 0 0) (carried_quiet rfl rfl trivial rfl) rfl ?_
    refine exists_run_cons (.receive 1) trivial rfl ?_
    refine exists_run_cons (.receive 1) trivial rfl ?_
    -- client 1 is up to date
    refine exists_run_cons (.connect 2 2) hregister.2 rfl ?_
    refine exists_run_cons (.start 2 (.register ⟨2, P2P_PORT⟩)) ⟨rfl, trivial⟩ rfl ?_
    refine exists_run_cons (.step 0 0) (carried_sent rfl rfl trivial rfl haccept) rfl ?_
    refine exists_run_cons (.step 0 0) (carried_quiet rfl rfl trivial rfl) rfl ?_
    refine exists_run_cons (.receive 2) trivial rfl ?_
    refine exists_run_cons (.scan 2 ft)
      (carried_scan (FileTable.wf_init.add te) (transTableFillFrom_add (fileEntryFillFrom te)) (hone te (by simp)).2
        (hone te (by simp)).1 hfile)
      ((step_scan (transTableFillFrom_add (fileEntryFillFrom te))).trans rfl) ?_
    refine exists_run_cons (.start 2 (.sync [te])) ⟨rfl, _, .head _, rfl⟩ rfl ?_
    refine exists_run_cons (.skip 0 HASH_SIZE) trivial (step_skip le_rfl rfl rfl) ?_
    refine exists_run_cons (.step 0 0) (carried_sent rfl rfl trivial rfl hreply) rfl ?_
    refine exists_run_cons (.step 0 0) (carried_quiet rfl rfl trivial rfl) rfl ?_
    refine exists_run_cons (.step 0 0) (carried_quiet rfl rfl trivial rfl) rfl ?_
    refine exists_run_cons (.step 0 0) (carried_sent rfl rfl trivial rfl hbroadcast) rfl ?_
    -- the reply, and the broadcast to client 1
    refine exists_run_cons (.receive 2) trivial rfl ?_
    refine exists_run_cons (.receive 2) trivial rfl ?_
    refine exists_run_cons (.receive 1) trivial rfl ?_
    refine exists_run_cons (.receive 1) trivial rfl ?_
    refine exists_run_cons (.receive 1) trivial rfl ?_
    refine ⟨[], _, rfl, trivial, ⟨rfl, rfl, fun c hc => ?_⟩, rfl, rfl, ?_⟩
    · by_cases h1 : c = 1
      · subst h1
        exact ⟨rfl, rfl⟩
      · by_cases h2 : c = 2
        · subst h2
          exact ⟨rfl, rfl⟩
        · simp [Cluster.client, Cluster.moved, Cluster.connect, Cluster.send, Cluster.read, h1, h2, ClientPhase.Joined,
            Cluster.start] at hc
    · exact (congrFun (FileTable.stamp_add _ te) te.name).trans (raise_self _ te)
  obtain ⟨es, s', hrun, hok, hq, h1, h2, hstamp⟩ := hrun
  have hsettled : Settled WiredCluster.start [] fun _ => [] := ⟨images_start, fun _ => flushed_idle, fun _ => flushed_idle⟩
  obtain ⟨es', w, hrun', hok', up, down, rfl, hout⟩ := hsettled.run hok hrun
  have hquiet := hout.quiescent hq
  have hagree := (wired_cluster_converges ⟨1, 2⟩ hrun' hok').2 hquiet
  refine ⟨es', w, hrun', hquiet, hagree 1 ?_, hagree 2 ?_, hstamp⟩
  · have hphase : w.phase 1 = .running := h1
    rw [hphase]
    trivial
  · have hphase : w.phase 2 = .running := h2
    rw [hphase]
    trivial

end TwoClients

end TeleSync.Threads
