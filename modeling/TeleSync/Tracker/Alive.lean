import TeleSync.Lib.Heartbeat
import TeleSync.Tracker.Handshake

/-!
# Liveness checks

`peer_check_alive_task` of `server/start.c` compares the timestamp of its peer with the one it remembers, which
every `PEER_KEEP_ALIVE` moves on by the interval, and cancels the receiver of a peer whose timestamp stood still.

* `checkAlive` : one round of the task;
* `checkingAlive` : the rounds for one peer that stays in the peer table, and between them whatever the tracker does
  for any connection;
* `Sees` : the timestamp and the memory of the task as a `Heartbeat.Watch`, which other peers leave alone (`sees_step`);
* `interval_nsmul_eq_zero` : fewer than `2^32` keep-alives do not bring a timestamp back;
* `cancels_iff_silent` : a check cancels the receiver exactly when it is not the first one and no keep-alive of the
  peer came since the last.
-/

namespace TeleSync
open Transition Heartbeat

/-! ## The task -/

/-- The memory of `peer_check_alive_task`, and whether it has cancelled the receiver and come to its end. -/
structure CheckAlive where
  lastTimestamp : BitVec 64
  cancelled : Bool
  deriving DecidableEq

/-- One round of the loop of `peer_check_alive_task`. -/
def checkAlive (pt : List PeerEntry) (ip : UInt32) (task : CheckAlive) : CheckAlive :=
  match peerTableFind pt ip with
  | none => { task with cancelled := true }
  | some pe =>
    if pe.timestamp = task.lastTimestamp then { task with cancelled := true }
    else { task with lastTimestamp := pe.timestamp }

/-- The tables of the tracker and the task that watches one peer. -/
structure AliveState where
  tracker : Tracker
  task : CheckAlive

/-- An activity of the tracker for some connection, or a round of the task. The entry that a task has found stays, so
what it does under the mutex is one step. -/
inductive AliveEvent where
  | perform (conn : ℤ) (act : PeerActivity)
  | check
  deriving DecidableEq

/-- The activity leaves the peer of connection `own` the only one with address `ip`, and leaves it registered. -/
def PeerActivity.SparesPeer (own : ℤ) (ip : UInt32) (conn : ℤ) : PeerActivity → Prop
  | .register peerid _ => peerid.ip ≠ ip
  | .cleanup => conn ≠ own
  | _ => True

instance (own : ℤ) (ip : UInt32) (conn : ℤ) : (act : PeerActivity) → Decidable (act.SparesPeer own ip conn)
  | .register peerid _ => inferInstanceAs (Decidable (peerid.ip ≠ ip))
  | .cleanup => inferInstanceAs (Decidable (conn ≠ own))
  | .lifeUpdate _ => isTrue trivial
  | .sync _ => isTrue trivial
  | .update _ => isTrue trivial

/-- The tracker and the task for the peer of connection `own`. -/
def checkingAlive (ctrInfo : TtopControlInfo) (own : ℤ) (ip : UInt32) : System AliveState AliveEvent where
  step s
    | .perform conn act =>
      if act.SparesPeer own ip conn then some { s with tracker := (s.tracker.perform ctrInfo conn act).1 } else none
    | .check => if s.task.cancelled then none else some { s with task := checkAlive s.tracker.pt ip s.task }

/-- The peer has just been registered and its task started. -/
def startAlive (t : Tracker) (own : ℤ) (peerid : PeerId) (now : BitVec 64) : AliveState :=
  ⟨t.addPeer own peerid now, ⟨0, false⟩⟩

/-- What an event is to the task: a keep-alive of its own peer is a pulse. -/
def beat (ip : UInt32) : AliveEvent → Option Beat
  | .perform _ (.lifeUpdate ip') => if ip' = ip then some .pulse else none
  | .perform _ _ => none
  | .check => some .check

/-- The keep-alives of the peer and the checks of its task among the events, in order. -/
def beats (ip : UInt32) (es : List AliveEvent) : List Beat := es.filterMap (beat ip)

/-- The keep-alives of the peer since the last check, or since it was registered. -/
def keepAlives (ip : UInt32) (es : List AliveEvent) : ℕ := pulsesSince (beats ip es)

/-! ## The peer table -/

/-- The entry of `own` is the one that `peer_table_find` returns for `ip`, with this timestamp. -/
def Stamped (pt : List PeerEntry) (own : ℤ) (ip : UInt32) (stamp : BitVec 64) : Prop :=
  ∃ pe, peerTableFind pt ip = some pe ∧ pe.conn = own ∧ pe.timestamp = stamp

section Table
variable {pt : List PeerEntry} {own conn : ℤ} {ip ip' : UInt32} {stamp : BitVec 64}

theorem Stamped.add (h : Stamped pt own ip stamp) {pe : PeerEntry} (hip : pe.peerid.ip ≠ ip) :
    Stamped (peerTableAdd pt pe) own ip stamp := by
  obtain ⟨e, hfind, he⟩ := h
  refine ⟨e, ?_, he⟩
  rw [peerTableFind, peerTableAdd, List.find?_cons_of_neg (by simpa using hip)]
  exact hfind

theorem find?_eraseP_of_not {α : Type*} {p q : α → Bool} {l : List α} {a : α} (h : l.find? p = some a)
    (ha : ¬ q a = true) : (l.eraseP q).find? p = some a := by
  induction l with
  | nil => cases h
  | cons b l ih =>
    by_cases hp : p b = true
    · rw [List.find?_cons_of_pos hp, Option.some.injEq] at h
      subst h
      rw [List.eraseP_cons_of_neg ha, List.find?_cons_of_pos hp]
    · rw [List.find?_cons_of_neg hp] at h
      by_cases hq : q b = true
      · rwa [List.eraseP_cons_of_pos hq]
      · rw [List.eraseP_cons_of_neg hq, List.find?_cons_of_neg hp, ih h]

theorem Stamped.delete (h : Stamped pt own ip stamp) (hconn : conn ≠ own) :
    Stamped (peerTableDelete pt conn).1 own ip stamp := by
  obtain ⟨e, hfind, hown, hstamp⟩ := h
  refine ⟨e, ?_, hown, hstamp⟩
  have hkeep : ¬ (e.conn == conn) = true := by
    rw [hown, beq_iff_eq]
    exact hconn.symm
  unfold peerTableDelete
  split
  · exact find?_eraseP_of_not hfind hkeep
  · exact hfind

theorem find_modify (f : PeerEntry → PeerEntry) (hf : ∀ pe, (f pe).peerid = pe.peerid) (pt : List PeerEntry)
    (ip ip' : UInt32) : peerTableFind (pt.modify (pt.findIdx fun pe => pe.peerid.ip == ip') f) ip =
      if ip' = ip then (peerTableFind pt ip).map f else peerTableFind pt ip := by
  induction pt with
  | nil => split_ifs <;> rfl
  | cons pe pt ih =>
    rw [List.findIdx_cons]
    by_cases hpe : pe.peerid.ip = ip'
    · rw [beq_iff_eq.mpr hpe, cond_true, List.modify_zero_cons]
      by_cases hip : ip' = ip
      · simp [peerTableFind, hf, hpe, hip]
      · simp [peerTableFind, hf, hpe, hip]
    · rw [beq_eq_false_iff_ne.mpr hpe, cond_false, List.modify_succ_cons]
      by_cases hip : pe.peerid.ip = ip
      · have hne : ip' ≠ ip := fun h => hpe (hip.trans h.symm)
        simp [peerTableFind, hip, hne]
      · rw [peerTableFind, List.find?_cons_of_neg (by simpa using hip)]
        rw [peerTableFind, List.find?_cons_of_neg (by simpa using hip)]
        exact ih

theorem Stamped.lifeUpdate {t : Tracker} (h : Stamped t.pt own ip stamp) (ctrInfo : TtopControlInfo) (ip' : UInt32) :
    Stamped (t.lifeUpdate ctrInfo ip').pt own ip
      (if ip' = ip then stamp + ctrInfo.interval.toBitVec.signExtend 64 else stamp) := by
  obtain ⟨e, hfind, hown, hstamp⟩ := h
  unfold Tracker.lifeUpdate
  split
  · next hnone =>
    have hne : ip' ≠ ip := by
      rintro rfl
      rw [hfind] at hnone
      cases hnone
    rw [if_neg hne]
    exact ⟨e, hfind, hown, hstamp⟩
  · have hmodify := find_modify
      (fun pe => { pe with timestamp := pe.timestamp + ctrInfo.interval.toBitVec.signExtend 64 }) (fun pe => rfl) t.pt
      ip ip'
    rw [hfind] at hmodify
    split_ifs at hmodify ⊢ with hip
    · refine ⟨_, hmodify, hown, ?_⟩
      rw [← hstamp]
    · exact ⟨e, hmodify, hown, hstamp⟩

theorem Stamped.perform {t : Tracker} (h : Stamped t.pt own ip stamp) (ctrInfo : TtopControlInfo)
    {act : PeerActivity} (hact : act.SparesPeer own ip conn) :
    Stamped (t.perform ctrInfo conn act).1.pt own ip
      (if beat ip (.perform conn act) = some .pulse then stamp + ctrInfo.interval.toBitVec.signExtend 64
        else stamp) := by
  cases act with
  | register peerid now => exact h.add hact
  | lifeUpdate ip' =>
    have hbeat : beat ip (.perform conn (.lifeUpdate ip')) = some .pulse ↔ ip' = ip := by simp [beat]
    rw [if_congr hbeat rfl rfl]
    exact h.lifeUpdate ctrInfo ip'
  | sync tft => exact h
  | update tft => exact h
  | cleanup => exact h.delete hact

end Table

/-! ## The task and its peer -/

/-- The task as a watcher: the register is the timestamp of its peer. -/
def Sees (own : ℤ) (ip : UInt32) (s : AliveState) (w : Watch (BitVec 64)) : Prop :=
  Stamped s.tracker.pt own ip w.stamp ∧ s.task = ⟨w.last, w.ended⟩

section Runs
variable {ctrInfo : TtopControlInfo} {own : ℤ} {ip : UInt32} {s s' : AliveState} {w : Watch (BitVec 64)}
  {e : AliveEvent}

theorem sees_start (t : Tracker) (own : ℤ) (peerid : PeerId) (now : BitVec 64) :
    Sees own peerid.ip (startAlive t own peerid now) ⟨now, 0, false⟩ :=
  ⟨⟨⟨own, now, peerid⟩, List.find?_cons_of_pos (beq_self_eq_true _), rfl, rfl⟩, rfl⟩

theorem checkAlive_eq (h : Sees own ip s w) :
    checkAlive s.tracker.pt ip s.task = ⟨w.look.last, w.look.ended⟩ := by
  obtain ⟨⟨pe, hfind, -, hstamp⟩, htask⟩ := h
  rw [checkAlive, hfind, htask]
  dsimp only
  rw [hstamp, Watch.look]
  split_ifs <;> rfl

/-- An activity is a pulse when it is a keep-alive of the peer and is nothing to the task otherwise; a check is one. -/
theorem sees_step (h : Sees own ip s w) (hs : (checkingAlive ctrInfo own ip).step s e = some s') :
    ∃ w', (heartbeats (ctrInfo.interval.toBitVec.signExtend 64)).run w (beat ip e).toList = some w' ∧
      Sees own ip s' w' := by
  cases e with
  | perform conn act =>
    obtain ⟨hact, rfl⟩ : act.SparesPeer own ip conn ∧
        { s with tracker := (s.tracker.perform ctrInfo conn act).1 } = s' := by
      simpa [checkingAlive] using hs
    have hstamp := h.1.perform ctrInfo hact
    split_ifs at hstamp with hbeat
    · rw [hbeat]
      exact ⟨_, rfl, hstamp, h.2⟩
    · have hnone : beat ip (.perform conn act) = none := by
        cases act with
        | lifeUpdate ip' => simpa [beat] using hbeat
        | _ => rfl
      rw [hnone]
      exact ⟨w, rfl, hstamp, h.2⟩
  | check =>
    obtain ⟨hrun, rfl⟩ : s.task.cancelled = false ∧ { s with task := checkAlive s.tracker.pt ip s.task } = s' := by
      simpa [checkingAlive] using hs
    have hend : w.ended = false := by rwa [h.2] at hrun
    refine ⟨w.look, ?_, ?_, checkAlive_eq h⟩
    · show (if w.ended then none else some w.look).bind some = some w.look
      rw [hend]
      rfl
    · have hstamp : w.look.stamp = w.stamp := by
        unfold Watch.look
        split_ifs <;> rfl
      rw [hstamp]
      exact h.1

/-- A run is, to the task, the keep-alives of its peer and its own checks. -/
theorem sees_run {es : List AliveEvent} (h : Sees own ip s w)
    (hrun : (checkingAlive ctrInfo own ip).run s es = some s') :
    ∃ w', (heartbeats (ctrInfo.interval.toBitVec.signExtend 64)).run w (beats ip es) = some w' ∧ Sees own ip s' w' :=
  System.run_simulates (fun _ _ _ _ => sees_step) h hrun

end Runs

/-! ## Timestamps -/

section Stamps
variable {interval : Int32} {k : ℕ}

theorem signExtend_interval (h : 0 < interval) :
    interval.toBitVec.signExtend 64 = BitVec.ofNat 64 interval.toInt.toNat := by
  have hpos : 0 < interval.toInt := Int32.lt_iff_toInt_lt.mp h
  have hlt := interval.toInt_lt
  apply BitVec.eq_of_toInt_eq
  rw [BitVec.toInt_signExtend_of_le (by decide), BitVec.toInt_ofNat', Int.toNat_of_nonneg hpos.le,
    Int.bmod_eq_of_le (by omega) (by omega)]
  rfl

theorem toNat_add_nsmul_interval (h : 0 < interval) (x : BitVec 64) (k : ℕ) :
    (x + k • interval.toBitVec.signExtend 64).toNat = (x.toNat + k * interval.toInt.toNat) % 2 ^ 64 := by
  rw [signExtend_interval h, nsmul_eq_mul, BitVec.natCast_eq_ofNat, ← BitVec.ofNat_mul, BitVec.toNat_add,
    BitVec.toNat_ofNat, Nat.add_mod_mod]

/-- Fewer than `2^32` keep-alives move a timestamp on by less than `2^63`. -/
theorem mul_interval_lt (interval : Int32) (hk : k < 2 ^ 32) : k * interval.toInt.toNat < 2 ^ 63 := by
  have hlt := interval.toInt_lt
  have hle : interval.toInt.toNat ≤ 2 ^ 31 - 1 := by omega
  calc k * interval.toInt.toNat ≤ (2 ^ 32 - 1) * (2 ^ 31 - 1) := Nat.mul_le_mul (by omega) hle
    _ < 2 ^ 63 := by decide

theorem interval_nsmul_eq_zero (h : 0 < interval) (hk : k < 2 ^ 32) :
    k • interval.toBitVec.signExtend 64 = 0 ↔ k = 0 := by
  constructor
  · intro hzero
    have hnat : (0 + k • interval.toBitVec.signExtend 64).toNat = 0 := by
      rw [zero_add, hzero]
      rfl
    have hlt := (mul_interval_lt interval hk).trans (show 2 ^ 63 < 2 ^ 64 by decide)
    rw [toNat_add_nsmul_interval h, show (0 : BitVec 64).toNat = 0 from rfl, Nat.zero_add, Nat.mod_eq_of_lt hlt] at hnat
    have hpos : 0 < interval.toInt := Int32.lt_iff_toInt_lt.mp h
    rcases Nat.mul_eq_zero.mp hnat with hk0 | hi0
    · exact hk0
    · omega
  · rintro rfl
    exact zero_nsmul _

/-- A time that the clock gives is not brought to zero, which is what the task starts with. -/
theorem stamp_ne_zero (h : 0 < interval) (hk : k < 2 ^ 32) {now : BitVec 64} (hnow : 0 < now.toNat)
    (hclock : now.toNat < 2 ^ 63) : now + k • interval.toBitVec.signExtend 64 ≠ 0 := by
  intro hzero
  have hnat : (now + k • interval.toBitVec.signExtend 64).toNat = 0 := by
    rw [hzero]
    rfl
  have hlt := mul_interval_lt interval hk
  rw [toNat_add_nsmul_interval h, Nat.mod_eq_of_lt (by omega)] at hnat
  omega

end Stamps

/-! ## The checks of a run -/

theorem check_mem_beats (ip : UInt32) (es : List AliveEvent) : .check ∈ beats ip es ↔ .check ∈ es := by
  rw [beats, List.mem_filterMap]
  constructor
  · rintro ⟨e, he, hbeat⟩
    cases e with
    | check => exact he
    | perform conn act =>
      cases act with
      | lifeUpdate ip' =>
        simp only [beat] at hbeat
        split_ifs at hbeat
        cases hbeat
      | _ => cases hbeat
  · exact fun he => ⟨.check, he, rfl⟩

/-- However the keep-alives of all peers, the other activities of the tracker and the checks follow each other: a check
cancels the receiver of its peer when it has a check before it and no keep-alive of the peer in between, and only then.
What it does depends on the keep-alives of its own peer and on its own checks alone. -/
theorem cancels_iff_silent {ctrInfo : TtopControlInfo} (hinterval : 0 < ctrInfo.interval) (t : Tracker) (own : ℤ)
    (peerid : PeerId) {now : BitVec 64} (hnow : 0 < now.toNat) (hclock : now.toNat < 2 ^ 63) {es : List AliveEvent}
    {s s' : AliveState} (hrun : (checkingAlive ctrInfo own peerid.ip).run (startAlive t own peerid now) es = some s)
    (hfew : keepAlives peerid.ip es < 2 ^ 32) (hcheck : (checkingAlive ctrInfo own peerid.ip).step s .check = some s') :
    (s'.task.cancelled = true ↔ .check ∈ es ∧ keepAlives peerid.ip es = 0) ∧
      ∀ t' es' u u', (checkingAlive ctrInfo own peerid.ip).run (startAlive t' own peerid now) es' = some u →
        beats peerid.ip es' = beats peerid.ip es →
        (checkingAlive ctrInfo own peerid.ip).step u .check = some u' → u'.task = s'.task := by
  obtain ⟨w, hw, hsees⟩ := sees_run (sees_start t own peerid now) hrun
  obtain ⟨w', hw', hsees'⟩ := sees_step hsees hcheck
  have hstep : (heartbeats (ctrInfo.interval.toBitVec.signExtend 64)).step w .check = some w' := by
    obtain ⟨w₁, h₁, hnil⟩ := System.run_cons_eq_some.mp hw'
    exact h₁.trans hnil
  constructor
  · rw [show s'.task.cancelled = w'.ended from congrArg CheckAlive.cancelled hsees'.2, gives_up_iff hw hstep,
      ← check_mem_beats peerid.ip es]
    split_ifs with hmem
    · exact (interval_nsmul_eq_zero hinterval hfew).trans (and_iff_right hmem).symm
    · exact iff_of_false (stamp_ne_zero hinterval hfew hnow hclock) fun h => hmem h.1
  · intro t' es' u u' hrun' hbeats hcheck'
    obtain ⟨v, hv, hseesv⟩ := sees_run (sees_start t' own peerid now) hrun'
    obtain rfl : v = w := by
      rw [hbeats, hw] at hv
      exact (Option.some.inj hv).symm
    obtain ⟨v', hv', hseesv'⟩ := sees_step hseesv hcheck'
    obtain rfl : v' = w' := Option.some.inj (hv'.symm.trans hw')
    rw [hseesv'.2, hsees'.2]

/-- Another peer registers and sends its keep-alive between two checks; the silent peer is given up, with a keep-alive
of its own it is not. -/
theorem cancels_iff_silent_two_peers :
    let checking := checkingAlive ⟨10000000, 100000⟩ 4 9
    let start := startAlive ⟨fileTableInit, []⟩ 4 ⟨9, P2P_PORT⟩ 1
    let silent : List AliveEvent := [.check, .perform 5 (.register ⟨8, P2P_PORT⟩ 2), .perform 5 (.lifeUpdate 8)]
    (∃ s s', checking.run start silent = some s ∧ checking.step s .check = some s' ∧ s'.task.cancelled = true) ∧
      ∃ s s', checking.run start (silent ++ [.perform 4 (.lifeUpdate 9)]) = some s ∧
        checking.step s .check = some s' ∧ ¬ s'.task.cancelled = true := by
  intro checking start silent
  have hsilent := @cancels_iff_silent ⟨10000000, 100000⟩ (by decide) ⟨fileTableInit, []⟩ 4 ⟨9, P2P_PORT⟩ 1 (by decide)
    (by decide) silent _ _ rfl (by decide) rfl
  have hlive := @cancels_iff_silent ⟨10000000, 100000⟩ (by decide) ⟨fileTableInit, []⟩ 4 ⟨9, P2P_PORT⟩ 1 (by decide)
    (by decide) (silent ++ [.perform 4 (.lifeUpdate 9)]) _ _ rfl (by decide) rfl
  exact ⟨⟨_, _, rfl, rfl, hsilent.1.mpr (by decide)⟩, _, _, rfl, rfl, fun h => absurd (hlive.1.mp h) (by decide)⟩

end TeleSync
