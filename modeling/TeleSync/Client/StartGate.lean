import TeleSync.Lib.Transition
import TeleSync.Monitor.Table

/-!
# Waiting for the file monitor

`client_start` creates the thread of the file monitor, then initialises `targ.wait` and waits there for what the thread
reports.

* `startGate` : the calls of `pthread_wait.c` that both make, in any order, with wake-ups that nobody asked for;
* `GateInv` : the status says what was reported, and the client goes on only with that;
* `past_iff`, `run_lost` : the report ends the wait exactly when it comes during it, and an earlier one is lost.
-/

namespace TeleSync
open Program Transition

/-! ## The two threads -/

/-- `enum thread_status` -/
inductive ThreadStatus where
  | failed
  | running
  | terminated
  deriving DecidableEq

/-- `client_start`, once it has created the thread of the file monitor. -/
inductive GateWaiter where
  /-- comes to `pthread_wait_init` -/
  | created
  /-- comes to `pthread_wait_for` -/
  | ready
  /-- in `pthread_cond_wait` -/
  | waiting
  /-- comes to its look at the status -/
  | woken
  /-- goes on to `sync_files` -/
  | synced
  /-- returns -/
  | gaveUp
  deriving DecidableEq

/-- The wait is over. -/
def GateWaiter.Past : GateWaiter → Prop
  | .created => False
  | .ready => False
  | .waiting => False
  | .woken => True
  | .synced => True
  | .gaveUp => True

structure StartGate where
  status : ThreadStatus
  client : GateWaiter
  /-- the file monitor has made its call of `pthread_wait_notify` -/
  reported : Bool

/-- `targ` is zeroed. -/
def StartGate.start : StartGate := ⟨.failed, .created, false⟩

inductive GateEvent where
  | waitInit
  /-- `pthread_wait_for`, up to where `pthread_cond_wait` has given the mutex back -/
  | waitFor
  | notify
  /-- `pthread_cond_wait` returns without a signal -/
  | wakeUp
  | check
  deriving DecidableEq

/-- The threads; the file monitor reports `report`, if it comes to that. -/
def startGate (report : Option ThreadStatus) : System StartGate GateEvent where
  step s
    | .waitInit => if s.client = .created then some { s with status := .failed, client := .ready } else none
    | .waitFor => if s.client = .ready then some { s with client := .waiting } else none
    | .notify =>
      if s.reported = false then
        report.map fun status => ⟨status, if s.client = .waiting then .woken else s.client, true⟩
      else none
    | .wakeUp => if s.client = .waiting then some { s with client := .woken } else none
    | .check =>
      if s.client = .woken then some { s with client := if s.status = .failed then .gaveUp else .synced } else none

/-- What `file_monitor_task` reports, with `fd` from `inotify_init`; without a descriptor it ends and reports nothing. -/
def monitorReport (fd : ℤ) (K : Kernel) (dirs : List (CString × Directory)) (m : MonitorTable) : Option ThreadStatus :=
  if fd < 0 then none else (fileMonitorTask K dirs m).1.map fun ret => if ret ≠ 0 then .failed else .running

section Gate
variable {report : Option ThreadStatus} {s s' : StartGate} {e : GateEvent} {es : List GateEvent}

theorem startGate_cases (h : (startGate report).step s e = some s') :
    (e = .waitInit ∧ s.client = .created ∧ s' = { s with status := .failed, client := .ready }) ∨
    (e = .waitFor ∧ s.client = .ready ∧ s' = { s with client := .waiting }) ∨
    (e = .notify ∧ s.reported = false ∧ ∃ status, report = some status ∧
      s' = ⟨status, if s.client = .waiting then .woken else s.client, true⟩) ∨
    (e = .wakeUp ∧ s.client = .waiting ∧ s' = { s with client := .woken }) ∨
    (e = .check ∧ s.client = .woken ∧
      s' = { s with client := if s.status = .failed then .gaveUp else .synced }) := by
  cases e with
  | waitInit =>
    obtain ⟨hcreated, h⟩ := Option.ite_none_right_eq_some.mp h
    exact Or.inl ⟨rfl, hcreated, (Option.some.inj h).symm⟩
  | waitFor =>
    obtain ⟨hready, h⟩ := Option.ite_none_right_eq_some.mp h
    exact Or.inr (Or.inl ⟨rfl, hready, (Option.some.inj h).symm⟩)
  | notify =>
    obtain ⟨hfirst, h⟩ := Option.ite_none_right_eq_some.mp h
    obtain ⟨status, hreport, heq⟩ := Option.map_eq_some_iff.mp h
    exact Or.inr (Or.inr (Or.inl ⟨rfl, hfirst, status, hreport, heq.symm⟩))
  | wakeUp =>
    obtain ⟨hwaiting, h⟩ := Option.ite_none_right_eq_some.mp h
    exact Or.inr (Or.inr (Or.inr (Or.inl ⟨rfl, hwaiting, (Option.some.inj h).symm⟩)))
  | check =>
    obtain ⟨hwoken, h⟩ := Option.ite_none_right_eq_some.mp h
    exact Or.inr (Or.inr (Or.inr (Or.inr ⟨rfl, hwoken, (Option.some.inj h).symm⟩)))

/-! ## What the client goes on with -/

structure GateInv (report : Option ThreadStatus) (s : StartGate) : Prop where
  status : s.status ≠ .failed → s.reported = true ∧ report = some s.status
  synced : s.client = .synced → s.status ≠ .failed

theorem gateInv_start : GateInv report .start := ⟨fun h => absurd rfl h, nofun⟩

theorem GateInv.step (h : GateInv report s) (hs : (startGate report).step s e = some s') : GateInv report s' := by
  obtain ⟨-, -, rfl⟩ | ⟨-, -, rfl⟩ | ⟨-, hfirst, status, hreport, rfl⟩ | ⟨-, -, rfl⟩ | ⟨-, -, rfl⟩ :=
    startGate_cases hs
  · exact ⟨fun hne => absurd rfl hne, fun heq => by cases heq⟩
  · exact ⟨h.status, fun heq => by cases heq⟩
  · refine ⟨fun _ => ⟨rfl, hreport⟩, fun heq => ?_⟩
    dsimp only at heq
    split_ifs at heq
    -- a client that has gone on has had its report
    have hreported := (h.status (h.synced heq)).1
    rw [hfirst] at hreported
    cases hreported
  · exact ⟨h.status, fun heq => by cases heq⟩
  · refine ⟨h.status, fun heq => ?_⟩
    dsimp only at heq
    split_ifs at heq with hfailed
    exact hfailed

/-! ## When the wait ends -/

theorem past_step (h : s.client.Past) (hs : (startGate report).step s e = some s') : s'.client.Past := by
  obtain ⟨-, hcreated, -⟩ | ⟨-, hready, -⟩ | ⟨-, -, status, -, rfl⟩ | ⟨-, -, rfl⟩ | ⟨-, -, rfl⟩ := startGate_cases hs
  · rw [hcreated] at h
    exact h.elim
  · rw [hready] at h
    exact h.elim
  · dsimp only
    split_ifs
    · trivial
    · exact h
  · trivial
  · dsimp only
    split_ifs
    · trivial
    · trivial

/-- Only a report during the wait ends it, if nothing wakes the client without one. -/
theorem past_of_step (hspurious : e ≠ .wakeUp) (hs : (startGate report).step s e = some s') (h : s'.client.Past) :
    s.client.Past ∨ e = .notify ∧ s.client = .waiting := by
  obtain ⟨-, -, rfl⟩ | ⟨-, -, rfl⟩ | ⟨hnotify, -, status, -, rfl⟩ | ⟨hwake, -, -⟩ | ⟨-, hwoken, -⟩ := startGate_cases hs
  · exact h.elim
  · exact h.elim
  · dsimp only at h
    split_ifs at h with hwaiting
    · exact Or.inr ⟨hnotify, hwaiting⟩
    · exact Or.inl h
  · exact absurd hwake hspurious
  · rw [hwoken]
    exact Or.inl trivial

theorem reported_step (h : s.reported = true) (hs : (startGate report).step s e = some s') :
    s'.reported = true ∧ e ≠ .notify := by
  obtain ⟨rfl, -, rfl⟩ | ⟨rfl, -, rfl⟩ | ⟨-, hfirst, -⟩ | ⟨rfl, -, rfl⟩ | ⟨rfl, -, rfl⟩ := startGate_cases hs
  · exact ⟨h, by decide⟩
  · exact ⟨h, by decide⟩
  · rw [h] at hfirst
    cases hfirst
  · exact ⟨h, by decide⟩
  · exact ⟨h, by decide⟩

theorem past_iff (hrun : (startGate report).run .start es = some s) (hspurious : .wakeUp ∉ es) :
    s.client.Past ↔ ∃ pre post s₀, es = pre ++ .notify :: post ∧ (startGate report).run .start pre = some s₀ ∧
      s₀.client = .waiting := by
  constructor
  · intro hpast
    induction es using List.reverseRecOn generalizing s with
    | nil =>
      obtain rfl := Option.some.inj hrun
      exact hpast.elim
    | append_singleton es e ih =>
      obtain ⟨s₁, hrun₁, hlast⟩ := System.run_append_eq_some.mp hrun
      obtain ⟨s₂, hs, hend⟩ := System.run_cons_eq_some.mp hlast
      obtain rfl := Option.some.inj hend
      rw [List.mem_append, List.mem_singleton, not_or] at hspurious
      rcases past_of_step (Ne.symm hspurious.2) hs hpast with hpast₁ | ⟨rfl, hwaiting⟩
      · obtain ⟨pre, post, s₀, rfl, hpre, hwaiting⟩ := ih hrun₁ hspurious.1 hpast₁
        exact ⟨pre, post ++ [e], s₀, by simp, hpre, hwaiting⟩
      · exact ⟨es, [], s₁, rfl, hrun₁, hwaiting⟩
  · rintro ⟨pre, post, s₀, rfl, hpre, hwaiting⟩
    obtain ⟨s₁, hpre', hrest⟩ := System.run_append_eq_some.mp hrun
    obtain rfl : s₀ = s₁ := Option.some.inj (hpre.symm.trans hpre')
    obtain ⟨s₂, hs, hpost⟩ := System.run_cons_eq_some.mp hrest
    have hpast : s₂.client.Past := by
      obtain ⟨-, hs⟩ := Option.ite_none_right_eq_some.mp hs
      obtain ⟨status, -, rfl⟩ := Option.map_eq_some_iff.mp hs
      dsimp only
      rw [if_pos hwaiting]
      trivial
    exact System.run_invariant (fun _ _ _ h hs => past_step h hs) hpast hpost

/-- When the report has not ended the wait, nothing will. -/
theorem run_lost (hreported : s.reported = true) (hstill : ¬ s.client.Past)
    (hrun : (startGate report).run s es = some s') (hspurious : .wakeUp ∉ es) : ¬ s'.client.Past := by
  induction es generalizing s with
  | nil =>
    obtain rfl := Option.some.inj hrun
    exact hstill
  | cons e es ih =>
    obtain ⟨s₁, hs, hrest⟩ := System.run_cons_eq_some.mp hrun
    rw [List.mem_cons, not_or] at hspurious
    obtain ⟨hreported₁, hne⟩ := reported_step hreported hs
    refine ih hreported₁ (fun hpast => ?_) hrest hspurious.2
    rcases past_of_step (Ne.symm hspurious.1) hs hpast with h | ⟨h, -⟩
    · exact hstill h
    · exact hne h

/-- **Start-up.** In every order of the two threads: the client goes on to `sync_files` only when the file monitor has a
descriptor and its loop over the directories came to 0. Unless it wakes up unasked, its wait ends exactly when the
report comes while it waits; after an earlier report it waits for ever. -/
theorem client_start_waits (fd : ℤ) (K : Kernel) (dirs : List (CString × Directory)) (m : MonitorTable)
    (hrun : (startGate (monitorReport fd K dirs m)).run .start es = some s) :
    (s.client = .synced → 0 ≤ fd ∧ (fileMonitorTask K dirs m).1 = some 0) ∧
    (.wakeUp ∉ es → (s.client.Past ↔ ∃ pre post s₀, es = pre ++ .notify :: post ∧
      (startGate (monitorReport fd K dirs m)).run .start pre = some s₀ ∧ s₀.client = .waiting)) ∧
    (s.reported = true → ¬ s.client.Past → ∀ es' s', (startGate (monitorReport fd K dirs m)).run s es' = some s' →
      .wakeUp ∉ es' → ¬ s'.client.Past) := by
  refine ⟨fun hsynced => ?_, past_iff hrun, fun hreported hstill es' s' => run_lost hreported hstill⟩
  have hinv : GateInv (monitorReport fd K dirs m) s := System.run_invariant (fun _ _ _ h hs => h.step hs) gateInv_start hrun
  have hstatus := hinv.synced hsynced
  have hreport := (hinv.status hstatus).2
  unfold monitorReport at hreport
  split_ifs at hreport with hfd
  obtain ⟨ret, hret, hcode⟩ := Option.map_eq_some_iff.mp hreport
  split_ifs at hcode with hzero
  · exact absurd hcode.symm hstatus
  · exact ⟨not_lt.mp hfd, hret.trans (congrArg some (not_not.mp hzero))⟩

end Gate

/-! ## Two orders -/

/-- Descriptor 1 for every path. -/
def firstDescriptor : Kernel := ⟨fun _ _ _ => 1, fun _ _ => 0, fun _ => true⟩

/-- One configured directory, without entries. -/
def oneReadable : List (CString × Directory) := [([47, 97], .readable .nil)]

/-- In one order the client goes on; in the other the report is there first, and the client waits. -/
theorem client_start_waits_both_orders :
    (∃ s, (startGate (monitorReport 3 firstDescriptor oneReadable .empty)).run .start
        [.waitInit, .waitFor, .notify, .check] = some s ∧ s.client = .synced ∧
      (fileMonitorTask firstDescriptor oneReadable .empty).1 = some 0) ∧
    ∃ s, (startGate (monitorReport 3 firstDescriptor oneReadable .empty)).run .start
        [.notify, .waitInit, .waitFor] = some s ∧ s.client = .waiting ∧
      ∀ es' s', (startGate (monitorReport 3 firstDescriptor oneReadable .empty)).run s es' = some s' →
        .wakeUp ∉ es' → ¬ s'.client.Past := by
  have hreport : monitorReport 3 firstDescriptor oneReadable .empty = some .running := by decide +kernel
  have hintime : (startGate (monitorReport 3 firstDescriptor oneReadable .empty)).run .start
      [.waitInit, .waitFor, .notify, .check] = some ⟨.running, .synced, true⟩ := by
    rw [hreport]
    rfl
  have hearly : (startGate (monitorReport 3 firstDescriptor oneReadable .empty)).run .start
      [.notify, .waitInit, .waitFor] = some ⟨.failed, .waiting, true⟩ := by
    rw [hreport]
    rfl
  exact ⟨⟨_, hintime, rfl, ((client_start_waits 3 _ _ _ hintime).1 rfl).2⟩,
    _, hearly, rfl, (client_start_waits 3 _ _ _ hearly).2.2 rfl id⟩

end TeleSync
