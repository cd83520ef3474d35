import TeleSync.Lib.Transition

/-!
# Heartbeats counted in a register

Every pulse adds a step to a register. A watcher looks at the register from time to time, remembers what it saw and
gives up when it sees the same again.

* `Watch`, `heartbeats` : the register, what the watcher remembers, and the pulses and checks in any order;
* `pulsesSince` : the pulses since the last check;
* `Counts` : what the register and the memory are after a run;
* `gives_up_iff` : a check gives up exactly when the pulses since the last one add up to nothing.
-/

namespace Heartbeat
open Transition

inductive Beat where
  | pulse
  | check
  deriving DecidableEq

/-- The register, the value that the watcher saw last, and whether it has given up. -/
structure Watch (G : Type*) where
  stamp : G
  last : G
  ended : Bool
  deriving DecidableEq

variable {G : Type*} [DecidableEq G]

/-- Look at the register. -/
def Watch.look (w : Watch G) : Watch G :=
  if w.stamp = w.last then { w with ended := true } else { w with last := w.stamp }

/-- Pulses add `d`; a watcher that has given up makes no more checks. -/
def heartbeats [Add G] (d : G) : System (Watch G) Beat where
  step w
    | .pulse => some { w with stamp := w.stamp + d }
    | .check => if w.ended then none else some w.look

/-- The pulses since the last check, or since the start. -/
def pulsesSince (bs : List Beat) : ℕ :=
  bs.foldl (fun k b => match b with | .pulse => k + 1 | .check => 0) 0

theorem pulsesSince_pulse (bs : List Beat) : pulsesSince (bs ++ [.pulse]) = pulsesSince bs + 1 := by
  rw [pulsesSince, List.foldl_append]
  rfl

theorem pulsesSince_check (bs : List Beat) : pulsesSince (bs ++ [.check]) = 0 := by
  rw [pulsesSince, List.foldl_append]
  rfl

section Runs
variable [AddCommGroup G] {d : G} {w₀ w w' : Watch G} {bs : List Beat}

/-- After `bs` the register is ahead by the pulses since the last check: ahead of what the watcher remembers or, before
the first check, of where it started. -/
structure Counts (d : G) (w₀ : Watch G) (bs : List Beat) (w : Watch G) : Prop where
  checked : .check ∈ bs → w.ended = false → w.stamp = w.last + pulsesSince bs • d
  unchecked : .check ∉ bs → w.last = w₀.last ∧ w.stamp = w₀.stamp + pulsesSince bs • d

omit [DecidableEq G] in
theorem Counts.pulse (h : Counts d w₀ bs w) :
    Counts d w₀ (bs ++ [.pulse]) { w with stamp := w.stamp + d } := by
  have hmem : Beat.check ∈ bs ++ [.pulse] ↔ Beat.check ∈ bs := by simp
  constructor
  · intro hc hrun
    rw [pulsesSince_pulse, succ_nsmul, ← add_assoc, ← h.checked (hmem.mp hc) hrun]
  · intro hc
    obtain ⟨hlast, hstamp⟩ := h.unchecked fun hb => hc (hmem.mpr hb)
    refine ⟨hlast, ?_⟩
    rw [pulsesSince_pulse, succ_nsmul, ← add_assoc, ← hstamp]

omit [DecidableEq G] in
/-- When the register is where it was last seen. -/
theorem Counts.stamp_eq_last_iff (h : Counts d w₀ bs w) (hrun : w.ended = false) :
    w.stamp = w.last ↔
      if .check ∈ bs then pulsesSince bs • d = 0 else w₀.stamp + pulsesSince bs • d = w₀.last := by
  split_ifs with hc
  · rw [h.checked hc hrun, add_eq_left]
  · obtain ⟨hlast, hstamp⟩ := h.unchecked hc
    rw [hlast, hstamp]

theorem counts_check (w₀ : Watch G) (bs : List Beat) (w : Watch G) : Counts d w₀ (bs ++ [.check]) w.look := by
  have hmem : Beat.check ∈ bs ++ [.check] := List.mem_append_right bs List.mem_cons_self
  refine ⟨fun _ hrun => ?_, fun hc => absurd hmem hc⟩
  rw [pulsesSince_check, zero_nsmul, add_zero]
  unfold Watch.look at hrun ⊢
  split_ifs with heq
  · exact heq
  · rfl

theorem counts_of_run (hrun : (heartbeats d).run w₀ bs = some w) : Counts d w₀ bs w := by
  induction bs using List.reverseRecOn generalizing w with
  | nil =>
    rw [System.run_nil, Option.some.injEq] at hrun
    subst hrun
    refine ⟨fun hc => absurd hc List.not_mem_nil, fun _ => ⟨rfl, ?_⟩⟩
    rw [pulsesSince, List.foldl_nil, zero_nsmul, add_zero]
  | append_singleton bs b ih =>
    obtain ⟨w₁, h₁, hlast⟩ := System.run_append_eq_some.mp hrun
    obtain ⟨w₂, hstep, hnil⟩ := System.run_cons_eq_some.mp hlast
    obtain rfl : w₂ = w := Option.some.inj hnil
    cases b with
    | pulse =>
      obtain rfl : { w₁ with stamp := w₁.stamp + d } = w₂ := Option.some.inj hstep
      exact (ih h₁).pulse
    | check =>
      obtain ⟨-, rfl⟩ : w₁.ended = false ∧ w₁.look = w₂ := by simpa [heartbeats] using hstep
      exact counts_check w₀ bs w₁

/-- The watcher gives up at a check when the pulses since the last one have brought the register back to where it was,
at the first check when they have brought it to the value that the watcher started with. -/
theorem gives_up_iff (hrun : (heartbeats d).run w₀ bs = some w) (hcheck : (heartbeats d).step w .check = some w') :
    w'.ended = true ↔
      if .check ∈ bs then pulsesSince bs • d = 0 else w₀.stamp + pulsesSince bs • d = w₀.last := by
  obtain ⟨hend, rfl⟩ : w.ended = false ∧ w.look = w' := by simpa [heartbeats] using hcheck
  rw [← (counts_of_run hrun).stamp_eq_last_iff hend, Watch.look]
  split_ifs with heq
  · exact iff_of_true rfl heq
  · exact iff_of_false (by rw [hend]; exact Bool.false_ne_true) heq

end Runs

end Heartbeat
