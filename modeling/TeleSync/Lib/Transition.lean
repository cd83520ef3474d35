import Mathlib

/-!
# Runs, invariants and refinement

* `Machine` : a total machine that answers every call; `Machine.run` collects the answers, and
  `Machine.run_refines` gives equal answers from a relation that every call keeps;
* `Fuelled.runFrom`, `Fuelled.exists_runFrom` : machines that may get stuck, and when they do not;
* `System` : a guarded step function, `none` where the event is not enabled; `System.run` plays a
  list of events;
* `System.run_invariant` : what every step keeps holds after every run;
* `System.RunMeets` : a condition on the state before each step of a run, and
  `System.runMeets_invariant` : what every step under the condition keeps;
* `System.run_iff_runMeets` : the condition decides the property, step by step and so for the run;
* `System.Always` : a property of every state that a run passes through; `System.always_iff_runMeets` and
  `System.always_iff_runMeets_guarded` : the condition decides whether it stays, `System.always_of_runMeets` : the
  condition is enough;
* `System.run_simulates` : a run of one system as a run of another;
* `System.exists_run_within`, `System.exists_run_of_measure` : a goal that steps (of some kind) can work towards
  is reached by some run (of them);
* `System.length_run_add_le` : a measure that every step brings down bounds the runs.
-/

namespace Transition

/-! ## Machines with answers -/

/-- A machine with state `σ`, calls `ι` and answers `o`. -/
structure Machine (σ ι o : Type*) where
  init : σ
  step : σ → ι → σ × o

namespace Machine

variable {σ τ ι o : Type*}

/-- The state and the answers after a list of calls from `s`. -/
def runFrom (M : Machine σ ι o) (s : σ) : List ι → σ × List o
  | [] => (s, [])
  | c :: cs =>
    let p := M.step s c
    let q := M.runFrom p.1 cs
    (q.1, p.2 :: q.2)

def run (M : Machine σ ι o) (cs : List ι) : σ × List o := M.runFrom M.init cs

theorem runFrom_refines {M : Machine σ ι o} {N : Machine τ ι o} {R : σ → τ → Prop}
    (hstep : ∀ s t c, R s t → R (M.step s c).1 (N.step t c).1 ∧ (M.step s c).2 = (N.step t c).2)
    {s : σ} {t : τ} (h : R s t) (cs : List ι) :
    R (M.runFrom s cs).1 (N.runFrom t cs).1 ∧ (M.runFrom s cs).2 = (N.runFrom t cs).2 := by
  induction cs generalizing s t with
  | nil => exact ⟨h, rfl⟩
  | cons c cs ih =>
    obtain ⟨h1, h2⟩ := hstep s t c h
    obtain ⟨h3, h4⟩ := ih h1
    exact ⟨h3, congrArg₂ List.cons h2 h4⟩

/-- Machines related call by call end in related states with the same answers. -/
theorem run_refines {M : Machine σ ι o} {N : Machine τ ι o} {R : σ → τ → Prop} (h0 : R M.init N.init)
    (hstep : ∀ s t c, R s t → R (M.step s c).1 (N.step t c).1 ∧ (M.step s c).2 = (N.step t c).2)
    (cs : List ι) : R (M.run cs).1 (N.run cs).1 ∧ (M.run cs).2 = (N.run cs).2 :=
  runFrom_refines hstep h0 cs

end Machine

/-! ## Machines that need fuel -/

/-- A machine whose calls may get stuck, or take more rounds than the fuel they are given. -/
structure Fuelled (σ ι o : Type*) where
  step : ℕ → σ → ι → Option (σ × o)

namespace Fuelled

variable {σ τ ι o : Type*}

/-- The state and the answers after a list of calls from `s`. -/
def runFrom (M : Fuelled σ ι o) (fuel : ℕ) (s : σ) : List ι → Option (σ × List o)
  | [] => some (s, [])
  | c :: cs => (M.step fuel s c).bind fun p => (M.runFrom fuel p.1 cs).map fun q => (q.1, p.2 :: q.2)

/-- With enough fuel for each call, a run comes to an end as that of another machine does, whose calls differ from those
of the run by `P`, and not at all as long as `ok` holds. -/
theorem exists_runFrom {M : Fuelled σ ι o} {N : Machine τ ι o} {R : σ → τ → Prop} (ok : σ → Prop) {P : ι → ι → Prop}
    (hstep : ∀ s t c, R s t → ∃ c' s', (∀ᶠ fuel in Filter.atTop, M.step fuel s c = some (s', (N.step t c').2)) ∧
      R s' (N.step t c').1 ∧ P c c' ∧ (ok s' → ok s ∧ c' = c)) {s : σ} {t : τ} (h : R s t) (cs : List ι) :
    ∃ cs' s', (∀ᶠ fuel in Filter.atTop, M.runFrom fuel s cs = some (s', (N.runFrom t cs').2)) ∧
      R s' (N.runFrom t cs').1 ∧ List.Forall₂ P cs cs' ∧ (ok s' → ok s ∧ cs' = cs) := by
  induction cs generalizing s t with
  | nil => exact ⟨[], s, .of_forall fun _ => rfl, h, .nil, fun hok => ⟨hok, rfl⟩⟩
  | cons c cs ih =>
    obtain ⟨c', s₁, hc, h₁, hP, hok₁⟩ := hstep s t c h
    obtain ⟨cs', s', hcs, h', hPs, hok'⟩ := ih h₁
    refine ⟨c' :: cs', s', ?_, h', .cons hP hPs, fun hok => ?_⟩
    · filter_upwards [hc, hcs] with fuel hc hcs
      rw [runFrom, hc, Option.bind_some, hcs]
      rfl
    · obtain ⟨hok, rfl⟩ := hok' hok
      obtain ⟨hok, rfl⟩ := hok₁ hok
      exact ⟨hok, rfl⟩

end Fuelled

/-! ## Guarded systems -/

/-- A system whose event `e` is enabled in `s` when `step s e` is `some` state. -/
structure System (σ ε : Type*) where
  step : σ → ε → Option σ

namespace System

variable {σ ε : Type*} (S : System σ ε)

/-- Play the events in order; `none` as soon as one is not enabled. -/
def run (s : σ) : List ε → Option σ
  | [] => some s
  | e :: es => (S.step s e).bind fun s' => run s' es

/-- Every step of the run from `s` meets `ok` in the state before it. -/
def RunMeets (ok : σ → ε → Prop) (s : σ) : List ε → Prop
  | [] => True
  | e :: es => ok s e ∧ ∀ s', S.step s e = some s' → RunMeets ok s' es

/-- `P` holds in `s` and in every state that the run from there passes through. -/
def Always (P : σ → Prop) (s : σ) : List ε → Prop
  | [] => P s
  | e :: es => P s ∧ ∀ s', S.step s e = some s' → Always P s' es

/-- A condition that can be checked in each state can be checked along a run. -/
instance decidableRunMeets (ok : σ → ε → Prop) [∀ s e, Decidable (ok s e)] :
    ∀ (s : σ) (es : List ε), Decidable (S.RunMeets ok s es)
  | _, [] => isTrue trivial
  | s, e :: es =>
    have := fun s' => decidableRunMeets ok s' es
    inferInstanceAs (Decidable (ok s e ∧ ∀ s' ∈ S.step s e, S.RunMeets ok s' es))

variable {S}

@[simp] theorem run_nil (s : σ) : S.run s [] = some s := rfl

theorem run_cons_eq_some {s t : σ} {e : ε} {es : List ε} :
    S.run s (e :: es) = some t ↔ ∃ s', S.step s e = some s' ∧ S.run s' es = some t := by
  rw [run, Option.bind_eq_some_iff]

theorem runMeets_invariant {I : σ → Prop} {ok : σ → ε → Prop}
    (hstep : ∀ s e s', I s → ok s e → S.step s e = some s' → I s') {s t : σ} {es : List ε}
    (h0 : I s) (hok : S.RunMeets ok s es) (hrun : S.run s es = some t) : I t := by
  induction es generalizing s with
  | nil =>
    rw [run_nil, Option.some.injEq] at hrun
    exact hrun ▸ h0
  | cons e es ih =>
    obtain ⟨s', hs, hrest⟩ := run_cons_eq_some.mp hrun
    exact ih (hstep s e s' h0 hok.1 hs) (hok.2 s' hs) hrest

/-- Where a step gives `Q` exactly when it had `Q` before and met `ok`, so does a run. -/
theorem run_iff_runMeets {I Q : σ → Prop} {ok : σ → ε → Prop}
    (hkeep : ∀ s e s', I s → S.step s e = some s' → I s')
    (hstep : ∀ s e s', I s → S.step s e = some s' → (Q s' ↔ Q s ∧ ok s e)) {s t : σ} {es : List ε}
    (h0 : I s) (hrun : S.run s es = some t) : Q t ↔ Q s ∧ S.RunMeets ok s es := by
  induction es generalizing s with
  | nil =>
    rw [run_nil, Option.some.injEq] at hrun
    rw [hrun]
    exact (and_iff_left trivial).symm
  | cons e es ih =>
    obtain ⟨s', hs, hrest⟩ := run_cons_eq_some.mp hrun
    rw [ih (hkeep s e s' h0 hs) hrest, hstep s e s' h0 hs, and_assoc]
    refine and_congr_right fun _ => and_congr_right fun _ => ⟨fun h t' ht' => ?_, fun h => h s' hs⟩
    rw [hs, Option.some.injEq] at ht'
    exact ht' ▸ h

theorem Always.here {P : σ → Prop} {s : σ} {es : List ε} (h : S.Always P s es) : P s := by
  cases es with
  | nil => exact h
  | cons e es => exact h.1

theorem Always.last {P : σ → Prop} {s t : σ} {es : List ε} (h : S.Always P s es) (hrun : S.run s es = some t) :
    P t := by
  induction es generalizing s with
  | nil =>
    rw [run_nil, Option.some.injEq] at hrun
    exact hrun ▸ h
  | cons e es ih =>
    obtain ⟨s', hs, hrest⟩ := run_cons_eq_some.mp hrun
    exact ih (h.2 s' hs) hrest

/-- Where a step out of `Q` stays in `Q` exactly when it meets `ok`, and a step that is not enabled meets it, `Q` stays
along a run exactly when all steps meet it. -/
theorem always_iff_runMeets_guarded {I Q : σ → Prop} {E : ε → Prop} {ok : σ → ε → Prop}
    (hkeep : ∀ s e s', I s → S.step s e = some s' → I s')
    (hstep : ∀ s e s', I s → E e → Q s → S.step s e = some s' → (Q s' ↔ ok s e))
    (hoff : ∀ s e, I s → E e → Q s → S.step s e = none → ok s e) {s : σ} {es : List ε}
    (hes : ∀ e ∈ es, E e) (h0 : I s) (hq : Q s) : S.Always Q s es ↔ S.RunMeets ok s es := by
  induction es generalizing s with
  | nil => exact iff_of_true hq trivial
  | cons e es ih =>
    rw [List.forall_mem_cons] at hes
    cases hs : S.step s e with
    | none =>
      have hnot : ∀ t, S.step s e ≠ some t := fun t ht => Option.some_ne_none t (ht.symm.trans hs)
      exact iff_of_true ⟨hq, fun t ht => absurd ht (hnot t)⟩
        ⟨hoff s e h0 hes.1 hq hs, fun t ht => absurd ht (hnot t)⟩
    | some s' =>
      have hunique : ∀ t, S.step s e = some t → t = s' := fun t ht => Option.some.inj (ht.symm.trans hs)
      constructor
      · rintro ⟨-, hrest⟩
        have hq' := (hrest s' hs).here
        refine ⟨(hstep s e s' h0 hes.1 hq hs).mp hq', fun t ht => ?_⟩
        rw [hunique t ht]
        exact (ih hes.2 (hkeep s e s' h0 hs) hq').mp (hrest s' hs)
      · rintro ⟨hok, hrest⟩
        have hq' := (hstep s e s' h0 hes.1 hq hs).mpr hok
        refine ⟨hq, fun t ht => ?_⟩
        rw [hunique t ht]
        exact (ih hes.2 (hkeep s e s' h0 hs) hq').mpr (hrest s' hs)

theorem always_iff_runMeets {I Q : σ → Prop} {E : ε → Prop} {ok : σ → ε → Prop}
    (henabled : ∀ s e, ∃ s', S.step s e = some s')
    (hkeep : ∀ s e s', I s → S.step s e = some s' → I s')
    (hstep : ∀ s e s', I s → E e → Q s → S.step s e = some s' → (Q s' ↔ ok s e)) {s : σ} {es : List ε}
    (hes : ∀ e ∈ es, E e) (h0 : I s) (hq : Q s) : S.Always Q s es ↔ S.RunMeets ok s es := by
  refine always_iff_runMeets_guarded hkeep hstep (fun s e _ _ _ hs => ?_) hes h0 hq
  obtain ⟨s', hs'⟩ := henabled s e
  exact absurd (hs.symm.trans hs') (Option.some_ne_none s').symm

theorem always_of_runMeets {Q : σ → Prop} {ok : σ → ε → Prop}
    (hstep : ∀ s e s', Q s → ok s e → S.step s e = some s' → Q s') {s : σ} {es : List ε} (hq : Q s)
    (hok : S.RunMeets ok s es) : S.Always Q s es := by
  induction es generalizing s with
  | nil => exact hq
  | cons e es ih => exact ⟨hq, fun s' hs => ih (hstep s e s' hq hok.1 hs) (hok.2 s' hs)⟩

theorem Always.mono {P Q : σ → Prop} (hpq : ∀ s, P s → Q s) {s : σ} {es : List ε} (h : S.Always P s es) :
    S.Always Q s es := by
  induction es generalizing s with
  | nil => exact hpq s h
  | cons e es ih => exact ⟨hpq s h.1, fun s' hs => ih (h.2 s' hs)⟩

/-- What follows for a step from `P` before and after it holds of every step of a run that stays in `P`. -/
theorem Always.runMeets {P : σ → Prop} {ok : σ → ε → Prop} (henabled : ∀ s e, ∃ s', S.step s e = some s')
    (hok : ∀ s e s', P s → P s' → S.step s e = some s' → ok s e) {s : σ} {es : List ε} (h : S.Always P s es) :
    S.RunMeets ok s es := by
  induction es generalizing s with
  | nil => trivial
  | cons e es ih =>
    obtain ⟨s', hs⟩ := henabled s e
    exact ⟨hok s e s' h.1 (h.2 s' hs).here hs, fun t ht => ih (h.2 t ht)⟩

theorem Always.and {P Q : σ → Prop} {s : σ} {es : List ε} (hp : S.Always P s es) (hq : S.Always Q s es) :
    S.Always (fun s => P s ∧ Q s) s es := by
  induction es generalizing s with
  | nil => exact ⟨hp, hq⟩
  | cons e es ih => exact ⟨⟨hp.1, hq.1⟩, fun s' hs => ih (hp.2 s' hs) (hq.2 s' hs)⟩

theorem runMeets_of_mem {ok : ε → Prop} (s : σ) {es : List ε} (h : ∀ e ∈ es, ok e) :
    S.RunMeets (fun _ e => ok e) s es := by
  induction es generalizing s with
  | nil => trivial
  | cons e es ih =>
    rw [List.forall_mem_cons] at h
    exact ⟨h.1, fun s' _ => ih s' h.2⟩

theorem RunMeets.last {ok : σ → ε → Prop} {s t : σ} {es : List ε} {e : ε} (h : S.RunMeets ok s (es ++ [e]))
    (hrun : S.run s es = some t) : ok t e := by
  induction es generalizing s with
  | nil =>
    rw [run_nil, Option.some.injEq] at hrun
    exact hrun ▸ h.1
  | cons e' es ih =>
    obtain ⟨s', hs, hrest⟩ := run_cons_eq_some.mp hrun
    exact ih (h.2 s' hs) hrest

theorem RunMeets.append {ok : σ → ε → Prop} {s t : σ} {es es' : List ε} (h : S.RunMeets ok s es)
    (hrun : S.run s es = some t) (h' : S.RunMeets ok t es') : S.RunMeets ok s (es ++ es') := by
  induction es generalizing s with
  | nil =>
    rw [run_nil, Option.some.injEq] at hrun
    exact hrun ▸ h'
  | cons e es ih =>
    obtain ⟨s₁, hs, hrest⟩ := run_cons_eq_some.mp hrun
    refine ⟨h.1, fun s' hs' => ?_⟩
    obtain rfl : s₁ = s' := Option.some.inj (hs.symm.trans hs')
    exact ih (h.2 s₁ hs) hrest

theorem runMeets_congr {I : σ → Prop} {ok ok' : σ → ε → Prop} (hkeep : ∀ s e s', I s → S.step s e = some s' → I s')
    (hok : ∀ s e, I s → (ok s e ↔ ok' s e)) {s : σ} (h0 : I s) (es : List ε) :
    S.RunMeets ok s es ↔ S.RunMeets ok' s es := by
  induction es generalizing s with
  | nil => exact Iff.rfl
  | cons e es ih =>
    exact and_congr (hok s e h0) (forall_congr' fun s' => imp_congr_right fun hs => ih (hkeep s e s' h0 hs))

theorem runMeets_of_forall {ok : σ → ε → Prop} (h : ∀ s e, ok s e) (s : σ) (es : List ε) :
    S.RunMeets ok s es := by
  induction es generalizing s with
  | nil => trivial
  | cons e es ih => exact ⟨h s e, fun s' _ => ih s'⟩

/-- A run keeps what each step keeps. -/
theorem run_invariant {I : σ → Prop} (hstep : ∀ s e s', I s → S.step s e = some s' → I s')
    {s t : σ} {es : List ε} (h0 : I s) (hrun : S.run s es = some t) : I t :=
  have hok : S.RunMeets (fun _ _ => True) s es := runMeets_of_forall (fun _ _ => trivial) s es
  runMeets_invariant (fun s e s' h _ => hstep s e s' h) h0 hok hrun

/-- Where steps of kind `P` can bring a measure down until the goal is reached, a run of them reaches it. -/
theorem exists_run_within (μ : σ → ℕ) {I goal : σ → Prop} {P : ε → Prop}
    (hstep : ∀ s, I s → ¬ goal s → ∃ e s', P e ∧ S.step s e = some s' ∧ I s' ∧ μ s' < μ s) {s : σ} (h : I s) :
    ∃ es t, (∀ e ∈ es, P e) ∧ S.run s es = some t ∧ I t ∧ goal t := by
  induction hn : μ s using Nat.strong_induction_on generalizing s with
  | _ n ih =>
    by_cases hg : goal s
    · exact ⟨[], s, fun e he => absurd he List.not_mem_nil, rfl, h, hg⟩
    · obtain ⟨e, s', he, hs, hI, hlt⟩ := hstep s h hg
      obtain ⟨es, t, hes, hrun, ht⟩ := ih (μ s') (hn ▸ hlt) hI rfl
      exact ⟨e :: es, t, List.forall_mem_cons.mpr ⟨he, hes⟩, run_cons_eq_some.mpr ⟨s', hs, hrun⟩, ht⟩

/-- Where a measure can be brought down until the goal is reached, some run reaches it. -/
theorem exists_run_of_measure (μ : σ → ℕ) {I goal : σ → Prop}
    (hstep : ∀ s, I s → ¬ goal s → ∃ e s', S.step s e = some s' ∧ I s' ∧ μ s' < μ s) {s : σ} (h : I s) :
    ∃ es t, S.run s es = some t ∧ I t ∧ goal t := by
  have hwithin : ∀ s, I s → ¬ goal s → ∃ e s', True ∧ S.step s e = some s' ∧ I s' ∧ μ s' < μ s := by
    intro s hI hg
    obtain ⟨e, s', hs⟩ := hstep s hI hg
    exact ⟨e, s', trivial, hs⟩
  obtain ⟨es, t, -, ht⟩ := exists_run_within μ hwithin h
  exact ⟨es, t, ht⟩

theorem length_run_add_le (μ : σ → ℕ) {I : σ → Prop}
    (hstep : ∀ s e s', I s → S.step s e = some s' → I s' ∧ μ s' < μ s) {s t : σ} {es : List ε} (h0 : I s)
    (hrun : S.run s es = some t) : es.length + μ t ≤ μ s := by
  induction es generalizing s with
  | nil =>
    rw [run_nil, Option.some.injEq] at hrun
    rw [hrun]
    exact (Nat.zero_add _).le
  | cons e es ih =>
    obtain ⟨s', hs, hrest⟩ := run_cons_eq_some.mp hrun
    obtain ⟨hI, hlt⟩ := hstep s e s' h0 hs
    have hle := ih hI hrest
    rw [List.length_cons]
    omega

theorem run_append_eq_some {s t : σ} {es es' : List ε} :
    S.run s (es ++ es') = some t ↔ ∃ s', S.run s es = some s' ∧ S.run s' es' = some t := by
  induction es generalizing s with
  | nil => simp
  | cons e es ih =>
    rw [List.cons_append, run_cons_eq_some]
    constructor
    · rintro ⟨s₁, hs, hrest⟩
      obtain ⟨s', h1, h2⟩ := ih.mp hrest
      exact ⟨s', run_cons_eq_some.mpr ⟨s₁, hs, h1⟩, h2⟩
    · rintro ⟨s', h1, h2⟩
      obtain ⟨s₁, hs, h1⟩ := run_cons_eq_some.mp h1
      exact ⟨s₁, hs, ih.mpr ⟨s', h1, h2⟩⟩

/-- The steps of `T` that those of `S` stand for make up a run of `T`; where `f` is `none`, `T` stands still. -/
theorem run_simulates {τ δ : Type*} {T : System τ δ} {R : σ → τ → Prop} {f : ε → Option δ}
    (hstep : ∀ s t e s', R s t → S.step s e = some s' → ∃ t', T.run t (f e).toList = some t' ∧ R s' t')
    {s s' : σ} {t : τ} {es : List ε} (h : R s t) (hrun : S.run s es = some s') :
    ∃ t', T.run t (es.filterMap f) = some t' ∧ R s' t' := by
  induction es generalizing s t with
  | nil =>
    rw [run_nil, Option.some.injEq] at hrun
    exact ⟨t, rfl, hrun ▸ h⟩
  | cons e es ih =>
    obtain ⟨s₁, hs, hrest⟩ := run_cons_eq_some.mp hrun
    obtain ⟨t₁, ht, h₁⟩ := hstep s t e s₁ h hs
    obtain ⟨t', ht', h'⟩ := ih h₁ hrest
    have happend : (e :: es).filterMap f = (f e).toList ++ es.filterMap f := by
      rw [List.filterMap_cons]
      cases f e <;> rfl
    rw [happend]
    exact ⟨t', run_append_eq_some.mpr ⟨t₁, ht, ht'⟩, h'⟩

/-- Where each step of `S` under `ok` is a run of `T` under `ok'`, so is a run of `S`. -/
theorem exists_simulating_run {τ δ : Type*} {T : System τ δ} {R : σ → τ → Prop} {ok : σ → ε → Prop} {ok' : τ → δ → Prop}
    (hstep : ∀ s t e s', R s t → ok s e → S.step s e = some s' →
      ∃ es' t', T.run t es' = some t' ∧ T.RunMeets ok' t es' ∧ R s' t') {s s' : σ} {t : τ} {es : List ε} (h : R s t)
    (hok : S.RunMeets ok s es) (hrun : S.run s es = some s') :
    ∃ es' t', T.run t es' = some t' ∧ T.RunMeets ok' t es' ∧ R s' t' := by
  induction es generalizing s t with
  | nil =>
    rw [run_nil, Option.some.injEq] at hrun
    exact ⟨[], t, rfl, trivial, hrun ▸ h⟩
  | cons e es ih =>
    obtain ⟨s₁, hs, hrest⟩ := run_cons_eq_some.mp hrun
    obtain ⟨es₁, t₁, hrun₁, hok₁, h₁⟩ := hstep s t e s₁ h hok.1 hs
    obtain ⟨es₂, t₂, hrun₂, hok₂, h₂⟩ := ih h₁ (hok.2 s₁ hs) hrest
    exact ⟨es₁ ++ es₂, t₂, run_append_eq_some.mpr ⟨t₁, hrun₁, hrun₂⟩, hok₁.append hrun₁ hok₂, h₂⟩

end System

end Transition
