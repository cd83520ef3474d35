import Mathlib

/-!
# Programs that may crash

* `Prog σ α` : a program over a state `σ` that returns an `α` or crashes; a crash keeps the state, so that what was
  done before it is still known;
* `Triple P c Q E` : from a state with `P`, the program returns with `Q` or crashes with `E`; the rules for returning,
  crashing, reading, changing the state and composing, `Triple.ite` and `Triple.conseq`;
* `Keeps I c` : whatever happens, `I` stays;
* the monad laws, and `bind_eq_some` : a program that returns has returned from each of its parts.
-/

namespace Program

/-- The answer, none after a crash, and the state at the end. -/
def Prog (σ α : Type*) := σ → Option α × σ

universe u
variable {σ : Type*} {α β : Type u}

namespace Prog

def ret (a : α) : Prog σ α := fun s => (some a, s)

def andThen (c : Prog σ α) (k : α → Prog σ β) : Prog σ β := fun s =>
  match c s with
  | (some a, s') => k a s'
  | (none, s') => (none, s')

instance : Monad (Prog σ) where
  pure := ret
  bind := andThen

instance : LawfulMonad (Prog σ) := by
  refine LawfulMonad.mk' _ ?_ ?_ ?_
  · intro α c
    funext s
    show andThen c (fun a => ret a) s = c s
    unfold andThen
    split
    · next a s' h => rw [h]; rfl
    · next s' h => rw [h]
  · intro α β a k
    rfl
  · intro α β γ c k k'
    funext s
    show andThen (andThen c k) k' s = andThen c (fun a => andThen (k a) k') s
    unfold andThen
    cases c s with
    | mk o s' =>
      cases o with
      | none => rfl
      | some a => rfl

theorem bind_eq_some {c : Prog σ α} {k : α → Prog σ β} {s t : σ} {b : β} (h : (c >>= k) s = (some b, t)) :
    ∃ a s', c s = (some a, s') ∧ k a s' = (some b, t) := by
  have h' : andThen c k s = (some b, t) := h
  unfold andThen at h'
  split at h'
  · next a s' hc => exact ⟨a, s', hc, h'⟩
  · cases h'

theorem bind_of_some {c : Prog σ α} {s s' : σ} {a : α} (h : c s = (some a, s')) (k : α → Prog σ β) :
    (c >>= k) s = k a s' := by
  show andThen c k s = k a s'
  unfold andThen
  rw [h]

theorem bind_of_none {c : Prog σ α} {s s' : σ} (h : c s = (none, s')) (k : α → Prog σ β) :
    (c >>= k) s = (none, s') := by
  show andThen c k s = (none, s')
  unfold andThen
  rw [h]

theorem fst_bind_of_none {c : Prog σ α} {s : σ} (h : (c s).1 = none) (k : α → Prog σ β) : ((c >>= k) s).1 = none := by
  show (andThen c k s).1 = none
  unfold andThen
  split
  · next a s' hc =>
    rw [hc] at h
    cases h
  · rfl

theorem fst_bind_eq_none (c : Prog σ α) {k : α → Prog σ β} (hk : ∀ a s, (k a s).1 = none) (s : σ) :
    ((c >>= k) s).1 = none := by
  show (andThen c k s).1 = none
  unfold andThen
  split
  · next a s' _ => exact hk a s'
  · rfl

theorem fst_bind_pure (c : Prog σ α) (f : α → β) (s : σ) : ((c >>= fun a => pure (f a)) s).1 = (c s).1.map f := by
  show (andThen c (fun a => ret (f a)) s).1 = (c s).1.map f
  unfold andThen
  split
  · next a s' h => rw [h]; rfl
  · next s' h => rw [h]; rfl

def crash : Prog σ α := fun s => (none, s)

/-- Read a part of the state that may be missing. -/
def read (f : σ → Option α) : Prog σ α := fun s => (f s, s)

def get (f : σ → α) : Prog σ α := fun s => (some (f s), s)

def modify (f : σ → σ) : Prog σ Unit := fun s => (some (), f s)

/-- Crash unless `b`. -/
def assert (b : Prop) [Decidable b] : Prog σ Unit := if b then ret () else crash

theorem assert_of_pos {b : Prop} [Decidable b] (h : b) (s : σ) : (assert b : Prog σ Unit) s = (some (), s) := by
  rw [assert, if_pos h]
  rfl

theorem assert_of_neg {b : Prop} [Decidable b] (h : ¬ b) (s : σ) : (assert b : Prog σ Unit) s = (none, s) := by
  rw [assert, if_neg h]
  rfl

theorem get_eq_some {f : σ → α} {s t : σ} {a : α} (h : get f s = (some a, t)) : f s = a ∧ t = s := by
  cases h
  exact ⟨rfl, rfl⟩

theorem assert_eq_some {b : Prop} [Decidable b] {s t : σ} {u : Unit} (h : (assert b : Prog σ Unit) s = (some u, t)) :
    b ∧ t = s := by
  by_cases hb : b
  · rw [assert_of_pos hb] at h
    cases h
    exact ⟨hb, rfl⟩
  · rw [assert_of_neg hb] at h
    cases h

end Prog

open Prog

/-- From `P` the program returns with `Q` or crashes with `E`. -/
def Triple (P : σ → Prop) (c : Prog σ α) (Q : α → σ → Prop) (E : σ → Prop) : Prop :=
  ∀ s, P s → (∀ a, (c s).1 = some a → Q a (c s).2) ∧ ((c s).1 = none → E (c s).2)

/-- `I` stays, also through a crash. -/
def Keeps (I : σ → Prop) (c : Prog σ α) : Prop := Triple I c (fun _ => I) I

namespace Triple

variable {P P' : σ → Prop} {Q Q' : α → σ → Prop} {R : β → σ → Prop} {E E' : σ → Prop} {c : Prog σ α}

theorem ret {a : α} (h : ∀ s, P s → Q a s) : Triple P (pure a) Q E := by
  intro s hs
  refine ⟨fun b hb => ?_, fun hn => ?_⟩
  · cases hb
    exact h s hs
  · cases hn

theorem crash (h : ∀ s, P s → E s) : Triple P (Prog.crash : Prog σ α) Q E := by
  intro s hs
  refine ⟨fun b hb => ?_, fun _ => h s hs⟩
  cases hb

theorem read {f : σ → Option α} (h : ∀ s a, P s → f s = some a → Q a s) (he : ∀ s, P s → E s) :
    Triple P (Prog.read f) Q E :=
  fun s hs => ⟨fun a ha => h s a hs ha, fun _ => he s hs⟩

theorem get {f : σ → α} (h : ∀ s, P s → Q (f s) s) : Triple P (Prog.get f) Q E := by
  intro s hs
  refine ⟨fun a ha => ?_, fun hn => ?_⟩
  · cases ha
    exact h s hs
  · cases hn

theorem modify {f : σ → σ} {Q : Unit → σ → Prop} (h : ∀ s, P s → Q () (f s)) : Triple P (Prog.modify f) Q E := by
  intro s hs
  refine ⟨fun a _ => h s hs, fun hn => ?_⟩
  cases hn

theorem assert {b : Prop} [Decidable b] {Q : Unit → σ → Prop} (h : ∀ s, P s → b → Q () s) (he : ∀ s, P s → E s) :
    Triple P (Prog.assert b) Q E := by
  unfold Prog.assert
  split_ifs with hb
  · exact Triple.ret fun s hs => h s hs hb
  · exact Triple.crash he

theorem bind {k : α → Prog σ β} (hc : Triple P c Q E) (hk : ∀ a, Triple (Q a) (k a) R E) :
    Triple P (c >>= k) R E := by
  intro s hs
  obtain ⟨hret, hcrash⟩ := hc s hs
  show (∀ b, (Prog.andThen c k s).1 = some b → R b (Prog.andThen c k s).2) ∧
    ((Prog.andThen c k s).1 = none → E (Prog.andThen c k s).2)
  unfold Prog.andThen
  split
  · next a s' heq =>
    rw [heq] at hret
    exact hk a s' (hret a rfl)
  · next s' heq =>
    rw [heq] at hcrash
    refine ⟨fun b hb => ?_, fun _ => hcrash rfl⟩
    cases hb

/-- What the first part says of its answer alone is a hypothesis for the second. -/
theorem bind_fact {S : σ → Prop} {F : α → Prop} {k : α → Prog σ β} (hc : Triple P c (fun a s => S s ∧ F a) E)
    (hk : ∀ a, F a → Triple S (k a) R E) : Triple P (c >>= k) R E := by
  apply Triple.bind hc
  intro a s hs
  exact hk a hs.2 s hs.1

theorem conseq (h : Triple P c Q E) (hP : ∀ s, P' s → P s) (hQ : ∀ a s, Q a s → Q' a s) (hE : ∀ s, E s → E' s) :
    Triple P' c Q' E' := by
  intro s hs
  obtain ⟨hret, hcrash⟩ := h s (hP s hs)
  exact ⟨fun a ha => hQ a _ (hret a ha), fun hn => hE _ (hcrash hn)⟩

theorem and {Q' : α → σ → Prop} (h : Triple P c Q E) (h' : Triple P' c Q' E') :
    Triple (fun s => P s ∧ P' s) c (fun a s => Q a s ∧ Q' a s) fun s => E s ∧ E' s := by
  intro s hs
  obtain ⟨hret, hcrash⟩ := h s hs.1
  obtain ⟨hret', hcrash'⟩ := h' s hs.2
  exact ⟨fun a ha => ⟨hret a ha, hret' a ha⟩, fun hn => ⟨hcrash hn, hcrash' hn⟩⟩

theorem ite {b : Prop} [Decidable b] {c' : Prog σ α} (ht : b → Triple P c Q E) (hf : ¬ b → Triple P c' Q E) :
    Triple P (if b then c else c') Q E := by
  split_ifs with hb
  · exact ht hb
  · exact hf hb

end Triple

namespace Keeps

variable {I : σ → Prop} {c : Prog σ α}

theorem ret (a : α) : Keeps I (pure a : Prog σ α) := Triple.ret fun _ h => h

theorem crash : Keeps I (Prog.crash : Prog σ α) := Triple.crash fun _ h => h

theorem read (f : σ → Option α) : Keeps I (Prog.read f) := Triple.read (fun _ _ h _ => h) fun _ h => h

theorem get (f : σ → α) : Keeps I (Prog.get f) := Triple.get fun _ h => h

theorem assert (b : Prop) [Decidable b] : Keeps I (Prog.assert b : Prog σ Unit) :=
  Triple.assert (fun _ h _ => h) fun _ h => h

theorem bind {k : α → Prog σ β} (hc : Keeps I c) (hk : ∀ a, Keeps I (k a)) : Keeps I (c >>= k) :=
  Triple.bind hc hk

theorem ite {b : Prop} [Decidable b] {c' : Prog σ α} (ht : b → Keeps I c) (hf : ¬ b → Keeps I c') :
    Keeps I (if b then c else c') :=
  Triple.ite ht hf

/-- Where a crash is of no interest. -/
theorem triple (h : Keeps I c) : Triple I c (fun _ => I) fun _ => True :=
  Triple.conseq h (fun _ hs => hs) (fun _ _ hs => hs) fun _ _ => trivial

theorem state (h : Keeps I c) {s : σ} (hs : I s) : I (c s).2 := by
  cases hc : (c s).1 with
  | none => exact (h s hs).2 hc
  | some a => exact (h s hs).1 a hc

end Keeps

end Program
