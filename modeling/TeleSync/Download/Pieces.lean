import TeleSync.Lib.Transition

/-!
# Download threads and their pieces

The threads of `piece_download_task` (`client/download.c`) share the `piece_flags` of a download. Each
of their lock-protected steps is one step here, and any of them may fail or go first:

* `getNewPiece`, `markPieceFinished`, `markPieceFailed` : the operations on the flags;
* `DownloadObj` : the flags and where each thread is; `DownloadEvent` : what a thread does next;
* `pieceThreads` : the threads as a system, `PieceMove` : all that one step can do;
* `PiecesHeld` : a piece is being downloaded exactly when one thread holds it, in every reachable state
  (`PiecesHeld.step`).
-/

namespace TeleSync
open Transition

/-! ## Flags -/

/-- `enum piece_status`. -/
inductive PieceStatus where
  | available
  | downloading
  | finished
  deriving DecidableEq

/-- `get_new_piece`: the first available piece, which is then being downloaded. -/
def getNewPiece (pieceFlags : List PieceStatus) : Option (ℕ × List PieceStatus) :=
  (pieceFlags.findIdx? (· == .available)).map fun i => (i, pieceFlags.set i .downloading)

def markPieceFinished (pieceFlags : List PieceStatus) (pieceId : ℕ) : List PieceStatus :=
  pieceFlags.set pieceId .finished

def markPieceFailed (pieceFlags : List PieceStatus) (pieceId : ℕ) : List PieceStatus :=
  pieceFlags.set pieceId .available

theorem getNewPiece_eq_none {pieceFlags : List PieceStatus} :
    getNewPiece pieceFlags = none ↔ .available ∉ pieceFlags := by
  rw [getNewPiece, Option.map_eq_none_iff, List.findIdx?_eq_none_iff]
  constructor
  · intro h hmem
    simpa using h _ hmem
  · intro h x hx
    cases x with
    | available => exact absurd hx h
    | downloading => rfl
    | finished => rfl

theorem getNewPiece_eq_some {pieceFlags flags' : List PieceStatus} {p : ℕ}
    (h : getNewPiece pieceFlags = some (p, flags')) :
    pieceFlags[p]? = some .available ∧ flags' = pieceFlags.set p .downloading := by
  obtain ⟨i, hi, heq⟩ := Option.map_eq_some_iff.mp h
  obtain ⟨rfl, rfl⟩ := Prod.mk.inj heq
  obtain ⟨hlt, hav, -⟩ := List.findIdx?_eq_some_iff_getElem.mp hi
  exact ⟨List.getElem?_eq_some_iff.mpr ⟨hlt, by simpa using hav⟩, rfl⟩

/-! ## Threads -/

/-- Where a thread of `piece_download_task` is; `ended` with what it passes to `pthread_exit`. -/
inductive ThreadState where
  | setup
  | looking
  | holding (pieceId : ℕ)
  | ended (ret : ℤ)
  deriving DecidableEq

/-- The variable `ret` of the thread. -/
def ThreadState.ret : ThreadState → ℤ
  | .ended ret => ret
  | _ => 0

def ThreadState.isEnded : ThreadState → Bool
  | .ended _ => true
  | _ => false

theorem ThreadState.exists_ended {st : ThreadState} (h : st.isEnded = true) : ∃ ret, st = .ended ret := by
  cases st with
  | ended ret => exact ⟨ret, rfl⟩
  | setup => cases h
  | looking => cases h
  | holding p => cases h

/-- The shared flags and the threads `ι`. -/
structure DownloadObj (ι : Type) where
  pieceFlags : List PieceStatus
  thread : ι → ThreadState

/-- What thread `i` does next: leave because the owner is the peer itself; fail or succeed to connect, get
a port, connect to it, allocate its buffer and open the file; look for a piece; fail to request or read
its piece; or finish it. -/
inductive DownloadEvent (ι : Type) where
  | skipSelf (i : ι)
  | setupFail (i : ι)
  | setupDone (i : ι)
  | getPiece (i : ι)
  | pieceFail (i : ι)
  | pieceDone (i : ι)
  deriving DecidableEq

variable {ι : Type} [DecidableEq ι]

/-- Thread `i` goes on to `st` and leaves the flags as given. -/
def DownloadObj.move (s : DownloadObj ι) (i : ι) (st : ThreadState) (pieceFlags : List PieceStatus) :
    DownloadObj ι :=
  ⟨pieceFlags, Function.update s.thread i st⟩

/-- One step of a thread. `download_port < 0` is never true of an unsigned port, so a failed port request
shows only when the connection to that port fails. -/
def pieceStep (isSelf : ι → Bool) (s : DownloadObj ι) : DownloadEvent ι → Option (DownloadObj ι)
  | .skipSelf i =>
    if s.thread i = .setup ∧ isSelf i then some (s.move i (.ended 0) s.pieceFlags) else none
  | .setupFail i =>
    if s.thread i = .setup ∧ ¬ isSelf i then some (s.move i (.ended (-1)) s.pieceFlags) else none
  | .setupDone i =>
    if s.thread i = .setup ∧ ¬ isSelf i then some (s.move i .looking s.pieceFlags) else none
  | .getPiece i =>
    if s.thread i = .looking then
      match getNewPiece s.pieceFlags with
      | some (p, pieceFlags) => some (s.move i (.holding p) pieceFlags)
      | none => some (s.move i (.ended 0) s.pieceFlags)
    else none
  | .pieceFail i =>
    match s.thread i with
    | .holding p => some (s.move i (.ended (-1)) (markPieceFailed s.pieceFlags p))
    | _ => none
  | .pieceDone i =>
    match s.thread i with
    | .holding p => some (s.move i .looking (markPieceFinished s.pieceFlags p))
    | _ => none

/-- The download threads, of which those with `isSelf` have the peer itself as owner. -/
def pieceThreads (isSelf : ι → Bool) : System (DownloadObj ι) (DownloadEvent ι) where
  step := pieceStep isSelf

section Steps
variable {isSelf : ι → Bool} {s s' : DownloadObj ι}

@[simp] theorem DownloadObj.thread_move_self (s : DownloadObj ι) (i : ι) (st : ThreadState)
    (flags : List PieceStatus) : (s.move i st flags).thread i = st :=
  Function.update_self _ _ _

theorem DownloadObj.thread_move_of_ne (s : DownloadObj ι) {i j : ι} (h : j ≠ i) (st : ThreadState)
    (flags : List PieceStatus) : (s.move i st flags).thread j = s.thread j :=
  Function.update_of_ne h _ _

/-- All that a step can do. -/
inductive PieceMove (s : DownloadObj ι) : DownloadEvent ι → DownloadObj ι → Prop
  | skipSelf {i} (h : s.thread i = .setup) : PieceMove s (.skipSelf i) (s.move i (.ended 0) s.pieceFlags)
  | setupFail {i} (h : s.thread i = .setup) : PieceMove s (.setupFail i) (s.move i (.ended (-1)) s.pieceFlags)
  | setupDone {i} (h : s.thread i = .setup) : PieceMove s (.setupDone i) (s.move i .looking s.pieceFlags)
  | take {i p} (h : s.thread i = .looking) (hp : s.pieceFlags[p]? = some .available) :
      PieceMove s (.getPiece i) (s.move i (.holding p) (s.pieceFlags.set p .downloading))
  | noPiece {i} (h : s.thread i = .looking) (hnone : .available ∉ s.pieceFlags) :
      PieceMove s (.getPiece i) (s.move i (.ended 0) s.pieceFlags)
  | pieceFail {i p} (h : s.thread i = .holding p) :
      PieceMove s (.pieceFail i) (s.move i (.ended (-1)) (s.pieceFlags.set p .available))
  | pieceDone {i p} (h : s.thread i = .holding p) :
      PieceMove s (.pieceDone i) (s.move i .looking (s.pieceFlags.set p .finished))

theorem pieceStep_move {e : DownloadEvent ι} (h : (pieceThreads isSelf).step s e = some s') : PieceMove s e s' := by
  cases e with
  | skipSelf i =>
    simp only [pieceThreads, pieceStep] at h
    split_ifs at h with hg
    cases h
    exact .skipSelf hg.1
  | setupFail i =>
    simp only [pieceThreads, pieceStep] at h
    split_ifs at h with hg
    cases h
    exact .setupFail hg.1
  | setupDone i =>
    simp only [pieceThreads, pieceStep] at h
    split_ifs at h with hg
    cases h
    exact .setupDone hg.1
  | getPiece i =>
    simp only [pieceThreads, pieceStep] at h
    split_ifs at h with hg
    cases hget : getNewPiece s.pieceFlags with
    | none =>
      rw [hget] at h
      cases h
      exact .noPiece hg (getNewPiece_eq_none.mp hget)
    | some r =>
      obtain ⟨p, flags⟩ := r
      rw [hget] at h
      cases h
      obtain ⟨hp, rfl⟩ := getNewPiece_eq_some hget
      exact .take hg hp
  | pieceFail i =>
    simp only [pieceThreads, pieceStep] at h
    split at h
    · rename_i p hg
      cases h
      exact .pieceFail hg
    · cases h
  | pieceDone i =>
    simp only [pieceThreads, pieceStep] at h
    split at h
    · rename_i p hg
      cases h
      exact .pieceDone hg
    · cases h

end Steps

/-! ## Which thread holds which piece -/

/-- A piece is being downloaded exactly when a thread holds it, and then only one does. -/
structure PiecesHeld (s : DownloadObj ι) : Prop where
  downloading : ∀ i p, s.thread i = .holding p → s.pieceFlags[p]? = some .downloading
  alone : ∀ i j p, s.thread i = .holding p → s.thread j = .holding p → i = j
  held : ∀ p, s.pieceFlags[p]? = some .downloading → ∃ i, s.thread i = .holding p

namespace PiecesHeld

variable {s : DownloadObj ι} {i : ι} {st : ThreadState} {p : ℕ}

theorem move_idle (h : PiecesHeld s) (hi : ∀ q, s.thread i ≠ .holding q) (hst : ∀ q, st ≠ .holding q) :
    PiecesHeld (s.move i st s.pieceFlags) := by
  have hold : ∀ j q, (s.move i st s.pieceFlags).thread j = .holding q ↔ s.thread j = .holding q := by
    intro j q
    by_cases hj : j = i
    · subst hj
      rw [s.thread_move_self]
      exact iff_of_false (hst q) (hi q)
    · rw [s.thread_move_of_ne hj]
  refine ⟨fun j q hq => ?_, fun j k q hj hk => ?_, fun q hq => ?_⟩
  · exact h.downloading j q ((hold j q).mp hq)
  · exact h.alone j k q ((hold j q).mp hj) ((hold k q).mp hk)
  · obtain ⟨j, hj⟩ := h.held q hq
    exact ⟨j, (hold j q).mpr hj⟩

theorem move_take (h : PiecesHeld s) (hi : ∀ q, s.thread i ≠ .holding q)
    (hp : s.pieceFlags[p]? = some .available) :
    PiecesHeld (s.move i (.holding p) (s.pieceFlags.set p .downloading)) := by
  obtain ⟨hlt, -⟩ := List.getElem?_eq_some_iff.mp hp
  have hnot : ∀ j, s.thread j ≠ .holding p := by
    intro j hj
    have := h.downloading j p hj
    rw [hp] at this
    cases this
  have hold : ∀ j q, (s.move i (.holding p) (s.pieceFlags.set p .downloading)).thread j = .holding q ↔
      j = i ∧ q = p ∨ s.thread j = .holding q := by
    intro j q
    by_cases hj : j = i
    · subst hj
      rw [s.thread_move_self, ThreadState.holding.injEq]
      simp [hi q, eq_comm]
    · rw [s.thread_move_of_ne hj]
      simp [hj]
  have hflag : ∀ q, (s.pieceFlags.set p .downloading)[q]? = some .downloading ↔
      q = p ∨ s.pieceFlags[q]? = some .downloading := by
    intro q
    rw [List.getElem?_set]
    split_ifs with hpq
    · simp [hpq]
    · simp [Ne.symm hpq]
  refine ⟨fun j q hq => ?_, fun j k q hj hk => ?_, fun q hq => ?_⟩
  · apply (hflag q).mpr
    rcases (hold j q).mp hq with ⟨-, hqp⟩ | hq
    · exact Or.inl hqp
    · exact Or.inr (h.downloading j q hq)
  · rcases (hold j q).mp hj with ⟨hj, hqp⟩ | hj
    · rcases (hold k q).mp hk with ⟨hk, -⟩ | hk
      · rw [hj, hk]
      · exact absurd (hqp ▸ hk) (hnot k)
    · rcases (hold k q).mp hk with ⟨-, hqp⟩ | hk
      · exact absurd (hqp ▸ hj) (hnot j)
      · exact h.alone j k q hj hk
  · rcases (hflag q).mp hq with rfl | hq
    · exact ⟨i, (hold i q).mpr (Or.inl ⟨rfl, rfl⟩)⟩
    · obtain ⟨j, hj⟩ := h.held q hq
      exact ⟨j, (hold j q).mpr (Or.inr hj)⟩

/-- A thread gives its piece back or finishes it. -/
theorem move_release (h : PiecesHeld s) (hi : s.thread i = .holding p) (hst : ∀ q, st ≠ .holding q)
    {status : PieceStatus} (hstatus : status ≠ .downloading) :
    PiecesHeld (s.move i st (s.pieceFlags.set p status)) := by
  obtain ⟨hlt, -⟩ := List.getElem?_eq_some_iff.mp (h.downloading i p hi)
  have hold : ∀ j q, (s.move i st (s.pieceFlags.set p status)).thread j = .holding q ↔
      j ≠ i ∧ s.thread j = .holding q := by
    intro j q
    by_cases hj : j = i
    · subst hj
      rw [s.thread_move_self]
      simp [hst q]
    · rw [s.thread_move_of_ne hj]
      simp [hj]
  have hflag : ∀ q, (s.pieceFlags.set p status)[q]? = some .downloading ↔
      q ≠ p ∧ s.pieceFlags[q]? = some .downloading := by
    intro q
    rw [List.getElem?_set]
    split_ifs with hpq
    · simp [hpq, hstatus]
    · simp [Ne.symm hpq]
  refine ⟨fun j q hq => ?_, fun j k q hj hk => ?_, fun q hq => ?_⟩
  · obtain ⟨hj, hq⟩ := (hold j q).mp hq
    refine (hflag q).mpr ⟨fun hqp => hj ?_, h.downloading j q hq⟩
    exact h.alone j i p (hqp ▸ hq) hi
  · exact h.alone j k q ((hold j q).mp hj).2 ((hold k q).mp hk).2
  · obtain ⟨hqp, hq⟩ := (hflag q).mp hq
    obtain ⟨j, hj⟩ := h.held q hq
    refine ⟨j, (hold j q).mpr ⟨fun hji => hqp ?_, hj⟩⟩
    rw [hji, hi, ThreadState.holding.injEq] at hj
    exact hj.symm

theorem step {s' : DownloadObj ι} {e : DownloadEvent ι} (h : PiecesHeld s) (hs : PieceMove s e s') :
    PiecesHeld s' := by
  cases hs with
  | skipSelf hi => exact h.move_idle (by simp [hi]) (by simp)
  | setupFail hi => exact h.move_idle (by simp [hi]) (by simp)
  | setupDone hi => exact h.move_idle (by simp [hi]) (by simp)
  | take hi hp => exact h.move_take (by simp [hi]) hp
  | noPiece hi hnone => exact h.move_idle (by simp [hi]) (by simp)
  | pieceFail hi => exact h.move_release hi (by simp) (by simp)
  | pieceDone hi => exact h.move_release hi (by simp) (by simp)

end PiecesHeld

/-- All pieces available, all threads at their start. -/
def DownloadObj.initial (filePieces : ℕ) : DownloadObj ι :=
  ⟨List.replicate filePieces .available, fun _ => .setup⟩

omit [DecidableEq ι] in
theorem PiecesHeld.initial (filePieces : ℕ) : PiecesHeld (DownloadObj.initial (ι := ι) filePieces) := by
  refine ⟨fun i p h => ?_, fun i j p h => ?_, fun p h => ?_⟩
  · cases h
  · cases h
  · have hav := List.eq_of_mem_replicate (List.mem_of_getElem? h)
    cases hav

theorem PieceMove.length_eq {s s' : DownloadObj ι} {e : DownloadEvent ι} (h : PieceMove s e s') :
    s'.pieceFlags.length = s.pieceFlags.length := by
  cases h <;> simp [DownloadObj.move]

/-! ## Ownership along a run -/

section Runs
variable {isSelf : ι → Bool} {s s' : DownloadObj ι} {es : List (DownloadEvent ι)} {p : ℕ}

/-- Only a thread that holds a piece changes its status, and nobody holds a finished one. -/
theorem PiecesHeld.finished_step (h : PiecesHeld s) {e : DownloadEvent ι} (hs : PieceMove s e s')
    (hp : s.pieceFlags[p]? = some .finished) : s'.pieceFlags[p]? = some .finished := by
  have hset : ∀ {q : ℕ} {st : PieceStatus}, q ≠ p → (s.pieceFlags.set q st)[p]? = some .finished := by
    intro q st hq
    rw [List.getElem?_set_ne hq, hp]
  have hfree : ∀ {i : ι} {q : ℕ}, s.thread i = .holding q → q ≠ p := by
    intro i q hi hq
    have := h.downloading i q hi
    rw [hq, hp] at this
    cases this
  cases hs with
  | skipSelf | setupFail | setupDone | noPiece => exact hp
  | @take i q _ hq =>
    apply hset
    intro hqp
    rw [hqp, hp] at hq
    cases hq
  | pieceFail hi => exact hset (hfree hi)
  | pieceDone hi => exact hset (hfree hi)

theorem PiecesHeld.run (h : PiecesHeld s) (hrun : (pieceThreads isSelf).run s es = some s') : PiecesHeld s' :=
  System.run_invariant (I := PiecesHeld) (fun _ _ _ ht hstep => ht.step (pieceStep_move hstep)) h hrun

theorem PiecesHeld.finished_run (h : PiecesHeld s) (hp : s.pieceFlags[p]? = some .finished)
    (hrun : (pieceThreads isSelf).run s es = some s') : s'.pieceFlags[p]? = some .finished := by
  refine (System.run_invariant (I := fun t => PiecesHeld t ∧ t.pieceFlags[p]? = some .finished) ?_ ⟨h, hp⟩ hrun).2
  intro t e t' ht hstep
  exact ⟨ht.1.step (pieceStep_move hstep), ht.1.finished_step (pieceStep_move hstep) ht.2⟩

theorem length_run (hrun : (pieceThreads isSelf).run s es = some s') :
    s'.pieceFlags.length = s.pieceFlags.length :=
  System.run_invariant (I := fun t => t.pieceFlags.length = s.pieceFlags.length)
    (fun _ _ _ ht hstep => (pieceStep_move hstep).length_eq.trans ht) rfl hrun

omit [DecidableEq ι] in
theorem PiecesHeld.downloading_iff (h : PiecesHeld s) :
    s.pieceFlags[p]? = some .downloading ↔ ∃! i, s.thread i = .holding p := by
  constructor
  · intro hp
    obtain ⟨i, hi⟩ := h.held p hp
    exact ⟨i, hi, fun j hj => h.alone j i p hj hi⟩
  · rintro ⟨i, hi, -⟩
    exact h.downloading i p hi

omit [DecidableEq ι] in
theorem PiecesHeld.idle_iff (h : PiecesHeld s) (hlt : p < s.pieceFlags.length) :
    (s.pieceFlags[p]? = some .available ∨ s.pieceFlags[p]? = some .finished) ↔ ∀ i, s.thread i ≠ .holding p := by
  have hflag : s.pieceFlags[p]? = some s.pieceFlags[p] := List.getElem?_eq_getElem hlt
  constructor
  · intro hp i hi
    rw [h.downloading i p hi] at hp
    rcases hp with hp | hp
    · cases hp
    · cases hp
  · intro hfree
    rw [hflag]
    cases hst : s.pieceFlags[p] with
    | available => exact Or.inl rfl
    | finished => exact Or.inr rfl
    | downloading =>
      rw [hst] at hflag
      obtain ⟨i, hi⟩ := h.held p hflag
      exact absurd hi (hfree i)

/-- **Piece ownership.** In every state that the threads can reach, a piece is being downloaded exactly when
one and only one thread holds it, it is available or finished exactly when none does, a finished piece stays
finished whatever happens next, and a thread that finds no piece leaves none behind. -/
theorem piece_ownership (isSelf : ι → Bool) (filePieces : ℕ) (es : List (DownloadEvent ι)) (s : DownloadObj ι)
    (hrun : (pieceThreads isSelf).run (.initial filePieces) es = some s) :
    (∀ p : ℕ, s.pieceFlags[p]? = some .downloading ↔ ∃! i, s.thread i = .holding p) ∧
      (∀ p < filePieces, (s.pieceFlags[p]? = some .available ∨ s.pieceFlags[p]? = some .finished) ↔
        ∀ i, s.thread i ≠ .holding p) ∧
      (∀ p : ℕ, s.pieceFlags[p]? = some .finished → ∀ es' s', (pieceThreads isSelf).run s es' = some s' →
        s'.pieceFlags[p]? = some .finished) ∧
      (getNewPiece s.pieceFlags = none → ∀ p : ℕ, s.pieceFlags[p]? ≠ some .available) := by
  have hinv : PiecesHeld s := (PiecesHeld.initial filePieces).run hrun
  have hlen : s.pieceFlags.length = filePieces := by
    rw [length_run hrun]
    exact List.length_replicate
  refine ⟨fun p => hinv.downloading_iff, fun p hp => hinv.idle_iff (by omega), ?_, ?_⟩
  · intro p hp es' s' hrun'
    exact hinv.finished_run hp hrun'
  · intro hnone p hp
    exact getNewPiece_eq_none.mp hnone (List.mem_of_getElem? hp)

/-- Two threads and two pieces: the first thread finishes piece 0, the second gives piece 1 back. -/
theorem piece_ownership_two_threads :
    let es : List (DownloadEvent (Fin 2)) :=
      [.setupDone 0, .getPiece 0, .setupDone 1, .getPiece 1, .pieceDone 0, .pieceFail 1]
    ∃ s, (pieceThreads fun _ => false).run (.initial 2) es = some s ∧
      s.pieceFlags = [.finished, .available] ∧ ∀ p < 2, ∀ i, s.thread i ≠ .holding p := by
  intro es
  have hrun : (pieceThreads fun _ => false).run (.initial 2) es =
      some ⟨[.finished, .available], Function.update (Function.update (Function.update (Function.update
        (Function.update (Function.update (fun _ => .setup) 0 .looking) 0 (.holding 0)) 1 .looking) 1 (.holding 1))
        0 .looking) 1 (.ended (-1))⟩ := rfl
  obtain ⟨-, hidle, -⟩ := piece_ownership _ _ _ _ hrun
  refine ⟨_, hrun, rfl, fun p hp => (hidle p hp).mp ?_⟩
  interval_cases p
  · exact Or.inr rfl
  · exact Or.inl rfl

end Runs

end TeleSync
