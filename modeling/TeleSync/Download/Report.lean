import TeleSync.Basic
import TeleSync.Download.Pieces

/-!
# What a finished download reports

`do_download` (`client/download.c`) asks the first owner for the length of the file, starts one thread for
each owner, joins them and returns 0 when any of them ended with 0:

* `DownloadInput` : the owners and what the system calls outside the threads answer;
* `doDownload` : the function, with the steps of its threads in the order in which they happen;
* `Sound` : a step that cannot make the result wrong: a thread ends with 0 only if the length was
  obtained, and the last thread to end leaves no piece behind once some thread has ended with 0;
* `Reported` : what the result promises, which a step keeps exactly when it is `Sound`
  (`reported_step_iff`);
* `download_complete_iff` : so a download that returns 0 has the length and all pieces exactly when every
  step was `Sound`.
-/

namespace TeleSync
open Transition

/-! ## `do_download` -/

/-- `ret = status && ret` over the exit statuses, from -1. -/
def joinThreads (statuses : List ℤ) : ℤ :=
  statuses.foldl (fun ret status => if status ≠ 0 ∧ ret ≠ 0 then 1 else 0) (-1)

/-- What `do_download` starts from. -/
structure DownloadInput where
  myIp : UInt32
  owners : List PeerId
  pieceLen : Int32
  /-- `open` of the local file succeeds. -/
  opened : Bool
  /-- The length that `get_file_len_from` gets from the first owner, `none` when it fails. -/
  fileLen : Option UInt32
  /-- `calloc` of the flags, and of the thread ids, succeeds. -/
  flagsAlloc : Bool
  tidsAlloc : Bool
  /-- The threads started before `calloc` of an argument fails. -/
  started : ℕ
  started_le : started ≤ owners.length

namespace DownloadInput

variable (inp : DownloadInput)

/-- What `get_file_len_from` returns: -1 as an unsigned number when it fails. -/
def getFileLenFrom : UInt32 := inp.fileLen.getD 0xffffffff

/-- `obj.file_pieces`, in `int` arithmetic. -/
def filePieces : Int32 := (inp.getFileLenFrom.toInt32 + inp.pieceLen - 1) / inp.pieceLen

/-- `targ->owner_ip == my_ip`. -/
def isSelf (i : Fin inp.started) : Bool := (inp.owners.get (i.castLE inp.started_le)).ip == inp.myIp

/-- The object and the threads before their first step. -/
def start : DownloadObj (Fin inp.started) := .initial inp.filePieces.toInt.toNat

end DownloadInput

/-- What `do_download` returns, and the flags at that moment. -/
structure DownloadResult where
  ret : ℤ
  pieceFlags : List PieceStatus
  deriving DecidableEq

namespace DownloadObj

variable {ι : Type}

/-- All threads can be joined. -/
def AllEnded (s : DownloadObj ι) : Prop := ∀ i, (s.thread i).isEnded

instance [Fintype ι] (s : DownloadObj ι) : Decidable s.AllEnded :=
  inferInstanceAs (Decidable (∀ i, (s.thread i).isEnded))

end DownloadObj

/-- `do_download` gives up before it starts a thread. -/
def failedDownload {ι : Type} (es : List (DownloadEvent ι)) : Option DownloadResult :=
  if es.isEmpty then some ⟨-1, []⟩ else none

/-- `do_download` when its threads take the steps `es`; `none` when they cannot, or when it does not
return: threads still run, or the division by `piece_len` traps. A negative `file_pieces` asks `calloc`
for more than there is. -/
def doDownload (inp : DownloadInput) (es : List (DownloadEvent (Fin inp.started))) : Option DownloadResult :=
  if ¬ inp.opened then failedDownload es
  else if inp.owners = [] then failedDownload es
  else if inp.pieceLen = 0 then none
  else if inp.filePieces.toInt < 0 ∨ ¬ inp.flagsAlloc then failedDownload es
  else if ¬ inp.tidsAlloc then failedDownload es
  else
    ((pieceThreads inp.isSelf).run inp.start es).bind fun s =>
      if s.AllEnded then some ⟨joinThreads (List.ofFn fun i => (s.thread i).ret), s.pieceFlags⟩ else none

theorem joinThreads_eq_zero {statuses : List ℤ} : joinThreads statuses = 0 ↔ 0 ∈ statuses := by
  have hfold : ∀ ret : ℤ, statuses.foldl (fun ret status => if status ≠ 0 ∧ ret ≠ 0 then 1 else 0) ret = 0 ↔
      ret = 0 ∨ 0 ∈ statuses := by
    induction statuses with
    | nil => simp
    | cons st sts ih =>
      intro ret
      rw [List.foldl_cons, ih, List.mem_cons]
      split_ifs with h
      · simp [h.2, h.1.symm]
      · have : st = 0 ∨ ret = 0 := by
          by_contra hcon
          exact h (not_or.mp hcon)
        rcases this with rfl | rfl <;> simp
  rw [joinThreads, hfold]
  simp

/-! ## Sound steps -/

section Sound
variable {ι : Type}

namespace DownloadObj

/-- A thread has ended with 0, which decides the result. -/
def SomeOk (s : DownloadObj ι) : Prop := ∃ i, s.thread i = .ended 0

/-- A piece is there for the taking. -/
def Left (s : DownloadObj ι) : Prop := .available ∈ s.pieceFlags

/-- All threads but `i` have ended. -/
def OthersEnded (s : DownloadObj ι) (i : ι) : Prop := ∀ j, j ≠ i → (s.thread j).isEnded

end DownloadObj

/-- Steps after which a result of 0 can still be trusted, when `lenOk` says that the length was obtained:
the self owner's thread ends with 0 at once, so it may not be the last one while pieces are left; a thread
that cannot connect, or that gives its piece back, may not be the last one after another ended with 0; and
without a length no thread may end with 0. -/
def Sound (lenOk : Prop) (s : DownloadObj ι) : DownloadEvent ι → Prop
  | .skipSelf i => lenOk ∧ (s.OthersEnded i → ¬ s.Left)
  | .setupFail i => s.OthersEnded i → s.SomeOk → ¬ s.Left
  | .setupDone _ => True
  | .getPiece _ => ¬ s.Left → lenOk
  | .pieceFail i => s.OthersEnded i → ¬ s.SomeOk
  | .pieceDone _ => True

instance [Fintype ι] [DecidableEq ι] (lenOk : Prop) [Decidable lenOk] (s : DownloadObj ι) :
    ∀ e, Decidable (Sound lenOk s e)
  | .skipSelf i => inferInstanceAs (Decidable
      (lenOk ∧ ((∀ j, j ≠ i → (s.thread j).isEnded) → ¬ .available ∈ s.pieceFlags)))
  | .setupFail i => inferInstanceAs (Decidable
      ((∀ j, j ≠ i → (s.thread j).isEnded) → (∃ j, s.thread j = .ended 0) → ¬ .available ∈ s.pieceFlags))
  | .setupDone _ => isTrue trivial
  | .getPiece _ => inferInstanceAs (Decidable (¬ .available ∈ s.pieceFlags → lenOk))
  | .pieceFail i => inferInstanceAs (Decidable
      ((∀ j, j ≠ i → (s.thread j).isEnded) → ¬ ∃ j, s.thread j = .ended 0))
  | .pieceDone _ => isTrue trivial

/-- What a result of 0 is taken to mean. -/
def Reported (lenOk : Prop) (s : DownloadObj ι) : Prop :=
  (s.SomeOk → lenOk) ∧ (s.AllEnded → s.SomeOk → ¬ s.Left)

variable {lenOk : Prop} {s s' : DownloadObj ι} {i : ι} {st : ThreadState} {flags : List PieceStatus}

/-- While a thread runs, only the threads that ended with 0 have promised something. -/
theorem reported_iff_of_running (h : (s.thread i).isEnded = false) :
    Reported lenOk s ↔ (s.SomeOk → lenOk) := by
  refine and_iff_left_of_imp fun _ hall => ?_
  have := hall i
  rw [h] at this
  cases this

theorem running_of_eq {st' : ThreadState} (h : s.thread i = st') (hst : st'.isEnded = false) :
    (s.thread i).isEnded = false := by
  rw [h, hst]

/-- Once all threads have ended, every piece that nobody can take is finished. -/
theorem PiecesHeld.finished (h : PiecesHeld s) (hend : s.AllEnded) (hleft : ¬ s.Left) :
    ∀ f ∈ s.pieceFlags, f = .finished := by
  intro f hf
  cases f with
  | available => exact absurd hf hleft
  | downloading =>
    obtain ⟨p, hp, heq⟩ := List.mem_iff_getElem.mp hf
    obtain ⟨i, hi⟩ := h.held p (List.getElem?_eq_some_iff.mpr ⟨hp, heq⟩)
    have := hend i
    rw [hi] at this
    cases this
  | finished => rfl

variable [DecidableEq ι]

theorem allEnded_move_iff : (s.move i st flags).AllEnded ↔ st.isEnded ∧ s.OthersEnded i := by
  constructor
  · intro h
    refine ⟨?_, fun j hj => ?_⟩
    · have := h i
      rwa [s.thread_move_self] at this
    · have := h j
      rwa [s.thread_move_of_ne hj] at this
  · rintro ⟨hst, hothers⟩ j
    by_cases hj : j = i
    · subst hj
      rwa [s.thread_move_self]
    · rw [s.thread_move_of_ne hj]
      exact hothers j hj

theorem someOk_move_iff (h : (s.thread i).isEnded = false) :
    (s.move i st flags).SomeOk ↔ st = .ended 0 ∨ s.SomeOk := by
  constructor
  · rintro ⟨j, hj⟩
    by_cases hji : j = i
    · subst hji
      rw [s.thread_move_self] at hj
      exact Or.inl hj
    · rw [s.thread_move_of_ne hji] at hj
      exact Or.inr ⟨j, hj⟩
  · rintro (hst | ⟨j, hj⟩)
    · exact ⟨i, by rw [s.thread_move_self, hst]⟩
    · have hji : j ≠ i := by
        rintro rfl
        rw [hj] at h
        cases h
      exact ⟨j, by rw [s.thread_move_of_ne hji, hj]⟩

/-- When thread `i` moves on, what is promised depends on how it ends and on what it leaves. -/
theorem reported_move_iff (h : (s.thread i).isEnded = false) :
    Reported lenOk (s.move i st flags) ↔ (st = .ended 0 ∨ s.SomeOk → lenOk) ∧
      (st.isEnded → s.OthersEnded i → st = .ended 0 ∨ s.SomeOk → .available ∉ flags) := by
  rw [Reported, someOk_move_iff h, allEnded_move_iff, and_imp]
  rfl

theorem reported_step_iff {e : DownloadEvent ι} (hheld : PiecesHeld s) (hs : PieceMove s e s') :
    Reported lenOk s' ↔ Reported lenOk s ∧ Sound lenOk s e := by
  cases hs with
  | skipSelf hi =>
    have hrun := running_of_eq hi rfl
    rw [reported_move_iff hrun, reported_iff_of_running hrun]
    simp only [true_or, forall_const, ThreadState.isEnded, Sound, DownloadObj.Left, iff_and_self, and_imp]
    exact fun hlen _ _ => hlen
  | setupFail hi =>
    have hrun := running_of_eq hi rfl
    rw [reported_move_iff hrun, reported_iff_of_running hrun]
    simp [Sound, DownloadObj.Left, ThreadState.isEnded]
  | setupDone hi =>
    have hrun := running_of_eq hi rfl
    rw [reported_move_iff hrun, reported_iff_of_running hrun]
    simp [Sound, ThreadState.isEnded]
  | take hi hp =>
    have hrun := running_of_eq hi rfl
    have hleft : s.Left := List.mem_of_getElem? hp
    rw [reported_move_iff hrun, reported_iff_of_running hrun]
    simp [Sound, hleft, ThreadState.isEnded]
  | noPiece hi hnone =>
    have hrun := running_of_eq hi rfl
    rw [reported_move_iff hrun, reported_iff_of_running hrun]
    simp only [true_or, forall_const, ThreadState.isEnded, hnone, not_false_eq_true, implies_true,
      and_true, Sound, DownloadObj.Left, iff_and_self]
    exact fun hlen _ => hlen
  | pieceFail hi =>
    have hrun := running_of_eq hi rfl
    obtain ⟨hlt, -⟩ := List.getElem?_eq_some_iff.mp (hheld.downloading _ _ hi)
    have hback : PieceStatus.available ∈ s.pieceFlags.set _ .available := List.mem_set hlt _
    rw [reported_move_iff hrun, reported_iff_of_running hrun]
    simp [Sound, hback, ThreadState.isEnded]
  | pieceDone hi =>
    have hrun := running_of_eq hi rfl
    rw [reported_move_iff hrun, reported_iff_of_running hrun]
    simp [Sound, ThreadState.isEnded]

theorem reported_run_iff {isSelf : ι → Bool} {n : ℕ} {es : List (DownloadEvent ι)}
    (hrun : (pieceThreads isSelf).run (.initial n) es = some s) :
    Reported lenOk s ↔ (pieceThreads isSelf).RunMeets (Sound lenOk) (.initial n) es := by
  have hnone : ¬ (DownloadObj.initial (ι := ι) n).SomeOk := by
    rintro ⟨i, hi⟩
    cases hi
  have hstart : Reported lenOk (DownloadObj.initial (ι := ι) n) :=
    ⟨fun h => absurd h hnone, fun _ h => absurd h hnone⟩
  rw [System.run_iff_runMeets (I := PiecesHeld) (fun t e t' ht hs => ht.step (pieceStep_move hs))
    (fun t e t' ht hs => reported_step_iff ht (pieceStep_move hs)) (PiecesHeld.initial n) hrun]
  exact and_iff_right hstart

end Sound

/-- What a download that returned promises: a result of 0 means that the length was obtained and that all
pieces are finished. -/
def DownloadInput.Complete (inp : DownloadInput) (res : DownloadResult) : Prop :=
  res.ret = 0 → inp.fileLen.isSome ∧
    ∀ i < inp.filePieces.toInt.toNat, res.pieceFlags[i]? = some .finished

theorem complete_joined_iff {inp : DownloadInput} {es : List (DownloadEvent (Fin inp.started))}
    {s : DownloadObj (Fin inp.started)} (hrun : (pieceThreads inp.isSelf).run inp.start es = some s)
    (hend : s.AllEnded) :
    inp.Complete ⟨joinThreads (List.ofFn fun i => (s.thread i).ret), s.pieceFlags⟩ ↔
      Reported (inp.fileLen.isSome = true) s := by
  have hheld : PiecesHeld s := System.run_invariant (I := PiecesHeld)
    (fun t e t' ht hs => ht.step (pieceStep_move hs)) (PiecesHeld.initial _) hrun
  have hlen : s.pieceFlags.length = inp.filePieces.toInt.toNat :=
    System.run_invariant (I := fun t : DownloadObj (Fin inp.started) =>
        t.pieceFlags.length = inp.filePieces.toInt.toNat)
      (fun t e t' ht hs => (pieceStep_move hs).length_eq.trans ht) List.length_replicate hrun
  have hret : joinThreads (List.ofFn fun i => (s.thread i).ret) = 0 ↔ s.SomeOk := by
    rw [joinThreads_eq_zero, List.mem_ofFn]
    refine exists_congr fun i => ?_
    obtain ⟨r, hr⟩ := ThreadState.exists_ended (hend i)
    simp [hr, ThreadState.ret]
  have hall : (∀ i < inp.filePieces.toInt.toNat, s.pieceFlags[i]? = some .finished) ↔ ¬ s.Left := by
    constructor
    · intro h hleft
      obtain ⟨p, hp, heq⟩ := List.mem_iff_getElem.mp hleft
      have := h p (hlen ▸ hp)
      rw [List.getElem?_eq_getElem hp, heq] at this
      cases this
    · intro hleft i hi
      have hi : i < s.pieceFlags.length := hlen ▸ hi
      rw [List.getElem?_eq_getElem hi]
      exact congrArg some (hheld.finished hend hleft _ (List.getElem_mem hi))
  unfold DownloadInput.Complete Reported
  rw [hret, hall]
  constructor
  · intro h
    exact ⟨fun hok => (h hok).1, fun _ hok => (h hok).2⟩
  · rintro ⟨h1, h2⟩ hok
    exact ⟨h1 hok, h2 hend hok⟩

/-- **A reported download is complete.** Whatever the owners, failures and order of steps: a download that
returns 0 has the length from an owner and all its pieces if and only if every step of its threads was
`Sound`. -/
theorem download_complete_iff (inp : DownloadInput) (es : List (DownloadEvent (Fin inp.started)))
    (res : DownloadResult) (h : doDownload inp es = some res) :
    inp.Complete res ↔ (pieceThreads inp.isSelf).RunMeets (Sound (inp.fileLen.isSome = true)) inp.start es := by
  have hfailed : failedDownload es = some res → (inp.Complete res ↔
      (pieceThreads inp.isSelf).RunMeets (Sound (inp.fileLen.isSome = true)) inp.start es) := by
    intro hres
    unfold failedDownload at hres
    split_ifs at hres with hes
    cases hres
    rw [List.isEmpty_iff.mp hes]
    exact iff_of_true (fun h0 => absurd h0 (by decide)) trivial
  unfold doDownload at h
  split_ifs at h with h1 h2 h3 h4 h5
  · exact hfailed h
  · exact hfailed h
  · obtain ⟨s, hrun, hs⟩ := Option.bind_eq_some_iff.mp h
    split_ifs at hs with hend
    cases hs
    rw [complete_joined_iff hrun hend]
    exact reported_run_iff hrun
  · exact hfailed h
  · exact hfailed h

/-- Two owners and a file of one byte, in pieces of one byte. -/
abbrev oneByteDownload : DownloadInput where
  myIp := 1
  owners := [⟨2, P2P_PORT⟩, ⟨3, P2P_PORT⟩]
  pieceLen := 1
  opened := true
  fileLen := some 1
  flagsAlloc := true
  tidsAlloc := true
  started := 2
  started_le := le_rfl

/-- The first owner sends the piece while the second fails to connect. -/
theorem download_complete_one_fails :
    let es : List (DownloadEvent (Fin 2)) := [.setupDone 0, .getPiece 0, .setupFail 1, .pieceDone 0, .getPiece 0]
    doDownload oneByteDownload es = some ⟨0, [.finished]⟩ ∧ oneByteDownload.Complete ⟨0, [.finished]⟩ := by
  intro es
  have hres : doDownload oneByteDownload es = some ⟨0, [.finished]⟩ := by decide
  exact ⟨hres, (download_complete_iff oneByteDownload es _ hres).mpr (by decide)⟩

/-- The second thread finds no piece and ends with 0; then the first gives its piece back. The download
returns 0 without the piece. Nor does it take a length: when the first owner does not answer, there are no
pieces to look for. -/
theorem download_piece_given_back :
    let es : List (DownloadEvent (Fin 2)) := [.setupDone 0, .setupDone 1, .getPiece 0, .getPiece 1, .pieceFail 0]
    let noLen : DownloadInput := { oneByteDownload with pieceLen := 4096, fileLen := none }
    let es' : List (DownloadEvent (Fin 2)) := [.setupDone 0, .setupDone 1, .getPiece 0, .getPiece 1]
    (doDownload oneByteDownload es = some ⟨0, [.available]⟩ ∧ ¬ oneByteDownload.Complete ⟨0, [.available]⟩) ∧
      doDownload noLen es' = some ⟨0, []⟩ ∧ ¬ noLen.Complete ⟨0, []⟩ := by
  intro es noLen es'
  refine ⟨⟨by decide, fun h => ?_⟩, by decide, fun h => ?_⟩
  · have := (h rfl).2 0 (by decide)
    revert this
    decide
  · have := (h rfl).1
    revert this
    decide

end TeleSync
