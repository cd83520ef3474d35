import TeleSync.Download.Length

/-!
# Files whose length is cut short

The pieces of a download are those of the length that arrives (`arrivingLen`), which may be shorter than the file.

* `uploadPiece_take` : the uploader reads the same bytes where the file is cut behind them, so that a download of the cut
  file is one of the file (`run_of_take`);
* `exists_run_finished` : a thread that is not this peer's own can finish all pieces;
* `file_reassembled_iff` : which files are put together as they should be.
-/

namespace TeleSync
open Transition Memory

/-! ## A file cut behind what is read -/

section Cut
variable {inp : DownloadInput} {F : List UInt8} {L : ℕ} {s s' : Transfer (Fin inp.started)}

theorem toNat_toInt_toInt32_le (x : UInt32) : x.toInt32.toInt.toNat ≤ x.toNat := by
  have hlt := x.toNat_lt
  have hint : x.toInt32.toInt = (x.toNat : ℤ).bmod (2 ^ 32) := by
    conv_lhs => rw [← UInt32.ofNat_toNat (x := x), UInt32.toInt32_ofNat', Int32.toInt_ofNat']
    rfl
  rw [hint, Int.bmod_def]
  split_ifs <;> omega

theorem uploadPiece_take {pieceLen : Int32} {req : PieceRequest} {pieceBuf : List UInt8}
    (h : uploadPiece (F.take L) pieceLen req = some pieceBuf) : uploadPiece F pieceLen req = some pieceBuf := by
  have hle := toNat_toInt_toInt32_le req.len
  unfold uploadPiece at h ⊢
  dsimp only at h ⊢
  rw [List.drop_take, List.take_take, Option.ite_none_right_eq_some] at h
  obtain ⟨hlen, hbuf⟩ := h
  -- the whole request was read, so it ends before the cut
  have hin : min req.len.toInt32.toInt.toNat (L - uploadOffset pieceLen req) = req.len.toInt32.toInt.toNat := by
    rw [List.length_take] at hlen
    omega
  rw [hin] at hlen hbuf
  rw [if_pos hlen, hbuf]

theorem step_of_take {e : TransferEvent (Fin inp.started)} (h : (pieceTransfers inp (F.take L)).step s e = some s') :
    (pieceTransfers inp F).step s e = some s' := by
  cases e with
  | read i =>
    simp only [pieceTransfers, transferStep] at h ⊢
    split at h
    · next p hi =>
      obtain ⟨pieceBuf, hbuf, rfl⟩ := Option.map_eq_some_iff.mp h
      rw [uploadPiece_take hbuf]
      rfl
    · cases h
  | skipSelf i => exact h
  | setupFail i => exact h
  | setupDone i => exact h
  | getPiece i => exact h
  | sendFail i => exact h
  | send i => exact h
  | readFail i => exact h
  | write i => exact h
  | finish i => exact h

theorem run_of_take {es : List (TransferEvent (Fin inp.started))} (h : (pieceTransfers inp (F.take L)).run s es = some s') :
    (pieceTransfers inp F).run s es = some s' := by
  induction es generalizing s with
  | nil => exact h
  | cons e es ih =>
    obtain ⟨s₁, hs, hrest⟩ := System.run_cons_eq_some.mp h
    exact System.run_cons_eq_some.mpr ⟨s₁, step_of_take hs, ih hrest⟩

end Cut

/-! ## One thread at work -/

section Alone
variable {inp : DownloadInput} {F : List UInt8} {s s' : Transfer (Fin inp.started)} {i : Fin inp.started}

/-- Thread `i` is at work, the others have not begun. -/
structure WorksAlone (inp : DownloadInput) (F : List UInt8) (i : Fin inp.started) (s : Transfer (Fin inp.started)) :
    Prop where
  assembling : Assembling inp F s
  others : ∀ j, j ≠ i → s.thread j = .setup
  begun : s.thread i ≠ .setup
  going : ∀ ret, s.thread i ≠ .ended ret

/-- The steps that are left to a thread with its piece. -/
def TransferState.ahead : TransferState → ℕ
  | .setup => 0
  | .looking => 1
  | .holding _ => 5
  | .requested _ => 4
  | .received _ _ => 3
  | .written _ => 2
  | .ended _ => 0

def Transfer.ahead (i : Fin inp.started) (s : Transfer (Fin inp.started)) : ℕ :=
  5 * s.pieceFlags.count .available + (s.thread i).ahead

theorem WorksAlone.next (hfit : Fits inp F) (h : WorksAlone inp F i s) {e : TransferEvent (Fin inp.started)}
    (hs : (pieceTransfers inp F).step s e = some s') {st : TransferState}
    (hthread : s'.thread = (s.move i st).thread) (hst : st ≠ .setup) (hgo : ∀ ret, st ≠ .ended ret) :
    WorksAlone inp F i s' := by
  have hself : s'.thread i = st := by
    rw [hthread]
    exact Function.update_self _ _ _
  refine ⟨h.assembling.step hfit (transferStep_move hs), fun j hj => ?_, ?_, fun ret => ?_⟩
  · rw [hthread]
    exact (Function.update_of_ne hj _ _).trans (h.others j hj)
  · rwa [hself]
  · rw [hself]
    exact hgo ret

/-- A thread at work goes on, as long as a piece is not finished. -/
theorem WorksAlone.exists_step (hfit : Fits inp F) (h : WorksAlone inp F i s)
    (hleft : ¬ ∀ status ∈ s.pieceFlags, status = .finished) :
    ∃ e s', (pieceTransfers inp F).step s e = some s' ∧ WorksAlone inp F i s' ∧ s'.ahead i < s.ahead i := by
  cases hi : s.thread i with
  | setup => exact absurd hi h.begun
  | ended ret => exact absurd hi (h.going ret)
  | looking =>
    have havailable : .available ∈ s.pieceFlags := by
      obtain ⟨status, hleft⟩ := not_forall.mp hleft
      obtain ⟨hmem, hne⟩ := Classical.not_imp.mp hleft
      cases status with
      | available => exact hmem
      | finished => exact absurd rfl hne
      | downloading =>
        -- nobody holds a piece
        obtain ⟨p, hp⟩ := List.getElem?_of_mem hmem
        obtain ⟨j, hj⟩ := h.assembling.held.held p hp
        have hj : (s.thread j).phase = .holding p := hj
        by_cases hji : j = i
        · rw [hji, hi] at hj
          cases hj
        · rw [h.others j hji] at hj
          cases hj
    cases hget : getNewPiece s.pieceFlags with
    | none => exact absurd havailable (getNewPiece_eq_none.mp hget)
    | some r =>
      obtain ⟨p, flags⟩ := r
      obtain ⟨hp, hflags⟩ := getNewPiece_eq_some hget
      obtain ⟨hlt, hav⟩ := List.getElem?_eq_some_iff.mp hp
      have hcount : 0 < s.pieceFlags.count .available := List.count_pos_iff.mpr havailable
      have hs : (pieceTransfers inp F).step s (.getPiece i) =
          some { s.move i (.holding p) with pieceFlags := flags } := by
        simp [pieceTransfers, transferStep, hi, hget]
      refine ⟨_, _, hs, h.next hfit hs rfl (by simp) (by simp), ?_⟩
      have hself : (s.move i (.holding p)).thread i = .holding p := Function.update_self _ _ _
      unfold Transfer.ahead
      dsimp only
      rw [hself, hi, hflags, List.count_set hlt, hav]
      simp [TransferState.ahead]
      omega
  | holding p =>
    have hs : (pieceTransfers inp F).step s (.send i) =
        some { s.move i (.requested p) with requests := s.requests ++ [inp.request p] } := by
      simp [pieceTransfers, transferStep, hi]
    refine ⟨_, _, hs, h.next hfit hs rfl (by simp) (by simp), ?_⟩
    have hself : (s.move i (.requested p)).thread i = .requested p := Function.update_self _ _ _
    unfold Transfer.ahead
    dsimp only
    rw [hself, hi]
    simp [Transfer.move, TransferState.ahead]
  | requested p =>
    have hp : p < Chunks.count F.length inp.chunk := h.assembling.lt_count (congrArg TransferState.phase hi)
    have hs : (pieceTransfers inp F).step s (.read i) =
        some (s.move i (.received p ((F.drop (p * inp.chunk)).take (Chunks.size F.length inp.chunk p)))) := by
      simp [pieceTransfers, transferStep, hi, hfit.uploadPiece_eq hp]
    refine ⟨_, _, hs, h.next hfit hs rfl (by simp) (by simp), ?_⟩
    unfold Transfer.ahead Transfer.move
    dsimp only
    rw [Function.update_self, hi]
    simp [TransferState.ahead]
  | received p pieceBuf =>
    have hs : (pieceTransfers inp F).step s (.write i) = some { s.move i (.written p) with
        localFile := Chunks.patch s.localFile (downloadOffset inp.pieceLen (Int32.ofNat p)).toNat pieceBuf } := by
      simp [pieceTransfers, transferStep, hi]
    refine ⟨_, _, hs, h.next hfit hs rfl (by simp) (by simp), ?_⟩
    unfold Transfer.ahead Transfer.move
    dsimp only
    rw [Function.update_self, hi]
    simp [TransferState.ahead]
  | written p =>
    obtain ⟨hlt, hdown⟩ := List.getElem?_eq_some_iff.mp
      (h.assembling.held.downloading i p (congrArg TransferState.phase hi))
    have hlt : p < s.pieceFlags.length := hlt
    have hdown : s.pieceFlags[p] = .downloading := hdown
    have hs : (pieceTransfers inp F).step s (.finish i) =
        some { s.move i .looking with pieceFlags := s.pieceFlags.set p .finished } := by
      simp [pieceTransfers, transferStep, hi, markPieceFinished]
    refine ⟨_, _, hs, h.next hfit hs rfl (by simp) (by simp), ?_⟩
    unfold Transfer.ahead Transfer.move
    dsimp only
    rw [Function.update_self, hi, List.count_set hlt, hdown]
    simp [TransferState.ahead]

theorem exists_run_finished (hfit : Fits inp F) (hi : inp.isSelf i = false) :
    ∃ es s, (pieceTransfers inp F).run inp.startTransfer es = some s ∧
      ∀ status ∈ s.pieceFlags, status = .finished := by
  have hsetup : (pieceTransfers inp F).step inp.startTransfer (.setupDone i) = some (inp.startTransfer.move i .looking) := by
    simp [pieceTransfers, transferStep, DownloadInput.startTransfer, hi]
  have hself : (inp.startTransfer.move i .looking).thread i = .looking := Function.update_self _ _ _
  have hworks : WorksAlone inp F i (inp.startTransfer.move i .looking) := by
    refine ⟨(Assembling.start hfit).step hfit (transferStep_move hsetup), fun j hj => Function.update_of_ne hj _ _, ?_,
      fun ret => ?_⟩
    · rw [hself]
      simp
    · rw [hself]
      simp
  obtain ⟨es, s, hrun, -, hall⟩ := System.exists_run_of_measure (Transfer.ahead i)
    (fun s h hleft => WorksAlone.exists_step hfit h hleft) hworks
  exact ⟨.setupDone i :: es, s, System.run_cons_eq_some.mpr ⟨_, hsetup, hrun⟩, hall⟩

end Alone

/-! ## Which files come through -/

section Reassembly
variable {inp : DownloadInput} {F : List UInt8}

/-- All pieces can get finished, and then the local file is the file up to the length that arrives. -/
theorem exists_run_cut (hpos : 1 ≤ inp.pieceLen.toInt) (hmax : F.length + inp.pieceLen.toInt - 1 ≤ 2147483647) {pkt : Mem}
    (hlen : inp.fileLen = fileLenReply pkt (fileLenRet F.length)) {i : Fin inp.started} (hi : inp.isSelf i = false) :
    ∃ es s, (pieceTransfers inp F).run inp.startTransfer es = some s ∧
      (∀ status ∈ s.pieceFlags, status = .finished) ∧ s.localFile = F.take (arrivingLen F.length) := by
  have hfit := fits_take hpos hmax hlen
  obtain ⟨es, s, hrun, hall⟩ := exists_run_finished hfit hi
  exact ⟨es, s, run_of_take hrun, hall, (file_reassembled inp _ hfit es s hrun).2.2 hall⟩

theorem idle_run (hself : ∀ i, inp.isSelf i = true) {es : List (TransferEvent (Fin inp.started))}
    {s : Transfer (Fin inp.started)} (hrun : (pieceTransfers inp F).run inp.startTransfer es = some s) :
    s.pieceFlags = inp.startTransfer.pieceFlags ∧ s.requests = [] ∧ s.localFile = [] ∧
      ∀ i, s.thread i = .setup ∨ ∃ ret, s.thread i = .ended ret := by
  have hstep : ∀ (s : Transfer (Fin inp.started)) e s', (s.pieceFlags = inp.startTransfer.pieceFlags ∧ s.requests = [] ∧
      s.localFile = [] ∧ ∀ i, s.thread i = .setup ∨ ∃ ret, s.thread i = .ended ret) →
      (pieceTransfers inp F).step s e = some s' → s'.pieceFlags = inp.startTransfer.pieceFlags ∧ s'.requests = [] ∧
        s'.localFile = [] ∧ ∀ i, s'.thread i = .setup ∨ ∃ ret, s'.thread i = .ended ret := by
    rintro s e s' ⟨hflags, hrequests, hfile, hthreads⟩ hs
    have hat : ∀ {i : Fin inp.started} {st : TransferState}, s.thread i = st → st ≠ .setup → (∀ ret, st ≠ .ended ret) →
        False := by
      rintro i st rfl hsetup hended
      rcases hthreads i with h | ⟨ret, h⟩
      · exact hsetup h
      · exact hended ret h
    have hmoved : ∀ (i : Fin inp.started) ret j, (s.move i (.ended ret)).thread j = .setup ∨
        ∃ ret', (s.move i (.ended ret)).thread j = .ended ret' := by
      intro i ret j
      rcases s.thread_move i (.ended ret) j with h | ⟨-, h⟩
      · rw [h]
        exact hthreads j
      · exact Or.inr ⟨ret, h⟩
    cases e with
    | skipSelf i =>
      obtain ⟨-, hs⟩ := Option.ite_none_right_eq_some.mp hs
      cases hs
      exact ⟨hflags, hrequests, hfile, hmoved i 0⟩
    | setupFail i =>
      obtain ⟨-, hs⟩ := Option.ite_none_right_eq_some.mp hs
      cases hs
      exact ⟨hflags, hrequests, hfile, hmoved i (-1)⟩
    | setupDone i =>
      obtain ⟨⟨-, hnot⟩, -⟩ := Option.ite_none_right_eq_some.mp hs
      exact absurd (hself i) hnot
    | getPiece i =>
      obtain ⟨hi, -⟩ := Option.ite_none_right_eq_some.mp hs
      exact (hat hi (by simp) (by simp)).elim
    | sendFail i | send i | readFail i | read i | write i | finish i =>
      simp only [pieceTransfers, transferStep] at hs
      split at hs
      · next hi => exact (hat hi (by simp) (by simp)).elim
      · cases hs
  exact System.run_invariant hstep ⟨rfl, rfl, rfl, fun _ => Or.inl rfl⟩ hrun

/-- Where no thread is for another peer, there is nothing to put together; an empty file has no pieces. -/
theorem reassembles_of_idle (hpos : 1 ≤ inp.pieceLen.toInt) (hmax : F.length + inp.pieceLen.toInt - 1 ≤ 2147483647)
    {pkt : Mem} (hlen : inp.fileLen = fileLenReply pkt (fileLenRet F.length)) (hself : ∀ i, inp.isSelf i = true) :
    Reassembles inp F := by
  intro es s hrun
  obtain ⟨hflags, hrequests, hfile, -⟩ := idle_run hself hrun
  have havailable : ∀ status ∈ s.pieceFlags, status = .available := by
    intro status hmem
    rw [hflags] at hmem
    exact List.eq_of_mem_replicate hmem
  refine ⟨fun req hreq => ?_, fun p hp => ?_, fun hall => ?_⟩
  · rw [hrequests] at hreq
    cases hreq
  · cases havailable _ (List.mem_of_getElem? hp)
  · have hfit := fits_take hpos hmax hlen
    have hle := arrivingLen_le F.length
    have hcount := (Assembling.start hfit).count
    have hnone : s.pieceFlags = [] := by
      refine List.eq_nil_iff_forall_not_mem.mpr fun status hmem => ?_
      cases (havailable status hmem).symm.trans (hall status hmem)
    rw [← hflags, hnone, List.length_nil, List.length_take, min_eq_left hle] at hcount
    have hzero : arrivingLen F.length = 0 := by
      have hreach := Chunks.le_count_mul (L := arrivingLen F.length) hfit.chunk_pos
      rwa [← hcount, Nat.zero_mul, Nat.le_zero] at hreach
    have hempty : F.length = 0 := by
      unfold arrivingLen at hzero
      split_ifs at hzero
      · omega
      · omega
    rw [hfile, List.length_eq_zero_iff.mp hempty]

/-- **Reassembly.** For owners with the content `F` and sizes within the range of `int`, however many threads there are,
in whatever order they go and whichever transfers fail: the file is put together as it should be if and only if its
length arrives as it was, or no thread is there for another peer. -/
theorem file_reassembled_iff (inp : DownloadInput) (F : List UInt8) (pkt : Mem) (hpos : 1 ≤ inp.pieceLen.toInt)
    (hmax : F.length + inp.pieceLen.toInt - 1 ≤ 2147483647) (hlen : inp.fileLen = fileLenReply pkt (fileLenRet F.length)) :
    Reassembles inp F ↔ arrivingLen F.length = F.length ∨ ∀ i, inp.isSelf i = true := by
  constructor
  · intro h
    by_contra hnot
    obtain ⟨hcut, hother⟩ := not_or.mp hnot
    obtain ⟨i, hi⟩ := not_forall.mp hother
    obtain ⟨es, s, hrun, hall, hfile⟩ := exists_run_cut hpos hmax hlen (Bool.eq_false_of_not_eq_true hi)
    have hwhole := (h es s hrun).2.2 hall
    rw [hfile] at hwhole
    have hlength := congrArg List.length hwhole
    rw [List.length_take, min_eq_left (arrivingLen_le F.length)] at hlength
    exact hcut hlength
  · rintro (harrives | hself)
    · intro es s hrun
      exact file_reassembled inp F (fits_of_arrivingLen hpos hmax hlen harrives) es s hrun
    · exact reassembles_of_idle hpos hmax hlen hself

end Reassembly

/-- Three bytes in pieces of two, from one owner. -/
theorem file_reassembled_iff_three_bytes :
    let inp : DownloadInput := ⟨9, [⟨1, P2P_PORT⟩], 2, true, fileLenReply zeroed (fileLenRet 3), true, true, 1, by decide⟩
    let es : List (TransferEvent (Fin inp.started)) :=
      [.setupDone 0, .getPiece 0, .send 0, .read 0, .write 0, .finish 0,
        .getPiece 0, .send 0, .read 0, .write 0, .finish 0]
    Reassembles inp [7, 8, 9] ∧ ∃ s, (pieceTransfers inp [7, 8, 9]).run inp.startTransfer es = some s ∧
      s.requests = [⟨0, 2⟩, ⟨1, 1⟩] ∧ s.localFile = [7, 8, 9] := by
  intro inp es
  have hwhole : Reassembles inp [7, 8, 9] :=
    (file_reassembled_iff inp [7, 8, 9] zeroed (by decide) (by decide) rfl).mpr (Or.inl (by decide))
  have hlast : ((pieceTransfers inp [7, 8, 9]).run inp.startTransfer es).map (fun s => (s.pieceFlags, s.requests)) =
      some ([.finished, .finished], [⟨0, 2⟩, ⟨1, 1⟩]) := by decide +kernel
  obtain ⟨s, hrun, hs⟩ := Option.map_eq_some_iff.mp hlast
  obtain ⟨hflags, hreq⟩ := Prod.mk.inj hs
  refine ⟨hwhole, s, hrun, hreq, (hwhole es s hrun).2.2 ?_⟩
  rw [hflags]
  decide

/-- The low bytes of the length `0x12321` are the end marker: `0x2321` arrives, and the file ends after 8993 bytes. -/
theorem file_of_74529_bytes_cut :
    let F : List UInt8 := List.replicate 74529 0
    let inp : DownloadInput :=
      ⟨9, [⟨1, P2P_PORT⟩], 4096, true, fileLenReply zeroed (fileLenRet 74529), true, true, 1, by decide⟩
    (∃ es s, (pieceTransfers inp F).run inp.startTransfer es = some s ∧
      (∀ status ∈ s.pieceFlags, status = .finished) ∧ s.localFile = List.replicate 8993 0) ∧ ¬ Reassembles inp F := by
  intro F inp
  have hF : F.length = 74529 := List.length_replicate
  have hmax : F.length + inp.pieceLen.toInt - 1 ≤ 2147483647 := by
    rw [hF]
    decide
  have hlen : inp.fileLen = fileLenReply zeroed (fileLenRet F.length) := by rw [hF]
  have hcut : F.take (arrivingLen F.length) = List.replicate 8993 0 := by
    rw [hF]
    exact List.take_replicate
  obtain ⟨es, s, hrun, hall, hfile⟩ := exists_run_cut (i := 0) (by decide) hmax hlen (by decide)
  rw [hcut] at hfile
  refine ⟨⟨es, s, hrun, hall, hfile⟩, fun h => ?_⟩
  have hwhole := (h es s hrun).2.2 hall
  have hlength := congrArg List.length (hfile.symm.trans hwhole)
  rw [List.length_replicate, hF] at hlength
  omega

end TeleSync
