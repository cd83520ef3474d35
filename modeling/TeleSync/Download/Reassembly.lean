import TeleSync.Download.Report
import TeleSync.Lib.Chunks

/-!
# Putting a file together

The requests, replies and writes of `piece_download_task` (`client/download.c`) and the reads of `do_upload`
(`client/start.c`), for owners that all hold the content `F`:

* `pieceRequest`, `downloadOffset`, `uploadOffset` : the lengths and offsets, in the integer types of the two
  sides; `uploadPiece` : the bytes an uploader sends for a request;
* `pieceTransfers` : the threads with their requests and their writes to the local file, one step for each
  call; forgetting those gives the steps of `pieceThreads` (`transferStep_obj`);
* `Fits` : the file and the pieces are small enough for `int`; then the machine arithmetic is the one of
  `Chunks` (`pieceCount_eq`, `pieceRequest_len`, `uploadOffset_eq`, `downloadOffset_eq`);
* `Assembling` : what holds in every reachable state;
* `Reassembles` : requests, offsets, finished pieces and the whole file, in every run (`file_reassembled`).
-/

namespace TeleSync
open Transition

/-! ## Requests and replies -/

/-- `struct p2p_piece_request`. -/
structure PieceRequest where
  pieceId : UInt32
  len : UInt32
  deriving DecidableEq

/-- The request for a piece, as `piece_download_task` fills it. -/
def pieceRequest (pieceLen fileLen filePieces pieceId : Int32) : PieceRequest where
  pieceId := pieceId.toUInt32
  len := if pieceId = filePieces - 1 then (fileLen - pieceLen * (filePieces - 1)).toUInt32
    else pieceLen.toUInt32

/-- `piece_id * piece_len` of the downloader, an `int`. -/
def downloadOffset (pieceLen pieceId : Int32) : ℤ := (pieceId * pieceLen).toInt

/-- `req.piece_id * ctr_info.piece_len` of the uploader, an `unsigned int`. -/
def uploadOffset (pieceLen : Int32) (req : PieceRequest) : ℕ := (req.pieceId * pieceLen.toUInt32).toNat

/-- What `do_upload` reads from its file and sends for a request; nothing when `my_read` comes up short. -/
def uploadPiece (F : List UInt8) (pieceLen : Int32) (req : PieceRequest) : Option (List UInt8) :=
  let pieceBuf := (F.drop (uploadOffset pieceLen req)).take req.len.toInt32.toInt.toNat
  if pieceBuf.length = req.len.toNat then some pieceBuf else none

/-! ## Threads that transfer -/

/-- Where a thread is, with the piece it works on and the buffer it has read. -/
inductive TransferState where
  | setup
  | looking
  | holding (pieceId : ℕ)
  | requested (pieceId : ℕ)
  | received (pieceId : ℕ) (pieceBuf : List UInt8)
  | written (pieceId : ℕ)
  | ended (ret : ℤ)
  deriving DecidableEq

/-- The flags, the threads, the local file and the requests sent so far. -/
structure Transfer (ι : Type) where
  pieceFlags : List PieceStatus
  thread : ι → TransferState
  localFile : List UInt8
  requests : List PieceRequest

/-- What thread `i` does next. -/
inductive TransferEvent (ι : Type) where
  | skipSelf (i : ι)
  | setupFail (i : ι)
  | setupDone (i : ι)
  | getPiece (i : ι)
  | sendFail (i : ι)
  | send (i : ι)
  | readFail (i : ι)
  | read (i : ι)
  | write (i : ι)
  | finish (i : ι)
  deriving DecidableEq

/-- Thread `i` goes on to `st`. -/
def Transfer.move {ι : Type} [DecidableEq ι] (s : Transfer ι) (i : ι) (st : TransferState) : Transfer ι :=
  { s with thread := Function.update s.thread i st }

namespace DownloadInput

variable (inp : DownloadInput)

/-- `obj.file_len` -/
def objFileLen : Int32 := inp.getFileLenFrom.toInt32

/-- The request for piece `p` of this download. -/
def request (p : ℕ) : PieceRequest := pieceRequest inp.pieceLen inp.objFileLen inp.filePieces (Int32.ofNat p)

end DownloadInput

/-- One step of a thread, for owners with the content `F`. A connection carries one request at a time, so a
complete read gives what the uploader sent for it. -/
def transferStep (inp : DownloadInput) (F : List UInt8) (s : Transfer (Fin inp.started)) :
    TransferEvent (Fin inp.started) → Option (Transfer (Fin inp.started))
  | .skipSelf i => if s.thread i = .setup ∧ inp.isSelf i then some (s.move i (.ended 0)) else none
  | .setupFail i => if s.thread i = .setup ∧ ¬ inp.isSelf i then some (s.move i (.ended (-1))) else none
  | .setupDone i => if s.thread i = .setup ∧ ¬ inp.isSelf i then some (s.move i .looking) else none
  | .getPiece i =>
    if s.thread i = .looking then
      match getNewPiece s.pieceFlags with
      | some (p, pieceFlags) => some { s.move i (.holding p) with pieceFlags := pieceFlags }
      | none => some (s.move i (.ended 0))
    else none
  | .sendFail i =>
    match s.thread i with
    | .holding p => some { s.move i (.ended (-1)) with pieceFlags := markPieceFailed s.pieceFlags p }
    | _ => none
  | .send i =>
    match s.thread i with
    | .holding p => some { s.move i (.requested p) with requests := s.requests ++ [inp.request p] }
    | _ => none
  | .readFail i =>
    match s.thread i with
    | .requested p => some { s.move i (.ended (-1)) with pieceFlags := markPieceFailed s.pieceFlags p }
    | _ => none
  | .read i =>
    match s.thread i with
    | .requested p => (uploadPiece F inp.pieceLen (inp.request p)).map fun pieceBuf => s.move i (.received p pieceBuf)
    | _ => none
  | .write i =>
    match s.thread i with
    | .received p pieceBuf =>
      let off := downloadOffset inp.pieceLen (Int32.ofNat p)
      some { s.move i (.written p) with localFile := Chunks.patch s.localFile off.toNat pieceBuf }
    | _ => none
  | .finish i =>
    match s.thread i with
    | .written p => some { s.move i .looking with pieceFlags := markPieceFinished s.pieceFlags p }
    | _ => none

/-- The threads of a download from owners with the content `F`. -/
def pieceTransfers (inp : DownloadInput) (F : List UInt8) :
    System (Transfer (Fin inp.started)) (TransferEvent (Fin inp.started)) where
  step := transferStep inp F

/-- Before the first step: `do_download` has truncated the file and asked for its length. -/
def DownloadInput.startTransfer (inp : DownloadInput) : Transfer (Fin inp.started) :=
  ⟨inp.start.pieceFlags, fun _ => .setup, [], []⟩

/-! ## Forgetting requests and bytes -/

/-- Where the thread is for `pieceThreads`. -/
def TransferState.phase : TransferState → ThreadState
  | .setup => .setup
  | .looking => .looking
  | .holding p => .holding p
  | .requested p => .holding p
  | .received p _ => .holding p
  | .written p => .holding p
  | .ended ret => .ended ret

namespace Transfer

variable {ι : Type}

/-- The flags and the phases. -/
def obj (s : Transfer ι) : DownloadObj ι := ⟨s.pieceFlags, fun i => (s.thread i).phase⟩

variable [DecidableEq ι] (s : Transfer ι) (i : ι) (st : TransferState)

theorem phase_move : (fun j => ((s.move i st).thread j).phase) = Function.update s.obj.thread i st.phase := by
  funext j
  by_cases hj : j = i
  · subst hj
    simp [move]
  · simp [move, obj, Function.update_of_ne hj]

theorem thread_move (j : ι) : (s.move i st).thread j = s.thread j ∨ j = i ∧ (s.move i st).thread j = st := by
  by_cases hj : j = i
  · exact Or.inr ⟨hj, hj ▸ Function.update_self _ _ _⟩
  · exact Or.inl (Function.update_of_ne hj _ _)

end Transfer

/-- All that a step can do. -/
inductive TransferMove (inp : DownloadInput) (F : List UInt8) (s : Transfer (Fin inp.started)) :
    Transfer (Fin inp.started) → Prop
  | stop {i ret} (h : s.thread i = .setup ∨ s.thread i = .looking) : TransferMove inp F s (s.move i (.ended ret))
  | setupDone {i} (h : s.thread i = .setup) : TransferMove inp F s (s.move i .looking)
  | take {i p} (h : s.thread i = .looking) (hp : s.pieceFlags[p]? = some .available) :
      TransferMove inp F s { s.move i (.holding p) with pieceFlags := s.pieceFlags.set p .downloading }
  | fail {i p} (h : s.thread i = .holding p ∨ s.thread i = .requested p) :
      TransferMove inp F s { s.move i (.ended (-1)) with pieceFlags := s.pieceFlags.set p .available }
  | send {i p} (h : s.thread i = .holding p) :
      TransferMove inp F s { s.move i (.requested p) with requests := s.requests ++ [inp.request p] }
  | read {i p pieceBuf} (h : s.thread i = .requested p)
      (hbuf : uploadPiece F inp.pieceLen (inp.request p) = some pieceBuf) :
      TransferMove inp F s (s.move i (.received p pieceBuf))
  | write {i p pieceBuf} (h : s.thread i = .received p pieceBuf) :
      TransferMove inp F s { s.move i (.written p) with
        localFile := Chunks.patch s.localFile (downloadOffset inp.pieceLen (Int32.ofNat p)).toNat pieceBuf }
  | finish {i p} (h : s.thread i = .written p) :
      TransferMove inp F s { s.move i .looking with pieceFlags := s.pieceFlags.set p .finished }

section Steps
variable {inp : DownloadInput} {F : List UInt8} {s s' : Transfer (Fin inp.started)}

theorem transferStep_move {e : TransferEvent (Fin inp.started)} (h : (pieceTransfers inp F).step s e = some s') :
    TransferMove inp F s s' := by
  cases e with
  | skipSelf i =>
    simp only [pieceTransfers, transferStep] at h
    split_ifs at h with hg
    cases h
    exact .stop (Or.inl hg.1)
  | setupFail i =>
    simp only [pieceTransfers, transferStep] at h
    split_ifs at h with hg
    cases h
    exact .stop (Or.inl hg.1)
  | setupDone i =>
    simp only [pieceTransfers, transferStep] at h
    split_ifs at h with hg
    cases h
    exact .setupDone hg.1
  | getPiece i =>
    simp only [pieceTransfers, transferStep] at h
    split_ifs at h with hg
    cases hget : getNewPiece s.pieceFlags with
    | none =>
      rw [hget] at h
      cases h
      exact .stop (Or.inr hg)
    | some r =>
      obtain ⟨p, flags⟩ := r
      rw [hget] at h
      cases h
      obtain ⟨hp, rfl⟩ := getNewPiece_eq_some hget
      exact .take hg hp
  | sendFail i =>
    simp only [pieceTransfers, transferStep] at h
    split at h
    · rename_i p hg
      cases h
      exact .fail (Or.inl hg)
    · cases h
  | send i =>
    simp only [pieceTransfers, transferStep] at h
    split at h
    · rename_i p hg
      cases h
      exact .send hg
    · cases h
  | readFail i =>
    simp only [pieceTransfers, transferStep] at h
    split at h
    · rename_i p hg
      cases h
      exact .fail (Or.inr hg)
    · cases h
  | read i =>
    simp only [pieceTransfers, transferStep] at h
    split at h
    · rename_i p hg
      obtain ⟨pieceBuf, hbuf, rfl⟩ := Option.map_eq_some_iff.mp h
      exact .read hg hbuf
    · cases h
  | write i =>
    simp only [pieceTransfers, transferStep] at h
    split at h
    · rename_i p pieceBuf hg
      cases h
      exact .write hg
    · cases h
  | finish i =>
    simp only [pieceTransfers, transferStep] at h
    split at h
    · rename_i p hg
      cases h
      exact .finish hg
    · cases h

/-- Every step is one of `pieceThreads`, or none. -/
theorem PiecesHeld.transfer (h : PiecesHeld s.obj) (hs : TransferMove inp F s s') : PiecesHeld s'.obj := by
  -- a step within the work on a piece leaves the phase of its thread alone
  have hsame : ∀ {i : Fin inp.started} (st : TransferState), st.phase = (s.thread i).phase →
      (fun j => ((s.move i st).thread j).phase) = s.obj.thread := by
    intro i st hst
    rw [s.phase_move, hst]
    exact Function.update_eq_self i s.obj.thread
  have hmove : ∀ {i : Fin inp.started} {st : TransferState} (flags : List PieceStatus),
      PiecesHeld (s.obj.move i st.phase flags) → PiecesHeld (⟨flags, fun j => ((s.move i st).thread j).phase⟩) := by
    intro i st flags hheld
    rw [s.phase_move]
    exact hheld
  have hphase : ∀ {i : Fin inp.started} {st : TransferState}, s.thread i = st → s.obj.thread i = st.phase :=
    fun hi => congrArg TransferState.phase hi
  cases hs with
  | stop hi =>
    refine hmove _ (h.move_idle ?_ (by simp [TransferState.phase]))
    rcases hi with hi | hi
    · simp [hphase hi, TransferState.phase]
    · simp [hphase hi, TransferState.phase]
  | setupDone hi => exact hmove _ (h.move_idle (by simp [hphase hi, TransferState.phase]) (by simp [TransferState.phase]))
  | take hi hp => exact hmove _ (h.move_take (by simp [hphase hi, TransferState.phase]) hp)
  | fail hi =>
    refine hmove _ (h.move_release ?_ (by simp [TransferState.phase]) (by simp))
    rcases hi with hi | hi
    · exact hphase hi
    · exact hphase hi
  | send hi =>
    have heq := hsame (.requested _) (congrArg TransferState.phase hi).symm
    rw [Transfer.obj, heq]
    exact h
  | @read i p pieceBuf hi _ =>
    have heq := hsame (.received p pieceBuf) (congrArg TransferState.phase hi).symm
    rw [Transfer.obj, heq]
    exact h
  | write hi =>
    have heq := hsame (.written _) (congrArg TransferState.phase hi).symm
    rw [Transfer.obj, heq]
    exact h
  | finish hi => exact hmove _ (h.move_release (hphase hi) (by simp [TransferState.phase]) (by simp))

end Steps

/-! ## Machine arithmetic -/

/-- Pieces are not empty, `file_len + piece_len - 1` is an `int`, and the length was obtained and is that of the file.
Which lengths arrive as they are is said in `Download/Length`. -/
structure Fits (inp : DownloadInput) (F : List UInt8) : Prop where
  pos : 1 ≤ inp.pieceLen.toInt
  max : F.length + inp.pieceLen.toInt - 1 ≤ 2147483647
  len : inp.fileLen = some (UInt32.ofNat F.length)

namespace DownloadInput

/-- `piece_len` as a natural number. -/
def chunk (inp : DownloadInput) : ℕ := inp.pieceLen.toInt.toNat

end DownloadInput

theorem toInt_bmod_of_bounds {z : ℤ} (hlo : 0 ≤ z) (hhi : z ≤ 2147483647) : z.bmod (2 ^ 32) = z := by
  apply Int.bmod_eq_of_le
  · omega
  · omega

namespace Fits

variable {inp : DownloadInput} {F : List UInt8} {p : ℕ}

theorem chunk_eq (h : Fits inp F) : (inp.chunk : ℤ) = inp.pieceLen.toInt := by
  have := h.pos
  rw [DownloadInput.chunk]
  omega

theorem chunk_pos (h : Fits inp F) : 0 < inp.chunk := by
  have := h.chunk_eq
  have := h.pos
  omega

theorem objFileLen_eq (h : Fits inp F) : inp.objFileLen.toInt = F.length := by
  have hpos := h.pos
  have hmax := h.max
  rw [DownloadInput.objFileLen, DownloadInput.getFileLenFrom, h.len, Option.getD_some, UInt32.toInt32_ofNat',
    Int32.toInt_ofNat_of_lt (by omega)]

theorem pieceCount_eq (h : Fits inp F) : inp.filePieces.toInt = Chunks.count F.length inp.chunk := by
  have hpos := h.pos
  have hmax := h.max
  have hchunk := h.chunk_eq
  have hlen : inp.getFileLenFrom.toInt32.toInt = F.length := h.objFileLen_eq
  have hne : inp.pieceLen ≠ -1 := by
    intro hcon
    rw [hcon] at hpos
    exact absurd hpos (by decide)
  have hsum : (inp.getFileLenFrom.toInt32 + inp.pieceLen - 1).toInt = F.length + inp.pieceLen.toInt - 1 := by
    have hone : (1 : Int32).toInt = 1 := by decide
    rw [Int32.toInt_sub, Int32.toInt_add, hlen, hone]
    have hadd : ((F.length : ℤ) + inp.pieceLen.toInt).bmod (2 ^ 32) = F.length + inp.pieceLen.toInt ∨
        (F.length : ℤ) + inp.pieceLen.toInt = 2 ^ 31 := by
      by_cases hle : (F.length : ℤ) + inp.pieceLen.toInt ≤ 2147483647
      · exact Or.inl (toInt_bmod_of_bounds (by omega) hle)
      · exact Or.inr (by omega)
    rcases hadd with hadd | hadd
    · rw [hadd, toInt_bmod_of_bounds (by omega) (by omega)]
    · -- the sum wraps around before 1 is taken off, and back after
      rw [hadd]
      decide
  rw [DownloadInput.filePieces, Int32.toInt_div_of_ne_right _ _ hne, hsum, Chunks.count,
    Int.tdiv_eq_ediv_of_nonneg (by omega), ← hchunk]
  push_cast
  congr 1
  omega

theorem toInt_ofNat (h : Fits inp F) (hp : p < Chunks.count F.length inp.chunk) : (Int32.ofNat p).toInt = p := by
  have hstart := Chunks.start_lt h.chunk_pos hp
  have hle : p * 1 ≤ p * inp.chunk := Nat.mul_le_mul_left p h.chunk_pos
  have hpos := h.pos
  have hmax := h.max
  exact Int32.toInt_ofNat_of_lt (by omega)

theorem toNat_toUInt32 {x : Int32} {n : ℕ} (hx : x.toInt = n) : x.toUInt32.toNat = n := by
  have hzero : 0 ≤ x := by
    rw [Int32.le_iff_toInt_le, hx]
    exact Int.natCast_nonneg n
  rw [Int32.toNat_toUInt32_of_le hzero, Int32.toNatClampNeg, hx, Int.toNat_natCast]

/-- The downloader's offset does not overflow. -/
theorem downloadOffset_eq (h : Fits inp F) (hp : p < Chunks.count F.length inp.chunk) :
    downloadOffset inp.pieceLen (Int32.ofNat p) = (p * inp.chunk : ℕ) := by
  have hstart := Chunks.start_lt h.chunk_pos hp
  have hpos := h.pos
  have hmax := h.max
  rw [downloadOffset, Int32.toInt_mul, h.toInt_ofNat hp, ← h.chunk_eq, ← Nat.cast_mul,
    toInt_bmod_of_bounds (by omega) (by omega)]

theorem uploadOffset_eq (h : Fits inp F) (hp : p < Chunks.count F.length inp.chunk) :
    uploadOffset inp.pieceLen (inp.request p) = p * inp.chunk := by
  have hstart := Chunks.start_lt h.chunk_pos hp
  have hpos := h.pos
  have hmax := h.max
  rw [uploadOffset, UInt32.toNat_mul, DownloadInput.request, pieceRequest, toNat_toUInt32 (h.toInt_ofNat hp),
    toNat_toUInt32 h.chunk_eq.symm, Nat.mod_eq_of_lt (by omega)]

theorem request_len (h : Fits inp F) (hp : p < Chunks.count F.length inp.chunk) :
    (inp.request p).len.toNat = Chunks.size F.length inp.chunk p := by
  have hstart := Chunks.start_lt h.chunk_pos hp
  have hpos := h.pos
  have hmax := h.max
  have hone : (1 : Int32).toInt = 1 := by decide
  have hle : p * 1 ≤ p * inp.chunk := Nat.mul_le_mul_left p h.chunk_pos
  have hcount : Chunks.count F.length inp.chunk ≤ F.length := by
    have hlast := Chunks.start_lt h.chunk_pos (show Chunks.count F.length inp.chunk - 1 <
      Chunks.count F.length inp.chunk by omega)
    have := Nat.mul_le_mul_left (Chunks.count F.length inp.chunk - 1) h.chunk_pos
    omega
  have hlast : (inp.filePieces - 1).toInt = (Chunks.count F.length inp.chunk - 1 : ℕ) := by
    rw [Int32.toInt_sub, h.pieceCount_eq, hone, toInt_bmod_of_bounds (by omega) (by omega)]
    omega
  have hiff : Int32.ofNat p = inp.filePieces - 1 ↔ p = Chunks.count F.length inp.chunk - 1 := by
    rw [← Int32.toInt_inj, hlast, h.toInt_ofNat hp, Nat.cast_inj]
  rw [DownloadInput.request, pieceRequest, Chunks.size]
  simp only [hiff]
  split_ifs with hcase
  · have hprod : inp.chunk * (Chunks.count F.length inp.chunk - 1) < F.length := by
      rw [← hcase, Nat.mul_comm]
      exact hstart
    apply toNat_toUInt32
    rw [Int32.toInt_sub, Int32.toInt_mul, h.objFileLen_eq, hlast, ← h.chunk_eq, ← Nat.cast_mul,
      toInt_bmod_of_bounds (z := ((inp.chunk * _ : ℕ) : ℤ)) (by omega) (by omega),
      toInt_bmod_of_bounds (by omega) (by omega), Nat.cast_sub hprod.le]
  · exact toNat_toUInt32 h.chunk_eq.symm

theorem uploadPiece_eq (h : Fits inp F) (hp : p < Chunks.count F.length inp.chunk) :
    uploadPiece F inp.pieceLen (inp.request p) =
      some ((F.drop (p * inp.chunk)).take (Chunks.size F.length inp.chunk p)) := by
  have hin := Chunks.start_add_size_le h.chunk_pos hp
  have hpos := h.pos
  have hmax := h.max
  have hlen := h.request_len hp
  have hint : (inp.request p).len.toInt32.toInt.toNat = Chunks.size F.length inp.chunk p := by
    have hback : (inp.request p).len = UInt32.ofNat (Chunks.size F.length inp.chunk p) := by
      rw [← hlen, UInt32.ofNat_toNat]
    rw [hback, UInt32.toInt32_ofNat', Int32.toInt_ofNat_of_lt (by omega), Int.toNat_natCast]
  rw [uploadPiece, h.uploadOffset_eq hp, hint, hlen, if_pos]
  rw [List.length_take, List.length_drop]
  omega

end Fits

/-! ## The invariant -/

/-- What holds between the flags, the threads, the requests and the local file. -/
structure Assembling (inp : DownloadInput) (F : List UInt8) (s : Transfer (Fin inp.started)) : Prop where
  held : PiecesHeld s.obj
  count : s.pieceFlags.length = Chunks.count F.length inp.chunk
  requested : ∀ req ∈ s.requests, ∃ p < Chunks.count F.length inp.chunk, req = inp.request p
  received : ∀ i p pieceBuf, s.thread i = .received p pieceBuf →
    pieceBuf = (F.drop (p * inp.chunk)).take (Chunks.size F.length inp.chunk p)
  written : ∀ i p, s.thread i = .written p →
    Chunks.Agree F s.localFile (p * inp.chunk) ((p + 1) * inp.chunk)
  finished : ∀ p, s.pieceFlags[p]? = some .finished →
    Chunks.Agree F s.localFile (p * inp.chunk) ((p + 1) * inp.chunk)
  short : s.localFile.length ≤ F.length

namespace Assembling

variable {inp : DownloadInput} {F : List UInt8} {s : Transfer (Fin inp.started)}

theorem start (h : Fits inp F) : Assembling inp F inp.startTransfer := by
  refine ⟨PiecesHeld.initial _, ?_, fun req hreq => absurd hreq List.not_mem_nil, fun i p buf hi => ?_,
    fun i p hi => ?_, fun p hp => ?_, Nat.zero_le _⟩
  · rw [DownloadInput.startTransfer, DownloadInput.start, DownloadObj.initial, List.length_replicate,
      h.pieceCount_eq, Int.toNat_natCast]
  · cases hi
  · cases hi
  · have hav := List.eq_of_mem_replicate (List.mem_of_getElem? hp)
    cases hav

theorem lt_count (h : Assembling inp F s) {i : Fin inp.started} {p : ℕ} (hi : s.obj.thread i = .holding p) :
    p < Chunks.count F.length inp.chunk := by
  obtain ⟨hlt, -⟩ := List.getElem?_eq_some_iff.mp (h.held.downloading i p hi)
  rw [← h.count]
  exact hlt

/-- A write of piece `p` keeps every other piece. -/
theorem agree_write (hfit : Fits inp F) {p q : ℕ} (hp : p < Chunks.count F.length inp.chunk) (hne : q ≠ p)
    (hq : Chunks.Agree F s.localFile (q * inp.chunk) ((q + 1) * inp.chunk)) :
    Chunks.Agree F (Chunks.patch s.localFile (p * inp.chunk)
      ((F.drop (p * inp.chunk)).take (Chunks.size F.length inp.chunk p))) (q * inp.chunk) ((q + 1) * inp.chunk) := by
  have hsize := Chunks.size_le hfit.chunk_pos hp
  have hlen : ((F.drop (p * inp.chunk)).take (Chunks.size F.length inp.chunk p)).length ≤ inp.chunk := by
    rw [List.length_take]
    omega
  apply hq.patch
  rcases Nat.lt_or_gt_of_ne hne with hlt | hgt
  · exact Or.inl (Nat.mul_le_mul_right inp.chunk hlt)
  · right
    have hmul := Nat.mul_le_mul_right inp.chunk (Nat.succ_le_of_lt hgt)
    rw [Nat.succ_mul] at hmul
    omega

theorem agree_written (hfit : Fits inp F) {p : ℕ} (hp : p < Chunks.count F.length inp.chunk) (file : List UInt8) :
    Chunks.Agree F (Chunks.patch file (p * inp.chunk)
      ((F.drop (p * inp.chunk)).take (Chunks.size F.length inp.chunk p))) (p * inp.chunk) ((p + 1) * inp.chunk) := by
  have hend := Chunks.start_add_size hfit.chunk_pos hp
  have hpatch := Chunks.agree_patch file (Chunks.start_add_size_le hfit.chunk_pos hp)
  intro k hlo hhi hk
  refine hpatch k hlo ?_ hk
  rw [hend]
  exact lt_min hhi hk

/-- A step that leaves the file alone. The threads and flags it changes say nothing new about the file. -/
theorem keep (h : Assembling inp F s) {s' : Transfer (Fin inp.started)} (hheld : PiecesHeld s'.obj)
    (hlen : s'.pieceFlags.length = s.pieceFlags.length) (hreq : s'.requests = s.requests)
    (hfile : s'.localFile = s.localFile)
    (hthread : ∀ i, s'.thread i = s.thread i ∨
      ∀ p pieceBuf, s'.thread i ≠ .received p pieceBuf ∧ s'.thread i ≠ .written p)
    (hflags : ∀ p : ℕ, s'.pieceFlags[p]? = some .finished → s.pieceFlags[p]? = some .finished) :
    Assembling inp F s' := by
  refine ⟨hheld, hlen.trans h.count, ?_, fun i p buf hi => ?_, fun i p hi => ?_, fun p hp => ?_, ?_⟩
  · rw [hreq]
    exact h.requested
  · rcases hthread i with heq | hne
    · exact h.received i p buf (heq ▸ hi)
    · exact absurd hi (hne p buf).1
  · rw [hfile]
    rcases hthread i with heq | hne
    · exact h.written i p (heq ▸ hi)
    · exact absurd hi (hne p []).2
  · rw [hfile]
    exact h.finished p (hflags p hp)
  · rw [hfile]
    exact h.short

/-- A thread that moves to a state without bytes leaves the others as they were. -/
theorem thread_idle {i : Fin inp.started} (st : TransferState)
    (hst : ∀ p pieceBuf, st ≠ .received p pieceBuf ∧ st ≠ .written p) (j : Fin inp.started) :
    (s.move i st).thread j = s.thread j ∨
      ∀ p pieceBuf, (s.move i st).thread j ≠ .received p pieceBuf ∧ (s.move i st).thread j ≠ .written p := by
  rcases s.thread_move i st j with hj | ⟨-, hj⟩
  · exact Or.inl hj
  · rw [hj]
    exact Or.inr hst

theorem finished_of_set {flags : List PieceStatus} {q : ℕ} {status : PieceStatus} (hst : status ≠ .finished) (p : ℕ)
    (hp : (flags.set q status)[p]? = some .finished) : flags[p]? = some .finished := by
  rw [List.getElem?_set] at hp
  split_ifs at hp
  · exact absurd (Option.some.inj hp) hst
  · exact hp

theorem send (h : Assembling inp F s) {i : Fin inp.started} {p : ℕ} (hi : s.thread i = .holding p)
    (hheld : PiecesHeld (Transfer.obj { s.move i (.requested p) with requests := s.requests ++ [inp.request p] })) :
    Assembling inp F { s.move i (.requested p) with requests := s.requests ++ [inp.request p] } := by
  have hp : p < Chunks.count F.length inp.chunk := h.lt_count (congrArg TransferState.phase hi)
  have hthread := thread_idle (s := s) (i := i) (.requested p) (by simp)
  have hkeep : Assembling inp F (s.move i (.requested p)) := h.keep hheld rfl rfl rfl hthread fun _ hq => hq
  refine ⟨hheld, hkeep.count, fun req hreq => ?_, hkeep.received, hkeep.written, hkeep.finished, hkeep.short⟩
  rcases List.mem_append.mp hreq with hreq | hreq
  · exact h.requested req hreq
  · exact ⟨p, hp, List.mem_singleton.mp hreq⟩

theorem read (hfit : Fits inp F) (h : Assembling inp F s) {i : Fin inp.started} {p : ℕ} {pieceBuf : List UInt8}
    (hi : s.thread i = .requested p) (hbuf : uploadPiece F inp.pieceLen (inp.request p) = some pieceBuf)
    (hheld : PiecesHeld (s.move i (.received p pieceBuf)).obj) :
    Assembling inp F (s.move i (.received p pieceBuf)) := by
  have hp : p < Chunks.count F.length inp.chunk := h.lt_count (congrArg TransferState.phase hi)
  rw [hfit.uploadPiece_eq hp, Option.some.injEq] at hbuf
  refine ⟨hheld, h.count, h.requested, fun j q buf hj => ?_, fun j q hj => ?_, h.finished, h.short⟩
  · rcases s.thread_move i (.received p pieceBuf) j with hold | ⟨-, hnew⟩
    · exact h.received j q buf (hold ▸ hj)
    · rw [hnew, TransferState.received.injEq] at hj
      rw [← hj.2, ← hj.1, ← hbuf]
  · rcases s.thread_move i (.received p pieceBuf) j with hold | ⟨-, hnew⟩
    · exact h.written j q (hold ▸ hj)
    · rw [hnew] at hj
      cases hj

theorem write (hfit : Fits inp F) (h : Assembling inp F s) {i : Fin inp.started} {p : ℕ} {pieceBuf : List UInt8}
    (hi : s.thread i = .received p pieceBuf) {file : List UInt8}
    (hfile : file = Chunks.patch s.localFile (downloadOffset inp.pieceLen (Int32.ofNat p)).toNat pieceBuf)
    (hheld : PiecesHeld (Transfer.obj { s.move i (.written p) with localFile := file })) :
    Assembling inp F { s.move i (.written p) with localFile := file } := by
  have hphase : s.obj.thread i = .holding p := congrArg TransferState.phase hi
  have hp := h.lt_count hphase
  have hbuf := h.received i p pieceBuf hi
  rw [hfit.downloadOffset_eq hp, Int.toNat_natCast, hbuf] at hfile
  refine ⟨hheld, h.count, h.requested, fun j q buf hj => ?_, fun j q hj => ?_, fun q hq => ?_, ?_⟩
  · rcases s.thread_move i (.written p) j with hold | ⟨-, hnew⟩
    · exact h.received j q buf (hold ▸ hj)
    · change (s.move i (.written p)).thread j = _ at hj
      rw [hnew] at hj
      cases hj
  · change Chunks.Agree F file _ _
    rw [hfile]
    rcases s.thread_move i (.written p) j with hold | ⟨-, hnew⟩
    · have hj' : s.thread j = .written q := hold ▸ hj
      by_cases hq : q = p
      · rw [hq]
        exact agree_written hfit hp _
      · exact agree_write hfit hp hq (h.written j q hj')
    · change (s.move i (.written p)).thread j = _ at hj
      rw [hnew, TransferState.written.injEq] at hj
      rw [← hj]
      exact agree_written hfit hp _
  · change Chunks.Agree F file _ _
    rw [hfile]
    -- a finished piece is not the one being written
    have hne : q ≠ p := by
      intro hqp
      have hdown : s.pieceFlags[p]? = some .downloading := h.held.downloading i p hphase
      rw [hqp] at hq
      exact absurd (hdown.symm.trans hq) (by simp)
    exact agree_write hfit hp hne (h.finished q hq)
  · change file.length ≤ F.length
    have hin := Chunks.start_add_size_le hfit.chunk_pos hp
    have hshort := h.short
    rw [hfile, Chunks.length_patch, List.length_take, List.length_drop]
    omega

theorem finish (h : Assembling inp F s) {i : Fin inp.started} {p : ℕ} (hi : s.thread i = .written p)
    (hheld : PiecesHeld (Transfer.obj { s.move i .looking with pieceFlags := s.pieceFlags.set p .finished })) :
    Assembling inp F { s.move i .looking with pieceFlags := s.pieceFlags.set p .finished } := by
  have hthread := thread_idle (s := s) (i := i) .looking (by simp)
  refine ⟨hheld, (List.length_set ..).trans h.count, h.requested, fun j q buf hj => ?_, fun j q hj => ?_,
    fun q hq => ?_, h.short⟩
  · rcases hthread j with heq | hne
    · exact h.received j q buf (heq ▸ hj)
    · exact absurd hj (hne q buf).1
  · rcases hthread j with heq | hne
    · exact h.written j q (heq ▸ hj)
    · exact absurd hj (hne q []).2
  · by_cases hqp : q = p
    · rw [hqp]
      exact h.written i p hi
    · apply h.finished q
      change (s.pieceFlags.set p .finished)[q]? = _ at hq
      rwa [List.getElem?_set_ne (Ne.symm hqp)] at hq

theorem step (hfit : Fits inp F) (h : Assembling inp F s) {s' : Transfer (Fin inp.started)}
    (hs : TransferMove inp F s s') : Assembling inp F s' := by
  have hheld := h.held.transfer hs
  cases hs with
  | stop hi => exact h.keep hheld rfl rfl rfl (thread_idle _ (by simp)) fun _ hq => hq
  | setupDone hi => exact h.keep hheld rfl rfl rfl (thread_idle _ (by simp)) fun _ hq => hq
  | take hi hp =>
    exact h.keep hheld (List.length_set ..) rfl rfl (thread_idle _ (by simp)) (finished_of_set (by simp))
  | fail hi =>
    exact h.keep hheld (List.length_set ..) rfl rfl (thread_idle _ (by simp)) (finished_of_set (by simp))
  | send hi => exact h.send hi hheld
  | read hi hbuf => exact h.read hfit hi hbuf hheld
  | write hi => exact h.write hfit hi rfl hheld
  | finish hi => exact h.finish hi hheld

end Assembling

/-- In every run: each request asks for between 1 and `piece_len` bytes inside the file, at an offset that both sides
compute alike; the local file has the bytes of `F` over every finished piece; and once all pieces are finished it is
`F`. -/
def Reassembles (inp : DownloadInput) (F : List UInt8) : Prop :=
  ∀ es s, (pieceTransfers inp F).run inp.startTransfer es = some s →
    (∀ req ∈ s.requests, 1 ≤ req.len.toNat ∧ (req.len.toNat : ℤ) ≤ inp.pieceLen.toInt ∧
        uploadOffset inp.pieceLen req + req.len.toNat ≤ F.length ∧
        (uploadOffset inp.pieceLen req : ℤ) = downloadOffset inp.pieceLen req.pieceId.toInt32) ∧
      (∀ p : ℕ, s.pieceFlags[p]? = some .finished → ∀ k : ℕ, p * inp.pieceLen.toInt ≤ k →
        (k : ℤ) < (p + 1) * inp.pieceLen.toInt → k < F.length → s.localFile[k]? = F[k]?) ∧
      ((∀ status ∈ s.pieceFlags, status = .finished) → s.localFile = F)

theorem file_reassembled (inp : DownloadInput) (F : List UInt8) (hfit : Fits inp F) : Reassembles inp F := by
  intro es s hrun
  have hinv : Assembling inp F s :=
    System.run_invariant (I := Assembling inp F) (fun _ _ _ ht hstep => ht.step hfit (transferStep_move hstep))
      (Assembling.start hfit) hrun
  refine ⟨fun req hreq => ?_, fun p hp k hlo hhi hk => ?_, fun hall => ?_⟩
  · obtain ⟨p, hp, rfl⟩ := hinv.requested req hreq
    rw [hfit.request_len hp, hfit.uploadOffset_eq hp, ← hfit.chunk_eq]
    refine ⟨Chunks.size_pos hfit.chunk_pos hp, ?_, Chunks.start_add_size_le hfit.chunk_pos hp, ?_⟩
    · exact_mod_cast Chunks.size_le hfit.chunk_pos hp
    · rw [DownloadInput.request, pieceRequest, Int32.toInt32_toUInt32, hfit.downloadOffset_eq hp]
  · rw [← hfit.chunk_eq] at hlo hhi
    exact hinv.finished p hp k (by exact_mod_cast hlo) (by exact_mod_cast hhi) hk
  · apply Chunks.eq_of_agree hfit.chunk_pos hinv.short
    intro p hp
    rw [← hinv.count] at hp
    apply hinv.finished p
    rw [List.getElem?_eq_getElem hp, hall _ (List.getElem_mem hp)]

end TeleSync
