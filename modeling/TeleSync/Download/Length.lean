import TeleSync.Download.Reassembly
import TeleSync.Wire.Packet

/-!
# The length of a file

How the length of a file gets from `stat` in `ptop_upload_task` (`client/start.c`) through a `P2P_FILE_LEN_RET` into the
`int` arithmetic of `do_download` (`client/download.c`).

* `fileLenRet`, `fileLenReply` : the eight bytes that are sent, and the four that are read;
* `arrivingLen` : the length that arrives (`fileLenReply_fileLenRet`): the end marker of a segment can be among the bytes;
* `pieceRanges` : the ranges that the threads ask for;
* `filePieces_neg`, `filePieces_eq_zero` : what becomes of the number of pieces where the sum overflows;
* `fits_of_arrivingLen` : where it arrives as it was, the pieces are those of the file;
* `not_reportsError_of_starts` : a download that starts its threads can return 0, however many pieces there are;
* `file_length_iff` : for which lengths the ranges are the file, or the download fails.
-/

namespace TeleSync
open Transition Memory Delimiter

/-! ## The reply -/

/-- The `P2P_FILE_LEN_RET` of `ptop_upload_task`: `st_size` is an `off_t` of eight bytes. -/
def fileLenRet (stSize : ℕ) : Bytes :=
  sendP2pPacket (p2pPacketFill (p2pPacketInit .fileLenRet) (write zeroed 0 8 stSize) 8)

/-- What `get_file_len_from` makes of the reply, into a packet `pkt`; `none` where it returns -1. -/
def fileLenReply (pkt : Mem) (stream : Bytes) : Option UInt32 :=
  let r := recvP2pPacket pkt stream
  if r.ret < 0 then none
  else if (p2pPacketHeader r.pkt).type ≠ .ofNat P2pPacketType.fileLenRet.ctorIdx then none
  else some (.ofNat (read r.pkt ttopPacketHeaderSize 4))

/-- The length that is left of `st_size`: its low four bytes, or only those up to an end marker that begins at the first
or second byte. -/
def arrivingLen (stSize : ℕ) : ℕ :=
  if stSize % 2 ^ 16 = 0x2321 then 0x2321
  else if stSize / 2 ^ 8 % 2 ^ 16 = 0x2321 then stSize % 2 ^ 24
  else stSize % 2 ^ 32

theorem fileLenRet_eq (n : ℕ) :
    fileLenRet n = sendSegment ([4, 0, 8, 0] ++ (List.range 8).map fun i => UInt8.ofNat (n / 256 ^ i)) := by
  have hlen : p2pPacket.packetLen (p2pPacketFill (p2pPacketInit .fileLenRet) (write zeroed 0 8 n) 8) = 12 := rfl
  show sendSegment (slice _ 0 (p2pPacket.packetLen _)) = _
  rw [hlen]
  rfl

/-- A reply that is received up to its first end marker, with at least the header in front of it. -/
theorem fileLenReply_eq {a s : Bytes} (pkt : Mem) {stream : Bytes} (h : ¬ endMarker <:+: 4 :: 0 :: 8 :: 0 :: a)
    (hstream : stream = startMarker ++ ((4 :: 0 :: 8 :: 0 :: a) ++ endMarker ++ s)) :
    fileLenReply pkt stream = some (.ofNat (leValue [(a ++ endMarker).getD 0 0, (a ++ endMarker).getD 1 0,
      (a ++ endMarker).getD 2 0, (a ++ endMarker).getD 3 0])) := by
  have hrecv : recvP2pPacket pkt stream = ⟨(4 :: 0 :: 8 :: 0 :: a).length + 2,
      memcpy pkt 0 (ofBytes (4 :: 0 :: 8 :: 0 :: a ++ endMarker)) 0 ttopPacketSize, s⟩ := by
    show p2pPacket.recv pkt stream = _
    rw [PacketKind.recv, hstream, recvSegment_first h]
    exact if_neg (by dsimp only; omega)
  have hagree : AgreeOn (memcpy pkt 0 (ofBytes (4 :: 0 :: 8 :: 0 :: a ++ endMarker)) 0 ttopPacketSize)
      (ofBytes (4 :: 0 :: 8 :: 0 :: a ++ endMarker)) 0 8 := (agreeOn_memcpy _ _ _).mono le_rfl (by decide)
  have htype : (p2pPacketHeader (ofBytes (4 :: 0 :: 8 :: 0 :: a ++ endMarker))).type =
      .ofNat P2pPacketType.fileLenRet.ctorIdx := by rfl
  have hheader := p2pPacket.hdr_congr (hagree.mono le_rfl (by decide))
  have hread : read (memcpy pkt 0 (ofBytes (4 :: 0 :: 8 :: 0 :: a ++ endMarker)) 0 ttopPacketSize) ttopPacketHeaderSize 4 =
      read (ofBytes (4 :: 0 :: 8 :: 0 :: a ++ endMarker)) ttopPacketHeaderSize 4 := hagree.read (by decide) (by decide)
  unfold fileLenReply
  rw [hrecv]
  dsimp only
  rw [if_neg (by omega), if_neg (by rw [not_not, ← htype]; exact congrArg P2pPacketHeader.type hheader), hread]
  rfl

theorem fileLenReply_bytes (pkt : Mem) (b₀ b₁ b₂ b₃ : UInt8) (bs : Bytes) :
    fileLenReply pkt (sendSegment (4 :: 0 :: 8 :: 0 :: b₀ :: b₁ :: b₂ :: b₃ :: bs)) = some (.ofNat (leValue
      (if b₀ = 0x21 ∧ b₁ = 0x23 then [0x21, 0x23, 0, 0]
      else if b₁ = 0x21 ∧ b₂ = 0x23 then [b₀, 0x21, 0x23, 0]
      else [b₀, b₁, b₂, b₃]))) := by
  have hmark : endMarker <:+: 4 :: 0 :: 8 :: 0 :: b₀ :: b₁ :: b₂ :: b₃ :: bs ++ endMarker :=
    List.suffix_append _ _ |>.isInfix
  obtain ⟨a, s, hcut, ha⟩ := exists_first hmark
  -- the header has no '!' in it
  obtain ⟨a, rfl⟩ : ∃ a', a = 4 :: 0 :: 8 :: 0 :: a' := by
    rcases a with - | ⟨x₀, - | ⟨x₁, - | ⟨x₂, - | ⟨x₃, a⟩⟩⟩⟩
    · simp at hcut
    · simp at hcut
    · simp at hcut
    · simp at hcut
    · simp only [List.cons_append, List.cons.injEq] at hcut
      exact ⟨a, by rw [← hcut.1, ← hcut.2.1, ← hcut.2.2.1, ← hcut.2.2.2.1]⟩
  simp only [List.cons_append, List.cons.injEq, true_and] at hcut
  rw [fileLenReply_eq pkt ha (s := s) (by rw [sendSegment_eq]; simp [endMarker] at hcut ⊢; exact hcut)]
  congr 3
  -- the marker begins at the first, second, third, fourth byte, or later
  rcases a with - | ⟨x₀, - | ⟨x₁, - | ⟨x₂, - | ⟨x₃, a⟩⟩⟩⟩
  · simp only [List.nil_append, List.cons.injEq] at hcut
    rw [if_pos ⟨hcut.1, hcut.2.1⟩]
    rfl
  · simp only [List.cons_append, List.nil_append, List.cons.injEq] at hcut
    obtain ⟨rfl, rfl, rfl, -⟩ := hcut
    rw [if_neg (by simp), if_pos ⟨rfl, rfl⟩]
    rfl
  · simp only [List.cons_append, List.nil_append, List.cons.injEq] at hcut
    obtain ⟨rfl, rfl, rfl, rfl, -⟩ := hcut
    rw [if_neg (not_pair_of_unmarked [4, 0, 8, 0] [] ha), if_neg (by simp)]
    rfl
  · simp only [List.cons_append, List.nil_append, List.cons.injEq] at hcut
    obtain ⟨rfl, rfl, rfl, rfl, -⟩ := hcut
    rw [if_neg (not_pair_of_unmarked [4, 0, 8, 0] [_] ha), if_neg (not_pair_of_unmarked [4, 0, 8, 0, _] [] ha)]
    rfl
  · simp only [List.cons_append, List.cons.injEq] at hcut
    obtain ⟨rfl, rfl, rfl, rfl, -⟩ := hcut
    rw [if_neg (not_pair_of_unmarked [4, 0, 8, 0] (_ :: _ :: a) ha),
      if_neg (not_pair_of_unmarked [4, 0, 8, 0, _] (_ :: a) ha)]
    rfl

/-- A length gets to the downloader as `arrivingLen`, whatever was in its packet. -/
theorem fileLenReply_fileLenRet (pkt : Mem) (n : ℕ) :
    fileLenReply pkt (fileLenRet n) = some (.ofNat (arrivingLen n)) := by
  have hbyte : ∀ x b : ℕ, b < 256 → (UInt8.ofNat x = UInt8.ofNat b ↔ x % 256 = b) := by
    intro x b hb
    rw [← UInt8.toNat_inj, UInt8.toNat_ofNat', UInt8.toNat_ofNat', Nat.mod_eq_of_lt (a := b) hb]
  have hfirst : UInt8.ofNat (n / 256 ^ 0) = 0x21 ∧ UInt8.ofNat (n / 256 ^ 1) = 0x23 ↔ n % 2 ^ 16 = 0x2321 := by
    have h0 := hbyte (n / 256 ^ 0) 0x21 (by decide)
    have h1 := hbyte (n / 256 ^ 1) 0x23 (by decide)
    refine (and_congr h0 h1).trans ?_
    omega
  have hsecond : UInt8.ofNat (n / 256 ^ 1) = 0x21 ∧ UInt8.ofNat (n / 256 ^ 2) = 0x23 ↔
      n / 2 ^ 8 % 2 ^ 16 = 0x2321 := by
    have h1 := hbyte (n / 256 ^ 1) 0x21 (by decide)
    have h2 := hbyte (n / 256 ^ 2) 0x23 (by decide)
    refine (and_congr h1 h2).trans ?_
    omega
  rw [fileLenRet_eq]
  refine (fileLenReply_bytes pkt _ _ _ _ _).trans ?_
  rw [arrivingLen]
  simp only [hfirst, hsecond]
  split_ifs with h1 h2
  · rfl
  · congr 2
    show (UInt8.ofNat (n / 256 ^ 0)).toNat + _ = _
    rw [UInt8.toNat_ofNat']
    show _ + 256 * (0x21 + 256 * (0x23 + 256 * (0 + 256 * 0))) = _
    omega
  · exact congrArg (fun l => some (UInt32.ofNat l)) (leValue_digits 4 n)

/-! ## Pieces and ranges -/

namespace DownloadInput

/-- The offsets and lengths of the requests, piece by piece. -/
def pieceRanges (inp : DownloadInput) : List (ℤ × ℕ) :=
  (List.range inp.filePieces.toInt.toNat).map fun p =>
    (downloadOffset inp.pieceLen (Int32.ofNat p), (inp.request p).len.toNat)

variable {inp : DownloadInput} {L : ℕ}

theorem chunk_eq_toInt (hpos : 1 ≤ inp.pieceLen.toInt) : (inp.chunk : ℤ) = inp.pieceLen.toInt := by
  rw [chunk]
  omega

theorem chunk_lt (inp : DownloadInput) : inp.chunk < 2 ^ 31 := by
  have := inp.pieceLen.toInt_lt
  rw [chunk]
  omega

/-- The arithmetic depends on the content of the file only through its length. -/
theorem fits_replicate (hpos : 1 ≤ inp.pieceLen.toInt) (hlen : inp.fileLen = some (.ofNat L))
    (hfit : L + inp.chunk ≤ 2 ^ 31) : Fits inp (List.replicate L 0) := by
  have hchunk := chunk_eq_toInt hpos
  refine ⟨hpos, ?_, ?_⟩
  · rw [List.length_replicate]
    omega
  · rw [List.length_replicate, hlen]

theorem filePieces_eq_count (hpos : 1 ≤ inp.pieceLen.toInt) (hlen : inp.fileLen = some (.ofNat L))
    (hfit : L + inp.chunk ≤ 2 ^ 31) : inp.filePieces.toInt = Chunks.count L inp.chunk := by
  rw [(fits_replicate hpos hlen hfit).pieceCount_eq, List.length_replicate]

theorem tiles_pieceRanges (hpos : 1 ≤ inp.pieceLen.toInt) (hlen : inp.fileLen = some (.ofNat L))
    (hfit : L + inp.chunk ≤ 2 ^ 31) : Chunks.Tiles inp.chunk 0 L inp.pieceRanges := by
  have h := fits_replicate hpos hlen hfit
  have hF : (List.replicate L (0 : UInt8)).length = L := List.length_replicate
  have hranges : inp.pieceRanges = (List.range (Chunks.count L inp.chunk)).map
      fun p => (((p * inp.chunk : ℕ) : ℤ), Chunks.size L inp.chunk p) := by
    rw [pieceRanges, filePieces_eq_count hpos hlen hfit, Int.toNat_natCast]
    refine List.map_congr_left fun p hp => ?_
    have hp : p < Chunks.count (List.replicate L (0 : UInt8)).length inp.chunk := by
      rw [hF]
      exact List.mem_range.mp hp
    rw [h.downloadOffset_eq hp, h.request_len hp, hF]
  rw [hranges]
  exact Chunks.tiles_chunks h.chunk_pos

/-- Where `file_len + piece_len - 1` is not an `int`, or `file_len` is not, the sum that is divided is off by `2^32`. -/
theorem filePieces_wrapped (hpos : 1 ≤ inp.pieceLen.toInt) (hlen : inp.fileLen = some (.ofNat L)) (hL : L < 2 ^ 32)
    (hbig : 2 ^ 31 < L + inp.chunk) : inp.filePieces.toInt = ((L : ℤ) + inp.chunk - 1 - 2 ^ 32).tdiv inp.chunk := by
  have hchunk := chunk_eq_toInt hpos
  have hlt := inp.chunk_lt
  have hne : inp.pieceLen ≠ -1 := by
    intro hcon
    rw [hcon] at hpos
    exact absurd hpos (by decide)
  have hone : (1 : Int32).toInt = 1 := by decide
  have hsize : Int32.size = 2 ^ 32 := rfl
  have hsum : (inp.getFileLenFrom.toInt32 + inp.pieceLen - 1).toInt = (L : ℤ) + inp.chunk - 1 - 2 ^ 32 := by
    rw [Int32.toInt_sub, Int32.toInt_add, getFileLenFrom, hlen, Option.getD_some, UInt32.toInt32_ofNat',
      Int32.toInt_ofNat', hone, hsize, ← hchunk, Int.bmod_add_bmod, Int.bmod_sub_bmod]
    calc ((L : ℤ) + inp.chunk - 1).bmod (2 ^ 32)
        = ((L : ℤ) + inp.chunk - 1 - 2 ^ 32 + (2 ^ 32 : ℕ)).bmod (2 ^ 32) := by
          congr 1
          push_cast
          omega
      _ = ((L : ℤ) + inp.chunk - 1 - 2 ^ 32).bmod (2 ^ 32) := Int.add_bmod_right _ _
      _ = (L : ℤ) + inp.chunk - 1 - 2 ^ 32 := by
          apply Int.bmod_eq_of_le
          · push_cast
            omega
          · push_cast
            omega
  rw [filePieces, Int32.toInt_div_of_ne_right _ _ hne, hsum, hchunk]

theorem filePieces_neg (hpos : 1 ≤ inp.pieceLen.toInt) (hlen : inp.fileLen = some (.ofNat L)) (hL : L < 2 ^ 32)
    (hbig : 2 ^ 31 < L + inp.chunk) (hsmall : L + 2 * inp.chunk ≤ 2 ^ 32 + 1) : inp.filePieces.toInt < 0 := by
  have hchunk := chunk_eq_toInt hpos
  rw [filePieces_wrapped hpos hlen hL hbig]
  have hneg : (L : ℤ) + inp.chunk - 1 - 2 ^ 32 = -(2 ^ 32 + 1 - L - inp.chunk) := by ring
  have hone : (1 : ℤ) ≤ (2 ^ 32 + 1 - L - inp.chunk) / inp.chunk := by
    rw [Int.le_ediv_iff_mul_le (by omega)]
    omega
  rw [hneg, Int.neg_tdiv, Int.tdiv_eq_ediv_of_nonneg (by omega)]
  omega

/-- The quotient is rounded towards zero. -/
theorem filePieces_eq_zero (hpos : 1 ≤ inp.pieceLen.toInt) (hlen : inp.fileLen = some (.ofNat L)) (hL : L < 2 ^ 32)
    (hbig : 2 ^ 32 + 1 < L + 2 * inp.chunk) : inp.filePieces.toInt = 0 := by
  have hchunk := chunk_eq_toInt hpos
  have hlt := inp.chunk_lt
  rw [filePieces_wrapped hpos hlen hL (by omega)]
  rcases le_or_gt 0 ((L : ℤ) + inp.chunk - 1 - 2 ^ 32) with hnonneg | hneg
  · exact Int.tdiv_eq_zero_of_lt hnonneg (by omega)
  · have hflip : (L : ℤ) + inp.chunk - 1 - 2 ^ 32 = -(2 ^ 32 + 1 - L - inp.chunk) := by ring
    rw [hflip, Int.neg_tdiv, Int.tdiv_eq_zero_of_lt (by omega) (by omega), neg_zero]

end DownloadInput

/-! ## Threads that succeed -/

section Success
variable {ι : Type} [DecidableEq ι] [Fintype ι] {isSelf : ι → Bool} {s s' : DownloadObj ι} {i : ι}

/-- The steps a thread has left, a piece to take apart. -/
def ThreadState.left : ThreadState → ℕ
  | .setup => 2
  | .looking => 1
  | .holding _ => 2
  | .ended _ => 0

/-- The steps left to all threads when nothing fails. -/
def DownloadObj.left (s : DownloadObj ι) : ℕ := ∑ i, (s.thread i).left + 2 * s.pieceFlags.count .available

theorem left_move_lt {st : ThreadState} {flags : List PieceStatus}
    (h : st.left + 2 * flags.count .available < (s.thread i).left + 2 * s.pieceFlags.count .available) :
    (s.move i st flags).left < s.left := by
  have hold := Finset.add_sum_erase Finset.univ (fun j => (s.thread j).left) (Finset.mem_univ i)
  have hnew := Finset.add_sum_erase Finset.univ (fun j => ((s.move i st flags).thread j).left) (Finset.mem_univ i)
  have hrest : ∑ j ∈ Finset.univ.erase i, ((s.move i st flags).thread j).left =
      ∑ j ∈ Finset.univ.erase i, (s.thread j).left := by
    refine Finset.sum_congr rfl fun j hj => ?_
    rw [s.thread_move_of_ne (Finset.ne_of_mem_erase hj)]
  rw [s.thread_move_self] at hnew
  show ∑ j, ((s.move i st flags).thread j).left + 2 * flags.count .available < _
  rw [DownloadObj.left]
  omega

/-- No thread has failed. -/
structure Unfailed (s : DownloadObj ι) : Prop where
  held : PiecesHeld s
  zero : ∀ j r, s.thread j = .ended r → r = 0

omit [Fintype ι] in
theorem Unfailed.move (h : Unfailed s) {e : DownloadEvent ι} {st : ThreadState} {flags : List PieceStatus}
    (hs : (pieceThreads isSelf).step s e = some (s.move i st flags)) (hst : ∀ r, st = .ended r → r = 0) :
    Unfailed (s.move i st flags) := by
  refine ⟨h.held.step (pieceStep_move hs), fun j r hj => ?_⟩
  by_cases hji : j = i
  · subst hji
    rw [s.thread_move_self] at hj
    exact hst r hj
  · rw [s.thread_move_of_ne hji] at hj
    exact h.zero j r hj

theorem Unfailed.exists_step (h : Unfailed s) (hi : (s.thread i).isEnded = false) :
    ∃ e s', (pieceThreads isSelf).step s e = some s' ∧ Unfailed s' ∧ s'.left < s.left := by
  cases hst : s.thread i with
  | setup =>
    cases hself : isSelf i with
    | true =>
      have hs : (pieceThreads isSelf).step s (.skipSelf i) = some (s.move i (.ended 0) s.pieceFlags) :=
        if_pos ⟨hst, hself⟩
      exact ⟨_, _, hs, h.move hs (by simp), left_move_lt (by simp [hst, ThreadState.left])⟩
    | false =>
      have hs : (pieceThreads isSelf).step s (.setupDone i) = some (s.move i .looking s.pieceFlags) :=
        if_pos ⟨hst, by simp [hself]⟩
      exact ⟨_, _, hs, h.move hs (by simp), left_move_lt (by simp [hst, ThreadState.left])⟩
  | looking =>
    cases hget : getNewPiece s.pieceFlags with
    | none =>
      have hs : (pieceThreads isSelf).step s (.getPiece i) = some (s.move i (.ended 0) s.pieceFlags) := by
        simp [pieceThreads, pieceStep, hst, hget]
      exact ⟨_, _, hs, h.move hs (by simp), left_move_lt (by simp [hst, ThreadState.left])⟩
    | some r =>
      obtain ⟨p, flags⟩ := r
      obtain ⟨hp, rfl⟩ := getNewPiece_eq_some hget
      obtain ⟨hlt, hav⟩ := List.getElem?_eq_some_iff.mp hp
      have hcount : 0 < s.pieceFlags.count .available := List.count_pos_iff.mpr (List.mem_of_getElem? hp)
      have hs : (pieceThreads isSelf).step s (.getPiece i) =
          some (s.move i (.holding p) (s.pieceFlags.set p .downloading)) := by
        simp [pieceThreads, pieceStep, hst, hget]
      refine ⟨_, _, hs, h.move hs (by simp), left_move_lt ?_⟩
      rw [List.count_set hlt, hav, hst]
      simp only [ThreadState.left, beq_self_eq_true, if_true]
      simp
      omega
  | holding p =>
    obtain ⟨hlt, hdown⟩ := List.getElem?_eq_some_iff.mp (h.held.downloading i p hst)
    have hs : (pieceThreads isSelf).step s (.pieceDone i) =
        some (s.move i .looking (s.pieceFlags.set p .finished)) := by
      simp [pieceThreads, pieceStep, hst, markPieceFinished]
    refine ⟨_, _, hs, h.move hs (by simp), left_move_lt ?_⟩
    rw [List.count_set hlt, hdown, hst]
    simp [ThreadState.left]
  | ended r =>
    rw [hst] at hi
    cases hi

theorem exists_run_allEnded (isSelf : ι → Bool) (filePieces : ℕ) :
    ∃ es s, (pieceThreads isSelf).run (.initial filePieces) es = some s ∧ ∀ i, s.thread i = .ended 0 := by
  have hwork : ∀ s : DownloadObj ι, Unfailed s → ¬ s.AllEnded →
      ∃ e s', (pieceThreads isSelf).step s e = some s' ∧ Unfailed s' ∧ s'.left < s.left := by
    intro s hs hnot
    obtain ⟨i, hi⟩ := not_forall.mp hnot
    exact hs.exists_step (Bool.eq_false_of_not_eq_true hi)
  have hstart : Unfailed (DownloadObj.initial (ι := ι) filePieces) := by
    refine ⟨PiecesHeld.initial filePieces, fun j r hj => ?_⟩
    cases hj
  obtain ⟨es, s, hrun, hs, hend⟩ := System.exists_run_of_measure DownloadObj.left hwork hstart
  refine ⟨es, s, hrun, fun i => ?_⟩
  obtain ⟨r, hr⟩ := ThreadState.exists_ended (hend i)
  rw [hr, hs.zero i r hr]

end Success

/-! ## When the length is right -/

namespace DownloadInput

/-- `do_download` gets as far as starting a thread, `file_pieces` apart. -/
def Starts (inp : DownloadInput) : Prop :=
  inp.opened ∧ inp.owners ≠ [] ∧ inp.flagsAlloc ∧ inp.tidsAlloc ∧ 0 < inp.started

/-- However the threads run, `do_download` does not return 0. -/
def ReportsError (inp : DownloadInput) : Prop := ∀ es res, doDownload inp es = some res → res.ret ≠ 0

end DownloadInput

/-- The length survives the way to the downloader, and the sum with `piece_len` is not too large for an `int`; or it is,
and the number of pieces comes out negative. -/
def LengthOk (stSize pieceLen : ℕ) : Prop :=
  arrivingLen stSize = stSize ∧ stSize + pieceLen ≤ 2 ^ 31 ∨
    2 ^ 31 < arrivingLen stSize + pieceLen ∧ arrivingLen stSize + 2 * pieceLen ≤ 2 ^ 32 + 1

theorem arrivingLen_lt (stSize : ℕ) : arrivingLen stSize < 2 ^ 32 := by
  unfold arrivingLen
  split_ifs
  · decide
  · exact (Nat.mod_lt _ (by decide)).trans (by decide)
  · exact Nat.mod_lt _ (by decide)

theorem arrivingLen_le (stSize : ℕ) : arrivingLen stSize ≤ stSize := by
  unfold arrivingLen
  split_ifs
  · omega
  · exact Nat.mod_le _ _
  · exact Nat.mod_le _ _

section Fitting
variable {inp : DownloadInput} {F : List UInt8}

/-- The pieces are those of the file as far as the length that arrives. -/
theorem fits_take (hpos : 1 ≤ inp.pieceLen.toInt) (hmax : F.length + inp.pieceLen.toInt - 1 ≤ 2147483647) {pkt : Mem}
    (hlen : inp.fileLen = fileLenReply pkt (fileLenRet F.length)) : Fits inp (F.take (arrivingLen F.length)) := by
  have hle := arrivingLen_le F.length
  have hlength : (F.take (arrivingLen F.length)).length = arrivingLen F.length := by
    rw [List.length_take, min_eq_left hle]
  refine ⟨hpos, ?_, ?_⟩
  · rw [hlength]
    omega
  · rw [hlen, fileLenReply_fileLenRet, hlength]

theorem fits_of_arrivingLen (hpos : 1 ≤ inp.pieceLen.toInt) (hmax : F.length + inp.pieceLen.toInt - 1 ≤ 2147483647)
    {pkt : Mem} (hlen : inp.fileLen = fileLenReply pkt (fileLenRet F.length))
    (harrives : arrivingLen F.length = F.length) : Fits inp F := by
  have hfit := fits_take hpos hmax hlen
  rwa [harrives, List.take_length] at hfit

end Fitting

/-- A download that starts its threads can return 0, whatever the number of pieces. -/
theorem not_reportsError_of_starts {inp : DownloadInput} (hstart : inp.Starts) (hpos : 1 ≤ inp.pieceLen.toInt)
    (hpieces : 0 ≤ inp.filePieces.toInt) : ¬ inp.ReportsError := by
  obtain ⟨hopened, howners, hflags, htids, hstarted⟩ := hstart
  obtain ⟨es, s, hrun, hended⟩ := exists_run_allEnded inp.isSelf inp.filePieces.toInt.toNat
  have hall : s.AllEnded := by
    intro i
    rw [hended i]
    rfl
  have hzero : joinThreads (List.ofFn fun i => (s.thread i).ret) = 0 := by
    rw [joinThreads_eq_zero, List.mem_ofFn]
    exact ⟨⟨0, hstarted⟩, by rw [hended]; rfl⟩
  have hne : inp.pieceLen ≠ 0 := by
    intro hcon
    rw [hcon] at hpos
    exact absurd hpos (by decide)
  have hret : doDownload inp es = some ⟨joinThreads (List.ofFn fun i => (s.thread i).ret), s.pieceFlags⟩ := by
    have hrun : (pieceThreads inp.isSelf).run inp.start es = some s := hrun
    rw [doDownload, if_neg (by simp [hopened]), if_neg howners, if_neg hne, if_neg (by simp [hpieces, hflags]),
      if_neg (by simp [htids]), hrun, Option.bind_some, if_pos hall]
  intro herror
  exact herror es _ hret hzero

theorem reportsError_of_not_starts {inp : DownloadInput} (h : ¬ inp.Starts ∨ inp.filePieces.toInt < 0) :
    inp.ReportsError := by
  have hfailed : ∀ {ι : Type} {es : List (DownloadEvent ι)} {res : DownloadResult},
      failedDownload es = some res → res.ret ≠ 0 := by
    intro ι es res hres
    unfold failedDownload at hres
    split_ifs at hres
    cases hres
    decide
  intro es res hres
  unfold doDownload at hres
  split_ifs at hres with h1 h2 h3 h4 h5
  · exact hfailed hres
  · exact hfailed hres
  · obtain ⟨s, -, hs⟩ := Option.bind_eq_some_iff.mp hres
    split_ifs at hs
    cases hs
    have hnone : inp.started = 0 := by
      by_contra hne
      refine h.elim (fun hs => hs ⟨?_, h2, ?_, ?_, Nat.pos_of_ne_zero hne⟩) ?_
      · simpa using h1
      · by_contra hcon
        exact h4 (Or.inr hcon)
      · simpa using h5
      · exact fun hneg => h4 (Or.inl hneg)
    intro hzero
    obtain ⟨i, -⟩ := List.mem_ofFn.mp (joinThreads_eq_zero.mp hzero)
    exact absurd i.isLt (by omega)
  · exact hfailed hres
  · exact hfailed hres

theorem reportsError_iff {inp : DownloadInput} (hpos : 1 ≤ inp.pieceLen.toInt) (hpieces : 0 ≤ inp.filePieces.toInt) :
    inp.ReportsError ↔ ¬ inp.Starts := by
  constructor
  · intro herror hstart
    exact not_reportsError_of_starts hstart hpos hpieces herror
  · exact fun h => reportsError_of_not_starts (Or.inl h)

/-- **File length.** For every `st_size` and every `piece_len` of at least 1: the ranges that the downloader asks for
are the file, one after the other, or the download fails, if and only if the length arrives as it was and its sum with
`piece_len` is at most `2^31`, or the sum overflows into a negative number of pieces, or no thread is started. -/
theorem file_length_iff (inp : DownloadInput) (stSize : ℕ) (pkt : Mem) (hpos : 1 ≤ inp.pieceLen.toInt)
    (hlen : inp.fileLen = fileLenReply pkt (fileLenRet stSize)) :
    Chunks.Tiles inp.chunk 0 stSize inp.pieceRanges ∨ inp.ReportsError ↔
      LengthOk stSize inp.chunk ∨ ¬ inp.Starts := by
  rw [fileLenReply_fileLenRet] at hlen
  have hL := arrivingLen_lt stSize
  have hle := arrivingLen_le stSize
  have hlt := inp.chunk_lt
  rcases le_or_gt (arrivingLen stSize + inp.chunk) (2 ^ 31) with hfit | hbig
  · -- the ranges are those of the length that arrives
    have htiles := DownloadInput.tiles_pieceRanges hpos hlen hfit
    have hexact : Chunks.Tiles inp.chunk 0 stSize inp.pieceRanges ↔ arrivingLen stSize = stSize := by
      constructor
      · intro h
        exact_mod_cast htiles.end_unique h
      · intro h
        rwa [h] at htiles
    have hok : LengthOk stSize inp.chunk ↔ arrivingLen stSize = stSize := by
      unfold LengthOk
      omega
    have hpieces : 0 ≤ inp.filePieces.toInt := by
      rw [DownloadInput.filePieces_eq_count hpos hlen hfit]
      exact Int.natCast_nonneg _
    rw [hexact, hok, reportsError_iff hpos hpieces]
  · rcases le_or_gt (arrivingLen stSize + 2 * inp.chunk) (2 ^ 32 + 1) with hsmall | hlarge
    · -- `calloc` refuses a negative number of flags
      have hneg := DownloadInput.filePieces_neg hpos hlen hL hbig hsmall
      exact iff_of_true (Or.inr (reportsError_of_not_starts (Or.inr hneg))) (Or.inl (Or.inr ⟨hbig, hsmall⟩))
    · -- no pieces for a file that is not empty
      have hzero := DownloadInput.filePieces_eq_zero hpos hlen hL hlarge
      have hranges : inp.pieceRanges = [] := by
        rw [DownloadInput.pieceRanges, hzero]
        rfl
      have hexact : ¬ Chunks.Tiles inp.chunk 0 stSize inp.pieceRanges := by
        rw [hranges]
        intro h
        have h : (0 : ℤ) = stSize := h
        omega
      have hok : ¬ LengthOk stSize inp.chunk := by
        unfold LengthOk
        omega
      rw [or_iff_right hexact, or_iff_right hok, reportsError_iff hpos hzero.ge]

/-- A file of five bytes in pieces of two. -/
theorem file_length_five_bytes :
    let inp : DownloadInput := ⟨9, [⟨1, P2P_PORT⟩], 2, true, fileLenReply zeroed (fileLenRet 5), true, true, 1, le_rfl⟩
    LengthOk 5 inp.chunk ∧ (Chunks.Tiles inp.chunk 0 5 inp.pieceRanges ∨ inp.ReportsError) := by
  intro inp
  have hok : LengthOk 5 inp.chunk := Or.inl ⟨by decide, by decide⟩
  exact ⟨hok, (file_length_iff inp 5 zeroed (by decide) rfl).mpr (Or.inl hok)⟩

/-- A file of 4 GiB arrives with length 0: there is nothing to download, and the download returns 0. -/
theorem four_gib_file_empty :
    let inp : DownloadInput :=
      ⟨9, [⟨1, P2P_PORT⟩], 4096, true, fileLenReply zeroed (fileLenRet (2 ^ 32)), true, true, 1, le_rfl⟩
    doDownload inp [.setupDone 0, .getPiece 0] = some ⟨0, []⟩ ∧
      ¬ (Chunks.Tiles inp.chunk 0 (2 ^ 32) inp.pieceRanges ∨ inp.ReportsError) := by
  intro inp
  have hret : doDownload inp [.setupDone 0, .getPiece 0] = some ⟨0, []⟩ := by decide +kernel
  have hranges : inp.pieceRanges = [] := by decide +kernel
  refine ⟨hret, ?_⟩
  rintro (htiles | herror)
  · rw [hranges] at htiles
    have htiles : (0 : ℤ) = 2 ^ 32 := htiles
    omega
  · exact herror _ _ hret rfl

end TeleSync
