import TeleSync.Download.Length
import TeleSync.Download.Session

/-!
# A download over its connections

All threads of a download with the bytes of all their connections. The threads share the flags and the local file, each
of them has the loop of an uploader at the other end of its connection:

* `WiredDownload`, `wiredDownload` : threads and connections, with their steps in any order; a connection may fail;
* `WiredMove` : all that one step can do;
* `Wiring` : what holds in every reachable state: the calls are those of `pieceTransfers`, and each connection is where
  its thread is;
* `WiredDownload.work`, `WiredMove.work` : the work that is left, which every step brings down;
* `Wiring.stuck`, `finished_of_arrive` : where nothing can go on, and that without failures all pieces are there then;
* `wired_download` : every run comes to an end; without failures the file is complete at the end exactly when the
  requests for all pieces arrive.
-/

namespace TeleSync
open Transition Memory

/-! ## Threads and connections -/

/-- The threads of a download, and the connection of each. -/
structure WiredDownload (ι : Type) where
  calls : Transfer ι
  wire : ι → PieceSession

/-- What thread `i`, its uploader or the connection between them does next. -/
inductive WiredEvent (ι : Type) where
  | skipSelf (i : ι)
  | setupFail (i : ι)
  | setupDone (i : ι)
  | getPiece (i : ι)
  | send (i : ι)
  /-- the uploader, or a part of `my_read` -/
  | wire (i : ι) (e : SessionEvent)
  /-- `my_read` has all bytes -/
  | read (i : ι)
  /-- the uploader has closed the connection -/
  | readEnd (i : ι)
  | write (i : ι)
  | finish (i : ι)
  /-- the connection fails -/
  | sendFail (i : ι)
  | readFail (i : ι)
  deriving DecidableEq

/-- The connection failed. -/
def WiredEvent.failed {ι : Type} : WiredEvent ι → Bool
  | .sendFail _ => true
  | .readFail _ => true
  | _ => false

/-- Steps of a session that are no calls of the thread. -/
def SessionEvent.onWire : SessionEvent → Bool
  | .receive => true
  | .write _ => true
  | .written => true
  | .read _ => true
  | _ => false

namespace PieceSession

/-- The piece that the thread will ask for. -/
def ask (w : PieceSession) (req : PieceRequest) : PieceSession := { w with todo := [req] }

/-- The thread has given up. -/
def giveUp (w : PieceSession) : PieceSession := { w with todo := [], thread := .ended (-1) }

end PieceSession

section System
variable (inp : DownloadInput) (F : Bytes)

def wiredStep (s : WiredDownload (Fin inp.started)) : WiredEvent (Fin inp.started) →
    Option (WiredDownload (Fin inp.started))
  | .skipSelf i => (transferStep inp F s.calls (.skipSelf i)).map fun calls => ⟨calls, s.wire⟩
  | .setupFail i => (transferStep inp F s.calls (.setupFail i)).map fun calls => ⟨calls, s.wire⟩
  | .setupDone i => (transferStep inp F s.calls (.setupDone i)).map fun calls => ⟨calls, s.wire⟩
  | .getPiece i =>
    (transferStep inp F s.calls (.getPiece i)).bind fun calls =>
      match calls.thread i with
      | .holding p => some ⟨calls, Function.update s.wire i ((s.wire i).ask (inp.request p))⟩
      | _ => (pieceSessionStep F inp.pieceLen (s.wire i) .next).map fun w => ⟨calls, Function.update s.wire i w⟩
  | .send i =>
    (transferStep inp F s.calls (.send i)).bind fun calls =>
      (pieceSessionStep F inp.pieceLen (s.wire i) .next).map fun w => ⟨calls, Function.update s.wire i w⟩
  | .wire i e =>
    if e.onWire then
      (pieceSessionStep F inp.pieceLen (s.wire i) e).map fun w => { s with wire := Function.update s.wire i w }
    else none
  | .read i =>
    match s.calls.thread i, (s.wire i).thread with
    | .requested p, .reading _ pieceBuf =>
      (pieceSessionStep F inp.pieceLen (s.wire i) .finish).map fun w =>
        ⟨s.calls.move i (.received p pieceBuf), Function.update s.wire i w⟩
    | _, _ => none
  | .readEnd i =>
    (transferStep inp F s.calls (.readFail i)).bind fun calls =>
      (pieceSessionStep F inp.pieceLen (s.wire i) .readFail).map fun w => ⟨calls, Function.update s.wire i w⟩
  | .write i => (transferStep inp F s.calls (.write i)).map fun calls => ⟨calls, s.wire⟩
  | .finish i => (transferStep inp F s.calls (.finish i)).map fun calls => ⟨calls, s.wire⟩
  | .sendFail i =>
    (transferStep inp F s.calls (.sendFail i)).map fun calls => ⟨calls, Function.update s.wire i (s.wire i).giveUp⟩
  | .readFail i =>
    (transferStep inp F s.calls (.readFail i)).map fun calls => ⟨calls, Function.update s.wire i (s.wire i).giveUp⟩

/-- A download from owners with the content `F`. -/
def wiredDownload : System (WiredDownload (Fin inp.started)) (WiredEvent (Fin inp.started)) where
  step := wiredStep inp F

/-- Before the first step; `do_upload` has allocated its packet with zeros. -/
def DownloadInput.startWired : WiredDownload (Fin inp.started) :=
  ⟨inp.startTransfer, fun _ => .start [] Memory.zeroed⟩

end System

/-! ## One step -/

section Moves
variable {inp : DownloadInput} {F : Bytes} {s s' : WiredDownload (Fin inp.started)}

/-- All that a step can do. -/
inductive WiredMove (inp : DownloadInput) (F : Bytes) (s : WiredDownload (Fin inp.started)) :
    WiredEvent (Fin inp.started) → WiredDownload (Fin inp.started) → Prop
  | skipSelf {i} (h : s.calls.thread i = .setup) (hself : inp.isSelf i = true) :
      WiredMove inp F s (.skipSelf i) ⟨s.calls.move i (.ended 0), s.wire⟩
  | setupFail {i} (h : s.calls.thread i = .setup) (hself : inp.isSelf i = false) :
      WiredMove inp F s (.setupFail i) ⟨s.calls.move i (.ended (-1)), s.wire⟩
  | setupDone {i} (h : s.calls.thread i = .setup) (hself : inp.isSelf i = false) :
      WiredMove inp F s (.setupDone i) ⟨s.calls.move i .looking, s.wire⟩
  | noPiece {i w} (h : s.calls.thread i = .looking) (hnone : .available ∉ s.calls.pieceFlags)
      (hw : pieceSessionStep F inp.pieceLen (s.wire i) .next = some w) :
      WiredMove inp F s (.getPiece i) ⟨s.calls.move i (.ended 0), Function.update s.wire i w⟩
  | take {i p} (h : s.calls.thread i = .looking) (hp : s.calls.pieceFlags[p]? = some .available) :
      WiredMove inp F s (.getPiece i)
        ⟨{ s.calls.move i (.holding p) with pieceFlags := s.calls.pieceFlags.set p .downloading },
          Function.update s.wire i ((s.wire i).ask (inp.request p))⟩
  | send {i p w} (h : s.calls.thread i = .holding p)
      (hw : pieceSessionStep F inp.pieceLen (s.wire i) .next = some w) :
      WiredMove inp F s (.send i)
        ⟨{ s.calls.move i (.requested p) with requests := s.calls.requests ++ [inp.request p] },
          Function.update s.wire i w⟩
  | wire {i e w} (he : e.onWire = true) (hw : pieceSessionStep F inp.pieceLen (s.wire i) e = some w) :
      WiredMove inp F s (.wire i e) ⟨s.calls, Function.update s.wire i w⟩
  | read {i p req pieceBuf w} (h : s.calls.thread i = .requested p)
      (hthread : (s.wire i).thread = .reading req pieceBuf)
      (hw : pieceSessionStep F inp.pieceLen (s.wire i) .finish = some w) :
      WiredMove inp F s (.read i) ⟨s.calls.move i (.received p pieceBuf), Function.update s.wire i w⟩
  | readEnd {i p w} (h : s.calls.thread i = .requested p)
      (hw : pieceSessionStep F inp.pieceLen (s.wire i) .readFail = some w) :
      WiredMove inp F s (.readEnd i)
        ⟨{ s.calls.move i (.ended (-1)) with pieceFlags := s.calls.pieceFlags.set p .available },
          Function.update s.wire i w⟩
  | write {i p pieceBuf} (h : s.calls.thread i = .received p pieceBuf) :
      WiredMove inp F s (.write i)
        ⟨{ s.calls.move i (.written p) with
            localFile := Chunks.patch s.calls.localFile (downloadOffset inp.pieceLen (Int32.ofNat p)).toNat pieceBuf },
          s.wire⟩
  | finish {i p} (h : s.calls.thread i = .written p) :
      WiredMove inp F s (.finish i)
        ⟨{ s.calls.move i .looking with pieceFlags := s.calls.pieceFlags.set p .finished }, s.wire⟩
  | sendFail {i p} (h : s.calls.thread i = .holding p) :
      WiredMove inp F s (.sendFail i)
        ⟨{ s.calls.move i (.ended (-1)) with pieceFlags := s.calls.pieceFlags.set p .available },
          Function.update s.wire i (s.wire i).giveUp⟩
  | readFail {i p} (h : s.calls.thread i = .requested p) :
      WiredMove inp F s (.readFail i)
        ⟨{ s.calls.move i (.ended (-1)) with pieceFlags := s.calls.pieceFlags.set p .available },
          Function.update s.wire i (s.wire i).giveUp⟩

theorem wiredStep_move {e : WiredEvent (Fin inp.started)} (h : (wiredDownload inp F).step s e = some s') :
    WiredMove inp F s e s' := by
  cases e with
  | skipSelf i =>
    obtain ⟨calls, hc, rfl⟩ := Option.map_eq_some_iff.mp h
    obtain ⟨hg, hc⟩ := Option.ite_none_right_eq_some.mp hc
    obtain rfl := Option.some.inj hc
    exact .skipSelf hg.1 hg.2
  | setupFail i =>
    obtain ⟨calls, hc, rfl⟩ := Option.map_eq_some_iff.mp h
    obtain ⟨hg, hc⟩ := Option.ite_none_right_eq_some.mp hc
    obtain rfl := Option.some.inj hc
    exact .setupFail hg.1 (eq_false_of_ne_true hg.2)
  | setupDone i =>
    obtain ⟨calls, hc, rfl⟩ := Option.map_eq_some_iff.mp h
    obtain ⟨hg, hc⟩ := Option.ite_none_right_eq_some.mp hc
    obtain rfl := Option.some.inj hc
    exact .setupDone hg.1 (eq_false_of_ne_true hg.2)
  | getPiece i =>
    obtain ⟨calls, hc, h⟩ := Option.bind_eq_some_iff.mp h
    obtain ⟨hg, hc⟩ := Option.ite_none_right_eq_some.mp hc
    cases hget : getNewPiece s.calls.pieceFlags with
    | none =>
      rw [hget] at hc
      obtain rfl := Option.some.inj hc
      have hthread : (s.calls.move i (.ended 0)).thread i = .ended 0 := Function.update_self _ _ _
      simp only [hthread] at h
      obtain ⟨w, hw, rfl⟩ := Option.map_eq_some_iff.mp h
      exact .noPiece hg (getNewPiece_eq_none.mp hget) hw
    | some r =>
      obtain ⟨p, flags⟩ := r
      rw [hget] at hc
      obtain rfl := Option.some.inj hc
      have hthread : (s.calls.move i (.holding p)).thread i = .holding p := Function.update_self _ _ _
      simp only [hthread] at h
      obtain rfl := Option.some.inj h
      obtain ⟨hp, rfl⟩ := getNewPiece_eq_some hget
      exact .take hg hp
  | send i =>
    obtain ⟨calls, hc, h⟩ := Option.bind_eq_some_iff.mp h
    obtain ⟨w, hw, rfl⟩ := Option.map_eq_some_iff.mp h
    simp only [transferStep] at hc
    split at hc
    · next p hg =>
      obtain rfl := Option.some.inj hc
      exact .send hg hw
    · cases hc
  | wire i e =>
    obtain ⟨he, h⟩ := Option.ite_none_right_eq_some.mp h
    obtain ⟨w, hw, rfl⟩ := Option.map_eq_some_iff.mp h
    exact .wire he hw
  | read i =>
    simp only [wiredDownload, wiredStep] at h
    split at h
    · next p req pieceBuf hg hthread =>
      obtain ⟨w, hw, rfl⟩ := Option.map_eq_some_iff.mp h
      exact .read hg hthread hw
    · cases h
  | readEnd i =>
    obtain ⟨calls, hc, h⟩ := Option.bind_eq_some_iff.mp h
    obtain ⟨w, hw, rfl⟩ := Option.map_eq_some_iff.mp h
    simp only [transferStep] at hc
    split at hc
    · next p hg =>
      obtain rfl := Option.some.inj hc
      exact .readEnd hg hw
    · cases hc
  | write i =>
    obtain ⟨calls, hc, rfl⟩ := Option.map_eq_some_iff.mp h
    simp only [transferStep] at hc
    split at hc
    · next p pieceBuf hg =>
      obtain rfl := Option.some.inj hc
      exact .write hg
    · cases hc
  | finish i =>
    obtain ⟨calls, hc, rfl⟩ := Option.map_eq_some_iff.mp h
    simp only [transferStep] at hc
    split at hc
    · next p hg =>
      obtain rfl := Option.some.inj hc
      exact .finish hg
    · cases hc
  | sendFail i =>
    obtain ⟨calls, hc, rfl⟩ := Option.map_eq_some_iff.mp h
    simp only [transferStep] at hc
    split at hc
    · next p hg =>
      obtain rfl := Option.some.inj hc
      exact .sendFail hg
    · cases hc
  | readFail i =>
    obtain ⟨calls, hc, rfl⟩ := Option.map_eq_some_iff.mp h
    simp only [transferStep] at hc
    split at hc
    · next p hg =>
      obtain rfl := Option.some.inj hc
      exact .readFail hg
    · cases hc

end Moves

/-! ## Connections and calls -/

/-- The thread has the bytes of the piece. -/
def TransferState.Has : TransferState → ℕ → Prop
  | .received p _, q => p = q
  | .written p, q => p = q
  | _, _ => False

/-- Where the loop of the thread is on the connection. -/
def WireAt (inp : DownloadInput) : TransferState → PieceSession → Prop
  | .holding p, w => w.thread = .looking ∧ w.todo = [inp.request p]
  | .requested p, w => (∃ pieceBuf, w.thread = .reading (inp.request p) pieceBuf) ∧ w.todo = []
  | .ended _, _ => True
  | _, w => w.thread = .looking ∧ w.todo = []

/-- The connection of a thread that is at `st`. -/
structure Wired (inp : DownloadInput) (F : Bytes) (st : TransferState) (w : PieceSession) : Prop where
  session : st.phase.isEnded = false →
    ∃ reqs, (∀ req ∈ reqs, Answerable F inp.pieceLen req) ∧ InSession F inp.pieceLen reqs w
  position : WireAt inp st w

/-- What holds in every reachable state. -/
structure Wiring (inp : DownloadInput) (F : Bytes) (s : WiredDownload (Fin inp.started)) : Prop where
  assembling : Assembling inp F s.calls
  wired : ∀ i, Wired inp F (s.calls.thread i) (s.wire i)
  has : ∀ i p, (s.calls.thread i).Has p → Arrives (inp.request p)
  finished : ∀ p : ℕ, s.calls.pieceFlags[p]? = some .finished → Arrives (inp.request p)

section Sessions
variable {F : Bytes} {pieceLen : Int32} {reqs : List PieceRequest} {w w' : PieceSession} {req : PieceRequest}

theorem InSession.ask (h : InSession F pieceLen reqs w) (hthread : w.thread = .looking) (req : PieceRequest) :
    InSession F pieceLen (w.answered ++ [req]) (w.ask req) ∧ reqs = w.answered ++ w.todo := by
  cases h.stage with
  | looking hreqs _ hup hserves hdown => exact ⟨⟨.looking rfl hthread hup hserves hdown, h.right⟩, hreqs⟩
  | asked req z hreqs ht => rw [hthread] at ht; cases ht
  | served req pieceBuf left harrives hreqs ht => rw [hthread] at ht; cases ht
  | short req pieceBuf harrives hreqs ht => rw [hthread] at ht; cases ht
  | lost req harrives hreqs ht => rw [hthread] at ht; cases ht
  | done hreqs ht => rw [hthread] at ht; cases ht

theorem InSession.reqs_of_reading (h : InSession F pieceLen reqs w) {pieceBuf : Bytes}
    (hthread : w.thread = .reading req pieceBuf) : reqs = w.answered ++ req :: w.todo := by
  cases h.stage with
  | looking hreqs ht => rw [hthread] at ht; cases ht
  | asked req' z hreqs ht => rw [hthread] at ht; cases ht; exact hreqs
  | served req' pieceBuf' left harrives hreqs ht => rw [hthread] at ht; cases ht; exact hreqs
  | short req' pieceBuf' harrives hreqs ht => rw [hthread] at ht; cases ht; exact hreqs
  | lost req' harrives hreqs ht => rw [hthread] at ht; cases ht
  | done hreqs ht => rw [hthread] at ht; cases ht

theorem next_eq (hthread : w.thread = .looking) (htodo : w.todo = [req])
    (hw : pieceSessionStep F pieceLen w .next = some w') : w'.thread = .reading req [] ∧ w'.todo = [] := by
  simp only [pieceSessionStep, hthread, htodo] at hw
  obtain rfl := Option.some.inj hw
  exact ⟨rfl, rfl⟩

theorem finish_eq {pieceBuf : Bytes} (hthread : w.thread = .reading req pieceBuf)
    (hw : pieceSessionStep F pieceLen w .finish = some w') :
    w'.thread = .looking ∧ w'.todo = w.todo ∧ w'.pieces = w.pieces ++ [(req, pieceBuf)] := by
  simp only [pieceSessionStep, hthread] at hw
  obtain ⟨-, hw⟩ := Option.ite_none_right_eq_some.mp hw
  obtain rfl := Option.some.inj hw
  exact ⟨rfl, rfl, rfl⟩

/-- Only a waiting thread notices what goes over the connection. -/
theorem onWire_eq {e : SessionEvent} (he : e.onWire = true) (hw : pieceSessionStep F pieceLen w e = some w') :
    w'.todo = w.todo ∧ (w'.thread = w.thread ∨
      ∃ req buf buf', w.thread = .reading req buf ∧ w'.thread = .reading req buf') := by
  cases e with
  | next => cases he
  | finish => cases he
  | readFail => cases he
  | receive =>
    obtain ⟨-, ⟨-, rfl⟩ | ⟨-, rfl⟩⟩ := receive_eq hw
    · exact ⟨rfl, .inl rfl⟩
    · exact ⟨rfl, .inl rfl⟩
  | write n =>
    simp only [pieceSessionStep] at hw
    split at hw
    · obtain ⟨-, hw⟩ := Option.ite_none_right_eq_some.mp hw
      obtain rfl := Option.some.inj hw
      exact ⟨rfl, .inl rfl⟩
    · cases hw
  | written =>
    obtain ⟨-, hw⟩ := Option.ite_none_right_eq_some.mp hw
    obtain rfl := Option.some.inj hw
    exact ⟨rfl, .inl rfl⟩
  | read n =>
    simp only [pieceSessionStep] at hw
    split at hw
    · next req pieceBuf hthread =>
      obtain ⟨-, hw⟩ := Option.ite_none_right_eq_some.mp hw
      obtain rfl := Option.some.inj hw
      exact ⟨rfl, .inr ⟨req, pieceBuf, _, hthread, rfl⟩⟩
    · cases hw

end Sessions

section Threads
variable {inp : DownloadInput} {F : Bytes} {st st' : TransferState} {w w' : PieceSession} {p : ℕ}

theorem Wired.ended (ret : ℤ) (w : PieceSession) : Wired inp F (.ended ret) w := ⟨nofun, trivial⟩

theorem Wired.start (w : PieceSession) (hw : w = .start [] Memory.zeroed) : Wired inp F .setup w := by
  subst hw
  exact ⟨fun _ => ⟨[], fun _ h => absurd h List.not_mem_nil, inSession_start [] _⟩, rfl, rfl⟩

theorem Wired.take (hfit : Fits inp F) (h : Wired inp F .looking w) (hp : p < Chunks.count F.length inp.chunk) :
    Wired inp F (.holding p) (w.ask (inp.request p)) := by
  obtain ⟨reqs, hreqs, hin⟩ := h.session rfl
  obtain ⟨hask, heq⟩ := hin.ask h.position.1 (inp.request p)
  refine ⟨fun _ => ⟨_, fun req hreq => ?_, hask⟩, h.position.1, rfl⟩
  rcases List.mem_append.mp hreq with hreq | hreq
  · refine hreqs req ?_
    rw [heq]
    exact List.mem_append_left _ hreq
  · obtain rfl := List.mem_singleton.mp hreq
    exact answerable_request hfit hp

theorem Wired.send (h : Wired inp F (.holding p) w) (hw : pieceSessionStep F inp.pieceLen w .next = some w') :
    Wired inp F (.requested p) w' := by
  obtain ⟨reqs, hreqs, hin⟩ := h.session rfl
  obtain ⟨hthread, htodo⟩ := next_eq h.position.1 h.position.2 hw
  exact ⟨fun _ => ⟨reqs, hreqs, hin.next hw⟩, ⟨[], hthread⟩, htodo⟩

theorem Wired.wire (h : Wired inp F st w) {e : SessionEvent} (he : e.onWire = true)
    (hw : pieceSessionStep F inp.pieceLen w e = some w') : Wired inp F st w' := by
  obtain ⟨htodo, hthread⟩ := onWire_eq he hw
  refine ⟨fun hst => ?_, ?_⟩
  · obtain ⟨reqs, hreqs, hin⟩ := h.session hst
    exact ⟨reqs, hreqs, hin.step hreqs hw⟩
  · have hlooking : w.thread = .looking → w'.thread = .looking := by
      intro hl
      rcases hthread with heq | ⟨req, buf, buf', hr, -⟩
      · rw [heq, hl]
      · rw [hl] at hr
        cases hr
    cases st with
    | requested p =>
      obtain ⟨⟨pieceBuf, hr⟩, hnil⟩ := h.position
      refine ⟨?_, htodo.trans hnil⟩
      rcases hthread with heq | ⟨req, buf, buf', hr', hnew⟩
      · exact ⟨pieceBuf, heq.trans hr⟩
      · obtain ⟨rfl, rfl⟩ := PieceThread.reading.inj (hr'.symm.trans hr)
        exact ⟨buf', hnew⟩
    | ended ret => trivial
    | setup => exact ⟨hlooking h.position.1, htodo.trans h.position.2⟩
    | looking => exact ⟨hlooking h.position.1, htodo.trans h.position.2⟩
    | holding p => exact ⟨hlooking h.position.1, htodo.trans h.position.2⟩
    | received p pieceBuf => exact ⟨hlooking h.position.1, htodo.trans h.position.2⟩
    | written p => exact ⟨hlooking h.position.1, htodo.trans h.position.2⟩

theorem Wired.read (h : Wired inp F (.requested p) w) {req : PieceRequest} {pieceBuf : Bytes}
    (hthread : w.thread = .reading req pieceBuf) (hw : pieceSessionStep F inp.pieceLen w .finish = some w') :
    Wired inp F (.received p pieceBuf) w' ∧ Arrives (inp.request p) ∧
      uploadPiece F inp.pieceLen (inp.request p) = some pieceBuf := by
  obtain ⟨reqs, hreqs, hin⟩ := h.session rfl
  obtain ⟨⟨buf, hr⟩, hnil⟩ := h.position
  obtain ⟨rfl, rfl⟩ := PieceThread.reading.inj (hthread.symm.trans hr)
  have hin' := hin.finish hreqs hw
  obtain ⟨hlooking, htodo, hpieces⟩ := finish_eq hthread hw
  refine ⟨⟨fun _ => ⟨reqs, hreqs, hin'⟩, hlooking, htodo.trans hnil⟩, hin'.right (inp.request p, pieceBuf) ?_⟩
  rw [hpieces]
  exact List.mem_append_right _ (List.mem_singleton_self _)

/-- Without an error the uploader only closes the connection on a request that does not arrive. -/
theorem Wired.readEnd (h : Wired inp F (.requested p) w) (hw : pieceSessionStep F inp.pieceLen w .readFail = some w') :
    ¬ Arrives (inp.request p) := by
  obtain ⟨reqs, -, hin⟩ := h.session rfl
  obtain ⟨⟨buf, hr⟩, -⟩ := h.position
  have hreqs := hin.reqs_of_reading hr
  simp only [pieceSessionStep, hr] at hw
  obtain ⟨⟨-, -, hclosed⟩, hw⟩ := Option.ite_none_right_eq_some.mp hw
  have hnot : ∀ left, ¬ w.uploader.Serves left := by
    rintro left (heq | ⟨heq, -⟩) <;> rw [hclosed] at heq <;> cases heq
  cases hin.stage with
  | looking _ ht => rw [hr] at ht; cases ht
  | asked req z _ _ _ _ hserves => exact absurd hserves (hnot _)
  | served req pieceBuf left _ _ _ _ hserves => exact absurd hserves (hnot _)
  | short req pieceBuf harrives hreqs' ht =>
    obtain ⟨rfl, -⟩ := PieceThread.reading.inj (ht.symm.trans hr)
    exact harrives
  | lost req _ _ ht => rw [hr] at ht; cases ht
  | done _ ht => rw [hr] at ht; cases ht

end Threads

/-! ## Every step keeps it -/

section Steps
variable {inp : DownloadInput} {F : Bytes} {s s' : WiredDownload (Fin inp.started)}

/-- The calls are those of `pieceTransfers`. -/
theorem WiredMove.calls (h : Wiring inp F s) {e : WiredEvent (Fin inp.started)} (hs : WiredMove inp F s e s') :
    s'.calls = s.calls ∨ TransferMove inp F s.calls s'.calls := by
  cases hs with
  | skipSelf hi => exact .inr (.stop (.inl hi))
  | setupFail hi => exact .inr (.stop (.inl hi))
  | setupDone hi => exact .inr (.setupDone hi)
  | noPiece hi => exact .inr (.stop (.inr hi))
  | take hi hp => exact .inr (.take hi hp)
  | send hi => exact .inr (.send hi)
  | wire => exact .inl rfl
  | @read i p req pieceBuf w hi hthread hw =>
    have hwired := h.wired i
    rw [hi] at hwired
    exact .inr (.read hi (hwired.read hthread hw).2.2)
  | readEnd hi => exact .inr (.fail (.inr hi))
  | write hi => exact .inr (.write hi)
  | finish hi => exact .inr (.finish hi)
  | sendFail hi => exact .inr (.fail (.inl hi))
  | readFail hi => exact .inr (.fail (.inr hi))

theorem Wiring.move (h : Wiring inp F s) {i : Fin inp.started} {st : TransferState} {w : PieceSession}
    {calls : Transfer (Fin inp.started)} (hcalls : Assembling inp F calls)
    (hthread : calls.thread = Function.update s.calls.thread i st) (hwired : Wired inp F st w)
    (hhas : ∀ p, st.Has p → Arrives (inp.request p))
    (hfinished : ∀ p : ℕ, calls.pieceFlags[p]? = some .finished → Arrives (inp.request p)) :
    Wiring inp F ⟨calls, Function.update s.wire i w⟩ := by
  refine ⟨hcalls, fun j => ?_, fun j => ?_, hfinished⟩
  · dsimp only
    rw [hthread]
    by_cases hj : j = i
    · subst hj
      rwa [Function.update_self, Function.update_self]
    · rw [Function.update_of_ne hj, Function.update_of_ne hj]
      exact h.wired j
  · dsimp only
    rw [hthread]
    by_cases hj : j = i
    · subst hj
      rwa [Function.update_self]
    · rw [Function.update_of_ne hj]
      exact h.has j

theorem Wiring.call (h : Wiring inp F s) {i : Fin inp.started} {st : TransferState}
    {calls : Transfer (Fin inp.started)} (hcalls : Assembling inp F calls)
    (hthread : calls.thread = Function.update s.calls.thread i st) (hwired : Wired inp F st (s.wire i))
    (hhas : ∀ p, st.Has p → Arrives (inp.request p))
    (hfinished : ∀ p : ℕ, calls.pieceFlags[p]? = some .finished → Arrives (inp.request p)) :
    Wiring inp F ⟨calls, s.wire⟩ := by
  have hmove := h.move hcalls hthread hwired hhas hfinished
  rwa [Function.update_eq_self] at hmove

theorem Wiring.step (hfit : Fits inp F) (h : Wiring inp F s) {e : WiredEvent (Fin inp.started)}
    (hs : WiredMove inp F s e s') : Wiring inp F s' := by
  have hcalls : Assembling inp F s'.calls := by
    rcases hs.calls h with heq | hmove
    · rw [heq]
      exact h.assembling
    · exact h.assembling.step hfit hmove
  have hkept : ∀ {status : PieceStatus} {q : ℕ}, status ≠ .finished → ∀ p : ℕ,
      (s.calls.pieceFlags.set q status)[p]? = some .finished → Arrives (inp.request p) :=
    fun hst p hp => h.finished p (Assembling.finished_of_set hst p hp)
  have hat : ∀ {i st}, s.calls.thread i = st → Wired inp F st (s.wire i) := fun hi => hi ▸ h.wired _
  cases hs with
  | skipSelf hi => exact h.call hcalls rfl (.ended _ _) nofun h.finished
  | setupFail hi => exact h.call hcalls rfl (.ended _ _) nofun h.finished
  | setupDone hi => exact h.call hcalls rfl ⟨(hat hi).session, (hat hi).position⟩ nofun h.finished
  | noPiece hi => exact h.move hcalls rfl (.ended _ _) nofun h.finished
  | @take i p hi hp =>
    have hlt : p < Chunks.count F.length inp.chunk := by
      rw [← h.assembling.count]
      exact (List.getElem?_eq_some_iff.mp hp).1
    exact h.move hcalls rfl ((hat hi).take hfit hlt) nofun (hkept (by simp))
  | send hi hw => exact h.move hcalls rfl ((hat hi).send hw) nofun h.finished
  | @wire i e w he hw =>
    refine h.move hcalls (Function.update_eq_self i _).symm ((h.wired i).wire he hw) (h.has i) h.finished
  | read hi hthread hw =>
    obtain ⟨hwired, harrives, -⟩ := (hat hi).read hthread hw
    exact h.move hcalls rfl hwired (fun _ hp => hp ▸ harrives) h.finished
  | readEnd hi hw => exact h.move hcalls rfl (.ended _ _) nofun (hkept (by simp))
  | @write i p pieceBuf hi =>
    have harrives := h.has i p (by rw [hi]; rfl)
    exact h.call hcalls rfl ⟨(hat hi).session, (hat hi).position⟩ (fun _ hp => hp ▸ harrives) h.finished
  | @finish i p hi =>
    have harrives := h.has i p (by rw [hi]; rfl)
    refine h.call hcalls rfl ⟨(hat hi).session, (hat hi).position⟩ nofun fun q hq => ?_
    by_cases hqp : q = p
    · rw [hqp]
      exact harrives
    · refine h.finished q ?_
      have hq : (s.calls.pieceFlags.set p .finished)[q]? = some .finished := hq
      rwa [List.getElem?_set_ne (Ne.symm hqp)] at hq
  | sendFail hi => exact h.move hcalls rfl (.ended _ _) nofun (hkept (by simp))
  | readFail hi => exact h.move hcalls rfl (.ended _ _) nofun (hkept (by simp))

theorem wiring_start (hfit : Fits inp F) : Wiring inp F inp.startWired := by
  refine ⟨.start hfit, fun i => .start _ rfl, fun i p hp => hp.elim, fun p hp => ?_⟩
  have hav := List.eq_of_mem_replicate (List.mem_of_getElem? hp)
  cases hav

end Steps

/-! ## Every run ends -/

/-- Bounds the steps for one piece, on the connection and of its thread. -/
def pieceCost (F : Bytes) : ℕ := 16 * (2 * F.length + 2) + 3 + 5

/-- Bounds the calls of a thread; a thread that gives up leaves its piece to another. -/
def TransferState.cost (F : Bytes) : TransferState → ℕ
  | .setup => pieceCost F + 3
  | .looking => pieceCost F + 2
  | .holding _ => pieceCost F + 6
  | .requested _ => pieceCost F + 5
  | .received _ _ => pieceCost F + 4
  | .written _ => pieceCost F + 3
  | .ended _ => 0

/-- Bounds the steps that are left. -/
def WiredDownload.work {n : ℕ} (F : Bytes) (s : WiredDownload (Fin n)) : ℕ :=
  ∑ i, ((s.calls.thread i).cost F + (s.wire i).work F) + s.calls.pieceFlags.count .available * pieceCost F

section Work
variable {inp : DownloadInput} {F : Bytes} {s s' : WiredDownload (Fin inp.started)}

theorem work_move (s : WiredDownload (Fin inp.started)) {i : Fin inp.started} {st : TransferState} {w : PieceSession}
    {calls : Transfer (Fin inp.started)} (hthread : calls.thread = Function.update s.calls.thread i st)
    (h : st.cost F + w.work F + calls.pieceFlags.count .available * pieceCost F <
      (s.calls.thread i).cost F + (s.wire i).work F + s.calls.pieceFlags.count .available * pieceCost F) :
    WiredDownload.work F ⟨calls, Function.update s.wire i w⟩ < s.work F := by
  have hrest : ∑ j ∈ Finset.univ.erase i, ((calls.thread j).cost F + (Function.update s.wire i w j).work F) =
      ∑ j ∈ Finset.univ.erase i, ((s.calls.thread j).cost F + (s.wire j).work F) := by
    refine Finset.sum_congr rfl fun j hj => ?_
    rw [hthread, Function.update_of_ne (Finset.ne_of_mem_erase hj), Function.update_of_ne (Finset.ne_of_mem_erase hj)]
  have hnew := Finset.sum_erase_add Finset.univ
    (fun j => (calls.thread j).cost F + (Function.update s.wire i w j).work F) (Finset.mem_univ i)
  have hold := Finset.sum_erase_add Finset.univ (fun j => (s.calls.thread j).cost F + (s.wire j).work F)
    (Finset.mem_univ i)
  have hself : calls.thread i = st := by rw [hthread, Function.update_self]
  rw [hrest, hself, Function.update_self] at hnew
  unfold WiredDownload.work
  dsimp only
  rw [← hnew, ← hold]
  omega

theorem work_call (s : WiredDownload (Fin inp.started)) {i : Fin inp.started} {st : TransferState}
    {calls : Transfer (Fin inp.started)} (hthread : calls.thread = Function.update s.calls.thread i st)
    (h : st.cost F + calls.pieceFlags.count .available * pieceCost F <
      (s.calls.thread i).cost F + s.calls.pieceFlags.count .available * pieceCost F) :
    WiredDownload.work F ⟨calls, s.wire⟩ < s.work F := by
  have hmove := work_move (F := F) s (w := s.wire i) hthread (by omega)
  rw [Function.update_eq_self] at hmove
  exact hmove

theorem work_ask (F : Bytes) {w : PieceSession} (htodo : w.todo = []) (req : PieceRequest) :
    (w.ask req).work F + 5 = w.work F + pieceCost F := by
  simp only [PieceSession.work, PieceSession.ask, htodo, List.length_nil, List.length_singleton, pieceCost]
  omega

theorem work_giveUp (F : Bytes) (w : PieceSession) : w.giveUp.work F ≤ w.work F := by
  simp only [PieceSession.work, PieceSession.giveUp, List.length_nil]
  omega

theorem count_set_available {flags : List PieceStatus} {p : ℕ} (hp : flags[p]? = some .downloading) :
    (flags.set p .available).count .available = flags.count .available + 1 := by
  obtain ⟨hlt, heq⟩ := List.getElem?_eq_some_iff.mp hp
  rw [List.count_set hlt, heq]
  rfl

theorem count_set_taken {flags : List PieceStatus} {p : ℕ} (hp : flags[p]? = some .available) :
    (flags.set p .downloading).count .available + 1 = flags.count .available := by
  obtain ⟨hlt, heq⟩ := List.getElem?_eq_some_iff.mp hp
  have hpos : 0 < flags.count .available := List.count_pos_iff.mpr (heq ▸ List.getElem_mem hlt)
  rw [List.count_set hlt, heq]
  show flags.count .available - 1 + 0 + 1 = _
  omega

theorem count_set_finished {flags : List PieceStatus} {p : ℕ} (hp : flags[p]? = some .downloading) :
    (flags.set p .finished).count .available = flags.count .available := by
  obtain ⟨hlt, heq⟩ := List.getElem?_eq_some_iff.mp hp
  rw [List.count_set hlt, heq]
  rfl

/-- Every step brings the work down. -/
theorem WiredMove.work (h : Wiring inp F s) {e : WiredEvent (Fin inp.started)} (hs : WiredMove inp F s e s') :
    s'.work F < s.work F := by
  have hheld : ∀ {i : Fin inp.started} {p : ℕ} {st : TransferState}, s.calls.thread i = st → st.phase = .holding p →
      s.calls.pieceFlags[p]? = some .downloading := by
    intro i p st hi hst
    exact h.assembling.held.downloading i p ((congrArg TransferState.phase hi).trans hst)
  have hat : ∀ {i st}, s.calls.thread i = st → Wired inp F st (s.wire i) := fun hi => hi ▸ h.wired _
  have hwire : ∀ {e : SessionEvent} {i : Fin inp.started} {w : PieceSession},
      pieceSessionStep F inp.pieceLen (s.wire i) e = some w → w.work F < (s.wire i).work F :=
    fun {e i w} hw => work_step (show (pieceSession F inp.pieceLen).step (s.wire i) e = some w from hw)
  cases hs with
  | skipSelf hi => exact work_call s rfl (by rw [hi]; simp [TransferState.cost, Transfer.move])
  | setupFail hi => exact work_call s rfl (by rw [hi]; simp [TransferState.cost, Transfer.move])
  | setupDone hi => exact work_call s rfl (by rw [hi]; simp [TransferState.cost, Transfer.move])
  | @noPiece i w hi hnone hw =>
    have hlt := hwire hw
    refine work_move s rfl ?_
    rw [hi]
    simp only [TransferState.cost, Transfer.move]
    omega
  | @take i p hi hp =>
    have hask := work_ask F (hat hi).position.2 (inp.request p)
    have hcount := count_set_taken hp
    have hmul : (s.calls.pieceFlags.set p .downloading).count .available * pieceCost F + pieceCost F =
        s.calls.pieceFlags.count .available * pieceCost F := by rw [← hcount, Nat.succ_mul]
    refine work_move s rfl ?_
    rw [hi]
    simp only [TransferState.cost]
    omega
  | @send i p w hi hw =>
    have hlt := hwire hw
    refine work_move s rfl ?_
    rw [hi]
    simp only [TransferState.cost, Transfer.move]
    omega
  | @wire i e w he hw =>
    have hlt := hwire hw
    exact work_move s (Function.update_eq_self i _).symm (by omega)
  | @read i p req pieceBuf w hi hthread hw =>
    have hlt := hwire hw
    refine work_move s rfl ?_
    rw [hi]
    simp only [TransferState.cost, Transfer.move]
    omega
  | @readEnd i p w hi hw =>
    have hlt := hwire hw
    have hcount := count_set_available (hheld hi rfl)
    refine work_move s rfl ?_
    rw [hi]
    simp only [TransferState.cost, hcount, Nat.succ_mul]
    omega
  | write hi => exact work_call s rfl (by rw [hi]; simp [TransferState.cost, Transfer.move])
  | @finish i p hi =>
    have hcount := count_set_finished (hheld hi rfl)
    refine work_call s rfl ?_
    rw [hi]
    simp only [TransferState.cost, hcount]
    omega
  | @sendFail i p hi =>
    have hle := work_giveUp F (s.wire i)
    have hcount := count_set_available (hheld hi rfl)
    refine work_move s rfl ?_
    rw [hi]
    simp only [TransferState.cost, hcount, Nat.succ_mul]
    omega
  | @readFail i p hi =>
    have hle := work_giveUp F (s.wire i)
    have hcount := count_set_available (hheld hi rfl)
    refine work_move s rfl ?_
    rw [hi]
    simp only [TransferState.cost, hcount, Nat.succ_mul]
    omega

/-- A bound for all runs. -/
def DownloadInput.wiredBound (inp : DownloadInput) (F : Bytes) : ℕ :=
  inp.started * (pieceCost F + 5) + Chunks.count F.length inp.chunk * pieceCost F

theorem work_start (hfit : Fits inp F) : inp.startWired.work F = inp.wiredBound F := by
  have hcount : inp.startWired.calls.pieceFlags.count .available = Chunks.count F.length inp.chunk := by
    show (List.replicate inp.filePieces.toInt.toNat PieceStatus.available).count .available = _
    rw [List.count_replicate_self, hfit.pieceCount_eq, Int.toNat_natCast]
  have hthread : ∀ i, (inp.startWired.calls.thread i).cost F + (inp.startWired.wire i).work F = pieceCost F + 5 := by
    intro i
    simp [DownloadInput.startWired, DownloadInput.startTransfer, TransferState.cost, PieceSession.start,
      PieceSession.work]
  unfold WiredDownload.work DownloadInput.wiredBound
  rw [hcount, Finset.sum_congr rfl fun i _ => hthread i, Finset.sum_const, Finset.card_univ, Fintype.card_fin,
    smul_eq_mul]

end Work

/-! ## The end of a run -/

section Stuck
variable {inp : DownloadInput} {F : Bytes} {s : WiredDownload (Fin inp.started)}

/-- Where nothing can go on, each thread has ended or waits for a piece whose request does not arrive. -/
theorem Wiring.stuck (h : Wiring inp F s)
    (hend : ∀ e : WiredEvent (Fin inp.started), e.failed = false → (wiredDownload inp F).step s e = none)
    (i : Fin inp.started) :
    (∃ ret, s.calls.thread i = .ended ret) ∨ ∃ p, s.calls.thread i = .requested p ∧ ¬ Arrives (inp.request p) := by
  have hwired := h.wired i
  cases hi : s.calls.thread i with
  | ended ret => exact .inl ⟨ret, rfl⟩
  | setup =>
    exfalso
    cases hself : inp.isSelf i with
    | true =>
      have hnone := hend (.skipSelf i) rfl
      simp [wiredDownload, wiredStep, transferStep, hi, hself] at hnone
    | false =>
      have hnone := hend (.setupDone i) rfl
      simp [wiredDownload, wiredStep, transferStep, hi, hself] at hnone
  | looking =>
    exfalso
    rw [hi] at hwired
    obtain ⟨hthread, htodo⟩ := hwired.position
    have hnone := hend (.getPiece i) rfl
    cases hget : getNewPiece s.calls.pieceFlags with
    | none => simp [wiredDownload, wiredStep, transferStep, hi, hget, Transfer.move, pieceSessionStep, hthread, htodo]
      at hnone
    | some r => simp [wiredDownload, wiredStep, transferStep, hi, hget, Transfer.move] at hnone
  | holding p =>
    exfalso
    rw [hi] at hwired
    obtain ⟨hthread, htodo⟩ := hwired.position
    have hnone := hend (.send i) rfl
    simp [wiredDownload, wiredStep, transferStep, hi, pieceSessionStep, hthread, htodo] at hnone
  | received p pieceBuf =>
    exfalso
    have hnone := hend (.write i) rfl
    simp [wiredDownload, wiredStep, transferStep, hi] at hnone
  | written p =>
    exfalso
    have hnone := hend (.finish i) rfl
    simp [wiredDownload, wiredStep, transferStep, hi] at hnone
  | requested p =>
    refine .inr ⟨p, rfl, ?_⟩
    rw [hi] at hwired
    obtain ⟨⟨pieceBuf, hthread⟩, -⟩ := hwired.position
    obtain ⟨reqs, -, hin⟩ := hwired.session rfl
    have hwire : ∀ e : SessionEvent, e.onWire = true → (pieceSession F inp.pieceLen).step (s.wire i) e = none := by
      intro e he
      have hnone := hend (.wire i e) rfl
      simp only [wiredDownload, wiredStep, if_pos he] at hnone
      exact Option.map_eq_none_iff.mp hnone
    have hall : ∀ e, (pieceSession F inp.pieceLen).step (s.wire i) e = none := by
      intro e
      cases e with
      | next => simp [pieceSession, pieceSessionStep, hthread]
      | finish =>
        have hnone := hend (.read i) rfl
        simp only [wiredDownload, wiredStep, hi, hthread] at hnone
        exact Option.map_eq_none_iff.mp hnone
      | readFail =>
        have hnone := hend (.readEnd i) rfl
        simp only [wiredDownload, wiredStep, transferStep, hi, Option.bind_some] at hnone
        exact Option.map_eq_none_iff.mp hnone
      | receive => exact hwire _ rfl
      | write n => exact hwire _ rfl
      | written => exact hwire _ rfl
      | read n => exact hwire _ rfl
    rcases hin.stuck hall with ⟨-, hended⟩ | ⟨req, harrives, hreqs, -⟩
    · rw [hthread] at hended
      cases hended
    · have hsame := (hin.reqs_of_reading hthread).symm.trans hreqs
      rw [(List.cons.inj (List.append_cancel_left hsame)).1]
      exact harrives

end Stuck

/-! ## Without failures -/

/-- A thread that found no piece left none. -/
def NoneLeft (inp : DownloadInput) (t : Transfer (Fin inp.started)) : Prop :=
  ∀ i, inp.isSelf i = false → t.thread i = .ended 0 → .available ∉ t.pieceFlags

/-- The thread got its connection, and has not failed. -/
def OnTrack (inp : DownloadInput) (i : Fin inp.started) (t : Transfer (Fin inp.started)) : Prop :=
  inp.isSelf i = false ∧ t.thread i ≠ .setup ∧ ∀ ret, t.thread i = .ended ret → ret = 0

section NoFailure
variable {inp : DownloadInput} {F : Bytes} {s s' : WiredDownload (Fin inp.started)} {i j : Fin inp.started}
  {st : TransferState} {t t' : Transfer (Fin inp.started)}

theorem NoneLeft.move (h : NoneLeft inp t) (hthread : t'.thread = Function.update t.thread j st)
    (hflags : .available ∈ t'.pieceFlags → .available ∈ t.pieceFlags)
    (hst : st = .ended 0 → inp.isSelf j = true ∨ .available ∉ t'.pieceFlags) : NoneLeft inp t' := by
  intro i hself hi hleft
  rw [hthread, Function.update_apply] at hi
  split_ifs at hi with hij
  · rcases hst hi with hj | hnone
    · rw [hij, hj] at hself
      cases hself
    · exact hnone hleft
  · exact h i hself hi (hflags hleft)

theorem OnTrack.move (h : OnTrack inp i t) (hthread : t'.thread = Function.update t.thread j st)
    (hst : j = i → st ≠ .setup ∧ ∀ ret, st = .ended ret → ret = 0) : OnTrack inp i t' := by
  refine ⟨h.1, ?_⟩
  rw [hthread, Function.update_apply]
  split_ifs with hij
  · exact hst hij.symm
  · exact h.2

theorem available_of_set {flags : List PieceStatus} {p : ℕ} {status : PieceStatus} (hst : status ≠ .available)
    (h : .available ∈ flags.set p status) : .available ∈ flags :=
  (List.mem_or_eq_of_mem_set h).resolve_right hst.symm

/-- Without failures a thread only gives up when its request does not arrive. -/
theorem WiredMove.noneLeft (h : Wiring inp F s)
    (harrive : ∀ p < Chunks.count F.length inp.chunk, Arrives (inp.request p)) {e : WiredEvent (Fin inp.started)}
    (he : e.failed = false) (hs : WiredMove inp F s e s') (hn : NoneLeft inp s.calls) : NoneLeft inp s'.calls := by
  cases hs with
  | skipSelf hi hself => exact hn.move rfl id fun _ => .inl hself
  | setupFail hi => exact hn.move rfl id (by simp)
  | setupDone hi => exact hn.move rfl id (by simp)
  | noPiece hi hnone => exact hn.move rfl id fun _ => .inr hnone
  | take hi => exact hn.move rfl (available_of_set (by simp)) (by simp)
  | send hi => exact hn.move rfl id (by simp)
  | wire => exact hn
  | read hi => exact hn.move rfl id (by simp)
  | @readEnd i p w hi hw =>
    have hwired := h.wired i
    rw [hi] at hwired
    exact absurd (harrive p (h.assembling.lt_count (congrArg TransferState.phase hi))) (hwired.readEnd hw)
  | write hi => exact hn.move rfl id (by simp)
  | finish hi => exact hn.move rfl (available_of_set (by simp)) (by simp)
  | sendFail => cases he
  | readFail => cases he

theorem WiredMove.onTrack (h : Wiring inp F s)
    (harrive : ∀ p < Chunks.count F.length inp.chunk, Arrives (inp.request p)) {e : WiredEvent (Fin inp.started)}
    (he : e.failed = false) (hs : WiredMove inp F s e s') (ht : OnTrack inp i s.calls) : OnTrack inp i s'.calls := by
  have hself := ht.1
  have hsetup := ht.2.1
  cases hs with
  | skipSelf hj hj' =>
    refine ht.move rfl fun hji => ?_
    rw [hji, hself] at hj'
    cases hj'
  | setupFail hj => exact ht.move rfl fun hji => absurd (hji ▸ hj) hsetup
  | setupDone hj => exact ht.move rfl (by simp)
  | noPiece hj => exact ht.move rfl (by simp)
  | take hj => exact ht.move rfl (by simp)
  | send hj => exact ht.move rfl (by simp)
  | wire => exact ht
  | read hj => exact ht.move rfl (by simp)
  | @readEnd j p w hj hw =>
    have hwired := h.wired j
    rw [hj] at hwired
    exact absurd (harrive p (h.assembling.lt_count (congrArg TransferState.phase hj))) (hwired.readEnd hw)
  | write hj => exact ht.move rfl (by simp)
  | finish hj => exact ht.move rfl (by simp)
  | sendFail => cases he
  | readFail => cases he

/-- Once a thread is connected, and nothing fails, all pieces get finished. -/
theorem finished_of_arrive (hfit : Fits inp F) {es : List (WiredEvent (Fin inp.started))}
    (hrun : (wiredDownload inp F).run inp.startWired es = some s) (hes : ∀ e ∈ es, e.failed = false)
    (hdone : .setupDone i ∈ es) (harrive : ∀ p < Chunks.count F.length inp.chunk, Arrives (inp.request p))
    (hend : ∀ e : WiredEvent (Fin inp.started), e.failed = false → (wiredDownload inp F).step s e = none) :
    (∀ status ∈ s.calls.pieceFlags, status = .finished) ∧ s.calls.obj.AllEnded ∧ s.calls.thread i = .ended 0 := by
  have hkeep : ∀ s (e : WiredEvent (Fin inp.started)) s', Wiring inp F s → (wiredDownload inp F).step s e = some s' →
      Wiring inp F s' := fun s e s' h hs => h.step hfit (wiredStep_move hs)
  have hnone : Wiring inp F s ∧ NoneLeft inp s.calls :=
    System.runMeets_invariant (I := fun s => Wiring inp F s ∧ NoneLeft inp s.calls)
      (fun s e s' h he hs => ⟨hkeep s e s' h.1 hs, (wiredStep_move hs).noneLeft h.1 harrive he h.2⟩)
      ⟨wiring_start hfit, fun i _ hi => by cases hi⟩ (System.runMeets_of_mem _ hes) hrun
  have htrack : OnTrack inp i s.calls := by
    obtain ⟨es₁, es₂, rfl⟩ := List.append_of_mem hdone
    obtain ⟨s₁, hrun₁, hrest⟩ := System.run_append_eq_some.mp hrun
    obtain ⟨s₂, hstep, hrun₂⟩ := System.run_cons_eq_some.mp hrest
    have h₁ : Wiring inp F s₁ := System.run_invariant hkeep (wiring_start hfit) hrun₁
    have h₂ : OnTrack inp i s₂.calls := by
      cases wiredStep_move hstep with
      | setupDone hi hself =>
        have hthread : (s₁.calls.move i .looking).thread i = .looking := Function.update_self _ _ _
        refine ⟨hself, ?_⟩
        dsimp only
        rw [hthread]
        simp
    have hboth : Wiring inp F s ∧ OnTrack inp i s.calls :=
      System.runMeets_invariant (I := fun s => Wiring inp F s ∧ OnTrack inp i s.calls)
        (fun s e s' h he hs => ⟨hkeep s e s' h.1 hs, (wiredStep_move hs).onTrack h.1 harrive he h.2⟩)
        ⟨hkeep _ _ _ h₁ hstep, h₂⟩
        (System.runMeets_of_mem _ fun e he => hes e (List.mem_append_right _ (List.mem_cons_of_mem _ he))) hrun₂
    exact hboth.2
  have hended : ∀ j, ∃ ret, s.calls.thread j = .ended ret := by
    intro j
    rcases hnone.1.stuck hend j with hj | ⟨p, hj, hnot⟩
    · exact hj
    · exact absurd (harrive p (hnone.1.assembling.lt_count (congrArg TransferState.phase hj))) hnot
  have hzero : s.calls.thread i = .ended 0 := by
    obtain ⟨ret, hret⟩ := hended i
    rw [hret, htrack.2.2 ret hret]
  have hall : s.calls.obj.AllEnded := by
    intro j
    obtain ⟨ret, hret⟩ := hended j
    show (s.calls.thread j).phase.isEnded = true
    rw [hret]
    rfl
  exact ⟨hnone.1.assembling.held.finished hall (hnone.2 i htrack.1 hzero), hall, hzero⟩

end NoFailure

/-- **A download over its connections.** For owners with the content `F` whose length arrives as it was, sizes within the
range of `int`, however many threads there are, in whatever order they, the uploaders and the bytes go and whichever
connections fail: every run comes to an end, and each finished piece has its bytes. Where nothing failed and some thread
got its connection, at the end all pieces are finished exactly when all requests arrive; then the local file is `F` and
the download returns 0. -/
theorem wired_download (inp : DownloadInput) (F : Bytes) (pkt : Mem) (hpos : 1 ≤ inp.pieceLen.toInt)
    (hmax : F.length + inp.pieceLen.toInt - 1 ≤ 2147483647) (hlen : inp.fileLen = fileLenReply pkt (fileLenRet F.length))
    (harrives : arrivingLen F.length = F.length)
    (es : List (WiredEvent (Fin inp.started))) (s : WiredDownload (Fin inp.started))
    (hrun : (wiredDownload inp F).run inp.startWired es = some s) :
    es.length ≤ inp.wiredBound F ∧
      (∀ p : ℕ, s.calls.pieceFlags[p]? = some .finished → Arrives (inp.request p) ∧
        Chunks.Agree F s.calls.localFile (p * inp.chunk) ((p + 1) * inp.chunk)) ∧
      ((∀ e ∈ es, e.failed = false) → (∃ i, .setupDone i ∈ es) →
        (∀ e : WiredEvent (Fin inp.started), e.failed = false → (wiredDownload inp F).step s e = none) →
        ((∀ status ∈ s.calls.pieceFlags, status = .finished) ↔
            ∀ p < Chunks.count F.length inp.chunk, Arrives (inp.request p)) ∧
          ((∀ p < Chunks.count F.length inp.chunk, Arrives (inp.request p)) →
            s.calls.localFile = F ∧ s.calls.obj.AllEnded ∧
              joinThreads (List.ofFn fun i => (s.calls.obj.thread i).ret) = 0)) := by
  have hfit := fits_of_arrivingLen hpos hmax hlen harrives
  have hinv : Wiring inp F s :=
    System.run_invariant (fun _ _ _ h hs => h.step hfit (wiredStep_move hs)) (wiring_start hfit) hrun
  have hwork : es.length + s.work F ≤ inp.startWired.work F :=
    System.length_run_add_le (WiredDownload.work F)
      (fun _ _ _ h hs => ⟨Wiring.step hfit h (wiredStep_move hs), (wiredStep_move hs).work h⟩) (wiring_start hfit) hrun
  rw [work_start hfit] at hwork
  have hfile : (∀ status ∈ s.calls.pieceFlags, status = .finished) → s.calls.localFile = F := by
    intro hall
    apply Chunks.eq_of_agree hfit.chunk_pos hinv.assembling.short
    intro p hp
    rw [← hinv.assembling.count] at hp
    apply hinv.assembling.finished p
    rw [List.getElem?_eq_getElem hp, hall _ (List.getElem_mem hp)]
  refine ⟨by omega, fun p hp => ⟨hinv.finished p hp, hinv.assembling.finished p hp⟩, fun hes hdone hend => ?_⟩
  obtain ⟨i, hdone⟩ := hdone
  refine ⟨⟨fun hall p hp => ?_, fun harrive => (finished_of_arrive hfit hrun hes hdone harrive hend).1⟩,
    fun harrive => ?_⟩
  · rw [← hinv.assembling.count] at hp
    apply hinv.finished p
    rw [List.getElem?_eq_getElem hp, hall _ (List.getElem_mem hp)]
  · obtain ⟨hall, hended, hzero⟩ := finished_of_arrive hfit hrun hes hdone harrive hend
    refine ⟨hfile hall, hended, joinThreads_eq_zero.mpr (List.mem_ofFn.mpr ⟨i, ?_⟩)⟩
    show (s.calls.thread i).phase.ret = 0
    rw [hzero]
    rfl

theorem step_of_stopped {inp : DownloadInput} {F : Bytes} {s : WiredDownload (Fin inp.started)}
    (hcalls : ∀ i, ∃ ret, s.calls.thread i = .ended ret)
    (hwire : ∀ i, (s.wire i).uploader = .closed ∧ ∃ ret, (s.wire i).thread = .ended ret)
    (e : WiredEvent (Fin inp.started)) : (wiredDownload inp F).step s e = none := by
  cases h : (wiredDownload inp F).step s e with
  | none => rfl
  | some s' =>
    exfalso
    have hne : ∀ {i : Fin inp.started} {st : TransferState}, st.phase.isEnded = false → s.calls.thread i ≠ st := by
      rintro i st hst rfl
      obtain ⟨ret, hret⟩ := hcalls i
      rw [hret] at hst
      cases hst
    cases wiredStep_move h with
    | skipSelf hi => exact hne rfl hi
    | setupFail hi => exact hne rfl hi
    | setupDone hi => exact hne rfl hi
    | noPiece hi => exact hne rfl hi
    | take hi => exact hne rfl hi
    | send hi => exact hne rfl hi
    | read hi => exact hne rfl hi
    | readEnd hi => exact hne rfl hi
    | write hi => exact hne rfl hi
    | finish hi => exact hne rfl hi
    | sendFail hi => exact hne rfl hi
    | readFail hi => exact hne rfl hi
    | @wire i e w he hw =>
      obtain ⟨hclosed, ret, hended⟩ := hwire i
      cases e <;> simp [pieceSessionStep, hclosed, hended] at hw he

/-- Three bytes in pieces of two, from two owners at once. -/
theorem wired_download_two_owners :
    let inp : DownloadInput :=
      ⟨9, [⟨1, P2P_PORT⟩, ⟨2, P2P_PORT⟩], 2, true, fileLenReply zeroed (fileLenRet 3), true, true, 2, by decide⟩
    ∃ es s, (wiredDownload inp [7, 8, 9]).run inp.startWired es = some s ∧ s.calls.localFile = [7, 8, 9] ∧
      joinThreads (List.ofFn fun i => (s.calls.obj.thread i).ret) = 0 := by
  intro inp
  let es : List (WiredEvent (Fin inp.started)) :=
    [.setupDone 0, .setupDone 1, .getPiece 0, .getPiece 1, .send 1, .send 0, .wire 0 .receive, .wire 1 .receive,
      .wire 0 (.write 2), .wire 1 (.write 1), .wire 1 (.read 1), .wire 0 (.read 1), .wire 0 .written, .read 1, .write 1,
      .wire 0 (.read 1), .finish 1, .wire 1 .written, .getPiece 1, .read 0, .write 0, .finish 0, .getPiece 0,
      .wire 0 .receive, .wire 1 .receive]
  have hlast : ((wiredDownload inp [7, 8, 9]).run inp.startWired es).map (fun s =>
      [(s.calls.thread 0, (s.wire 0).uploader, (s.wire 0).thread),
        (s.calls.thread 1, (s.wire 1).uploader, (s.wire 1).thread)]) =
      some [(.ended 0, .closed, .ended 0), (.ended 0, .closed, .ended 0)] := by decide +kernel
  obtain ⟨s, hrun, hs⟩ := Option.map_eq_some_iff.mp hlast
  have hstopped : ∀ i, s.calls.thread i = .ended 0 ∧ (s.wire i).uploader = .closed ∧ (s.wire i).thread = .ended 0 := by
    intro i
    have h : i = 0 ∨ i = 1 := by
      have hi : i.val < 2 := i.isLt
      rcases Nat.lt_succ_iff_lt_or_eq.mp hi with h | h
      · exact .inl (Fin.ext (Nat.lt_one_iff.mp h))
      · exact .inr (Fin.ext h)
    simp only [List.cons.injEq, Prod.mk.injEq, and_true] at hs
    rcases h with rfl | rfl
    · exact hs.1
    · exact hs.2
  have hend : ∀ e : WiredEvent (Fin inp.started), e.failed = false → (wiredDownload inp [7, 8, 9]).step s e = none :=
    fun e _ => step_of_stopped (fun i => ⟨0, (hstopped i).1⟩) (fun i => ⟨(hstopped i).2.1, 0, (hstopped i).2.2⟩) e
  obtain ⟨-, -, hdone⟩ :=
    wired_download inp [7, 8, 9] zeroed (by decide) (by decide) rfl (by decide) es s hrun
  have harrive : ∀ p < Chunks.count [(7 : UInt8), 8, 9].length inp.chunk, Arrives (inp.request p) := by decide +kernel
  obtain ⟨hfile, -, hret⟩ := (hdone (by decide) ⟨0, by decide⟩ hend).2 harrive
  exact ⟨es, s, hrun, hfile, hret⟩

end TeleSync
