import TeleSync.Basic
import TeleSync.Lib.Transition

/-!
# The ports of the upload tasks

`ptop_upload_task` of `client/start.c` answers each `P2P_PORT_REQ` with a port of its own, on which it then sends the
file. The ports come from the array `p2p_ports`, which all tasks share.

* `getFreeP2pPort`, `putP2pPort` : the array; without a free port the task goes on with `-1` as a `uint16_t`;
* `UploadTask` : where a task is between a request and its end, and `uploads` : all tasks, with every way in which a
  request can fail;
* `PortsExact` : a port is marked exactly if one task holds it, and only ports of the array are given back;
* `PortKept` : the step neither forgets a port of the array nor gives another one back;
* `ports_exact_iff` : along a run the first holds exactly as long as the second does.
-/

namespace TeleSync
open Transition

/-! ## The array -/

def MAX_P2P_PORT : ℕ := 1000
def BASE_P2P_PORT : ℕ := 5100

/-- `p2p_ports` -/
abbrev P2pPorts := Fin MAX_P2P_PORT → UInt16

/-- `get_free_p2p_port`; its `int16_t` is -1 if all ports are in use. -/
def getFreeP2pPort (ports : P2pPorts) : P2pPorts × Int16 :=
  match (List.finRange MAX_P2P_PORT).find? fun i => ports i = 0 with
  | none => (ports, -1)
  | some i => (Function.update ports i 1, Int16.ofNat (i + BASE_P2P_PORT))

/-- The place of a port in the array. -/
def portIndex (port : UInt16) : Option (Fin MAX_P2P_PORT) :=
  if h : BASE_P2P_PORT ≤ port.toNat ∧ port.toNat < BASE_P2P_PORT + MAX_P2P_PORT then
    some ⟨port.toNat - BASE_P2P_PORT, by omega⟩
  else none

/-- `put_p2p_port`; for any other port it writes outside the array. -/
def putP2pPort (ports : P2pPorts) (port : UInt16) : P2pPorts :=
  match portIndex port with
  | none => ports
  | some i => Function.update ports i 0

theorem portIndex_eq_some {port : UInt16} {i : Fin MAX_P2P_PORT} :
    portIndex port = some i ↔ port.toNat = BASE_P2P_PORT + i := by
  unfold portIndex
  split_ifs with h
  · rw [Option.some.injEq, Fin.ext_iff]
    show port.toNat - BASE_P2P_PORT = i.val ↔ _
    omega
  · have := i.isLt
    refine iff_of_false ?_ fun heq => h (by omega)
    rintro ⟨⟩

/-- What `new_port` is after a request. -/
theorem getFreeP2pPort_cases (ports : P2pPorts) :
    (∃ i, ports i = 0 ∧ (getFreeP2pPort ports).1 = Function.update ports i 1 ∧
      portIndex (getFreeP2pPort ports).2.toUInt16 = some i) ∨
    (getFreeP2pPort ports).1 = ports ∧ portIndex (getFreeP2pPort ports).2.toUInt16 = none := by
  unfold getFreeP2pPort
  cases hfind : (List.finRange MAX_P2P_PORT).find? fun i => ports i = 0 with
  | none =>
    have hindex : portIndex (-1 : Int16).toUInt16 = none := by decide
    exact Or.inr ⟨rfl, hindex⟩
  | some i =>
    refine Or.inl ⟨i, by simpa using List.find?_some hfind, rfl, portIndex_eq_some.mpr ?_⟩
    have hi : i.val + BASE_P2P_PORT < 2 ^ 16 := by
      have := i.isLt
      unfold MAX_P2P_PORT at this
      unfold BASE_P2P_PORT
      omega
    have htoNat : (Int16.ofNat (i + BASE_P2P_PORT)).toUInt16.toNat = (i + BASE_P2P_PORT) % 2 ^ 16 :=
      BitVec.toNat_ofNat _ 16
    rw [htoNat, Nat.mod_eq_of_lt hi, Nat.add_comm]

/-! ## The tasks -/

/-- Where `ptop_upload_task` is. -/
inductive UploadTask where
  /-- not running -/
  | ended
  /-- in `recv_p2p_packet` -/
  | receiving
  /-- after `get_free_p2p_port` -/
  | answering (port : UInt16)
  /-- after `send_p2p_packet` -/
  | opening (port : UInt16)
  /-- in `do_upload` -/
  | uploading (port : UInt16)
  deriving DecidableEq

/-- The port of the request that the task is handling. -/
def UploadTask.port : UploadTask → Option UInt16
  | .answering port => some port
  | .opening port => some port
  | .uploading port => some port
  | _ => none

/-- What happens to a task. -/
inductive UploadEvent where
  /-- the thread is created for a connection -/
  | start
  /-- `recv_p2p_packet` fails -/
  | connectionEnds
  /-- a `P2P_PORT_REQ` for a name that is found -/
  | portReq
  /-- a `P2P_FILE_LEN_REQ` that is answered, or a packet of another type -/
  | otherPacket
  /-- `get_sys_name`, or `stat` or `send_p2p_packet` for a `P2P_FILE_LEN_REQ`, fails -/
  | requestFails
  | portSent
  | portSendFails
  | listens
  | listenFails
  /-- `do_upload` returns, whether or not its `accept` and the transfer succeeded -/
  | uploadEnds
  deriving DecidableEq

/-- The array, the tasks, and the ports that `put_p2p_port` was called with. -/
structure Uploads (ι : Type*) where
  ports : P2pPorts
  task : ι → UploadTask
  put : List UInt16

variable {ι : Type*} [DecidableEq ι]

def Uploads.start : Uploads ι := ⟨fun _ => 0, fun _ => .ended, []⟩

def Uploads.goto (s : Uploads ι) (t : ι) (u : UploadTask) : Uploads ι :=
  { s with task := Function.update s.task t u }

/-- `new_port = get_free_p2p_port()` -/
def Uploads.takePort (s : Uploads ι) (t : ι) : Uploads ι where
  ports := (getFreeP2pPort s.ports).1
  task := Function.update s.task t (.answering (getFreeP2pPort s.ports).2.toUInt16)
  put := s.put

/-- `put_p2p_port(new_port)`, and back to the loop -/
def Uploads.givePort (s : Uploads ι) (t : ι) (port : UInt16) : Uploads ι where
  ports := putP2pPort s.ports port
  task := Function.update s.task t .receiving
  put := s.put ++ [port]

/-- All upload tasks; an event is enabled where its task can be. -/
def uploads : System (Uploads ι) (ι × UploadEvent) where
  step s
    | (t, .start) => if s.task t = .ended then some (s.goto t .receiving) else none
    | (t, .connectionEnds) => if s.task t = .receiving then some (s.goto t .ended) else none
    | (t, .portReq) => if s.task t = .receiving then some (s.takePort t) else none
    | (t, .otherPacket) => if s.task t = .receiving then some s else none
    | (t, .requestFails) => if s.task t = .receiving then some (s.goto t .ended) else none
    | (t, .portSent) =>
      match s.task t with
      | .answering port => some (s.goto t (.opening port))
      | _ => none
    | (t, .portSendFails) =>
      match s.task t with
      | .answering _ => some (s.goto t .ended)
      | _ => none
    | (t, .listens) =>
      match s.task t with
      | .opening port => some (s.goto t (.uploading port))
      | _ => none
    | (t, .listenFails) =>
      match s.task t with
      | .opening _ => some (s.goto t .ended)
      | _ => none
    | (t, .uploadEnds) =>
      match s.task t with
      | .uploading port => some (s.givePort t port)
      | _ => none

/-! ## What is asked for -/

/-- The task is between `get_free_p2p_port` returning the `i`-th port and the end of the request. -/
def Uploads.Holds (s : Uploads ι) (t : ι) (i : Fin MAX_P2P_PORT) : Prop :=
  ∃ port, (s.task t).port = some port ∧ portIndex port = some i

/-- A port is marked exactly if one task holds it, no two tasks hold one port, and only ports of the array were given
back. -/
structure PortsExact (s : Uploads ι) : Prop where
  marked : ∀ i, s.ports i ≠ 0 ↔ ∃! t, s.Holds t i
  apart : ∀ t t' i, s.Holds t i → s.Holds t' i → t = t'
  put : ∀ port ∈ s.put, BASE_P2P_PORT ≤ port.toNat ∧ port.toNat < BASE_P2P_PORT + MAX_P2P_PORT

/-- The task does not end while it holds a port of the array, and does not give back a port that is not one. -/
def PortKept (s : Uploads ι) : ι × UploadEvent → Prop
  | (t, .portSendFails) => ∀ port, s.task t = .answering port → portIndex port = none
  | (t, .listenFails) => ∀ port, s.task t = .opening port → portIndex port = none
  | (t, .uploadEnds) => ∀ port, s.task t = .uploading port → portIndex port ≠ none
  | _ => True

/-! ## Steps -/

section Steps
variable {s s' : Uploads ι} {t : ι} {u : UploadTask} {i : Fin MAX_P2P_PORT}

theorem task_goto (s : Uploads ι) (t t' : ι) (u : UploadTask) :
    (s.goto t u).task t' = if t' = t then u else s.task t' := Function.update_apply ..

omit [DecidableEq ι] in
/-- Steps that change nothing but where a task is, and not what it holds. -/
theorem PortsExact.of_holds (h : PortsExact s) (hports : s'.ports = s.ports) (hput : s'.put = s.put)
    (hholds : ∀ t i, s'.Holds t i ↔ s.Holds t i) : PortsExact s' where
  marked i := by
    rw [hports, h.marked i]
    simp only [hholds]
  apart t t' i ht ht' := h.apart t t' i ((hholds t i).mp ht) ((hholds t' i).mp ht')
  put := hput ▸ h.put

theorem holds_goto_of_port (h : u.port = (s.task t).port) (t' : ι) (i : Fin MAX_P2P_PORT) :
    (s.goto t u).Holds t' i ↔ s.Holds t' i := by
  unfold Uploads.Holds
  rw [task_goto]
  split_ifs with ht
  · rw [h, ht]
  · exact Iff.rfl

theorem PortsExact.goto (h : PortsExact s) (hu : u.port = (s.task t).port) : PortsExact (s.goto t u) :=
  h.of_holds rfl rfl (holds_goto_of_port hu)

/-- A port that is not in the array is nothing a task can hold. -/
theorem holds_goto_of_none (h : ∀ port, u.port = some port → portIndex port = none)
    (h' : ∀ port, (s.task t).port = some port → portIndex port = none) (t' : ι) (i : Fin MAX_P2P_PORT) :
    (s.goto t u).Holds t' i ↔ s.Holds t' i := by
  unfold Uploads.Holds
  rw [task_goto]
  split_ifs with ht
  · subst ht
    refine iff_of_false ?_ ?_
    · rintro ⟨port, hport, hi⟩
      rw [h port hport] at hi
      cases hi
    · rintro ⟨port, hport, hi⟩
      rw [h' port hport] at hi
      cases hi
  · exact Iff.rfl

omit [DecidableEq ι] in
theorem PortsExact.marked_of_holds (h : PortsExact s) (ht : s.Holds t i) : s.ports i ≠ 0 :=
  (h.marked i).mpr ⟨t, ht, fun t' ht' => h.apart t' t i ht' ht⟩

/-- A task ends with a port of the array: the mark stays, and nobody holds the port. -/
theorem PortsExact.leak (h : PortsExact s) {port : UInt16} (hport : (s.task t).port = some port)
    (hi : portIndex port = some i) (hu : u.port = none) : ¬ PortsExact (s.goto t u) := by
  intro h'
  have hholds : s.Holds t i := ⟨port, hport, hi⟩
  obtain ⟨t', ⟨port', hport', hi'⟩, -⟩ := (h'.marked i).mp (h.marked_of_holds hholds)
  rw [task_goto] at hport'
  split_ifs at hport' with ht
  · rw [hu] at hport'
    cases hport'
  · exact ht (h.apart t' t i ⟨port', hport', hi'⟩ hholds)

theorem portsExact_end_iff (h : PortsExact s) {port : UInt16} (hport : (s.task t).port = some port)
    (hu : u.port = none) : PortsExact (s.goto t u) ↔ portIndex port = none := by
  constructor
  · intro h'
    cases hi : portIndex port with
    | none => rfl
    | some i => exact absurd h' (h.leak hport hi hu)
  · intro hnone
    refine h.of_holds rfl rfl (holds_goto_of_none (fun port' hport' => ?_) fun port' hport' => ?_)
    · rw [hu] at hport'
      cases hport'
    · rw [hport] at hport'
      cases hport'
      exact hnone

theorem holds_update {s s' : Uploads ι} (hs' : s'.task = Function.update s.task t u) (t' : ι) (j : Fin MAX_P2P_PORT) :
    s'.Holds t' j ↔ t' ≠ t ∧ s.Holds t' j ∨ t' = t ∧ ∃ port, u.port = some port ∧ portIndex port = some j := by
  unfold Uploads.Holds
  rw [hs', Function.update_apply]
  split_ifs with ht
  · simp [ht]
  · simp [ht]

theorem holds_answering_iff (ht : (s.task t).port = none) {ports : P2pPorts} {port : UInt16} (t' : ι)
    (j : Fin MAX_P2P_PORT) : (⟨ports, Function.update s.task t (.answering port), s.put⟩ : Uploads ι).Holds t' j ↔
      s.Holds t' j ∨ t' = t ∧ portIndex port = some j := by
  rw [holds_update (t := t) (u := .answering port) rfl]
  constructor
  · rintro (⟨-, hj⟩ | ⟨rfl, port', hport, hj⟩)
    · exact Or.inl hj
    · cases hport
      exact Or.inr ⟨rfl, hj⟩
  · rintro (hj | ⟨rfl, hj⟩)
    · refine Or.inl ⟨?_, hj⟩
      rintro rfl
      obtain ⟨port', hport, -⟩ := hj
      rw [ht] at hport
      cases hport
    · exact Or.inr ⟨rfl, port, rfl, hj⟩

theorem PortsExact.take (h : PortsExact s) (ht : (s.task t).port = none) {port : UInt16} (hfree : s.ports i = 0)
    (hindex : portIndex port = some i) :
    PortsExact (⟨Function.update s.ports i 1, Function.update s.task t (.answering port), s.put⟩ : Uploads ι) := by
  have hnobody : ∀ t', ¬ s.Holds t' i := fun t' ht' => h.marked_of_holds ht' hfree
  have hmine : ∀ t' j, t' = t ∧ portIndex port = some j ↔ t' = t ∧ j = i := by
    intro t' j
    rw [hindex, Option.some.injEq, eq_comm (a := i)]
  refine ⟨fun j => ?_, fun t₁ t₂ j h₁ h₂ => ?_, h.put⟩
  · show Function.update s.ports i 1 j ≠ 0 ↔ _
    simp only [holds_answering_iff ht, hmine]
    rw [Function.update_apply]
    split_ifs with hj
    · subst hj
      refine iff_of_true (by decide) ⟨t, Or.inr ⟨rfl, rfl⟩, ?_⟩
      rintro t' (ht' | ⟨rfl, -⟩)
      · exact absurd ht' (hnobody t')
      · rfl
    · rw [h.marked j]
      simp [hj]
  · rw [holds_answering_iff ht, hmine] at h₁ h₂
    rcases h₁ with h₁ | ⟨rfl, rfl⟩
    · rcases h₂ with h₂ | ⟨rfl, rfl⟩
      · exact h.apart t₁ t₂ j h₁ h₂
      · exact absurd h₁ (hnobody t₁)
    · rcases h₂ with h₂ | ⟨rfl, -⟩
      · exact absurd h₂ (hnobody t₂)
      · rfl

theorem PortsExact.takePort (h : PortsExact s) (ht : (s.task t).port = none) : PortsExact (s.takePort t) := by
  unfold Uploads.takePort
  rcases getFreeP2pPort_cases s.ports with ⟨i, hfree, hports, hindex⟩ | ⟨hports, hindex⟩
  · rw [hports]
    exact h.take ht hfree hindex
  · rw [hports]
    refine h.of_holds rfl rfl fun t' j => ?_
    rw [holds_answering_iff ht, hindex]
    simp

theorem portsExact_givePort_iff (h : PortsExact s) {port : UInt16} (hport : (s.task t).port = some port) :
    PortsExact (s.givePort t port) ↔ portIndex port ≠ none := by
  constructor
  · intro h' hnone
    have hrange := h'.put port (List.mem_append_right _ (List.mem_singleton_self port))
    unfold portIndex at hnone
    rw [dif_pos hrange] at hnone
    cases hnone
  · intro hne
    obtain ⟨i, hi⟩ := Option.ne_none_iff_exists'.mp hne
    have hmine : s.Holds t i := ⟨port, hport, hi⟩
    have hports : (s.givePort t port).ports = Function.update s.ports i 0 := by
      show putP2pPort s.ports port = _
      unfold putP2pPort
      rw [hi]
    have hholds : ∀ t' j, (s.givePort t port).Holds t' j ↔ s.Holds t' j ∧ j ≠ i := by
      intro t' j
      rw [holds_update (t := t) (u := .receiving) rfl]
      constructor
      · rintro (⟨htt, hj⟩ | ⟨-, port', hport', -⟩)
        · refine ⟨hj, ?_⟩
          rintro rfl
          exact htt (h.apart t' t j hj hmine)
        · cases hport'
      · rintro ⟨hj, hne⟩
        refine Or.inl ⟨?_, hj⟩
        rintro rfl
        obtain ⟨port', hport', hj⟩ := hj
        rw [hport] at hport'
        cases hport'
        rw [hi] at hj
        exact hne (Option.some.inj hj).symm
    refine ⟨fun j => ?_, fun t₁ t₂ j h₁ h₂ => ?_, fun port' hport' => ?_⟩
    · rw [hports, Function.update_apply]
      simp only [hholds]
      split_ifs with hj
      · refine iff_of_false (fun hne => hne rfl) ?_
        rintro ⟨t', ⟨-, hne⟩, -⟩
        exact hne hj
      · rw [h.marked j]
        simp [hj]
    · exact h.apart t₁ t₂ j ((hholds t₁ j).mp h₁).1 ((hholds t₂ j).mp h₂).1
    · rcases List.mem_append.mp hport' with hport' | hport'
      · exact h.put port' hport'
      · rw [List.mem_singleton.mp hport']
        have hval := portIndex_eq_some.mp hi
        have := i.isLt
        omega

end Steps

/-! ## Runs -/

omit [DecidableEq ι] in
theorem portsExact_start : PortsExact (Uploads.start : Uploads ι) where
  marked i := by
    refine iff_of_false (fun h => h rfl) ?_
    rintro ⟨t, ⟨port, hport, -⟩, -⟩
    cases hport
  apart t t' i h := by
    obtain ⟨port, hport, -⟩ := h
    cases hport
  put port hport := absurd hport List.not_mem_nil

/-- What each event leaves of the property, where it is enabled. -/
theorem uploads_step_iff {s s' : Uploads ι} {e : ι × UploadEvent} (h : PortsExact s) (hs : uploads.step s e = some s') :
    PortsExact s' ↔ PortKept s e := by
  obtain ⟨t, e⟩ := e
  cases e with
  | start =>
    obtain ⟨ht, ⟨⟩⟩ := Option.ite_none_right_eq_some.mp hs
    exact iff_of_true (h.goto (by rw [ht]; rfl)) trivial
  | connectionEnds =>
    obtain ⟨ht, ⟨⟩⟩ := Option.ite_none_right_eq_some.mp hs
    exact iff_of_true (h.goto (by rw [ht]; rfl)) trivial
  | portReq =>
    obtain ⟨ht, heq⟩ := Option.ite_none_right_eq_some.mp hs
    rw [← Option.some.inj heq]
    exact iff_of_true (h.takePort (by rw [ht]; rfl)) trivial
  | otherPacket =>
    obtain ⟨-, ⟨⟩⟩ := Option.ite_none_right_eq_some.mp hs
    exact iff_of_true h trivial
  | requestFails =>
    obtain ⟨ht, ⟨⟩⟩ := Option.ite_none_right_eq_some.mp hs
    exact iff_of_true (h.goto (by rw [ht]; rfl)) trivial
  | portSent =>
    simp only [uploads] at hs
    split at hs
    · next port ht =>
      cases hs
      exact iff_of_true (h.goto (by rw [ht]; rfl)) trivial
    · cases hs
  | portSendFails =>
    simp only [uploads] at hs
    split at hs
    · next port ht =>
      cases hs
      have hport : (s.task t).port = some port := by rw [ht]; rfl
      rw [portsExact_end_iff h hport rfl]
      simp [PortKept, ht]
    · cases hs
  | listens =>
    simp only [uploads] at hs
    split at hs
    · next port ht =>
      cases hs
      exact iff_of_true (h.goto (by rw [ht]; rfl)) trivial
    · cases hs
  | listenFails =>
    simp only [uploads] at hs
    split at hs
    · next port ht =>
      cases hs
      have hport : (s.task t).port = some port := by rw [ht]; rfl
      rw [portsExact_end_iff h hport rfl]
      simp [PortKept, ht]
    · cases hs
  | uploadEnds =>
    simp only [uploads] at hs
    split at hs
    · next port ht =>
      cases hs
      rw [portsExact_givePort_iff h (by rw [ht]; rfl)]
      simp [PortKept, ht]
    · cases hs

/-- An event that is not enabled asks for nothing. -/
theorem portKept_of_disabled {s : Uploads ι} {e : ι × UploadEvent} (hs : uploads.step s e = none) : PortKept s e := by
  obtain ⟨t, e⟩ := e
  cases e with
  | portSendFails =>
    intro port ht
    simp [uploads, ht] at hs
  | listenFails =>
    intro port ht
    simp [uploads, ht] at hs
  | uploadEnds =>
    intro port ht
    simp [uploads, ht] at hs
  | _ => trivial

/-- Along every run of the upload tasks the ports are exact in every state exactly as long as no send or listen fails
for a task that has a port of the array, and no upload ends for a task that got none. -/
theorem ports_exact_iff (es : List (ι × UploadEvent)) :
    uploads.Always PortsExact Uploads.start es ↔ uploads.RunMeets PortKept Uploads.start es := by
  refine System.always_iff_runMeets_guarded (I := fun _ => True) (E := fun _ => True) (fun _ _ _ _ _ => trivial)
    ?_ ?_ (fun _ _ => trivial) trivial portsExact_start
  · intro s e s' _ _ h hs
    exact uploads_step_iff h hs
  · intro s e _ _ _ hs
    exact portKept_of_disabled hs

/-- The answer to a request cannot be sent: the task ends, and port 5100 stays marked. -/
theorem leaked_port :
    ¬ uploads.Always PortsExact Uploads.start [((), .start), ((), .portReq), ((), .portSendFails)] ∧
    ∃ s, uploads.run Uploads.start [((), .start), ((), .portReq), ((), .portSendFails)] = some s ∧
      s.task () = .ended ∧ s.ports ⟨0, by decide⟩ = 1 := by
  have hlast : (uploads.run Uploads.start [((), .start), ((), .portReq), ((), .portSendFails)]).map
      (fun s => (s.task (), s.ports ⟨0, by decide⟩)) = some (.ended, 1) := by decide +kernel
  obtain ⟨s, hrun, hs⟩ := Option.map_eq_some_iff.mp hlast
  obtain ⟨htask, hport⟩ := Prod.mk.injEq .. ▸ hs
  refine ⟨fun h => ?_, s, hrun, htask, hport⟩
  obtain ⟨⟨⟩, ⟨port, hheld, -⟩, -⟩ := ((h.last hrun).marked ⟨0, by decide⟩).mp (by rw [hport]; decide)
  rw [htask] at hheld
  cases hheld

end TeleSync
