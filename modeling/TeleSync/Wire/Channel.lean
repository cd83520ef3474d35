import TeleSync.Lib.Transition
import TeleSync.Wire.Packet

/-!
# One direction of a connection

Threads that send packets on a connection call `send()` three times for each, and the bytes lie in the connection until
a `recv_*_packet` call has read a whole segment.

* `Channel` : the bytes that can be read, and the buffers that are still to be sent;
* `Channel.put`, `Channel.push`, `Channel.recv` : a thread comes to its first `send()`, one `send()`, one packet read;
* `InTurn` : no packet is begun before the one that came before it is out;
* `Channel.Holds` : the packets on the way, and what each operation does to them;
* `Channel.sends`, `Channel.exists_flushed` : the `send()` calls alone, which can always go on in turn until all is out.
-/

namespace TeleSync
open Memory Transition

/-! ## Bytes that have not all come -/

theorem recvLoop_append (st : RecvState) (buf s t : Bytes) (h : 0 ≤ (recvLoop st buf s).ret) :
    recvLoop st buf (s ++ t) =
      ⟨(recvLoop st buf s).ret, (recvLoop st buf s).buf, (recvLoop st buf s).rest ++ t⟩ := by
  induction s generalizing st buf with
  | nil => cases st <;> simp [recvLoop] at h
  | cons c s ih =>
    cases st with
    | idle =>
      simp only [recvLoop, List.cons_append] at h ⊢
      split_ifs at h ⊢ with h1
      · exact ih _ _ h
      · exact ih _ _ h
    | startBang =>
      simp only [recvLoop, List.cons_append] at h ⊢
      split_ifs at h ⊢ with h1
      · exact ih _ _ h
      · exact ih _ _ h
    | segment =>
      simp only [recvLoop, List.cons_append] at h ⊢
      split_ifs at h ⊢ with h1
      · exact ih _ _ h
      · exact ih _ _ h
    | endBang =>
      simp only [recvLoop, List.cons_append] at h ⊢
      split_ifs at h ⊢ with h1 h2
      · rfl
      · exact ih _ _ h
      · exact ih _ _ h

/-- The bytes of `send_segment` that can be read, in front of others: the segment is read whole or not at all. -/
theorem recvSegment_prefix {p s t rest : Bytes} (hclean : ¬ endMarker <:+: p) (hst : s ++ t = sendSegment p ++ rest)
    (h : 0 ≤ (recvSegment s).ret) :
    (recvSegment s).ret = p.length + 2 ∧ (recvSegment s).buf = p ++ endMarker ∧ (recvSegment s).rest ++ t = rest := by
  have happ := recvLoop_append .idle [] s t h
  have hall : recvLoop .idle [] (s ++ t) = ⟨p.length + 2, p ++ endMarker, rest⟩ := by
    rw [hst]
    exact recvSegment_sendSegment hclean rest
  rw [hall, RecvResult.mk.injEq] at happ
  exact ⟨happ.1.symm, happ.2.1.symm, happ.2.2.symm⟩

/-! ## Channels -/

/-- The bytes that can be read, and for each packet the buffers that `send()` has not been called for. -/
structure Channel where
  stream : Bytes
  sending : List (List Bytes)

namespace Channel

def idle : Channel := ⟨[], []⟩

/-- A thread comes to `send_segment`. -/
def put (c : Channel) (buf : Bytes) : Channel := { c with sending := c.sending ++ [segmentSends buf] }

/-- The next `send()` for packet `k`. -/
def push (c : Channel) (k : ℕ) : Option Channel :=
  match c.sending[k]? with
  | some (buf :: bufs) => some ⟨c.stream ++ buf, c.sending.set k bufs⟩
  | _ => none

/-- A `recv_*_packet` call over `pkt₀`, once it returns. -/
def recv {η : Type} (K : PacketKind η) (c : Channel) (pkt₀ : Mem) : Option (Mem × Channel) :=
  let r := K.recv pkt₀ c.stream
  if r.ret < 0 then none else some (r.pkt, { c with stream := r.rest })

/-- The packets before `k` are out. -/
def InTurn (c : Channel) (k : ℕ) : Prop := ∀ bufs ∈ c.sending.take k, bufs = []

instance (c : Channel) (k : ℕ) : Decidable (c.InTurn k) := inferInstanceAs (Decidable (∀ bufs ∈ _, bufs = []))

/-- What is read once everything is out. -/
def all (c : Channel) : Bytes := c.stream ++ c.sending.flatten.flatten

/-- Nothing is on the way. -/
def Empty (c : Channel) : Prop := c.stream = [] ∧ ∀ bufs ∈ c.sending, bufs = []

theorem Empty.all_eq {c : Channel} (h : c.Empty) : c.all = [] := by
  rw [all, h.1, List.nil_append, List.flatten_eq_nil_iff]
  intro buf hbuf
  obtain ⟨bufs, hbufs, hmem⟩ := List.mem_flatten.mp hbuf
  rw [h.2 bufs hbufs] at hmem
  exact absurd hmem List.not_mem_nil

/-- Every `send()` that a packet under way takes has been called. -/
def Flushed (c : Channel) : Prop := ∀ bufs ∈ c.sending, bufs = []

theorem flushed_idle : idle.Flushed := fun _ h => absurd h List.not_mem_nil

theorem Flushed.all_eq {c : Channel} (h : c.Flushed) : c.all = c.stream := by
  have hnone : c.sending.flatten = [] := List.flatten_eq_nil_iff.mpr h
  rw [all, hnone, List.flatten_nil, List.append_nil]

theorem all_put (c : Channel) (buf : Bytes) : (c.put buf).all = c.all ++ sendSegment buf := by
  simp [all, put, sendSegment]

theorem all_push {c c' : Channel} {k : ℕ} (hturn : c.InTurn k) (h : c.push k = some c') : c'.all = c.all := by
  unfold push at h
  split at h
  · rename_i buf bufs hk
    cases h
    obtain ⟨hlt, hget⟩ := List.getElem?_eq_some_iff.mp hk
    have hbefore : (c.sending.take k).flatten = [] := List.flatten_eq_nil_iff.mpr hturn
    have hsplit : c.sending = c.sending.take k ++ (buf :: bufs) :: c.sending.drop (k + 1) := by
      rw [← hget, List.getElem_cons_drop, List.take_append_drop]
    rw [all, all, List.set_eq_take_append_cons_drop, if_pos hlt]
    conv_rhs => rw [hsplit]
    simp only [List.flatten_append, List.flatten_cons, hbefore]
    simp
  · cases h

/-! ## The calls alone -/

def sends : System Channel ℕ where
  step c k := c.push k

theorem exists_first_nonempty {l : List (List Bytes)} (h : ¬ ∀ bufs ∈ l, bufs = []) :
    ∃ pre buf bufs post, l = pre ++ (buf :: bufs) :: post ∧ ∀ x ∈ pre, x = [] := by
  induction l with
  | nil => exact absurd (fun _ hx => absurd hx List.not_mem_nil) h
  | cons x l ih =>
    cases x with
    | nil =>
      rw [List.forall_mem_cons] at h
      obtain ⟨pre, buf, bufs, post, rfl, hpre⟩ := ih fun hall => h ⟨rfl, hall⟩
      exact ⟨[] :: pre, buf, bufs, post, rfl, List.forall_mem_cons.mpr ⟨rfl, hpre⟩⟩
    | cons buf bufs => exact ⟨[], buf, bufs, l, rfl, nofun⟩

theorem exists_push {c : Channel} (h : ¬ c.Flushed) :
    ∃ k c', c.InTurn k ∧ c.push k = some c' ∧ c.sending.flatten.length = c'.sending.flatten.length + 1 := by
  obtain ⟨stream, sending⟩ := c
  obtain ⟨pre, buf, bufs, post, rfl, hpre⟩ := exists_first_nonempty h
  refine ⟨pre.length, ⟨stream ++ buf, pre ++ bufs :: post⟩, ?_, ?_, ?_⟩
  · unfold InTurn
    rwa [List.take_left]
  · simp [push]
  · simp
    omega

theorem exists_flushed (c : Channel) :
    ∃ ks c', sends.run c ks = some c' ∧ sends.RunMeets InTurn c ks ∧ c'.Flushed ∧ c'.all = c.all := by
  induction hn : c.sending.flatten.length generalizing c with
  | zero =>
    refine ⟨[], c, rfl, trivial, fun bufs hbufs => ?_, rfl⟩
    exact List.flatten_eq_nil_iff.mp (List.length_eq_zero_iff.mp hn) bufs hbufs
  | succ n ih =>
    have hleft : ¬ c.Flushed := by
      intro hf
      rw [List.flatten_eq_nil_iff.mpr hf] at hn
      cases hn
    obtain ⟨k, c', hturn, hpush, hlen⟩ := exists_push hleft
    obtain ⟨ks, c'', hrun, hmeets, hf, hall⟩ := ih c' (by omega)
    refine ⟨k :: ks, c'', System.run_cons_eq_some.mpr ⟨c', hpush, hrun⟩, ⟨hturn, fun d hd => ?_⟩, hf,
      hall.trans (all_push hturn hpush)⟩
    obtain rfl : c' = d := Option.some.inj (hpush.symm.trans hd)
    exact hmeets

/-! ## The packets on the way -/

section Packets
variable {η π : Type} (K : PacketKind η) (Is : Mem → π → Prop)

/-- The packets on the way, of which `Is pkt p` says that `pkt` stands for `p`; no end marker is in any of them. -/
def Holds (c : Channel) (ps : List π) : Prop :=
  ∃ pkts : List Mem, c.all = pkts.flatMap K.send ∧
    List.Forall₂ (fun pkt p => ¬ endMarker <:+: slice pkt 0 (K.packetLen pkt) ∧ Is pkt p) pkts ps

variable {K Is} {c c' : Channel} {ps : List π}

theorem holds_idle : idle.Holds K Is [] := ⟨[], rfl, .nil⟩

theorem Holds.put (h : c.Holds K Is ps) {pkt : Mem} {p : π} (hclean : ¬ endMarker <:+: slice pkt 0 (K.packetLen pkt))
    (his : Is pkt p) : (c.put (slice pkt 0 (K.packetLen pkt))).Holds K Is (ps ++ [p]) := by
  obtain ⟨pkts, hall, hpkts⟩ := h
  refine ⟨pkts ++ [pkt], ?_, List.rel_append hpkts (.cons ⟨hclean, his⟩ .nil)⟩
  rw [all_put, hall, List.flatMap_append, List.flatMap_singleton]
  rfl

theorem Holds.of_all_eq (h : c.Holds K Is ps) (hall : c'.all = c.all) : c'.Holds K Is ps := by
  obtain ⟨pkts, hc, hpkts⟩ := h
  exact ⟨pkts, hall.trans hc, hpkts⟩

theorem Holds.push (h : c.Holds K Is ps) {k : ℕ} (hturn : c.InTurn k) (hpush : c.push k = some c') :
    c'.Holds K Is ps :=
  h.of_all_eq (all_push hturn hpush)

/-- The packet that a call reads is the first one on the way, as far as its `packet_len` goes. -/
theorem Holds.recv (h : c.Holds K Is ps) {pkt₀ m : Mem} (hrecv : c.recv K pkt₀ = some (m, c')) :
    ∃ pkt p rest, ps = p :: rest ∧ Is pkt p ∧ AgreeOn m pkt 0 (K.packetLen pkt) ∧ c'.Holds K Is rest := by
  obtain ⟨pkts, hall, hpkts⟩ := h
  unfold Channel.recv at hrecv
  dsimp only at hrecv
  split_ifs at hrecv with hret
  obtain ⟨rfl, rfl⟩ := Prod.mk.inj (Option.some.inj hrecv)
  have hseg : 0 ≤ (recvSegment c.stream).ret := by
    by_contra hneg
    refine hret ?_
    rw [PacketKind.recv, if_pos (by omega)]
    exact neg_one_lt_zero
  have hresult : K.recv pkt₀ c.stream =
      ⟨(recvSegment c.stream).ret, memcpy pkt₀ 0 (ofBytes (recvSegment c.stream).buf) 0 K.recvSize,
        (recvSegment c.stream).rest⟩ := if_neg (by omega)
  cases hpkts with
  | nil =>
    have hnil : c.stream = [] := (List.append_eq_nil_iff.mp hall).1
    rw [hnil] at hseg
    exact absurd hseg (by decide)
  | @cons pkt p pkts ps hpkt hrest =>
    obtain ⟨-, hbuf, hleft⟩ := recvSegment_prefix hpkt.1 hall hseg
    refine ⟨pkt, p, ps, rfl, hpkt.2, ?_, pkts, ?_, hrest⟩
    · rw [hresult, hbuf]
      exact K.agreeOn_recv pkt pkt₀ endMarker
    · rw [all, hresult]
      exact hleft

theorem Holds.eq_nil (h : c.Holds K Is ps) (hempty : c.Empty) : ps = [] := by
  obtain ⟨pkts, hall, hpkts⟩ := h
  rw [hempty.all_eq] at hall
  cases hpkts with
  | nil => rfl
  | cons hpkt hrest =>
    rw [List.flatMap_cons, PacketKind.send, sendSegment_eq] at hall
    simp [startMarker] at hall

theorem Holds.exists_recv {p : π} (h : c.Holds K Is (p :: ps)) (hf : c.Flushed) (pkt₀ : Mem) :
    ∃ m stream, c.recv K pkt₀ = some (m, { c with stream := stream }) := by
  obtain ⟨pkts, hall, hpkts⟩ := h
  cases hpkts with
  | @cons pkt p pkts ps hpkt hrest =>
    have hstream : c.stream = sendSegment (slice pkt 0 (K.packetLen pkt)) ++ pkts.flatMap K.send := by
      rw [← hf.all_eq, hall]
      rfl
    have hseg := recvSegment_sendSegment hpkt.1 (pkts.flatMap K.send)
    rw [← hstream] at hseg
    have hret : ¬ (K.recv pkt₀ c.stream).ret < 0 := by
      rw [PacketKind.recv, hseg]
      dsimp only
      rw [if_neg (by omega)]
      dsimp only
      omega
    exact ⟨_, _, if_neg hret⟩

theorem Holds.empty (h : c.Holds K Is []) (hf : c.Flushed) : c.Empty := by
  obtain ⟨pkts, hall, hpkts⟩ := h
  cases hpkts
  exact ⟨hf.all_eq.symm.trans hall, hf⟩

end Packets

end Channel

end TeleSync
