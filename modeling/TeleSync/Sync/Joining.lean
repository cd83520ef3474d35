import TeleSync.Sync.Threads
import TeleSync.Sync.Convergence
import TeleSync.Lib.Replication

/-!
# Clients that join while others go on

The tracker's table and those of the clients as a hub with replicas (`Lib/Replication`), every thread being a place
where timestamps are under way.

* `Thread.carried`, `Thread.table`, `Thread.Reads`, `Thread.Reaches` : what a thread has yet to merge, what it is about
  to send, the entries that it has yet to read, and the clients that it sends to;
* `Cluster.hub` : the timestamps under way, wherever they are;
* `Settling` : what holds in every reachable state;
* `Move` : what a step of a thread has to respect.
-/

namespace TeleSync.Threads
open Transition Replication

/-! ## Timestamps under way -/

/-- The table has an entry for the name with the timestamp. -/
def Has (tft : TransFileTable) (f : Name) (v : WithBot ℕ) : Prop :=
    ∃ te ∈ tft, te.name = f ∧ (te.timestamp : WithBot ℕ) = v

/-- An addition or a change. -/
def AddsOrModifies (te : TransFileEntry) : Prop := te.opType = .fileAdd ∨ te.opType = .fileModify

def ClientPacket.carried : ClientPacket → TransFileTable
  | .register _ => []
  | .sync tft => tft
  | .update tft => tft

/-- The table in a packet of the tracker. -/
def carriedTable : TtopPacket → TransFileTable
  | .accept _ => []
  | .broadcast tft => tft
  | .sync tft => tft

/-- The entries that a client has at hand. -/
def ClientPhase.atHand : ClientPhase → TransFileTable
  | .syncing tft => tft
  | .handling tft => tft
  | _ => []

namespace Thread

def conn : Thread → ℤ
  | .register conn _ => conn
  | .addPeer conn _ => conn
  | .reply conn _ _ _ _ => conn
  | .replyFill conn _ _ _ _ _ _ => conn
  | .merge conn _ _ => conn
  | .mergeAdd conn _ _ _ => conn
  | .mergeUpdate conn _ _ _ _ => conn
  | .update conn _ _ => conn
  | .updateAdd conn _ _ _ => conn
  | .updateMerge conn _ _ _ => conn
  | .updateFill conn _ _ _ _ => conn

/-- The received entries that are not in the tracker's table yet. -/
def carried : Thread → TransFileTable
  | .register _ _ => []
  | .addPeer _ _ => []
  | .reply _ tft _ _ _ => tft
  | .replyFill _ tft _ _ _ _ _ => tft
  | .merge _ tft _ => tft
  | .mergeAdd _ te tft _ => te :: tft
  | .mergeUpdate _ te _ tft _ => te :: tft
  | .update _ tft _ => tft
  | .updateAdd _ te tft _ => te :: tft
  | .updateMerge _ te tft _ => te :: tft
  | .updateFill _ _ _ tft _ => tft

/-- The table that the thread fills. -/
def table : Thread → TransFileTable
  | .register _ _ => []
  | .addPeer _ _ => []
  | .reply _ _ _ _ peerTft => peerTft
  | .replyFill _ _ _ _ _ _ peerTft => peerTft
  | .merge _ _ broadTft => broadTft
  | .mergeAdd _ _ _ broadTft => broadTft
  | .mergeUpdate _ _ _ _ broadTft => broadTft
  | .update _ _ newTft => newTft
  | .updateAdd _ _ _ newTft => newTft
  | .updateMerge _ _ _ newTft => newTft
  | .updateFill _ _ _ _ newTft => newTft

/-- The names whose entries the thread will read before it sends. -/
def Reads : Thread → Name → Prop
  | .reply _ _ bkt chain _, f => f ∈ chain ∨ bkt ≤ (searchBucket f).val
  | .replyFill _ _ name _ bkt chain _, f => f = name ∨ f ∈ chain ∨ bkt ≤ (searchBucket f).val
  | .updateFill _ name _ _ _, f => f = name
  | _, _ => False

/-- The clients that get the table. -/
def Reaches : Thread → ℤ → Prop
  | .register _ _, _ => False
  | .addPeer _ _, _ => False
  | .reply conn _ _ _ _, c => c = conn
  | .replyFill conn _ _ _ _ _ _, c => c = conn
  | t, c => c ≠ t.conn

/-- The thread will send this timestamp to the client, or a later one. -/
def Owes (σ : Stamps) (t : Thread) (c : ℤ) (f : Name) (v : WithBot ℕ) : Prop :=
  t.Reaches c ∧ (Has t.table f v ∨ t.Reads f ∧ v = σ f)

/-- What else holds of a thread. -/
def Ok (σ : Stamps) : Thread → Prop
  | .register _ _ => True
  | .addPeer _ _ => True
  | .reply _ _ _ _ _ => True
  | .replyFill _ _ _ _ _ _ _ => True
  | .merge _ _ broadTft => ∀ te ∈ broadTft, AddsOrModifies te
  | .mergeAdd _ _ _ broadTft => ∀ te ∈ broadTft, AddsOrModifies te
  | .mergeUpdate _ te older _ broadTft =>
    (older = false → (te.timestamp : WithBot ℕ) ≤ σ te.name) ∧ σ te.name ≠ ⊥ ∧ ∀ te ∈ broadTft, AddsOrModifies te
  | .update _ tft newTft => (∀ te ∈ tft, AddsOrModifies te) ∧ ∀ te ∈ newTft, AddsOrModifies te
  | .updateAdd _ _ _ _ => False
  | .updateMerge _ te tft newTft =>
    σ te.name ≠ ⊥ ∧ (∀ te ∈ tft, AddsOrModifies te) ∧ ∀ te ∈ newTft, AddsOrModifies te
  | .updateFill _ _ opType tft newTft =>
    (opType = .fileAdd ∨ opType = .fileModify) ∧ (∀ te ∈ tft, AddsOrModifies te) ∧ ∀ te ∈ newTft, AddsOrModifies te

end Thread

namespace Cluster

/-- The client has not sent its table, or no thread has started for it. -/
def Pending (s : Cluster) (c : ℤ) : Prop := ¬ (s.phase c).Joined ∨ ∃ tft, (c, .sync tft) ∈ s.up

/-- Tracker and clients by their timestamps. A client whose synchronisation has not started will get them all. -/
def hub (s : Cluster) : Hub ℤ Name (WithBot ℕ) where
  hub := s.tracker.ft.stamp
  rep c := (s.peerFt c).stamp
  up c f v := (∃ p, (c, p) ∈ s.up ∧ Has p.carried f v) ∨ ∃ t ∈ s.threads, t.conn = c ∧ Has t.carried f v
  down c f v := (∃ p ∈ s.down c, Has (carriedTable p) f v) ∨ Has (s.phase c).atHand f v ∨
    (∃ t ∈ s.threads, t.Owes s.tracker.ft.stamp c f v) ∨ s.Pending c ∧ v = s.tracker.ft.stamp f

end Cluster

/-! ## The invariant -/

/-- What holds in every state of an orderly run. -/
structure Settling (s : Cluster) : Prop where
  tracker_wf : s.tracker.ft.Wf
  peer_wf : ∀ c, (s.peerFt c).Wf
  threads_ok : ∀ t ∈ s.threads, t.Ok s.tracker.ft.stamp
  up_ok : ∀ c tft, (c, .update tft) ∈ s.up → ∀ te ∈ tft, AddsOrModifies te
  down_ok : ∀ c tft, .broadcast tft ∈ s.down c → ∀ te ∈ tft, AddsOrModifies te
  handling_ok : ∀ c tft, s.phase c = .handling tft → ∀ te ∈ tft, AddsOrModifies te
  unscanned : ∀ c, s.phase c = .absent ∨ s.phase c = .connecting ∨ s.phase c = .accepted → s.peerFt c = fileTableInit
  member : ∀ c, s.Pending c ∨ s.tracker.Registered c
  tracked : ∀ c, Tracked s.hub c

section Tables
variable {tft tft' : TransFileTable} {te : TransFileEntry} {f : Name} {v : WithBot ℕ}

theorem has_nil : ¬ Has [] f v := fun ⟨_, h, _⟩ => List.not_mem_nil h

theorem has_cons : Has (te :: tft) f v ↔ te.name = f ∧ (te.timestamp : WithBot ℕ) = v ∨ Has tft f v := by
  simp [Has]

theorem has_append : Has (tft ++ tft') f v ↔ Has tft f v ∨ Has tft' f v := by
  simp only [Has, List.mem_append]
  constructor
  · rintro ⟨te, hte | hte, h⟩
    · exact .inl ⟨te, hte, h⟩
    · exact .inr ⟨te, hte, h⟩
  · rintro (⟨te, hte, h⟩ | ⟨te, hte, h⟩)
    · exact ⟨te, .inl hte, h⟩
    · exact ⟨te, .inr hte, h⟩

theorem has_singleton : Has [te] f v ↔ te.name = f ∧ (te.timestamp : WithBot ℕ) = v := by
  rw [has_cons, or_iff_left has_nil]

end Tables

/-! ## Steps of threads -/

theorem Thread.Ok.mono {σ σ' : Stamps} (hle : ∀ f, σ f ≤ σ' f) {t : Thread} (h : t.Ok σ) : t.Ok σ' := by
  cases t with
  | mergeUpdate conn te older tft broadTft =>
    exact ⟨fun ho => (h.1 ho).trans (hle _), ne_bot_of_le_ne_bot h.2.1 (hle _), h.2.2⟩
  | updateMerge conn te tft newTft => exact ⟨ne_bot_of_le_ne_bot h.1 (hle _), h.2⟩
  | _ => exact h

theorem Thread.Owes.mono {σ σ' : Stamps} (hle : ∀ f, σ f ≤ σ' f) {t : Thread} {c : ℤ} {f : Name} {v : WithBot ℕ}
    (h : t.Owes σ c f v) : ∃ w, v ≤ w ∧ t.Owes σ' c f w := by
  obtain ⟨hc, hv | ⟨hf, rfl⟩⟩ := h
  · exact ⟨v, le_rfl, hc, .inl hv⟩
  · exact ⟨σ' f, hle f, hc, .inr ⟨hf, rfl⟩⟩

theorem mem_packetsFor {c : ℤ} {ps : List (ℤ × TtopPacket)} {p : TtopPacket} : p ∈ packetsFor c ps ↔ (c, p) ∈ ps := by
  simp [packetsFor]

/-- What a step of thread `t` has to respect. -/
structure Move (s : Cluster) (t : Thread) (a : Advance) : Prop where
  wf : a.tracker.ft.Wf
  registered : ∀ c, s.tracker.Registered c → a.tracker.Registered c
  stamp_le : ∀ f, s.tracker.ft.stamp f ≤ a.tracker.ft.stamp f
  sent_ok : ∀ c tft, (c, .broadcast tft) ∈ a.sent → ∀ te ∈ tft, AddsOrModifies te
  sent_le : ∀ c p, (c, p) ∈ a.sent → ∀ te ∈ carriedTable p, (te.timestamp : WithBot ℕ) ≤ a.tracker.ft.stamp te.name
  rest_ok : ∀ t' ∈ a.rest, t'.Ok a.tracker.ft.stamp
  conn : ∀ t' ∈ a.rest, t'.conn = t.conn
  carried : ∀ t' ∈ a.rest, ∀ te ∈ t'.carried, te ∈ t.carried
  table_le : ∀ t' ∈ a.rest, ∀ te ∈ t'.table, (te.timestamp : WithBot ℕ) ≤ a.tracker.ft.stamp te.name
  merged : ∀ te ∈ t.carried, (te.timestamp : WithBot ℕ) ≤ a.tracker.ft.stamp te.name ∨ ∃ t' ∈ a.rest, te ∈ t'.carried
  kept : ∀ c f v, t.Owes s.tracker.ft.stamp c f v → v ≤ (s.peerFt c).stamp f ∨
    (∃ p, (c, p) ∈ a.sent ∧ Has (carriedTable p) f v) ∨ (∃ t' ∈ a.rest, ∃ w, v ≤ w ∧ t'.Owes a.tracker.ft.stamp c f w) ∨
      s.Pending c
  raised : ∀ c f, a.tracker.ft.stamp f = s.tracker.ft.stamp f ∨ a.tracker.ft.stamp f ≤ (s.peerFt c).stamp f ∨
    ∃ t' ∈ a.rest, t'.Owes a.tracker.ft.stamp c f (a.tracker.ft.stamp f)

section Moves
variable {s : Cluster} {i : ℕ} {t : Thread} {a : Advance}

theorem mem_moved (hi : s.threads[i]? = some t) {x : Thread} (hx : x ∈ s.threads) :
    x = t ∨ x ∈ (s.moved i a).threads := by
  obtain ⟨j, hj⟩ := List.mem_iff_getElem?.mp hx
  by_cases hij : j = i
  · subst hij
    exact .inl (Option.some.inj (hj.symm.trans hi))
  · refine .inr (List.mem_append_left _ (List.mem_eraseIdx_iff_getElem?.mpr ⟨j, hij, hj⟩))

theorem of_mem_moved {x : Thread} (hx : x ∈ (s.moved i a).threads) : x ∈ s.threads ∨ x ∈ a.rest :=
  (List.mem_append.mp hx).imp List.mem_of_mem_eraseIdx Option.mem_toList.mp

/-- A step of a thread loses nothing on the way. -/
theorem Move.advances (h : Settling s) (hi : s.threads[i]? = some t) (hm : Move s t a) (c : ℤ) :
    Advances s.hub (s.moved i a).hub c where
  hub_le := hm.stamp_le
  rep_le _ := le_rfl
  up_sound f v hv := by
    rcases hv with hv | ⟨x, hx, hc, te, hte, hv⟩
    · exact .inl (.inl hv)
    · rcases of_mem_moved hx with hx | hx
      · exact .inl (.inr ⟨x, hx, hc, te, hte, hv⟩)
      · refine .inl (.inr ⟨t, List.mem_of_getElem? hi, ?_, te, hm.carried x hx te hte, hv⟩)
        exact (hm.conn x hx).symm.trans hc
  down_sound f v hv := by
    rcases hv with ⟨p, hp, hv⟩ | hv | ⟨x, hx, hc, hv | ⟨-, rfl⟩⟩ | ⟨-, rfl⟩
    · rcases List.mem_append.mp hp with hp | hp
      · exact .inl (.inl ⟨p, hp, hv⟩)
      · obtain ⟨te, hte, rfl, rfl⟩ := hv
        exact .inr (hm.sent_le c p (mem_packetsFor.mp hp) te hte)
    · exact .inl (.inr (.inl hv))
    · rcases of_mem_moved hx with hx | hx
      · exact .inl (.inr (.inr (.inl ⟨x, hx, hc, .inl hv⟩)))
      · obtain ⟨te, hte, rfl, rfl⟩ := hv
        exact .inr (hm.table_le x hx te hte)
    · exact .inr le_rfl
    · exact .inr le_rfl
  up_kept f v hv := by
    rcases hv with hv | ⟨x, hx, hc, te, hte, rfl, rfl⟩
    · exact .inr (.inl hv)
    · rcases mem_moved hi hx with rfl | hx
      · rcases hm.merged te hte with hle | ⟨t', ht', hte'⟩
        · exact .inl hle
        · refine .inr (.inr ⟨t', List.mem_append_right _ (Option.mem_toList.mpr ht'), ?_, te, hte', rfl, rfl⟩)
          exact (hm.conn t' ht').trans hc
      · exact .inr (.inr ⟨x, hx, hc, te, hte, rfl, rfl⟩)
  down_kept f v hv := by
    rcases hv with ⟨p, hp, hv⟩ | hv | ⟨x, hx, hv⟩ | ⟨hp, rfl⟩
    · exact .inr ⟨v, le_rfl, .inl ⟨p, List.mem_append_left _ hp, hv⟩⟩
    · exact .inr ⟨v, le_rfl, .inr (.inl hv)⟩
    · rcases mem_moved hi hx with rfl | hx'
      · have hle : v ≤ a.tracker.ft.stamp f :=
          ((h.tracked c).down_le f v (.inr (.inr (.inl ⟨x, hx, hv⟩)))).trans (hm.stamp_le f)
        rcases hm.kept c f v hv with hrep | ⟨p, hp, hv'⟩ | ⟨t', ht', w, hvw, hw⟩ | hp
        · exact .inl hrep
        · exact .inr ⟨v, le_rfl, .inl ⟨p, List.mem_append_right _ (mem_packetsFor.mpr hp), hv'⟩⟩
        · refine .inr ⟨w, hvw, .inr (.inr (.inl ⟨t', List.mem_append_right _ (Option.mem_toList.mpr ht'), hw⟩))⟩
        · exact .inr ⟨_, hle, .inr (.inr (.inr ⟨hp, rfl⟩))⟩
      · obtain ⟨w, hvw, hw⟩ := hv.mono hm.stamp_le
        exact .inr ⟨w, hvw, .inr (.inr (.inl ⟨x, hx', hw⟩))⟩
    · exact .inr ⟨_, hm.stamp_le f, .inr (.inr (.inr ⟨hp, rfl⟩))⟩
  rep_new _ := .inl rfl
  hub_new f := by
    rcases hm.raised c f with heq | hle | ⟨t', ht', howes⟩
    · exact .inl heq
    · exact .inr (.inl hle)
    · exact .inr (.inr (.inr (.inr (.inl ⟨t', List.mem_append_right _ (Option.mem_toList.mpr ht'), howes⟩))))

theorem Settling.move (h : Settling s) (hi : s.threads[i]? = some t) (hm : Move s t a) : Settling (s.moved i a) where
  tracker_wf := hm.wf
  peer_wf := h.peer_wf
  threads_ok x hx := by
    rcases of_mem_moved hx with hx | hx
    · exact (h.threads_ok x hx).mono hm.stamp_le
    · exact hm.rest_ok x hx
  up_ok := h.up_ok
  down_ok c tft hp := by
    rcases List.mem_append.mp hp with hp | hp
    · exact h.down_ok c tft hp
    · exact hm.sent_ok c tft (mem_packetsFor.mp hp)
  handling_ok := h.handling_ok
  unscanned := h.unscanned
  member c := (h.member c).imp_right (hm.registered c)
  tracked c := (h.tracked c).advance (hm.advances h hi c)

theorem Settling.table_le (h : Settling s) (ht : t ∈ s.threads) :
    ∀ te ∈ t.table, (te.timestamp : WithBot ℕ) ≤ s.tracker.ft.stamp te.name := by
  intro te hte
  have hreach : ∃ c, t.Reaches c := by
    have hne : t.conn + 1 ≠ t.conn := by omega
    cases t with
    | register conn peerid => exact absurd hte List.not_mem_nil
    | addPeer conn peerid => exact absurd hte List.not_mem_nil
    | reply conn tft bkt chain peerTft => exact ⟨conn, rfl⟩
    | replyFill conn tft name opType bkt chain peerTft => exact ⟨conn, rfl⟩
    | _ => exact ⟨_, hne⟩
  obtain ⟨c, hc⟩ := hreach
  exact (h.tracked c).down_le _ _ (.inr (.inr (.inl ⟨t, ht, hc, .inl ⟨te, hte, rfl, rfl⟩⟩)))

theorem Move.quiet (h : Settling s) {t' : Thread} (hok : t'.Ok s.tracker.ft.stamp) (hconn : t'.conn = t.conn)
    (hcarried : t'.carried = t.carried)
    (htable : ∀ te ∈ t'.table, (te.timestamp : WithBot ℕ) ≤ s.tracker.ft.stamp te.name)
    (hkept : ∀ c f v, t.Owes s.tracker.ft.stamp c f v → v ≤ (s.peerFt c).stamp f ∨ t'.Owes s.tracker.ft.stamp c f v) :
    Move s t ⟨s.tracker, [], some t'⟩ where
  wf := h.tracker_wf
  registered _ hc := hc
  stamp_le _ := le_rfl
  sent_ok _ _ hp := absurd hp List.not_mem_nil
  sent_le _ _ hp := absurd hp List.not_mem_nil
  rest_ok := by rintro _ ⟨⟩; exact hok
  conn := by rintro _ ⟨⟩; exact hconn
  carried := by rintro _ ⟨⟩ te hte; exact hcarried ▸ hte
  table_le := by rintro _ ⟨⟩; exact htable
  merged te hte := .inr ⟨t', rfl, hcarried ▸ hte⟩
  kept c f v hv := (hkept c f v hv).imp_right fun hv' => .inr (.inl ⟨t', rfl, v, le_rfl, hv'⟩)
  raised _ _ := .inl rfl

/-- A step that merges the next entry in; the clients that get the thread's table learn about it if it is news. -/
theorem Move.mergeIn (h : Settling s) (ht : t ∈ s.threads) {t' : Thread} {ft : FileTable} {te : TransFileEntry}
    (hwf : ft.Wf)
    (hft : ft.stamp = raise s.tracker.ft.stamp te) (hok : t'.Ok ft.stamp) (hconn : t'.conn = t.conn)
    (hcarried : t.carried = te :: t'.carried) (hreads : ∀ f, ¬ t.Reads f) (hreach : ∀ c, t.Reaches c → t'.Reaches c)
    (hothers : ∀ c, c ≠ t.conn → t'.Reaches c) (htable : ∀ e ∈ t.table, e ∈ t'.table)
    (hnew : ∀ e ∈ t'.table, e ∈ t.table ∨ e.name = te.name ∧ e.timestamp = te.timestamp)
    (hnews : s.tracker.ft.stamp te.name < te.timestamp → Has t'.table te.name te.timestamp ∨ t'.Reads te.name) :
    Move s t ⟨{ s.tracker with ft := ft }, [], some t'⟩ where
  wf := hwf
  registered _ hc := hc
  stamp_le f := by
    show _ ≤ ft.stamp f
    rw [hft]
    exact le_raise _ te f
  sent_ok _ _ hp := absurd hp List.not_mem_nil
  sent_le _ _ hp := absurd hp List.not_mem_nil
  rest_ok := by rintro _ ⟨⟩; exact hok
  conn := by rintro _ ⟨⟩; exact hconn
  carried := by
    rintro _ ⟨⟩
    rw [hcarried]
    exact fun _ => List.mem_cons_of_mem te
  table_le := by
    rintro _ ⟨⟩ e he
    show _ ≤ ft.stamp e.name
    rw [hft]
    rcases hnew e he with he | ⟨hname, hts⟩
    · exact (h.table_le ht e he).trans (le_raise _ te _)
    · rw [hname, hts]
      exact raise_self_ge _ te
  merged e he := by
    rw [hcarried] at he
    rcases List.mem_cons.mp he with rfl | he
    · left
      show _ ≤ ft.stamp e.name
      rw [hft]
      exact raise_self_ge _ e
    · exact .inr ⟨t', rfl, he⟩
  kept c f v hv := by
    obtain ⟨hc, ⟨e, he, hname, hts⟩ | ⟨hf, -⟩⟩ := hv
    · exact .inr (.inr (.inl ⟨t', rfl, v, le_rfl, hreach c hc, .inl ⟨e, htable e he, hname, hts⟩⟩))
    · exact absurd hf (hreads f)
  raised c f := by
    show ft.stamp f = _ ∨ ft.stamp f ≤ _ ∨ _
    rw [hft]
    by_cases hf : f = te.name
    · subst hf
      by_cases hlt : s.tracker.ft.stamp te.name < te.timestamp
      · have hts : raise s.tracker.ft.stamp te te.name = te.timestamp := (raise_self _ te).trans (max_eq_right hlt.le)
        by_cases hc : c = t.conn
        · -- the client that sent the entry has it
          right
          left
          rw [hts, hc]
          refine (h.tracked t.conn).up_le _ _ (.inr ⟨t, ht, rfl, te, ?_, rfl, rfl⟩)
          rw [hcarried]
          exact List.mem_cons_self
        · refine .inr (.inr ⟨t', rfl, hothers c hc, ?_⟩)
          rw [hts]
          exact (hnews hlt).imp_right fun hf => ⟨hf, rfl⟩
      · exact .inl ((raise_self _ te).trans (max_eq_left (not_lt.mp hlt)))
    · exact .inl (raise_of_ne _ hf)

/-- The end of a thread, which sends its table to all other registered clients. -/
theorem Move.broadcast (h : Settling s) (ht : t ∈ s.threads) {sent : List (ℤ × TtopPacket)}
    (hsent : ∀ c p, (c, p) ∈ sent → p = .broadcast t.table)
    (hall : ∀ c, t.Reaches c → s.tracker.Registered c → t.table ≠ [] → (c, .broadcast t.table) ∈ sent)
    (hok : ∀ te ∈ t.table, AddsOrModifies te) (hcarried : t.carried = []) (hreads : ∀ f, ¬ t.Reads f) :
    Move s t ⟨s.tracker, sent, none⟩ where
  wf := h.tracker_wf
  registered _ hc := hc
  stamp_le _ := le_rfl
  sent_ok c tft hp := by
    obtain rfl : tft = t.table := TtopPacket.broadcast.inj (hsent c _ hp)
    exact hok
  sent_le c p hp := by
    obtain rfl := hsent c p hp
    exact h.table_le ht
  rest_ok _ ht' := absurd ht'.symm (Option.some_ne_none _)
  conn _ ht' := absurd ht'.symm (Option.some_ne_none _)
  carried _ ht' := absurd ht'.symm (Option.some_ne_none _)
  table_le _ ht' := absurd ht'.symm (Option.some_ne_none _)
  merged te hte := absurd (hcarried ▸ hte) List.not_mem_nil
  kept c f v hv := by
    obtain ⟨hc, hv | ⟨hf, -⟩⟩ := hv
    · rcases h.member c with hp | hr
      · exact .inr (.inr (.inr hp))
      · obtain ⟨te, hte, -⟩ := id hv
        exact .inr (.inl ⟨_, hall c hc hr (List.ne_nil_of_mem hte), hv⟩)
    · exact absurd hf (hreads f)
  raised _ _ := .inl rfl

end Moves

/-! ## Every step of a thread -/

section Advance
variable {s : Cluster} {t : Thread} {a : Advance}

theorem stamp_of_notMem_chain {ft : FileTable} {f : Name} (h : f ∉ chainOf ft (searchBucket f)) : ft.stamp f = ⊥ :=
  FileTable.stamp_eq_bot.mpr (FileTable.view_eq_none.mpr (KeyedList.find_eq_none.mpr h))

theorem exists_of_syncReplyEntry {tft : TransFileTable} {fe : FileEntry} (h : syncReplyEntry tft fe = none) :
    ∃ te ∈ tft, te.name = fe.name ∧ fe.timestamp ≤ te.timestamp := by
  unfold syncReplyEntry at h
  split at h
  · cases h
  · next te hte =>
    have hfind : tft.find? (fun te => te.name = fe.name) = some te := hte
    have hname := List.find?_some hfind
    split_ifs at h with hcond
    refine ⟨te, List.mem_of_find?_eq_some hfind, by simpa using hname, ?_⟩
    exact not_lt.mp fun hlt => hcond (.inl hlt)

theorem stamp_modify_update {ft : FileTable} {te : TransFileEntry} (h : ft.stamp te.name ≠ ⊥) :
    (ft.modify te.name fun fe => (fileEntryUpdate fe te).1).stamp = raise ft.stamp te := by
  have hv := FileTable.view_modify ft te.name (f := fun fe => (fileEntryUpdate fe te).1)
    (g := fun r => mergeRecord r te) (fun fe => fileEntryUpdate_name fe te) fun fe => fileEntryUpdate_record fe te
  rw [FileTable.stamp_of_view_update hv, FileTable.stampOf_mergeRecord h]
  rfl

theorem Move.bucket (h : Settling s) {conn : ℤ} {tft peerTft : TransFileTable} {bkt : ℕ} (hb : bkt < HASH_SIZE)
    (ht : .reply conn tft bkt [] peerTft ∈ s.threads) :
    Move s (.reply conn tft bkt [] peerTft)
      ⟨s.tracker, [], some (.reply conn tft (bkt + 1) (chainOf s.tracker.ft ⟨bkt, hb⟩) peerTft)⟩ := by
  refine .quiet h trivial rfl rfl (fun te hte => h.table_le ht te hte) ?_
  rintro c f v ⟨hc, hv | ⟨hf | hf, rfl⟩⟩
  · exact .inr ⟨hc, .inl hv⟩
  · exact absurd hf List.not_mem_nil
  · rcases hf.eq_or_lt with heq | hlt
    · by_cases hmem : f ∈ chainOf s.tracker.ft ⟨bkt, hb⟩
      · exact .inr ⟨hc, .inr ⟨.inl hmem, rfl⟩⟩
      · left
        have hbucket : (⟨bkt, hb⟩ : Fin HASH_SIZE) = searchBucket f := Fin.ext heq
        rw [hbucket] at hmem
        rw [stamp_of_notMem_chain hmem]
        exact bot_le
    · exact .inr ⟨hc, .inr ⟨.inr hlt, rfl⟩⟩

theorem Move.replySent (h : Settling s) {conn : ℤ} {tft peerTft : TransFileTable} {bkt : ℕ} (hb : ¬ bkt < HASH_SIZE)
    (ht : .reply conn tft bkt [] peerTft ∈ s.threads) :
    Move s (.reply conn tft bkt [] peerTft) ⟨s.tracker, [(conn, .sync peerTft)], some (.merge conn tft [])⟩ where
  wf := h.tracker_wf
  registered _ hc := hc
  stamp_le _ := le_rfl
  sent_ok _ _ hp := by cases List.mem_singleton.mp hp
  sent_le c p hp := by
    cases List.mem_singleton.mp hp
    exact h.table_le ht
  rest_ok := by rintro _ ⟨⟩ te hte; exact absurd hte List.not_mem_nil
  conn := by rintro _ ⟨⟩; rfl
  carried := by rintro _ ⟨⟩ te hte; exact hte
  table_le := by rintro _ ⟨⟩ te hte; exact absurd hte List.not_mem_nil
  merged te hte := .inr ⟨_, rfl, hte⟩
  kept := by
    rintro c f v ⟨hc, hv | ⟨hf | hf, -⟩⟩
    · obtain rfl : c = conn := hc
      exact .inr (.inl ⟨_, List.mem_singleton_self _, hv⟩)
    · exact absurd hf List.not_mem_nil
    · exact absurd (lt_of_le_of_lt hf (searchBucket f).isLt) hb
  raised _ _ := .inl rfl

theorem Move.compared (h : Settling s) {conn : ℤ} {tft peerTft : TransFileTable} {bkt : ℕ} {name : Name}
    {chain : List Name} {fe : FileEntry} (ht : .reply conn tft bkt (name :: chain) peerTft ∈ s.threads)
    (hfe : fileTableSearch s.tracker.ft name = some fe) (hno : syncReplyEntry tft fe = none) :
    Move s (.reply conn tft bkt (name :: chain) peerTft)
      ⟨s.tracker, [], some (.reply conn tft bkt chain peerTft)⟩ := by
  refine .quiet h trivial rfl rfl (fun te hte => h.table_le ht te hte) ?_
  rintro c f v ⟨hc, hv | ⟨hf, rfl⟩⟩
  · exact .inr ⟨hc, .inl hv⟩
  · by_cases hname : f = name
    · -- the client has this timestamp, or a later one
      left
      obtain rfl : c = conn := hc
      obtain ⟨te, hte, hten, hle⟩ := exists_of_syncReplyEntry hno
      have hup := (h.tracked c).up_le te.name te.timestamp (.inr ⟨_, ht, rfl, te, hte, rfl, rfl⟩)
      have hfn : te.name = f := by rw [hten, FileTable.search_name hfe, hname]
      rw [hname, FileTable.stamp_of_view (FileTable.view_of_search hfe), ← hname, ← hfn]
      exact le_trans (WithBot.coe_le_coe.mpr hle) hup
    · refine .inr ⟨hc, .inr ⟨hf.imp_left fun hf => ?_, rfl⟩⟩
      exact (List.mem_cons.mp hf).resolve_left hname

theorem Move.filled (h : Settling s) {t' : Thread} {name : Name} {fe : FileEntry} {opType : OperationType}
    (ht : t ∈ s.threads) (hfe : fileTableSearch s.tracker.ft name = some fe) (hok : t'.Ok s.tracker.ft.stamp)
    (hconn : t'.conn = t.conn) (hcarried : t'.carried = t.carried) (hreach : ∀ c, t.Reaches c → t'.Reaches c)
    (htable : t'.table = t.table ++ [{ transEntryFillFrom fe with opType := opType }])
    (hreads : ∀ f, t.Reads f → f = name ∨ t'.Reads f) : Move s t ⟨s.tracker, [], some t'⟩ := by
  have hstamp := FileTable.stamp_of_view (FileTable.view_of_search hfe)
  have hname := FileTable.search_name hfe
  refine .quiet h hok hconn hcarried ?_ ?_
  · intro te hte
    rw [htable] at hte
    rcases List.mem_append.mp hte with hte | hte
    · exact h.table_le ht te hte
    · obtain rfl := List.mem_singleton.mp hte
      show (fe.timestamp : WithBot ℕ) ≤ s.tracker.ft.stamp fe.name
      rw [hname, hstamp]
  · rintro c f v ⟨hc, hv | ⟨hf, rfl⟩⟩
    · refine .inr ⟨hreach c hc, .inl ?_⟩
      rw [htable]
      exact has_append.mpr (.inl hv)
    · right
      rcases hreads f hf with rfl | hf
      · refine ⟨hreach c hc, .inl ?_⟩
        rw [htable]
        exact has_append.mpr (.inr (has_singleton.mpr ⟨hname, hstamp.symm⟩))
      · exact ⟨hreach c hc, .inr ⟨hf, rfl⟩⟩

theorem mem_of_broadcast {t : Tracker} {tft : TransFileTable} {conn c : ℤ} {p : TtopPacket}
    (hp : (c, p) ∈ t.broadcast tft conn) : p = .broadcast tft :=
  (mem_packetsFor_broadcast.mp (mem_packetsFor.mpr hp)).1

theorem mem_broadcast {t : Tracker} {tft : TransFileTable} {conn c : ℤ} (hne : tft ≠ []) (hc : c ≠ conn)
    (hreg : t.Registered c) : (c, .broadcast tft) ∈ t.broadcast tft conn :=
  mem_packetsFor.mp (mem_packetsFor_broadcast.mpr ⟨rfl, hne, hc, hreg⟩)

theorem Move.registering (h : Settling s) {conn : ℤ} (peerid : PeerId) {t' : Tracker} {sent : List (ℤ × TtopPacket)}
    {rest : Option Thread} (htable : t.table = []) (hcarried : t.carried = []) (hreads : ∀ f, ¬ t.Reads f)
    (hconn : t.conn = conn) (hft : t'.ft = s.tracker.ft) (hreg : ∀ c, s.tracker.Registered c → t'.Registered c)
    (hsent : ∀ c p, (c, p) ∈ sent → ∃ ctrInfo, p = .accept ctrInfo) (hrest : ∀ r ∈ rest, r = .addPeer conn peerid) :
    Move s t ⟨t', sent, rest⟩ where
  wf := hft ▸ h.tracker_wf
  registered := hreg
  stamp_le f := by
    show _ ≤ t'.ft.stamp f
    rw [hft]
  sent_ok c tft hp := by
    obtain ⟨_, hp⟩ := hsent c _ hp
    cases hp
  sent_le c p hp := by
    obtain ⟨_, rfl⟩ := hsent c _ hp
    exact fun te hte => absurd hte List.not_mem_nil
  rest_ok r hr := by
    obtain rfl := hrest r hr
    trivial
  conn r hr := by
    obtain rfl := hrest r hr
    exact hconn.symm
  carried r hr te hte := by
    obtain rfl := hrest r hr
    exact absurd hte List.not_mem_nil
  table_le r hr te hte := by
    obtain rfl := hrest r hr
    exact absurd hte List.not_mem_nil
  merged te hte := absurd (hcarried ▸ hte) List.not_mem_nil
  kept c f v hv := by
    obtain ⟨-, hv | ⟨hf, -⟩⟩ := hv
    · exact absurd (htable ▸ hv) has_nil
    · exact absurd hf (hreads f)
  raised _ f := .inl (by
    show t'.ft.stamp f = _
    rw [hft])

theorem Settling.advance_merge (h : Settling s) {conn : ℤ} {tft broadTft : TransFileTable} {now : BitVec 64}
    {ctrInfo : TtopControlInfo} (ht : .merge conn tft broadTft ∈ s.threads)
    (ha : (Thread.merge conn tft broadTft).advance ctrInfo s.tracker now = some a) :
    Move s (.merge conn tft broadTft) a := by
  have htok : ∀ te ∈ broadTft, AddsOrModifies te := h.threads_ok _ ht
  cases tft with
  | nil =>
    obtain rfl := Option.some.inj ha
    exact .broadcast h ht (fun c p hp => mem_of_broadcast hp) (fun c hc hreg hne => mem_broadcast hne hc hreg) htok
      rfl fun _ => id
  | cons te tft =>
    rw [Thread.advance] at ha
    cases hfe : fileTableFind s.tracker.ft te with
    | none =>
      rw [hfe] at ha
      obtain rfl := Option.some.inj ha
      exact .quiet h htok rfl rfl (fun e he => h.table_le ht e he) fun _ _ _ hv => .inr hv
    | some fe =>
      rw [hfe] at ha
      obtain rfl := Option.some.inj ha
      have hstamp : s.tracker.ft.stamp te.name = fe.timestamp := FileTable.stamp_of_view (FileTable.view_of_search hfe)
      refine .quiet h ⟨fun ho => ?_, ?_, htok⟩ rfl rfl (fun e he => h.table_le ht e he) fun _ _ _ hv => .inr hv
      · rw [hstamp]
        exact WithBot.coe_le_coe.mpr (not_lt.mp (of_decide_eq_false ho))
      · rw [hstamp]
        exact WithBot.coe_ne_bot

/-- What the second loop of `sync_task` adds to the broadcast is news of the entry that it has merged. -/
theorem Settling.advance_merged (h : Settling s) {conn : ℤ} {te : TransFileEntry} {tft broadTft : TransFileTable}
    {ft : FileTable} {opType : OperationType} (ht : t ∈ s.threads) (hwf : ft.Wf)
    (hft : ft.stamp = raise s.tracker.ft.stamp te) (hconn : t.conn = conn) (hcarried : t.carried = te :: tft)
    (htable : t.table = broadTft) (hreads : ∀ f, ¬ t.Reads f) (hok : ∀ e ∈ broadTft, AddsOrModifies e)
    (hop : opType = .fileAdd ∨ opType = .fileModify) (hreach : ∀ c, t.Reaches c → c ≠ conn) :
    Move s t ⟨{ s.tracker with ft := ft }, [],
      some (.merge conn tft (broadTft ++ [{ te with opType := opType }]))⟩ := by
  refine .mergeIn h ht hwf hft ?_ hconn.symm hcarried hreads hreach (fun c hc => hconn ▸ hc) ?_ ?_ ?_
  · intro e he
    rcases List.mem_append.mp he with he | he
    · exact hok e he
    · obtain rfl := List.mem_singleton.mp he
      exact hop
  · intro e he
    exact List.mem_append_left _ (htable ▸ he)
  · intro e he
    rcases List.mem_append.mp he with he | he
    · exact .inl (htable ▸ he)
    · obtain rfl := List.mem_singleton.mp he
      exact .inr ⟨rfl, rfl⟩
  · exact fun _ => .inl (has_append.mpr (.inr (has_singleton.mpr ⟨rfl, rfl⟩)))

theorem Settling.advance_mergeUpdate (h : Settling s) {conn : ℤ} {te : TransFileEntry} {older : Bool}
    {tft broadTft : TransFileTable} (ht : .mergeUpdate conn te older tft broadTft ∈ s.threads) :
    Move s (.mergeUpdate conn te older tft broadTft) ⟨{ s.tracker with ft := (fileTableUpdate s.tracker.ft te).1 }, [],
      some (.merge conn tft (if older then broadTft ++ [{ te with opType := .fileModify }] else broadTft))⟩ := by
  obtain ⟨hnew, hknown, hok⟩ := h.threads_ok _ ht
  have hft : (fileTableUpdate s.tracker.ft te).1.stamp = raise s.tracker.ft.stamp te := FileTable.stamp_update hknown
  cases older with
  | true =>
    exact h.advance_merged ht (h.tracker_wf.update te) hft rfl rfl rfl (fun _ => id) hok (.inr rfl) fun _ hc => hc
  | false =>
    exact .mergeIn h ht (h.tracker_wf.update te) hft hok rfl rfl (fun _ => id) (fun _ hc => hc) (fun _ hc => hc)
      (fun _ he => he) (fun _ he => .inl he) fun hlt => absurd hlt (not_lt.mpr (hnew rfl))

theorem Settling.advance_update (h : Settling s) {conn : ℤ} {tft newTft : TransFileTable} {now : BitVec 64}
    {ctrInfo : TtopControlInfo} (ht : .update conn tft newTft ∈ s.threads)
    (hok : ∀ te ∈ tft.head?, te.opType = .fileModify → fileTableSearch s.tracker.ft te.name ≠ none)
    (ha : (Thread.update conn tft newTft).advance ctrInfo s.tracker now = some a) :
    Move s (.update conn tft newTft) a := by
  obtain ⟨htft, hnewTft⟩ := h.threads_ok _ ht
  cases tft with
  | nil =>
    obtain rfl := Option.some.inj ha
    refine .broadcast h ht (fun c p hp => ?_) (fun c hc hreg hne => ?_) hnewTft rfl fun _ => id
    · split_ifs at hp
      · exact mem_of_broadcast hp
      · cases hp
    · have hpos : newTft.length > 0 := List.length_pos_of_ne_nil hne
      rw [if_pos hpos]
      exact mem_broadcast hne hc hreg
  | cons te tft =>
    obtain ⟨hte, htft⟩ := List.forall_mem_cons.mp htft
    rcases hte with hop | hop
    · simp only [Thread.advance, hop] at ha
      obtain rfl := Option.some.inj ha
      exact .mergeIn h ht (h.tracker_wf.add te) (FileTable.stamp_add _ te) ⟨.inl rfl, htft, hnewTft⟩ rfl rfl
        (fun _ => id)
        (fun _ hc => hc) (fun _ hc => hc) (fun _ he => he) (fun _ he => .inl he) fun _ => .inr rfl
    · obtain ⟨fe, hfe⟩ := Option.ne_none_iff_exists'.mp (hok te rfl hop)
      have hfind : fileTableFind s.tracker.ft te = some fe := hfe
      simp only [Thread.advance, hop, hfind] at ha
      obtain rfl := Option.some.inj ha
      refine .quiet h ⟨?_, htft, hnewTft⟩ rfl rfl (fun e he => h.table_le ht e he) fun _ _ _ hv => .inr hv
      rw [FileTable.stamp_of_view (FileTable.view_of_search hfe)]
      exact WithBot.coe_ne_bot

/-- A step of a thread loses nothing. -/
theorem Settling.advance (h : Settling s) {i : ℕ} {now : BitVec 64} {ctrInfo : TtopControlInfo}
    (hi : s.threads[i]? = some t) (hok : Orderly s (.step i now)) (ha : t.advance ctrInfo s.tracker now = some a) :
    Move s t a := by
  have ht := List.mem_of_getElem? hi
  have htok := h.threads_ok t ht
  cases t with
  | register conn peerid =>
    obtain rfl := Option.some.inj ha
    refine .registering h peerid rfl rfl (fun _ => id) rfl rfl (fun _ hc => hc) ?_ ?_
    · intro c p hp
      cases List.mem_singleton.mp hp
      exact ⟨ctrInfo, rfl⟩
    · rintro _ ⟨⟩
      rfl
  | addPeer conn peerid =>
    obtain rfl := Option.some.inj ha
    refine .registering h peerid rfl rfl (fun _ => id) rfl rfl ?_ ?_ ?_
    · rintro c ⟨pe, hpe, hconn⟩
      exact ⟨pe, List.mem_cons_of_mem _ hpe, hconn⟩
    · exact fun _ _ hp => absurd hp List.not_mem_nil
    · exact fun _ hr => absurd hr.symm (Option.some_ne_none _)
  | reply conn tft bkt chain peerTft =>
    cases chain with
    | nil =>
      rw [Thread.advance] at ha
      split_ifs at ha with hb
      · obtain rfl := Option.some.inj ha
        exact .bucket h hb ht
      · obtain rfl := Option.some.inj ha
        exact .replySent h hb ht
    | cons name chain =>
      obtain ⟨fe, hfe, rfl⟩ := Option.map_eq_some_iff.mp ha
      cases hte : syncReplyEntry tft fe with
      | none => exact .compared h ht hfe hte
      | some te =>
        refine .quiet h trivial rfl rfl (fun te hte => h.table_le ht te hte) ?_
        rintro c f v ⟨hc, hv | ⟨hf, hv⟩⟩
        · exact .inr ⟨hc, .inl hv⟩
        · refine .inr ⟨hc, .inr ⟨?_, hv⟩⟩
          rcases hf with hf | hf
          · exact (List.mem_cons.mp hf).imp_right Or.inl
          · exact .inr (.inr hf)
  | replyFill conn tft name opType bkt chain peerTft =>
    obtain ⟨fe, hfe, rfl⟩ := Option.map_eq_some_iff.mp ha
    exact .filled h ht hfe trivial rfl rfl (fun _ hc => hc) rfl fun _ hf => hf
  | merge conn tft broadTft => exact h.advance_merge ht ha
  | mergeAdd conn te tft broadTft =>
    obtain rfl := Option.some.inj ha
    exact h.advance_merged ht (h.tracker_wf.add te) (FileTable.stamp_add _ te) rfl rfl rfl (fun _ => id) htok (.inl rfl)
      fun _ hc => hc
  | mergeUpdate conn te older tft broadTft =>
    obtain rfl := Option.some.inj ha
    exact h.advance_mergeUpdate ht
  | update conn tft newTft =>
    refine h.advance_update ht ?_ ha
    intro te hte
    simp only [Orderly, hi] at hok
    cases tft with
    | nil => cases hte
    | cons e tft =>
      obtain rfl := Option.some.inj hte
      exact hok
  | updateAdd conn te tft newTft => exact htok.elim
  | updateMerge conn te tft newTft =>
    obtain rfl := Option.some.inj ha
    obtain ⟨hknown, htft, hnewTft⟩ := htok
    have hwf : (s.tracker.ft.modify te.name fun fe => (fileEntryUpdate fe te).1).Wf :=
      h.tracker_wf.modify te.name fun fe => fileEntryUpdate_name fe te
    exact .mergeIn h ht hwf (stamp_modify_update hknown) ⟨.inr rfl, htft, hnewTft⟩ rfl rfl (fun _ => id)
      (fun _ hc => hc)
      (fun _ hc => hc) (fun _ he => he) (fun _ he => .inl he) fun _ => .inr rfl
  | updateFill conn name opType tft newTft =>
    obtain ⟨fe, hfe, rfl⟩ := Option.map_eq_some_iff.mp ha
    obtain ⟨hop, htft, hnewTft⟩ := htok
    refine .filled h ht hfe ⟨htft, ?_⟩ rfl rfl (fun _ hc => hc) rfl fun _ hf => .inl hf
    intro e he
    rcases List.mem_append.mp he with he | he
    · exact hnewTft e he
    · obtain rfl := List.mem_singleton.mp he
      exact hop

theorem Settling.skip (h : Settling s) {n : ℕ} (ht : t ∈ s.threads) (ha : t.skip s.tracker n = some a) : Move s t a := by
  unfold Thread.skip at ha
  split at ha
  · next conn tft bkt peerTft =>
    split_ifs at ha with hempty
    obtain rfl := Option.some.inj ha
    refine .quiet h trivial rfl rfl (fun te hte => h.table_le ht te hte) ?_
    rintro c f v ⟨hc, hv | ⟨hf | hf, rfl⟩⟩
    · exact .inr ⟨hc, .inl hv⟩
    · exact absurd hf List.not_mem_nil
    · by_cases hlt : bkt + n ≤ (searchBucket f).val
      · exact .inr ⟨hc, .inr ⟨.inr hlt, rfl⟩⟩
      · left
        obtain ⟨hb, hnil⟩ := hempty ((searchBucket f).val - bkt) (by omega)
        have hbucket : (⟨bkt + ((searchBucket f).val - bkt), hb⟩ : Fin HASH_SIZE) = searchBucket f :=
          Fin.ext (Nat.add_sub_cancel' hf)
        rw [hbucket] at hnil
        have hmem : f ∉ chainOf s.tracker.ft (searchBucket f) := by
          unfold chainOf
          rw [hnil]
          exact List.not_mem_nil
        rw [stamp_of_notMem_chain hmem]
        exact bot_le
  · cases ha

end Advance

end TeleSync.Threads
