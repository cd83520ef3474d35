import TeleSync.Sync.Joining

/-!
# Clients and tracker agree once nothing is under way

* `Cluster.unanswered` : the synchronisations of a client that it has no answer to yet;
* `ClientMove` : what a step of a client has to respect;
* `concurrent_threads_converge` : whenever nothing is under way, all clients that have scanned and have not failed have
  the tracker's names and timestamps.
-/

namespace TeleSync.Threads
open Transition Replication

/-! ## One answer for each synchronisation -/

def ClientPacket.asks : ClientPacket → Bool
  | .register _ => false
  | .sync _ => true
  | .update _ => false

/-- The thread has yet to send the `TRACKER_SYNC`. -/
def Thread.answers : Thread → Bool
  | .reply _ _ _ _ _ => true
  | .replyFill _ _ _ _ _ _ _ => true
  | _ => false

/-- It will send it to the client of `c`. -/
def Thread.answersTo (c : ℤ) (t : Thread) : Bool := t.conn = c && t.answers

def isAnswer : TtopPacket → Bool
  | .accept _ => false
  | .broadcast _ => false
  | .sync _ => true

/-- A client waits for at most one. -/
def ClientPhase.awaits : ClientPhase → ℕ
  | .waiting => 1
  | .failed => 1
  | _ => 0

/-- The synchronisations of a client on their way to the tracker, in a thread or on the way back. -/
def Cluster.unanswered (s : Cluster) (c : ℤ) : ℕ :=
  s.up.countP (fun u => u.1 = c && u.2.asks) + s.threads.countP (Thread.answersTo c) +
    (s.down c).countP isAnswer

/-- No client waits for an answer that it does not expect. -/
def Answered (s : Cluster) : Prop := ∀ c, s.unanswered c ≤ (s.phase c).awaits

section Answers
variable {s s' : Cluster} {c : ℤ}

theorem countP_packetsFor (c : ℤ) (ps : List (ℤ × TtopPacket)) (p : TtopPacket → Bool) :
    (packetsFor c ps).countP p = ps.countP fun u => p u.2 && u.1 == c := by
  rw [packetsFor, List.countP_map, List.countP_filter]
  rfl

/-- A thread hands the answer on at most once. -/
def Passes (t : Thread) (a : Advance) : Prop := ∀ c,
  a.rest.toList.countP (Thread.answersTo c) + (packetsFor c a.sent).countP isAnswer ≤
    [t].countP (Thread.answersTo c)

theorem countP_broadcast (t : Tracker) (tft : TransFileTable) (conn c : ℤ) :
    (packetsFor c (t.broadcast tft conn)).countP isAnswer = 0 := by
  rw [List.countP_eq_zero]
  intro p hp
  obtain ⟨rfl, -⟩ := mem_packetsFor_broadcast.mp hp
  exact Bool.false_ne_true

theorem Passes.silent {t t' : Thread} (tr : Tracker) (hconn : t'.conn = t.conn)
    (hans : t'.answers = true → t.answers = true) :
    Passes t ⟨tr, [], some t'⟩ := by
  intro c
  have hle : [t'].countP (Thread.answersTo c) ≤ [t].countP (Thread.answersTo c) := by
    rw [List.countP_singleton, List.countP_singleton, Thread.answersTo, Thread.answersTo, hconn]
    by_cases ha : t'.answers = true
    · rw [ha, hans ha]
    · simp [ha]
  exact (Nat.add_zero _).trans_le hle

theorem Passes.last {t : Thread} (tr : Tracker) {sent : List (ℤ × TtopPacket)}
    (hsent : ∀ c, (packetsFor c sent).countP isAnswer = 0) : Passes t ⟨tr, sent, none⟩ := by
  intro c
  show 0 + _ ≤ _
  rw [hsent]
  exact Nat.zero_le _

theorem passes_advance {ctrInfo : TtopControlInfo} {tr : Tracker} {now : BitVec 64} {t : Thread} {a : Advance}
    (ha : t.advance ctrInfo tr now = some a) : Passes t a := by
  cases t with
  | register conn peerid =>
    obtain rfl := Option.some.inj ha
    intro c
    simp [countP_packetsFor, Thread.answersTo, Thread.answers, isAnswer]
  | addPeer conn peerid =>
    obtain rfl := Option.some.inj ha
    exact .last _ fun _ => rfl
  | reply conn tft bkt chain peerTft =>
    cases chain with
    | nil =>
      rw [Thread.advance] at ha
      split_ifs at ha with hb
      · obtain rfl := Option.some.inj ha
        exact .silent tr rfl id
      · obtain rfl := Option.some.inj ha
        intro c
        by_cases hc : conn = c <;> simp [countP_packetsFor, Thread.answersTo, Thread.answers, Thread.conn, isAnswer, hc]
    | cons name chain =>
      obtain ⟨fe, hfe, rfl⟩ := Option.map_eq_some_iff.mp ha
      cases syncReplyEntry tft fe <;> exact .silent tr rfl id
  | replyFill conn tft name opType bkt chain peerTft =>
    obtain ⟨fe, hfe, rfl⟩ := Option.map_eq_some_iff.mp ha
    exact .silent tr rfl id
  | merge conn tft broadTft =>
    cases tft with
    | nil =>
      obtain rfl := Option.some.inj ha
      exact .last _ (countP_broadcast tr broadTft conn)
    | cons te tft =>
      rw [Thread.advance] at ha
      split at ha <;> obtain rfl := Option.some.inj ha <;> exact .silent tr rfl id
  | mergeAdd conn te tft broadTft =>
    obtain rfl := Option.some.inj ha
    exact .silent _ rfl id
  | mergeUpdate conn te older tft broadTft =>
    obtain rfl := Option.some.inj ha
    exact .silent _ rfl id
  | update conn tft newTft =>
    cases tft with
    | nil =>
      obtain rfl := Option.some.inj ha
      refine .last _ fun c => ?_
      split_ifs
      · exact countP_broadcast tr newTft conn c
      · rfl
    | cons te tft =>
      rw [Thread.advance] at ha
      split at ha
      case h_3 =>
        split at ha <;> obtain rfl := Option.some.inj ha <;> exact .silent tr rfl id
      all_goals
        obtain rfl := Option.some.inj ha
        exact .silent _ rfl id
  | updateAdd conn te tft newTft =>
    obtain rfl := Option.some.inj ha
    exact .silent _ rfl id
  | updateMerge conn te tft newTft =>
    obtain rfl := Option.some.inj ha
    exact .silent _ rfl id
  | updateFill conn name opType tft newTft =>
    obtain ⟨fe, hfe, rfl⟩ := Option.map_eq_some_iff.mp ha
    exact .silent tr rfl id

theorem passes_skip {tr : Tracker} {n : ℕ} {t : Thread} {a : Advance} (ha : t.skip tr n = some a) : Passes t a := by
  unfold Thread.skip at ha
  split at ha
  · split_ifs at ha
    obtain rfl := Option.some.inj ha
    exact .silent tr rfl id
  · cases ha

theorem Answered.moved (h : Answered s) {i : ℕ} {t : Thread} {a : Advance} (hi : s.threads[i]? = some t)
    (hp : Passes t a) : Answered (s.moved i a) := by
  intro c
  refine le_trans ?_ (h c)
  obtain ⟨hlt, rfl⟩ := List.getElem?_eq_some_iff.mp hi
  have hperm := (List.getElem_cons_eraseIdx_perm hlt).countP_eq (Thread.answersTo c)
  have hpass := hp c
  rw [← List.singleton_append, List.countP_append] at hperm
  simp only [Cluster.unanswered, Cluster.moved, List.countP_append]
  omega

theorem Answered.start (h : Answered s) {conn : ℤ} {p : ClientPacket} (hp : (conn, p) ∈ s.up) :
    Answered { s with up := s.up.erase (conn, p), threads := s.threads ++ [p.thread conn] } := by
  intro c
  refine le_trans ?_ (h c)
  have hperm := (List.perm_cons_erase hp).countP_eq fun u => u.1 = c && u.2.asks
  have hthread : [p.thread conn].countP (Thread.answersTo c) =
      [(conn, p)].countP fun u : ℤ × ClientPacket => u.1 = c && u.2.asks := by
    cases p <;> rfl
  rw [← List.singleton_append, List.countP_append] at hperm
  simp only [Cluster.unanswered, List.countP_append]
  omega

theorem Answered.at_client (h : Answered s) (conn : ℤ) (sent : List ClientPacket) (taken : List TtopPacket)
    (hup : s'.up = s.up ++ sent.map fun p => (conn, p)) (hthreads : s'.threads = s.threads)
    (hdown : s.down conn = taken ++ s'.down conn) (hothers : ∀ c ≠ conn, s'.down c = s.down c ∧ s'.phase c = s.phase c)
    (hphase : (s.phase conn).awaits + sent.countP ClientPacket.asks ≤
      (s'.phase conn).awaits + taken.countP isAnswer) : Answered s' := by
  intro c
  have hold := h c
  unfold Cluster.unanswered at hold ⊢
  rw [hup, hthreads, List.countP_append, List.countP_map]
  by_cases hc : c = conn
  · subst hc
    rw [hdown, List.countP_append] at hold
    have hsent : sent.countP ((fun u : ℤ × ClientPacket => u.1 = c && u.2.asks) ∘ fun p => (c, p)) =
        sent.countP ClientPacket.asks := by
      apply List.countP_congr
      simp
    omega
  · have hsent : sent.countP ((fun u : ℤ × ClientPacket => u.1 = c && u.2.asks) ∘ fun p => (conn, p)) = 0 := by
      apply List.countP_eq_zero.mpr
      intro p _
      simp [Ne.symm hc]
    rw [(hothers c hc).1, (hothers c hc).2]
    omega

end Answers

/-! ## Steps of clients -/

/-- What a step of the client of `conn` has to respect. -/
structure ClientMove (s s' : Cluster) (conn : ℤ) : Prop where
  tracker : s'.tracker = s.tracker
  threads : s'.threads = s.threads
  others : ∀ c ≠ conn, (∀ p, (c, p) ∈ s'.up ↔ (c, p) ∈ s.up) ∧ s'.down c = s.down c ∧ s'.phase c = s.phase c ∧
    s'.peerFt c = s.peerFt c
  up_ok : ∀ tft, (conn, .update tft) ∈ s'.up → (conn, .update tft) ∈ s.up ∨ ∀ te ∈ tft, AddsOrModifies te
  down_ok : ∀ p ∈ s'.down conn, p ∈ s.down conn
  wf : (s'.peerFt conn).Wf
  handling_ok : ∀ tft, s'.phase conn = .handling tft → ∀ te ∈ tft, AddsOrModifies te
  unscanned : s'.phase conn = .absent ∨ s'.phase conn = .connecting ∨ s'.phase conn = .accepted →
    s'.peerFt conn = fileTableInit
  pending : s.Pending conn → s'.Pending conn
  advances : Advances s.hub s'.hub conn

section ClientMoves
variable {s s' : Cluster} {conn : ℤ}

theorem ClientMove.advances_other (h : ClientMove s s' conn) {c : ℤ} (hc : c ≠ conn) : Advances s.hub s'.hub c := by
  obtain ⟨hup, hdown, hphase, hft⟩ := h.others c hc
  refine .of_iff ?_ ?_ (fun f v => ?_) fun f v => ?_
  · show s'.tracker.ft.stamp = s.tracker.ft.stamp
    rw [h.tracker]
  · show (s'.peerFt c).stamp = (s.peerFt c).stamp
    rw [hft]
  · simp only [Cluster.hub, hup, h.threads]
  · simp only [Cluster.hub, Cluster.Pending, hdown, hphase, h.threads, h.tracker, hup]

theorem Settling.at_client (h : Settling s) (conn : ℤ) (hm : ClientMove s s' conn) : Settling s' where
  tracker_wf := hm.tracker ▸ h.tracker_wf
  peer_wf c := by
    by_cases hc : c = conn
    · exact hc ▸ hm.wf
    · rw [(hm.others c hc).2.2.2]
      exact h.peer_wf c
  threads_ok t ht := by
    rw [hm.tracker]
    exact h.threads_ok t (hm.threads ▸ ht)
  up_ok c tft hp := by
    by_cases hc : c = conn
    · subst hc
      exact (hm.up_ok tft hp).elim (h.up_ok c tft) id
    · exact h.up_ok c tft (((hm.others c hc).1 _).mp hp)
  down_ok c tft hp := by
    by_cases hc : c = conn
    · subst hc
      exact h.down_ok c tft (hm.down_ok _ hp)
    · exact h.down_ok c tft ((hm.others c hc).2.1 ▸ hp)
  handling_ok c tft hp := by
    by_cases hc : c = conn
    · subst hc
      exact hm.handling_ok tft hp
    · exact h.handling_ok c tft ((hm.others c hc).2.2.1 ▸ hp)
  unscanned c hp := by
    by_cases hc : c = conn
    · subst hc
      exact hm.unscanned hp
    · rw [(hm.others c hc).2.2.2]
      exact h.unscanned c ((hm.others c hc).2.2.1 ▸ hp)
  member c := by
    rw [hm.tracker]
    refine (h.member c).imp_left fun hp => ?_
    by_cases hc : c = conn
    · subst hc
      exact hm.pending hp
    · refine hp.imp (fun hp => ?_) fun ⟨tft, hp⟩ => ⟨tft, ((hm.others c hc).1 _).mpr hp⟩
      rwa [(hm.others c hc).2.2.1]
  tracked c := by
    by_cases hc : c = conn
    · subst hc
      exact (h.tracked c).advance hm.advances
    · exact (h.tracked c).advance (hm.advances_other hc)

/-- The client has gone on to `phase` with table `ft` and sent packets. -/
def Cluster.after (s : Cluster) (conn : ℤ) (phase : ClientPhase) (ft : FileTable) (sent : List ClientPacket)
    (myIp : ℤ → UInt32) : Cluster :=
  { s with
    up := s.up ++ sent.map fun p => (conn, p)
    phase := Function.update s.phase conn phase
    peerFt := Function.update s.peerFt conn ft
    myIp := myIp }

theorem Settling.after (h : Settling s) (conn : ℤ) (phase : ClientPhase) (ft : FileTable) (sent : List ClientPacket)
    (myIp : ℤ → UInt32) (hwf : ft.Wf) (hhand : (s.phase conn).atHand = phase.atHand)
    (hok : ∀ tft, .update tft ∈ sent → ∀ te ∈ tft, AddsOrModifies te)
    (hhandling : ∀ tft, phase = .handling tft → s.phase conn = .handling tft)
    (hjoined : ¬ (s.phase conn).Joined → ¬ phase.Joined ∨ ∃ tft, .sync tft ∈ sent)
    (hinit : phase = .absent ∨ phase = .connecting ∨ phase = .accepted → ft = fileTableInit)
    (hle : ∀ f, (s.peerFt conn).stamp f ≤ ft.stamp f)
    (hsent : ∀ p ∈ sent, ∀ te ∈ p.carried, (te.timestamp : WithBot ℕ) ≤ ft.stamp te.name)
    (hnew : ∀ f, ft.stamp f = (s.peerFt conn).stamp f ∨ ∃ p ∈ sent, Has p.carried f (ft.stamp f)) :
    Settling (s.after conn phase ft sent myIp) := by
  have hphase : (s.after conn phase ft sent myIp).phase conn = phase := Function.update_self _ _ _
  have hft : (s.after conn phase ft sent myIp).peerFt conn = ft := Function.update_self _ _ _
  have hpending : s.Pending conn → (s.after conn phase ft sent myIp).Pending conn := by
    unfold Cluster.Pending
    rw [hphase]
    rintro (hp | ⟨tft, hp⟩)
    · exact (hjoined hp).imp_right fun ⟨tft, hp⟩ => ⟨tft, List.mem_append_right _ (List.mem_map_of_mem hp)⟩
    · exact .inr ⟨tft, List.mem_append_left _ hp⟩
  refine h.at_client conn ⟨rfl, rfl, fun c hc => ⟨fun p => ?_, rfl, Function.update_of_ne hc _ _,
    Function.update_of_ne hc _ _⟩, fun tft hp => ?_, fun _ hp => hp, ?_, fun tft hp => ?_, fun hp => ?_, hpending, ?_⟩
  · simp [Cluster.after, Ne.symm hc]
  · rcases List.mem_append.mp hp with hp | hp
    · exact .inl hp
    · obtain ⟨q, hq, heq⟩ := List.mem_map.mp hp
      cases heq
      exact .inr (hok tft hq)
  · rw [hft]
    exact hwf
  · exact h.handling_ok conn tft (hhandling tft (hphase ▸ hp))
  · rw [hft]
    exact hinit (hphase ▸ hp)
  constructor
  · exact fun _ => le_rfl
  · intro f
    show _ ≤ ((s.after conn phase ft sent myIp).peerFt conn).stamp f
    rw [hft]
    exact hle f
  · rintro f v (⟨p, hp, hv⟩ | hv)
    · rcases List.mem_append.mp hp with hp | hp
      · exact .inl (.inl ⟨p, hp, hv⟩)
      · right
        obtain ⟨q, hq, heq⟩ := List.mem_map.mp hp
        cases heq
        obtain ⟨te, hte, rfl, rfl⟩ := hv
        show _ ≤ ((s.after conn phase ft sent myIp).peerFt conn).stamp te.name
        rw [hft]
        exact hsent _ hq te hte
    · exact .inl (.inr hv)
  · rintro f v (hv | hv | hv | ⟨-, rfl⟩)
    · exact .inl (.inl hv)
    · rw [hphase, ← hhand] at hv
      exact .inl (.inr (.inl hv))
    · exact .inl (.inr (.inr (.inl hv)))
    · exact .inr le_rfl
  · rintro f v (⟨p, hp, hv⟩ | hv)
    · exact .inr (.inl ⟨p, List.mem_append_left _ hp, hv⟩)
    · exact .inr (.inr hv)
  · rintro f v (hv | hv | hv | ⟨hp, hv⟩)
    · exact .inr ⟨v, le_rfl, .inl hv⟩
    · refine .inr ⟨v, le_rfl, .inr (.inl ?_)⟩
      rw [hphase, ← hhand]
      exact hv
    · exact .inr ⟨v, le_rfl, .inr (.inr (.inl hv))⟩
    · exact .inr ⟨v, le_rfl, .inr (.inr (.inr ⟨hpending hp, hv⟩))⟩
  · intro f
    show ((s.after conn phase ft sent myIp).peerFt conn).stamp f = _ ∨ _
    rw [hft]
    rcases hnew f with heq | ⟨p, hp, hv⟩
    · exact .inl heq
    · refine .inr (.inr (.inl ⟨p, List.mem_append_right _ (List.mem_map_of_mem hp), ?_⟩))
      show Has p.carried f (((s.after conn phase ft sent myIp).peerFt conn).stamp f)
      rw [hft]
      exact hv
  · exact fun _ => .inl rfl

theorem Settling.connect (h : Settling s) (ip : UInt32) (hp : s.phase conn = .absent) : Settling (s.connect conn ip) := by
  have heq : s.connect conn ip = s.after conn .connecting (s.peerFt conn) [.register ⟨ip, P2P_PORT⟩]
      (Function.update s.myIp conn ip) := by
    unfold Cluster.connect Cluster.after
    rw [Function.update_eq_self]
    rfl
  rw [heq]
  refine h.after conn _ _ _ _ (h.peer_wf conn) ?_ ?_ ?_ (fun _ => .inl id) (fun _ => h.unscanned conn (.inl hp))
    (fun _ => le_rfl) ?_
    fun _ => .inl rfl
  · rw [hp]
    rfl
  · intro tft ht
    cases List.mem_singleton.mp ht
  · exact fun _ ht => nomatch ht
  · intro p hp te hte
    rw [List.mem_singleton.mp hp] at hte
    cases hte

theorem Settling.scan (h : Settling s) {ft : FileTable} (hwf : ft.Wf) (hp : s.phase conn = .accepted) :
    Settling (s.scan conn ft) := by
  have hinit := h.unscanned conn (.inr (.inr hp))
  have hbot : ∀ f, (s.peerFt conn).stamp f = ⊥ := by
    intro f
    rw [hinit]
    rfl
  have hentry : ∀ te ∈ transTableFillFrom ft, (te.timestamp : WithBot ℕ) = ft.stamp te.name := by
    intro te hte
    obtain ⟨fe, hfe, rfl⟩ := List.mem_map.mp hte
    exact (FileTable.stamp_of_view (FileTable.view_of_search (hwf.mem_entries.mp hfe))).symm
  refine h.after conn .waiting ft [.sync (transTableFillFrom ft)] s.myIp hwf ?_ ?_ ?_
    (fun _ => .inr ⟨_, List.mem_singleton_self _⟩) ?_ ?_ ?_ ?_
  · rw [hp]
    rfl
  · intro tft ht
    cases List.mem_singleton.mp ht
  · exact fun _ ht => nomatch ht
  · rintro (h | h | h) <;> cases h
  · intro f
    rw [hbot]
    exact bot_le
  · intro p hp te hte
    rw [List.mem_singleton.mp hp] at hte
    exact (hentry te hte).le
  · intro f
    cases hs : fileTableSearch ft f with
    | none =>
      left
      rw [hbot]
      exact FileTable.stamp_eq_bot.mpr (FileTable.view_eq_none.mpr hs)
    | some fe =>
      right
      have hname := FileTable.search_name hs
      have hmem : transEntryFillFrom fe ∈ transTableFillFrom ft :=
        List.mem_map_of_mem (hwf.mem_entries.mpr (hname.symm ▸ hs))
      exact ⟨_, List.mem_singleton_self _, _, hmem, hname, hname ▸ hentry _ hmem⟩

theorem LocalNews.stamp {ft : FileTable} {tft : TransFileTable} (h : LocalNews ft tft) :
    (tft.foldl eventTableUpdate ft).stamp = raiseAll ft.stamp tft ∧ ∀ te ∈ tft, AddsOrModifies te := by
  induction tft generalizing ft with
  | nil => exact ⟨rfl, fun _ hte => absurd hte List.not_mem_nil⟩
  | cons te tft ih =>
    obtain ⟨hte, htft⟩ := h
    obtain ⟨hstamp, hok⟩ := ih htft
    have hstep : (eventTableUpdate ft te).stamp = raise ft.stamp te := by
      unfold eventTableUpdate
      rcases hte with hop | ⟨hop, hknown⟩
      · rw [hop]
        exact FileTable.stamp_add ft te
      · rw [hop]
        exact FileTable.stamp_update (mt (fun hb => FileTable.view_eq_none.mp (FileTable.stamp_eq_bot.mp hb)) hknown)
    constructor
    · rw [List.foldl_cons, hstamp, hstep]
      rfl
    · exact List.forall_mem_cons.mpr ⟨hte.imp_right And.left, hok⟩

theorem Settling.report (h : Settling s) {tft : TransFileTable} (hp : (s.phase conn).Joined)
    (hnews : LocalNews (s.peerFt conn) tft) : Settling (s.report conn tft) := by
  obtain ⟨hstamp, hok⟩ := hnews.stamp
  refine h.after conn (s.phase conn) _ [.update tft] s.myIp (foldl_eventTableUpdate_wf (h.peer_wf conn) tft) rfl ?_
    (fun _ ht => ht)
    (fun hn => absurd hp hn) ?_ ?_ ?_ ?_
  · intro t ht
    obtain rfl := ClientPacket.update.inj (List.mem_singleton.mp ht)
    exact hok
  · rintro (hph | hph | hph) <;> rw [hph] at hp <;> exact hp.elim
  · intro f
    rw [hstamp]
    exact le_raiseAll _ tft f
  · intro p hp te hte
    rw [List.mem_singleton.mp hp] at hte
    rw [hstamp]
    exact mem_le_raiseAll _ hte
  · intro f
    rw [hstamp]
    refine (raiseAll_attained _ tft f).imp_right fun ⟨te, hte, hname, hts⟩ => ?_
    exact ⟨_, List.mem_singleton_self _, te, hte, hname, hts.symm⟩

theorem Settling.announce (h : Settling s) {fe : FileEntry} (hp : (s.phase conn).Joined)
    (hfe : fileTableSearch (s.peerFt conn) fe.name = some fe) : Settling (s.announce conn fe) := by
  have heq : s.announce conn fe = s.after conn (s.phase conn) (s.peerFt conn)
      [.update [⟨fe.name, fe.timestamp, .fileModify, fe.type, [⟨s.myIp conn, P2P_PORT⟩]⟩]] s.myIp := by
    unfold Cluster.announce Cluster.after Cluster.send
    rw [Function.update_eq_self, Function.update_eq_self]
    rfl
  rw [heq]
  refine h.after conn _ _ _ _ (h.peer_wf conn) rfl ?_ (fun _ ht => ht) (fun hn => absurd hp hn) (h.unscanned conn)
    (fun _ => le_rfl) ?_
    fun _ => .inl rfl
  · intro tft ht te hte
    obtain rfl := ClientPacket.update.inj (List.mem_singleton.mp ht)
    rw [List.mem_singleton.mp hte]
    exact .inr rfl
  · intro p hp te hte
    rw [List.mem_singleton.mp hp] at hte
    rw [List.mem_singleton.mp hte]
    exact (FileTable.stamp_of_view (FileTable.view_of_search hfe)).ge

theorem Settling.entry (h : Settling s) {te : TransFileEntry} {phase : ClientPhase} {ft : FileTable}
    (hhand : (s.phase conn).atHand = te :: phase.atHand) (hjoined : (s.phase conn).Joined) (hjoined' : phase.Joined)
    (hhandling : ∀ tft, phase = .handling tft → ∀ te ∈ tft, AddsOrModifies te) (hwf : ft.Wf)
    (hft : ft.stamp = raise (s.peerFt conn).stamp te) : Settling (s.client conn phase ft) := by
  have hphase : (s.client conn phase ft).phase conn = phase := Function.update_self _ _ _
  have hpeer : (s.client conn phase ft).peerFt conn = ft := Function.update_self _ _ _
  have hknown : (te.timestamp : WithBot ℕ) ≤ s.tracker.ft.stamp te.name := by
    refine (h.tracked conn).down_le _ _ (.inr (.inl ⟨te, ?_, rfl, rfl⟩))
    rw [hhand]
    exact List.mem_cons_self
  have hpending : s.Pending conn → (s.client conn phase ft).Pending conn :=
    fun hp => .inr (hp.resolve_left (not_not.mpr hjoined))
  refine h.at_client conn ⟨rfl, rfl, fun c hc => ⟨fun _ => Iff.rfl, rfl, Function.update_of_ne hc _ _,
    Function.update_of_ne hc _ _⟩, fun tft hp => .inl hp, fun _ hp => hp, ?_, ?_, fun hp => ?_, hpending, ?_⟩
  · rw [hpeer]
    exact hwf
  · rw [hphase]
    exact hhandling
  · rw [hphase] at hp
    rcases hp with rfl | rfl | rfl <;> exact hjoined'.elim
  constructor
  · exact fun _ => le_rfl
  · intro f
    show _ ≤ ((s.client conn phase ft).peerFt conn).stamp f
    rw [hpeer, hft]
    exact le_raise _ te f
  · exact fun _ _ hv => .inl hv
  · rintro f v (hv | hv | hv | ⟨-, rfl⟩)
    · exact .inl (.inl hv)
    · refine .inl (.inr (.inl ?_))
      rw [hphase] at hv
      rw [hhand]
      exact has_cons.mpr (.inr hv)
    · exact .inl (.inr (.inr (.inl hv)))
    · exact .inr le_rfl
  · exact fun _ _ hv => .inr hv
  · rintro f v (hv | hv | hv | ⟨hp, hv⟩)
    · exact .inr ⟨v, le_rfl, .inl hv⟩
    · rw [hhand] at hv
      rcases has_cons.mp hv with ⟨rfl, rfl⟩ | hv
      · left
        show _ ≤ ((s.client conn phase ft).peerFt conn).stamp te.name
        rw [hpeer, hft]
        exact raise_self_ge _ te
      · refine .inr ⟨v, le_rfl, .inr (.inl ?_)⟩
        rw [hphase]
        exact hv
    · exact .inr ⟨v, le_rfl, .inr (.inr (.inl hv))⟩
    · exact .inr ⟨v, le_rfl, .inr (.inr (.inr ⟨hpending hp, hv⟩))⟩
  · intro f
    show ((s.client conn phase ft).peerFt conn).stamp f = _ ∨ ((s.client conn phase ft).peerFt conn).stamp f ≤ _ ∨ _
    rw [hpeer, hft]
    by_cases hf : f = te.name
    · subst hf
      rw [raise_self]
      rcases max_choice ((s.peerFt conn).stamp te.name) (te.timestamp : WithBot ℕ) with hm | hm
      · exact .inl hm
      · rw [hm]
        exact .inr (.inl hknown)
    · exact .inl (raise_of_ne _ hf)
  · exact fun _ => .inl rfl

/-- The client has read a packet. What it does not take up is for a client that has not joined. -/
theorem Settling.reads (h : Settling s) {p : TtopPacket} {rest : List TtopPacket} {phase : ClientPhase}
    (hdown : s.down conn = p :: rest) (hhand : (s.phase conn).atHand = [])
    (hkept : ∀ f v, Has (carriedTable p) f v → Has phase.atHand f v ∨ ¬ phase.Joined)
    (hsound : ∀ f v, Has phase.atHand f v → Has (carriedTable p) f v)
    (hjoined : ¬ (s.phase conn).Joined → ¬ phase.Joined) (hhandling : ∀ tft, phase = .handling tft → p = .broadcast tft)
    (hinit : phase = .absent ∨ phase = .connecting ∨ phase = .accepted → s.peerFt conn = fileTableInit) :
    Settling ((s.read conn rest).client conn phase (s.peerFt conn)) := by
  set s' := (s.read conn rest).client conn phase (s.peerFt conn) with hs'
  have hphase : s'.phase conn = phase := Function.update_self _ _ _
  have hpeer : s'.peerFt conn = s.peerFt conn := Function.update_self _ _ _
  have hrest : s'.down conn = rest := Function.update_self _ _ _
  have hfirst : p ∈ s.down conn := hdown ▸ List.mem_cons_self
  have hpending : s.Pending conn → s'.Pending conn := by
    refine fun hp => hp.imp_left fun hn => ?_
    rw [hphase]
    exact hjoined hn
  refine h.at_client conn ⟨rfl, rfl, fun c hc => ⟨fun _ => Iff.rfl, Function.update_of_ne hc _ _,
    Function.update_of_ne hc _ _, Function.update_of_ne hc _ _⟩, fun tft hp => .inl hp, fun q hq => ?_, ?_, fun tft hp => ?_,
    fun hp => ?_, hpending, ?_⟩
  · rw [hrest] at hq
    exact hdown ▸ List.mem_cons_of_mem p hq
  · rw [hpeer]
    exact h.peer_wf conn
  · rw [hphase] at hp
    obtain rfl := hhandling tft hp
    exact h.down_ok conn tft hfirst
  · rw [hpeer]
    exact hinit (hphase ▸ hp)
  constructor
  · exact fun _ => le_rfl
  · intro f
    show _ ≤ (s'.peerFt conn).stamp f
    rw [hpeer]
    rfl
  · exact fun _ _ hv => .inl hv
  · rintro f v (⟨q, hq, hv⟩ | hv | hv | ⟨-, rfl⟩)
    · rw [hrest] at hq
      exact .inl (.inl ⟨q, hdown ▸ List.mem_cons_of_mem p hq, hv⟩)
    · rw [hphase] at hv
      exact .inl (.inl ⟨p, hfirst, hsound f v hv⟩)
    · exact .inl (.inr (.inr (.inl hv)))
    · exact .inr le_rfl
  · exact fun _ _ hv => .inr hv
  · rintro f v (⟨q, hq, hv⟩ | hv | hv | ⟨hp, hv⟩)
    · rcases List.mem_cons.mp (hdown ▸ hq) with rfl | hq'
      · rcases hkept f v hv with hv' | hn
        · refine .inr ⟨v, le_rfl, .inr (.inl ?_)⟩
          rw [hphase]
          exact hv'
        · -- the client will get everything once its synchronisation has started
          refine .inr ⟨s.tracker.ft.stamp f, (h.tracked conn).down_le f v (.inl ⟨q, hq, hv⟩), .inr (.inr (.inr ⟨.inl ?_, rfl⟩))⟩
          rw [hphase]
          exact hn
      · exact .inr ⟨v, le_rfl, .inl ⟨q, hrest.symm ▸ hq', hv⟩⟩
    · rw [hhand] at hv
      exact absurd hv has_nil
    · exact .inr ⟨v, le_rfl, .inr (.inr (.inl hv))⟩
    · exact .inr ⟨v, le_rfl, .inr (.inr (.inr ⟨hpending hp, hv⟩))⟩
  · intro f
    left
    show (s'.peerFt conn).stamp f = _
    rw [hpeer]
    rfl
  · exact fun _ => .inl rfl

/-- The client reads on: what `take` makes of a packet, where it is one that the client may get. -/
theorem Settling.takes (h : Settling s) (ha : Answered s) {p : TtopPacket} {rest : List TtopPacket}
    {phase : ClientPhase}
    (hdown : s.down conn = p :: rest) (htake : (s.phase conn).take p = some phase) :
    Settling ((s.read conn rest).client conn phase (s.peerFt conn)) ∧
      Answered ((s.read conn rest).client conn phase (s.peerFt conn)) := by
  have hanswered : (s.phase conn).awaits ≤ phase.awaits + [p].countP isAnswer →
      Answered ((s.read conn rest).client conn phase (s.peerFt conn)) := by
    intro hle
    refine ha.at_client conn [] [p] (List.append_nil _).symm rfl ?_
      (fun c hc => ⟨Function.update_of_ne hc _ _, Function.update_of_ne hc _ _⟩) ?_
    · exact hdown.trans (congrArg (p :: ·) (Function.update_self conn rest s.down).symm)
    · exact hle.trans_eq (congrArg (fun q : ClientPhase => q.awaits + _) (Function.update_self conn phase s.phase).symm)
  have hfresh := h.unscanned conn
  cases hp : s.phase conn with
  | absent => rw [hp] at htake; cases htake
  | accepted => rw [hp] at htake; cases htake
  | failed => rw [hp] at htake; cases htake
  | syncing tft => rw [hp] at htake; cases htake
  | handling tft => rw [hp] at htake; cases htake
  | connecting =>
    rw [hp] at htake hanswered hfresh
    have hphase : phase = .accepted ∨ phase = .failed := by
      cases p <;> obtain rfl := Option.some.inj htake
      · exact .inl rfl
      · exact .inr rfl
      · exact .inr rfl
    refine ⟨h.reads hdown ?_ (fun _ _ _ => .inr ?_) ?_ (fun _ => ?_) ?_ ?_, hanswered (Nat.zero_le _)⟩
    · rw [hp]
      rfl
    · rcases hphase with rfl | rfl <;> exact id
    · rcases hphase with rfl | rfl <;> exact fun _ _ hv => absurd hv has_nil
    · rcases hphase with rfl | rfl <;> exact id
    · rcases hphase with rfl | rfl <;> exact fun _ ht => nomatch ht
    · exact fun _ => hfresh (.inr (.inl rfl))
  | waiting =>
    rw [hp] at htake hanswered
    cases p with
    | sync tft =>
      obtain rfl := Option.some.inj htake
      refine ⟨h.reads hdown ?_ (fun _ _ hv => .inl hv) (fun _ _ hv => hv) ?_ (fun _ ht => nomatch ht) ?_,
        hanswered le_rfl⟩
      · rw [hp]
        rfl
      · rw [hp]
        exact fun hn => absurd trivial hn
      · rintro (hq | hq | hq) <;> cases hq
    | _ =>
      obtain rfl := Option.some.inj htake
      refine ⟨h.reads hdown ?_ (fun _ _ _ => .inr id) (fun _ _ hv => absurd hv has_nil) (fun _ => id)
        (fun _ ht => nomatch ht) ?_, hanswered (Nat.le_add_right _ _)⟩
      · rw [hp]
        rfl
      · rintro (hq | hq | hq) <;> cases hq
  | running =>
    rw [hp] at htake hanswered
    have hjoined : ¬ (s.phase conn).Joined → ¬ phase.Joined := by
      rw [hp]
      exact fun hn => absurd trivial hn
    have hhand : (s.phase conn).atHand = [] := by
      rw [hp]
      rfl
    cases p with
    | accept ctrInfo =>
      obtain rfl := Option.some.inj htake
      refine ⟨h.reads hdown hhand (fun _ _ hv => .inl hv) (fun _ _ hv => hv) hjoined (fun _ ht => nomatch ht) ?_,
        hanswered (Nat.zero_le _)⟩
      rintro (hq | hq | hq) <;> cases hq
    | broadcast tft =>
      obtain rfl := Option.some.inj htake
      refine ⟨h.reads hdown hhand (fun _ _ hv => .inl hv) (fun _ _ hv => hv) hjoined ?_ ?_, hanswered (Nat.zero_le _)⟩
      · rintro _ ⟨⟩
        rfl
      · rintro (hq | hq | hq) <;> cases hq
    | sync tft =>
      -- the only answer has been read
      have hcount := ha conn
      rw [hp, Cluster.unanswered, hdown] at hcount
      have hone : (TtopPacket.sync tft :: rest).countP isAnswer = rest.countP isAnswer + 1 :=
        List.countP_cons_of_pos rfl
      rw [hone] at hcount
      exact absurd hcount (by simp [ClientPhase.awaits])

theorem Answered.entry (ha : Answered s) {phase : ClientPhase} (ft : FileTable)
    (hphase : (s.phase conn).awaits ≤ phase.awaits) : Answered (s.client conn phase ft) := by
  refine ha.at_client conn [] [] (List.append_nil _).symm rfl rfl
    (fun c hc => ⟨rfl, Function.update_of_ne hc _ _⟩) ?_
  exact hphase.trans_eq (congrArg ClientPhase.awaits (Function.update_self conn phase s.phase).symm)

theorem Settling.receive (h : Settling s) (ha : Answered s) (hr : s.receive conn = some s') :
    Settling s' ∧ Answered s' := by
  have hdone : ∀ ft, s.peerFt conn = ft → (s.phase conn).Joined → (s.phase conn).atHand = [] →
      (s.phase conn).awaits = 0 → Settling (s.client conn .running ft) ∧ Answered (s.client conn .running ft) := by
    rintro _ rfl hjoined hhand hawaits
    have hsettling := h.after conn .running (s.peerFt conn) [] s.myIp (h.peer_wf conn) hhand
      (fun _ ht => absurd ht List.not_mem_nil) (fun _ ht => by cases ht) (fun hn => absurd hjoined hn)
      (by rintro (hq | hq | hq) <;> cases hq) (fun _ => le_rfl)
        (fun _ hp => absurd hp List.not_mem_nil) fun _ => .inl rfl
    have heq : s.after conn .running (s.peerFt conn) [] s.myIp = s.client conn .running (s.peerFt conn) := by
      unfold Cluster.after Cluster.client
      rw [List.map_nil, List.append_nil]
    exact ⟨heq ▸ hsettling, ha.entry _ (hawaits.trans_le (Nat.zero_le _))⟩
  unfold Cluster.receive at hr
  split at hr
  · next te tft hp =>
    obtain rfl := Option.some.inj hr
    refine ⟨h.entry ?_ ?_ trivial (fun _ ht => by cases ht) (wf_receive _ (h.peer_wf conn) te) (stamp_receive _ _ te),
      ha.entry _ ?_⟩ <;> rw [hp]
    · rfl
    · trivial
    · exact le_rfl
  · next hp =>
    rw [hp] at hdone
    obtain rfl := Option.some.inj hr
    exact hdone _ rfl trivial rfl rfl
  · next te tft hp =>
    have hok := h.handling_ok conn _ hp
    obtain rfl := Option.some.inj hr
    obtain ⟨hte, htft⟩ := List.forall_mem_cons.mp hok
    refine ⟨h.entry ?_ ?_ trivial ?_ (wf_broadcastEntryHandler _ (h.peer_wf conn) te) (stamp_broadcast_set _ _ hte),
      ha.entry _ ?_⟩
    · rw [hp]
      rfl
    · rw [hp]
      trivial
    · rintro _ ⟨⟩
      exact htft
    · rw [hp]
      exact le_rfl
  · next hp =>
    rw [hp] at hdone
    obtain rfl := Option.some.inj hr
    exact hdone _ rfl trivial rfl rfl
  · split at hr
    · cases hr
    · next p rest hd =>
      obtain ⟨phase', htake, rfl⟩ := Option.map_eq_some_iff.mp hr
      exact h.takes ha hd htake

end ClientMoves

/-! ## Packets become threads -/

section Starts
variable {s : Cluster} {conn : ℤ} {p : ClientPacket}

theorem conn_thread (conn : ℤ) (p : ClientPacket) : (p.thread conn).conn = conn := by cases p <;> rfl

theorem carried_thread (conn : ℤ) (p : ClientPacket) : (p.thread conn).carried = p.carried := by cases p <;> rfl

theorem table_thread (conn : ℤ) (p : ClientPacket) : (p.thread conn).table = [] := by cases p <;> rfl

/-- A synchronisation sends the client everything that it has not got. -/
theorem owes_thread (σ : Stamps) (conn : ℤ) (tft : TransFileTable) (f : Name) :
    ((ClientPacket.sync tft).thread conn).Owes σ conn f (σ f) := ⟨rfl, .inr ⟨.inr (Nat.zero_le _), rfl⟩⟩

theorem Settling.start (h : Settling s) (hp : (conn, p) ∈ s.up)
    (hreg : ∀ tft, p = .sync tft → s.tracker.Registered conn) :
    Settling { s with up := s.up.erase (conn, p), threads := s.threads ++ [p.thread conn] } := by
  have hlast : p.thread conn ∈ s.threads ++ [p.thread conn] := List.mem_append_right _ (List.mem_singleton_self _)
  have hkept : ∀ {u}, u ∈ s.up → u = (conn, p) ∨ u ∈ s.up.erase (conn, p) := by
    intro u hu
    by_cases heq : u = (conn, p)
    · exact .inl heq
    · exact .inr ((List.mem_erase_of_ne heq).mpr hu)
  refine ⟨h.tracker_wf, h.peer_wf, fun t ht => ?_, fun c tft hq => h.up_ok c tft (List.mem_of_mem_erase hq), h.down_ok,
    h.handling_ok, h.unscanned, fun c => ?_, fun c => (h.tracked c).advance ⟨?_, ?_, ?_, ?_, ?_, ?_, ?_, ?_⟩⟩
  · rcases List.mem_append.mp ht with ht | ht
    · exact h.threads_ok t ht
    · rw [List.mem_singleton.mp ht]
      cases p with
      | register peerid => trivial
      | sync tft => trivial
      | update tft => exact ⟨h.up_ok conn tft hp, fun _ hte => absurd hte List.not_mem_nil⟩
  · rcases h.member c with (hn | ⟨tft, hq⟩) | hr
    · exact .inl (.inl hn)
    · rcases hkept hq with heq | hq
      · cases heq
        exact .inr (hreg tft rfl)
      · exact .inl (.inr ⟨tft, hq⟩)
    · exact .inr hr
  · exact fun _ => le_rfl
  · exact fun _ => le_rfl
  · rintro f v (⟨q, hq, hv⟩ | ⟨t, ht, hc, hv⟩)
    · exact .inl (.inl ⟨q, List.mem_of_mem_erase hq, hv⟩)
    · rcases List.mem_append.mp ht with ht | ht
      · exact .inl (.inr ⟨t, ht, hc, hv⟩)
      · rw [List.mem_singleton.mp ht, conn_thread] at hc
        rw [List.mem_singleton.mp ht, carried_thread] at hv
        exact .inl (.inl ⟨p, hc ▸ hp, hv⟩)
  · rintro f v (hv | hv | ⟨t, ht, hv⟩ | ⟨-, rfl⟩)
    · exact .inl (.inl hv)
    · exact .inl (.inr (.inl hv))
    · rcases List.mem_append.mp ht with ht | ht
      · exact .inl (.inr (.inr (.inl ⟨t, ht, hv⟩)))
      · obtain ⟨-, hv | ⟨-, rfl⟩⟩ := hv
        · rw [List.mem_singleton.mp ht, table_thread] at hv
          exact absurd hv has_nil
        · exact .inr le_rfl
    · exact .inr le_rfl
  · rintro f v (⟨q, hq, hv⟩ | ⟨t, ht, hv⟩)
    · rcases hkept hq with heq | hq
      · cases heq
        exact .inr (.inr ⟨_, hlast, conn_thread conn p, (carried_thread conn p).symm ▸ hv⟩)
      · exact .inr (.inl ⟨q, hq, hv⟩)
    · exact .inr (.inr ⟨t, List.mem_append_left _ ht, hv⟩)
  · rintro f v (hv | hv | ⟨t, ht, hv⟩ | ⟨hn | ⟨tft, hq⟩, rfl⟩)
    · exact .inr ⟨v, le_rfl, .inl hv⟩
    · exact .inr ⟨v, le_rfl, .inr (.inl hv)⟩
    · exact .inr ⟨v, le_rfl, .inr (.inr (.inl ⟨t, List.mem_append_left _ ht, hv⟩))⟩
    · exact .inr ⟨_, le_rfl, .inr (.inr (.inr ⟨.inl hn, rfl⟩))⟩
    · rcases hkept hq with heq | hq
      · cases heq
        exact .inr ⟨_, le_rfl, .inr (.inr (.inl ⟨_, hlast, owes_thread _ conn tft f⟩))⟩
      · exact .inr ⟨_, le_rfl, .inr (.inr (.inr ⟨.inr ⟨tft, hq⟩, rfl⟩))⟩
  · exact fun _ => .inl rfl
  · exact fun _ => .inl rfl

end Starts

/-! ## Runs -/

section Runs
variable {ctrInfo : TtopControlInfo} {s s' : Cluster}

theorem settling_start : Settling Cluster.start where
  tracker_wf := FileTable.wf_init
  peer_wf _ := FileTable.wf_init
  threads_ok _ ht := absurd ht List.not_mem_nil
  up_ok _ _ hp := absurd hp List.not_mem_nil
  down_ok _ _ hp := absurd hp List.not_mem_nil
  handling_ok _ _ hp := nomatch hp
  unscanned _ _ := rfl
  member _ := .inl (.inl id)
  tracked c := by
    refine ⟨?_, ?_, fun _ => .inl le_rfl, fun _ => .inl le_rfl⟩
    · rintro f v (⟨p, hp, -⟩ | ⟨t, ht, -⟩)
      · exact absurd hp List.not_mem_nil
      · exact absurd ht List.not_mem_nil
    · rintro f v (⟨p, hp, -⟩ | hv | ⟨t, ht, -⟩ | ⟨-, rfl⟩)
      · exact absurd hp List.not_mem_nil
      · exact absurd hv has_nil
      · exact absurd ht List.not_mem_nil
      · exact le_rfl

/-- Every step of an orderly run keeps the invariant. -/
theorem Settling.step (h : Settling s ∧ Answered s) {e : ClusterEvent} (hok : Orderly s e)
    (hs : (cluster ctrInfo).step s e = some s') : Settling s' ∧ Answered s' := by
  obtain ⟨h, ha⟩ := h
  cases e with
  | connect conn ip =>
    obtain ⟨hp, hs⟩ := Option.ite_none_right_eq_some.mp hs
    obtain rfl := Option.some.inj hs
    refine ⟨h.connect ip hp, ha.at_client conn [.register ⟨ip, P2P_PORT⟩] [] rfl rfl rfl
      (fun c hc => ⟨rfl, Function.update_of_ne hc _ _⟩) ?_⟩
    rw [hp]
    exact Nat.zero_le _
  | scan conn ft =>
    obtain ⟨hp, hs⟩ := Option.ite_none_right_eq_some.mp hs
    obtain rfl := Option.some.inj hs
    refine ⟨h.scan hok hp, ha.at_client conn [.sync (transTableFillFrom ft)] [] rfl rfl rfl
      (fun c hc => ⟨rfl, Function.update_of_ne hc _ _⟩) ?_⟩
    rw [hp]
    exact (congrArg ClientPhase.awaits (Function.update_self conn .waiting s.phase)).ge
  | report conn tft =>
    obtain ⟨hp, hs⟩ := Option.ite_none_right_eq_some.mp hs
    obtain rfl := Option.some.inj hs
    refine ⟨h.report hp hok, ha.at_client conn [.update tft] [] rfl rfl rfl
      (fun c hc => ⟨rfl, Function.update_of_ne hc _ _⟩) ?_⟩
    exact (congrArg ClientPhase.awaits (Function.update_self conn (s.phase conn) s.phase)).ge
  | announce conn fe =>
    obtain ⟨⟨hp, hfe⟩, hs⟩ := Option.ite_none_right_eq_some.mp hs
    obtain rfl := Option.some.inj hs
    refine ⟨h.announce hp hfe, ha.at_client conn [.update _] [] rfl rfl rfl
      (fun c hc => ⟨rfl, rfl⟩) ?_⟩
    exact le_rfl
  | start conn p =>
    obtain ⟨hp, hs⟩ := Option.ite_none_right_eq_some.mp hs
    obtain rfl := Option.some.inj hs
    refine ⟨h.start hp ?_, ha.start hp⟩
    rintro tft rfl
    exact hok
  | step i now =>
    obtain ⟨t, hi, hs⟩ := Option.bind_eq_some_iff.mp hs
    obtain ⟨a, hadv, rfl⟩ := Option.map_eq_some_iff.mp hs
    exact ⟨h.move hi (h.advance hi hok hadv), ha.moved hi (passes_advance hadv)⟩
  | skip i n =>
    obtain ⟨t, hi, hs⟩ := Option.bind_eq_some_iff.mp hs
    obtain ⟨a, hadv, rfl⟩ := Option.map_eq_some_iff.mp hs
    exact ⟨h.move hi (h.skip (List.mem_of_getElem? hi) hadv), ha.moved hi (passes_skip hadv)⟩
  | receive conn => exact h.receive ha hs

/-- Once nothing is under way, nothing is left that a client that has joined could miss. -/
theorem Settling.agree (h : Settling s) (hq : s.Quiescent) {c : ℤ} (hc : (s.phase c).Joined) :
    (s.peerFt c).stamp = s.tracker.ft.stamp := by
  obtain ⟨hup, hthreads, hclients⟩ := hq
  obtain ⟨hdown, hphase⟩ := hclients c hc
  refine (h.tracked c).eq_hub ?_ ?_
  · rintro f v (⟨p, hp, -⟩ | ⟨t, ht, -⟩)
    · exact absurd (hup ▸ hp) List.not_mem_nil
    · exact absurd (hthreads ▸ ht) List.not_mem_nil
  · rintro f v (⟨p, hp, -⟩ | hv | ⟨t, ht, -⟩ | ⟨hn | ⟨tft, hp⟩, -⟩)
    · exact absurd (hdown ▸ hp) List.not_mem_nil
    · rw [hphase] at hv
      exact absurd hv has_nil
    · exact absurd (hthreads ▸ ht) List.not_mem_nil
    · exact hn hc
    · exact absurd (hup ▸ hp) List.not_mem_nil

/-- The tracker's threads run lock by lock and in any order, while clients connect, scan, synchronise, report and
receive. In an orderly run, whenever nothing is under way, every client that has scanned and has not failed has the
tracker's names and timestamps. -/
theorem concurrent_threads_converge (ctrInfo : TtopControlInfo) {es : List ClusterEvent} {s' : Cluster}
    (hrun : (cluster ctrInfo).run Cluster.start es = some s')
    (hok : (cluster ctrInfo).RunMeets Orderly Cluster.start es) (hq : s'.Quiescent) :
    ∀ c, (s'.phase c).Joined → (s'.peerFt c).stamp = s'.tracker.ft.stamp := by
  have hempty : Answered Cluster.start := fun _ => le_rfl
  have hinv : Settling s' ∧ Answered s' :=
    System.runMeets_invariant (fun _ _ _ h hok hs => Settling.step h hok hs) ⟨settling_start, hempty⟩ hok hrun
  exact fun c hc => hinv.1.agree hq hc

end Runs

/-! ## Two clients -/

section TwoClients
variable {ctrInfo : TtopControlInfo} {s t : Cluster} {conn : ℤ} {tft : TransFileTable}

theorem exists_run_cons {ok : Cluster → ClusterEvent → Prop} {P : Cluster → Prop} (e : ClusterEvent) (hok : ok s e)
    (hs : (cluster ctrInfo).step s e = some t)
    (hrest : ∃ es s', (cluster ctrInfo).run t es = some s' ∧ (cluster ctrInfo).RunMeets ok t es ∧ P s') :
    ∃ es s', (cluster ctrInfo).run s es = some s' ∧ (cluster ctrInfo).RunMeets ok s es ∧ P s' := by
  obtain ⟨es, s', hrun, hmeets, hp⟩ := hrest
  refine ⟨e :: es, s', System.run_cons_eq_some.mpr ⟨t, hs, hrun⟩, ⟨hok, fun t' ht' => ?_⟩, hp⟩
  obtain rfl : t = t' := Option.some.inj (hs.symm.trans ht')
  exact hmeets

theorem transTableFillFrom_init : transTableFillFrom fileTableInit = [] := by
  simp [transTableFillFrom, FileTable.entries, ChainTable.Scheme.toList, fileTableInit]

theorem transTableFillFrom_add (fe : FileEntry) :
    transTableFillFrom (fileEntryAdd fileTableInit fe) = [transEntryFillFrom fe] := by
  have hperm := ChainTable.Scheme.toList_addHead_perm fileTableInit.fileHtable (addBucket fe.name) fe
  have hnil : ChainTable.Scheme.toList fileTableInit.fileHtable = [] := by
    simp [ChainTable.Scheme.toList, fileTableInit]
  rw [hnil] at hperm
  exact congrArg (List.map transEntryFillFrom) (List.perm_singleton.mp hperm)

theorem step_scan {ft : FileTable} (htft : transTableFillFrom ft = tft) :
    (cluster ctrInfo).step s (.scan conn ft) =
      if s.phase conn = .accepted then some ((s.client conn .waiting ft).send conn (.sync tft)) else none := by
  subst htft
  rfl

theorem step_skip {n : ℕ} (hn : n ≤ HASH_SIZE) (hthreads : s.threads = [.reply conn tft 0 [] []])
    (hft : s.tracker.ft = fileTableInit) :
    (cluster ctrInfo).step s (.skip 0 n) = some (s.moved 0 ⟨s.tracker, [], some (.reply conn tft n [] [])⟩) := by
  have hempty : ∀ i < n, ∃ h : 0 + i < HASH_SIZE, s.tracker.ft.fileHtable ⟨0 + i, h⟩ = [] := by
    intro i hi
    rw [hft]
    exact ⟨(Nat.zero_add i).trans_lt (hi.trans_le hn), rfl⟩
  have hskip : (Thread.reply conn tft 0 [] []).skip s.tracker n =
      some ⟨s.tracker, [], some (.reply conn tft n [] [])⟩ := by
    rw [Thread.skip, if_pos hempty, Nat.zero_add]
  simp only [cluster, hthreads]
  show ((Thread.reply conn tft 0 [] []).skip s.tracker n).map (s.moved 0) = _
  rw [hskip]
  rfl

/-- Client 1 registers and synchronises while the tracker has no file. Then client 2 comes with a file, which the
thread for its synchronisation broadcasts. -/
theorem concurrent_threads_converge_two_clients :
    ∃ es s', (cluster ⟨1, 2⟩).run Cluster.start es = some s' ∧ s'.Quiescent ∧
      (s'.peerFt 1).stamp = s'.tracker.ft.stamp ∧ (s'.peerFt 2).stamp = s'.tracker.ft.stamp ∧
      s'.tracker.ft.stamp ⟨[102], by decide, by decide⟩ = 5 := by
  let te : TransFileEntry := ⟨⟨[102], by decide, by decide⟩, 5, .fileNone, .regular, []⟩
  let ft := fileEntryAdd fileTableInit (fileEntryFillFrom te)
  have hrun : ∃ es s', (cluster ⟨1, 2⟩).run Cluster.start es = some s' ∧
      (cluster ⟨1, 2⟩).RunMeets Orderly Cluster.start es ∧ s'.Quiescent ∧ s'.phase 1 = .running ∧
      s'.phase 2 = .running ∧ s'.tracker.ft.stamp te.name = 5 := by
    refine exists_run_cons (.connect 1 1) trivial rfl ?_
    refine exists_run_cons (.start 1 (.register ⟨1, P2P_PORT⟩)) trivial rfl ?_
    refine exists_run_cons (.step 0 0) trivial rfl ?_
    refine exists_run_cons (.step 0 0) trivial rfl ?_
    refine exists_run_cons (.receive 1) trivial rfl ?_
    refine exists_run_cons (.scan 1 _) FileTable.wf_init ((step_scan transTableFillFrom_init).trans rfl) ?_
    refine exists_run_cons (.start 1 (.sync [])) ⟨_, .head _, rfl⟩ rfl ?_
    refine exists_run_cons (.skip 0 HASH_SIZE) trivial (step_skip le_rfl rfl rfl) ?_
    refine exists_run_cons (.step 0 0) trivial rfl ?_
    refine exists_run_cons (.step 0 0) trivial rfl ?_
    refine exists_run_cons (.receive 1) trivial rfl ?_
    refine exists_run_cons (.receive 1) trivial rfl ?_
    -- client 1 is up to date
    refine exists_run_cons (.connect 2 2) trivial rfl ?_
    refine exists_run_cons (.start 2 (.register ⟨2, P2P_PORT⟩)) trivial rfl ?_
    refine exists_run_cons (.step 0 0) trivial rfl ?_
    refine exists_run_cons (.step 0 0) trivial rfl ?_
    refine exists_run_cons (.receive 2) trivial rfl ?_
    refine exists_run_cons (.scan 2 ft) (FileTable.wf_init.add te)
      ((step_scan (transTableFillFrom_add (fileEntryFillFrom te))).trans rfl) ?_
    refine exists_run_cons (.start 2 (.sync [te])) ⟨_, .head _, rfl⟩ rfl ?_
    refine exists_run_cons (.skip 0 HASH_SIZE) trivial (step_skip le_rfl rfl rfl) ?_
    refine exists_run_cons (.step 0 0) trivial rfl ?_
    refine exists_run_cons (.step 0 0) trivial rfl ?_
    refine exists_run_cons (.step 0 0) trivial rfl ?_
    refine exists_run_cons (.step 0 0) trivial rfl ?_
    -- the reply, and the broadcast to client 1
    refine exists_run_cons (.receive 2) trivial rfl ?_
    refine exists_run_cons (.receive 2) trivial rfl ?_
    refine exists_run_cons (.receive 1) trivial rfl ?_
    refine exists_run_cons (.receive 1) trivial rfl ?_
    refine exists_run_cons (.receive 1) trivial rfl ?_
    refine ⟨[], _, rfl, trivial, ⟨rfl, rfl, fun c hc => ?_⟩, rfl, rfl, ?_⟩
    · by_cases h1 : c = 1
      · subst h1
        exact ⟨rfl, rfl⟩
      · by_cases h2 : c = 2
        · subst h2
          exact ⟨rfl, rfl⟩
        · simp [Cluster.client, Cluster.moved, Cluster.connect, Cluster.send, Cluster.read, h1, h2, ClientPhase.Joined,
            Cluster.start] at hc
    · exact (congrFun (FileTable.stamp_add _ te) te.name).trans (raise_self _ te)
  obtain ⟨es, s', hrun, hok, hq, h1, h2, hstamp⟩ := hrun
  have hagree := concurrent_threads_converge ⟨1, 2⟩ hrun hok hq
  refine ⟨es, s', hrun, hq, hagree 1 ?_, hagree 2 ?_, hstamp⟩
  · rw [h1]
    trivial
  · rw [h2]
    trivial

end TwoClients

end TeleSync.Threads
