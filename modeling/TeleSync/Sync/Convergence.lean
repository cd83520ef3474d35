import TeleSync.Sync.Network

/-!
# Without deletes, quiet peers agree with the tracker

Peers report additions of any name and modifications of names of the table they all started from;
updates and broadcast entries are handled in any order. On the timestamps every step then is a
`raise`: a maximum at one name. `Converging` relates what a peer holds, what the tracker holds and
what is in flight:

* a peer is ahead of the tracker at a name only by an update of its own that is still under way
  (`upper`);
* the tracker is ahead of a peer only by a broadcast entry to that peer that is still under way
  (`lower`); the sender of an update gets no broadcast of it, but already holds what it reported
  (`updates_held`).

So once nothing is under way they agree (`quiescent_peers_agree`).
-/

namespace TeleSync
open Transition

/-! ## Raising timestamps -/

/-- Raise the timestamp of an entry's name to the entry's. -/
def raise (σ : Stamps) (te : TransFileEntry) : Stamps :=
  Function.update σ te.name (max (σ te.name) te.timestamp)

/-- Raise by every entry in order. -/
def raiseAll (σ : Stamps) (tft : TransFileTable) : Stamps := tft.foldl raise σ

theorem raise_self (σ : Stamps) (te : TransFileEntry) :
    raise σ te te.name = max (σ te.name) te.timestamp := Function.update_self _ _ _

theorem raise_of_ne (σ : Stamps) {te : TransFileEntry} {f : Name} (h : f ≠ te.name) : raise σ te f = σ f :=
  Function.update_of_ne h _ _

theorem le_raise (σ : Stamps) (te : TransFileEntry) (f : Name) : σ f ≤ raise σ te f := by
  by_cases hf : f = te.name
  · rw [hf, raise_self]
    exact le_max_left _ _
  · rw [raise_of_ne σ hf]

theorem raise_self_ge (σ : Stamps) (te : TransFileEntry) : (te.timestamp : WithBot ℕ) ≤ raise σ te te.name := by
  rw [raise_self]
  exact le_max_right _ _

theorem le_raiseAll (σ : Stamps) (tft : TransFileTable) (f : Name) : σ f ≤ raiseAll σ tft f := by
  induction tft generalizing σ with
  | nil => exact le_rfl
  | cons te tft ih => exact (le_raise σ te f).trans (ih _)

theorem mem_le_raiseAll (σ : Stamps) {tft : TransFileTable} {te : TransFileEntry} (h : te ∈ tft) :
    (te.timestamp : WithBot ℕ) ≤ raiseAll σ tft te.name := by
  induction tft generalizing σ with
  | nil => cases h
  | cons e tft ih =>
    rcases List.mem_cons.mp h with rfl | h
    · exact (raise_self_ge σ te).trans (le_raiseAll _ tft te.name)
    · exact ih _ h

theorem raiseAll_attained (σ : Stamps) (tft : TransFileTable) (f : Name) :
    raiseAll σ tft f = σ f ∨ ∃ te ∈ tft, te.name = f ∧ raiseAll σ tft f = te.timestamp := by
  induction tft generalizing σ with
  | nil => exact Or.inl rfl
  | cons te tft ih =>
    rcases ih (raise σ te) with h | ⟨e, he, hn, h⟩
    · by_cases hf : f = te.name
      · subst hf
        rcases max_choice (σ te.name) (te.timestamp : WithBot ℕ) with hm | hm
        · exact Or.inl (h.trans ((raise_self σ te).trans hm))
        · exact Or.inr ⟨te, List.mem_cons_self, rfl, h.trans ((raise_self σ te).trans hm)⟩
      · exact Or.inl (h.trans (raise_of_ne σ hf))
    · exact Or.inr ⟨e, List.mem_cons_of_mem _ he, hn, h⟩

/-! ## The events -/

/-- A report without deletions: an addition, or a modification of a name of the first table `T₀`. -/
def Reportable (T₀ : FileTable) (te : TransFileEntry) : Prop :=
  te.opType = .fileAdd ∨ te.opType = .fileModify ∧ te.name ∈ T₀.names

theorem Reportable.sets {T₀ : FileTable} {te : TransFileEntry} (h : Reportable T₀ te) :
    te.opType = .fileAdd ∨ te.opType = .fileModify := h.imp_right And.left

instance (T₀ : FileTable) (te : TransFileEntry) : Decidable (Reportable T₀ te) :=
  inferInstanceAs (Decidable (te.opType = .fileAdd ∨ te.opType = .fileModify ∧ ¬ fileTableSearch T₀ te.name = none))

/-- What can happen next: a registered peer reports, the tracker handles an update, a peer handles a
broadcast entry. -/
inductive NetEvent where
  | report (conn : ℤ) (tft : TransFileTable)
  | handleUpdate (u : ℤ × TransFileTable)
  | deliver (b : ℤ × TransFileEntry)

/-- Peers that share the names of `T₀`, without deletes. -/
def deleteFree (T₀ : FileTable) : System Network NetEvent where
  step s
    | .report conn tft =>
      if s.Registered conn ∧ ∀ te ∈ tft, Reportable T₀ te then some (s.report conn tft) else none
    | .handleUpdate u => if u ∈ s.updates then some (s.handleUpdate u) else none
    | .deliver b => if b ∈ s.broadcasts then some (s.deliver b) else none

/-! ## Tables and timestamps -/

section Tables
variable {T₀ : FileTable}

/-- Local events raise the peer's timestamps, as long as it has the names of `T₀`. -/
theorem stamp_report {ft : FileTable} (hT : ∀ f ∈ T₀.names, ft.stamp f ≠ ⊥) {tft : TransFileTable}
    (h : ∀ te ∈ tft, Reportable T₀ te) : (tft.foldl eventTableUpdate ft).stamp = raiseAll ft.stamp tft := by
  induction tft generalizing ft with
  | nil => rfl
  | cons te tft ih =>
    have hstep : (eventTableUpdate ft te).stamp = raise ft.stamp te := by
      unfold eventTableUpdate
      rcases h te List.mem_cons_self with hop | ⟨hop, hn⟩
      · rw [hop]
        exact FileTable.stamp_add ft te
      · rw [hop]
        exact FileTable.stamp_update (hT te.name hn)
    rw [List.foldl_cons, ih _ fun e he => h e (List.mem_cons_of_mem _ he), hstep]
    · rfl
    · intro f hf
      rw [hstep]
      exact ne_bot_of_le_ne_bot (hT f hf) (le_raise _ te f)

/-- The tracker handles a report by raising its timestamps. -/
theorem stamp_handle {ft : FileTable} {tft : TransFileTable} (h : ∀ te ∈ tft, Reportable T₀ te) :
    (peerFileUpdateTask ft tft).ft.stamp = raiseAll ft.stamp tft := by
  induction tft generalizing ft with
  | nil => rfl
  | cons te tft ih =>
    rw [peerFileUpdateTask_cons]
    dsimp only
    rw [ih fun e he => h e (List.mem_cons_of_mem _ he),
      stamp_updateStep_set (s := ⟨ft, []⟩) (h te List.mem_cons_self).sets]
    rfl

/-- Each broadcast entry is a snapshot of a name along the way, and a name that changed has one of
its final timestamp. -/
theorem newTft_handle {ft : FileTable} (hT : ∀ f ∈ T₀.names, ft.stamp f ≠ ⊥) {tft : TransFileTable}
    (h : ∀ te ∈ tft, Reportable T₀ te) :
    (∀ e ∈ (peerFileUpdateTask ft tft).newTft, (e.opType = .fileAdd ∨ e.opType = .fileModify) ∧
        (e.timestamp : WithBot ℕ) ≤ raiseAll ft.stamp tft e.name) ∧
      ∀ f, raiseAll ft.stamp tft f = ft.stamp f ∨
        ∃ e ∈ (peerFileUpdateTask ft tft).newTft, e.name = f ∧ raiseAll ft.stamp tft f = e.timestamp := by
  induction tft generalizing ft with
  | nil => exact ⟨fun e he => absurd he List.not_mem_nil, fun f => Or.inl rfl⟩
  | cons te tft ih =>
    have hte := h te List.mem_cons_self
    have hset : te.opType = .fileAdd ∨ te.opType = .fileModify ∧ ft.stamp te.name ≠ ⊥ :=
      hte.imp_right fun hm => ⟨hm.1, hT te.name hm.2⟩
    have hstep : (peerFileUpdateStep ⟨ft, []⟩ te).ft.stamp = raise ft.stamp te :=
      stamp_updateStep_set hte.sets
    obtain ⟨b, hb, hname, hts, hop⟩ := newTft_updateStep_set ft hset
    have hT' : ∀ f ∈ T₀.names, (peerFileUpdateStep ⟨ft, []⟩ te).ft.stamp f ≠ ⊥ := by
      intro f hf
      rw [hstep]
      exact ne_bot_of_le_ne_bot (hT f hf) (le_raise _ te f)
    obtain ⟨ih1, ih2⟩ := ih hT'
      (fun e he => h e (List.mem_cons_of_mem _ he))
    have hb' : (b.timestamp : WithBot ℕ) = raise ft.stamp te te.name := hts.trans (raise_self _ te).symm
    rw [hstep] at ih1 ih2
    rw [peerFileUpdateTask_cons]
    dsimp only
    rw [hb]
    refine ⟨fun e he => ?_, fun f => ?_⟩
    · rcases List.mem_cons.mp he with rfl | he
      · refine ⟨hop, ?_⟩
        rw [hname, hb']
        exact le_raiseAll _ tft te.name
      · exact ih1 e he
    · rcases ih2 f with hf | ⟨e, he, hn, hf⟩
      · by_cases hn : f = te.name
        · refine Or.inr ⟨b, List.mem_cons_self, hname.trans hn.symm, hf.trans ?_⟩
          rw [hn, hb']
        · exact Or.inl (hf.trans (raise_of_ne _ hn))
      · exact Or.inr ⟨e, List.mem_cons_of_mem _ he, hn, hf⟩

end Tables

/-! ## The invariant -/

/-- What holds between tracker, peers and messages in every reachable state. -/
structure Converging (T₀ : FileTable) (s : Network) : Prop where
  tracker_wf : s.ft.Wf
  tracker_known : ∀ f ∈ T₀.names, s.ft.stamp f ≠ ⊥
  peer_wf : ∀ c, s.Registered c → (s.peerFt c).Wf
  peer_known : ∀ c, s.Registered c → ∀ f ∈ T₀.names, (s.peerFt c).stamp f ≠ ⊥
  updates_reportable : ∀ u ∈ s.updates, ∀ te ∈ u.2, Reportable T₀ te
  updates_held : ∀ u ∈ s.updates, ∀ te ∈ u.2, (te.timestamp : WithBot ℕ) ≤ (s.peerFt u.1).stamp te.name
  broadcasts_le : ∀ b ∈ s.broadcasts, (b.2.opType = .fileAdd ∨ b.2.opType = .fileModify) ∧
    (b.2.timestamp : WithBot ℕ) ≤ s.ft.stamp b.2.name
  upper : ∀ c, s.Registered c → ∀ f, (s.peerFt c).stamp f ≤ s.ft.stamp f ∨
    ∃ u ∈ s.updates, u.1 = c ∧ ∃ te ∈ u.2, te.name = f ∧ (s.peerFt c).stamp f ≤ te.timestamp
  lower : ∀ c, s.Registered c → ∀ f, s.ft.stamp f ≤ (s.peerFt c).stamp f ∨
    ∃ b ∈ s.broadcasts, b.1 = c ∧ b.2.name = f ∧ s.ft.stamp f ≤ b.2.timestamp

section Steps
variable {T₀ : FileTable} {s : Network}

theorem stamp_le_update {conn : ℤ} {ft : FileTable} (h : ∀ f, (s.peerFt conn).stamp f ≤ ft.stamp f) :
    ∀ c f, (s.peerFt c).stamp f ≤ (Function.update s.peerFt conn ft c).stamp f :=
  (Function.forall_update_iff s.peerFt fun c ft => ∀ f, (s.peerFt c).stamp f ≤ ft.stamp f).mpr
    ⟨h, fun _ _ _ => le_rfl⟩

theorem Converging.wf_update (h : Converging T₀ s) {conn : ℤ} {ft : FileTable} (hft : s.Registered conn → ft.Wf) :
    ∀ c, s.Registered c → (Function.update s.peerFt conn ft c).Wf :=
  (Function.forall_update_iff s.peerFt fun c ft => s.Registered c → ft.Wf).mpr ⟨hft, fun c _ => h.peer_wf c⟩

theorem Converging.report (h : Converging T₀ s) {conn : ℤ} (hreg : s.Registered conn) {tft : TransFileTable}
    (htft : ∀ te ∈ tft, Reportable T₀ te) : Converging T₀ (s.report conn tft) := by
  have hstamp := stamp_report (h.peer_known conn hreg) htft
  have hself : (s.report conn tft).peerFt conn = tft.foldl eventTableUpdate (s.peerFt conn) :=
    Function.update_self _ _ _
  have hother : ∀ c, c ≠ conn → (s.report conn tft).peerFt c = s.peerFt c :=
    fun c hc => Function.update_of_ne hc _ _
  have hgrow : ∀ c f, (s.peerFt c).stamp f ≤ ((s.report conn tft).peerFt c).stamp f := by
    refine stamp_le_update fun f => ?_
    rw [hstamp]
    exact le_raiseAll _ tft f
  have hnew : (conn, tft) ∈ (s.report conn tft).updates := List.mem_append_right _ (List.mem_singleton_self _)
  refine ⟨h.tracker_wf, h.tracker_known, h.wf_update fun hc => foldl_eventTableUpdate_wf (h.peer_wf conn hc) tft,
    fun c hc f hf => ?_, fun u hu => ?_, fun u hu te hte => ?_, h.broadcasts_le, fun c hc f => ?_,
    fun c hc f => ?_⟩
  · exact ne_bot_of_le_ne_bot (h.peer_known c hc f hf) (hgrow c f)
  · rcases List.mem_append.mp hu with hu | hu
    · exact h.updates_reportable u hu
    · rw [List.mem_singleton.mp hu]
      exact htft
  · rcases List.mem_append.mp hu with hu | hu
    · exact (h.updates_held u hu te hte).trans (hgrow u.1 te.name)
    · rw [List.mem_singleton.mp hu] at hte ⊢
      rw [hself, hstamp]
      exact mem_le_raiseAll _ hte
  · have hold : (s.peerFt c).stamp f = ((s.report conn tft).peerFt c).stamp f →
        ((s.report conn tft).peerFt c).stamp f ≤ s.ft.stamp f ∨
          ∃ u ∈ (s.report conn tft).updates, u.1 = c ∧ ∃ te ∈ u.2, te.name = f ∧
            ((s.report conn tft).peerFt c).stamp f ≤ te.timestamp := by
      intro heq
      rw [← heq]
      exact (h.upper c hc f).imp_right fun ⟨u, hu, hrest⟩ => ⟨u, List.mem_append_left _ hu, hrest⟩
    by_cases hcc : c = conn
    · subst hcc
      rcases raiseAll_attained (s.peerFt c).stamp tft f with heq | ⟨te, hte, hn, heq⟩
      · exact hold (by rw [hself, hstamp, heq])
      · refine Or.inr ⟨_, hnew, rfl, te, hte, hn, ?_⟩
        rw [hself, hstamp, heq]
    · exact hold (by rw [hother c hcc])
  · exact (h.lower c hc f).imp_left fun hle => hle.trans (hgrow c f)

theorem Converging.handleUpdate (h : Converging T₀ s) {u : ℤ × TransFileTable} (hu : u ∈ s.updates) :
    Converging T₀ (s.handleUpdate u) := by
  have htft := h.updates_reportable u hu
  have hstamp : (s.handleUpdate u).ft.stamp = raiseAll s.ft.stamp u.2 := stamp_handle htft
  obtain ⟨hsnap, hlast⟩ := newTft_handle h.tracker_known htft
  have hgrow : ∀ f, s.ft.stamp f ≤ (s.handleUpdate u).ft.stamp f := by
    intro f
    rw [hstamp]
    exact le_raiseAll _ u.2 f
  have hkept : ∀ v ∈ (s.handleUpdate u).updates, v ∈ s.updates := fun v hv => List.mem_of_mem_erase hv
  refine ⟨peerFileUpdateTask_wf h.tracker_wf u.2, fun f hf => ?_, h.peer_wf, h.peer_known,
    fun v hv => h.updates_reportable v (hkept v hv), fun v hv => h.updates_held v (hkept v hv), fun b hb => ?_,
    fun c hc f => ?_, fun c hc f => ?_⟩
  · exact ne_bot_of_le_ne_bot (h.tracker_known f hf) (hgrow f)
  · rcases Network.mem_broadcasts_handleUpdate.mp hb with hb | ⟨-, -, hb⟩
    · exact ⟨(h.broadcasts_le b hb).1, (h.broadcasts_le b hb).2.trans (hgrow _)⟩
    · rw [hstamp]
      exact hsnap b.2 hb
  · rcases h.upper c hc f with hle | ⟨v, hv, hvc, te, hte, hn, hle⟩
    · exact Or.inl (hle.trans (hgrow f))
    · by_cases hvu : v = u
      · -- the update that explained the lead has arrived
        left
        subst hvu hn
        rw [hstamp]
        exact hle.trans (mem_le_raiseAll _ hte)
      · exact Or.inr ⟨v, (List.mem_erase_of_ne hvu).mpr hv, hvc, te, hte, hn, hle⟩
  · have hold : (s.handleUpdate u).ft.stamp f = s.ft.stamp f →
        (s.handleUpdate u).ft.stamp f ≤ ((s.handleUpdate u).peerFt c).stamp f ∨
          ∃ b ∈ (s.handleUpdate u).broadcasts, b.1 = c ∧ b.2.name = f ∧
            (s.handleUpdate u).ft.stamp f ≤ b.2.timestamp := by
      intro heq
      rw [heq]
      exact (h.lower c hc f).imp_right fun ⟨b, hb, hrest⟩ =>
        ⟨b, Network.mem_broadcasts_handleUpdate.mpr (Or.inl hb), hrest⟩
    by_cases hcu : c = u.1
    · -- the sender holds what it reported
      rcases raiseAll_attained s.ft.stamp u.2 f with heq | ⟨te, hte, hn, heq⟩
      · exact hold (by rw [hstamp, heq])
      · left
        rw [hstamp, heq, hcu, ← hn]
        exact h.updates_held u hu te hte
    · rcases hlast f with heq | ⟨e, he, hn, heq⟩
      · exact hold (by rw [hstamp, heq])
      · refine Or.inr ⟨(c, e), Network.mem_broadcasts_handleUpdate.mpr (Or.inr ⟨hc, hcu, he⟩), rfl, hn, ?_⟩
        rw [hstamp, heq]

theorem Converging.deliver (h : Converging T₀ s) {b : ℤ × TransFileEntry} (hb : b ∈ s.broadcasts) :
    Converging T₀ (s.deliver b) := by
  obtain ⟨hop, hble⟩ := h.broadcasts_le b hb
  have hstamp : (broadcastEntryHandler (s.ipOf b.1) (s.peerFt b.1) b.2).1.stamp = raise (s.peerFt b.1).stamp b.2 :=
    stamp_broadcast_set _ _ hop
  have hself : ((s.deliver b).peerFt b.1).stamp = raise (s.peerFt b.1).stamp b.2 := by
    rw [← hstamp]
    exact congrArg FileTable.stamp (Function.update_self _ _ _)
  have hother : ∀ c, c ≠ b.1 → (s.deliver b).peerFt c = s.peerFt c :=
    fun c hc => Function.update_of_ne hc _ _
  have hgrow : ∀ c f, (s.peerFt c).stamp f ≤ ((s.deliver b).peerFt c).stamp f := by
    refine stamp_le_update fun f => ?_
    rw [hstamp]
    exact le_raise _ b.2 f
  refine ⟨h.tracker_wf, h.tracker_known, h.wf_update fun hc => wf_broadcastEntryHandler _ (h.peer_wf _ hc) b.2,
    fun c hc f hf => ?_, h.updates_reportable,
    fun u hu te hte => (h.updates_held u hu te hte).trans (hgrow u.1 te.name),
    fun b' hb' => h.broadcasts_le b' (List.mem_of_mem_erase hb'), fun c hc f => ?_, fun c hc f => ?_⟩
  · exact ne_bot_of_le_ne_bot (h.peer_known c hc f hf) (hgrow c f)
  · by_cases hcb : c = b.1 ∧ f = b.2.name
    · obtain ⟨rfl, rfl⟩ := hcb
      rw [hself, raise_self]
      rcases max_choice ((s.peerFt b.1).stamp b.2.name) (b.2.timestamp : WithBot ℕ) with hm | hm
      · rw [hm]
        exact h.upper _ hc _
      · rw [hm]
        exact Or.inl hble
    · have hsame : ((s.deliver b).peerFt c).stamp f = (s.peerFt c).stamp f := by
        by_cases hc1 : c = b.1
        · subst hc1
          rw [hself]
          exact raise_of_ne _ fun hf => hcb ⟨rfl, hf⟩
        · rw [hother c hc1]
      rw [hsame]
      exact h.upper c hc f
  · rcases h.lower c hc f with hle | ⟨b', hb', hc', hn, hle⟩
    · exact Or.inl (hle.trans (hgrow c f))
    · by_cases hbb : b' = b
      · -- the entry that explained the lag has arrived
        left
        subst hbb hc' hn
        rw [hself]
        exact hle.trans (raise_self_ge _ b'.2)
      · exact Or.inr ⟨b', (List.mem_erase_of_ne hbb).mpr hb', hc', hn, hle⟩

theorem Converging.step (h : Converging T₀ s) (e : NetEvent) {s' : Network}
    (hs : (deleteFree T₀).step s e = some s') : Converging T₀ s' := by
  cases e with
  | report conn tft =>
    simp only [deleteFree] at hs
    split_ifs at hs with hg
    cases hs
    exact h.report hg.1 hg.2
  | handleUpdate u =>
    simp only [deleteFree] at hs
    split_ifs at hs with hu
    cases hs
    exact h.handleUpdate hu
  | deliver b =>
    simp only [deleteFree] at hs
    split_ifs at hs with hb
    cases hs
    exact h.deliver hb

end Steps

/-- Tracker and registered peers agree on names and timestamps, and nothing is under way. -/
structure AgreedStart (s : Network) : Prop where
  tracker_wf : s.ft.Wf
  peer_wf : ∀ c, s.Registered c → (s.peerFt c).Wf
  agree : ∀ c, s.Registered c → (s.peerFt c).stamp = s.ft.stamp
  quiescent : s.Quiescent

theorem AgreedStart.converging {s : Network} (h : AgreedStart s) : Converging s.ft s := by
  have hu : ∀ u, u ∉ s.updates := by simp [h.quiescent.1]
  have hb : ∀ b, b ∉ s.broadcasts := by simp [h.quiescent.2]
  refine ⟨h.tracker_wf, fun f hf => FileTable.mem_names.mp hf, h.peer_wf, fun c hc f hf => ?_,
    fun u hmem => absurd hmem (hu u), fun u hmem => absurd hmem (hu u), fun b hmem => absurd hmem (hb b),
    fun c hc f => Or.inl (by rw [h.agree c hc]), fun c hc f => Or.inl (by rw [h.agree c hc])⟩
  rw [h.agree c hc]
  exact FileTable.mem_names.mp hf

theorem Converging.agree {T₀ : FileTable} {s : Network} (h : Converging T₀ s) (hq : s.Quiescent) {c : ℤ}
    (hc : s.Registered c) : (s.peerFt c).stamp = s.ft.stamp := by
  funext f
  apply le_antisymm
  · rcases h.upper c hc f with hle | ⟨u, hu, -⟩
    · exact hle
    · rw [hq.1] at hu
      cases hu
  · rcases h.lower c hc f with hle | ⟨b, hb, -⟩
    · exact hle
    · rw [hq.2] at hb
      cases hb

/-- **Convergence without deletes.** Start with peers that agree with the tracker and let them report
additions of any name and modifications of the agreed names, the messages being handled in any
order. Whenever no message is in flight, every peer has exactly the tracker's names, with the
tracker's timestamps. -/
theorem quiescent_peers_agree (s s' : Network) (es : List NetEvent) (hstart : AgreedStart s)
    (hrun : (deleteFree s.ft).run s es = some s') (hq : s'.Quiescent) :
    ∀ c, s'.Registered c → (s'.peerFt c).stamp = s'.ft.stamp := by
  intro c hc
  have hinv : Converging s.ft s' :=
    System.run_invariant (I := Converging s.ft) (fun t e t' ht hstep => ht.step e hstep) hstart.converging hrun
  exact hinv.agree hq hc

/-- Two peers with empty tables; the first adds `f`, the tracker broadcasts it to the second. -/
theorem quiescent_peers_agree_one_report :
    let f : Name := ⟨[102], by decide, by decide⟩
    let e : TransFileEntry := ⟨f, 5, .fileAdd, .regular, [⟨1, P2P_PORT⟩]⟩
    let s : Network :=
      ⟨fileTableInit, [⟨1, 0, ⟨1, P2P_PORT⟩⟩, ⟨2, 0, ⟨2, P2P_PORT⟩⟩], fun _ => fileTableInit, [], []⟩
    let s' := ((s.report 1 [e]).handleUpdate (1, [e])).deliver (2, e)
    AgreedStart s ∧ s'.Quiescent ∧ s'.ft.stamp f = 5 ∧ (s'.peerFt 2).stamp = s'.ft.stamp := by
  intro f e s s'
  have hstart : AgreedStart s := ⟨FileTable.wf_init, fun _ _ => FileTable.wf_init, fun _ _ => rfl, rfl, rfl⟩
  have hq : s'.Quiescent := ⟨by decide, by decide⟩
  have h1 : s.Registered 1 ∧ ∀ te ∈ [e], Reportable s.ft te := by decide
  have h2 : (1, [e]) ∈ (s.report 1 [e]).updates := by decide
  have h3 : (2, e) ∈ ((s.report 1 [e]).handleUpdate (1, [e])).broadcasts := by decide
  have hrun : (deleteFree s.ft).run s [.report 1 [e], .handleUpdate (1, [e]), .deliver (2, e)] = some s' := by
    simp only [System.run, deleteFree, if_pos h1, if_pos h2, if_pos h3, Option.bind_some, s']
  have hreg : s'.Registered 2 := by decide
  exact ⟨hstart, hq, by decide, quiescent_peers_agree s s' _ hstart hrun hq 2 hreg⟩
end TeleSync
