import TeleSync.Tracker.Tasks
import TeleSync.Client.Handlers

/-!
# Does a broadcast carry the update?

The tracker handles an update table with `peer_file_update_task` and broadcasts what it did; a
replica with the same names and timestamps replays the broadcast with `broadcast_entry_handler`.
`trackStep` and `replicaStep` are the two sides of one entry on the timestamps (`stamp_track`,
`stamp_replay`).

A modify of a name that the tracker does not know is broadcast as a nameless entry. The replica then
misses the name and gains the empty one, until later entries of the same table settle both
(`ModifiesRepaired`); `broadcast_faithful_iff` shows that nothing else can go wrong.
-/

namespace TeleSync

/-! ## One entry on both sides -/

/-- The tracker's timestamps after an entry. -/
def trackStep (σ : Stamps) (e : TransFileEntry) : Stamps :=
  match e.opType with
  | .fileAdd => Function.update σ e.name (max (σ e.name) e.timestamp)
  | .fileModify => Function.update σ e.name (max (σ e.name) e.timestamp)
  | .fileDelete => Function.update σ e.name ⊥
  | .fileNone => σ
  | .other _ => σ

/-- The replica's timestamps after the broadcast of an entry handled by a tracker at `σ`. -/
def replicaStep (σ ρ : Stamps) (e : TransFileEntry) : Stamps :=
  match e.opType with
  | .fileAdd => Function.update ρ e.name (max (ρ e.name) (max (σ e.name) e.timestamp))
  | .fileModify =>
    if σ e.name = ⊥ then Function.update ρ Name.empty (max (ρ Name.empty) 0)
    else Function.update ρ e.name (max (ρ e.name) (max (σ e.name) e.timestamp))
  | .fileDelete => if σ e.name = ⊥ then ρ else Function.update ρ e.name ⊥
  | .fileNone => ρ
  | .other _ => ρ

theorem stamp_track {s : UpdateState} (hw : s.ft.Wf) (e : TransFileEntry) :
    (peerFileUpdateStep s e).ft.stamp = trackStep s.ft.stamp e := by
  unfold trackStep
  cases h : e.opType with
  | fileAdd => exact stamp_updateStep_set (Or.inl h)
  | fileModify => exact stamp_updateStep_set (Or.inr h)
  | fileDelete => exact stamp_updateStep_delete hw h
  | fileNone => rw [updateStep_skip (Or.inl h)]
  | other c => rw [updateStep_skip (Or.inr ⟨c, h⟩)]

theorem handleBroadcast_singleton (myIp : UInt32) (R : FileTable) (e : TransFileEntry) :
    handleBroadcast myIp R [e] = (broadcastEntryHandler myIp R e).1 := rfl

theorem stamp_replay_set (myIp : UInt32) (ft R : FileTable) {e : TransFileEntry}
    (h : e.opType = .fileAdd ∨ e.opType = .fileModify ∧ ft.stamp e.name ≠ ⊥) :
    (handleBroadcast myIp R (peerFileUpdateStep ⟨ft, []⟩ e).newTft).stamp =
      Function.update R.stamp e.name (max (R.stamp e.name) (max (ft.stamp e.name) e.timestamp)) := by
  obtain ⟨b, hb, hname, hts, hop⟩ := newTft_updateStep_set ft h
  rw [hb, handleBroadcast_singleton, stamp_broadcast_set myIp R hop, hname, hts]

theorem stamp_replay (myIp : UInt32) (ft : FileTable) {R : FileTable} (hw : R.Wf) (e : TransFileEntry) :
    (handleBroadcast myIp R (peerFileUpdateStep ⟨ft, []⟩ e).newTft).stamp =
      replicaStep ft.stamp R.stamp e := by
  unfold replicaStep
  cases h : e.opType with
  | fileAdd => exact stamp_replay_set myIp ft R (Or.inl h)
  | fileModify =>
    dsimp only
    split_ifs with hb
    · rw [newTft_updateStep_unknown ft h hb, handleBroadcast_singleton, stamp_broadcast_set myIp R (Or.inl rfl)]
      rfl
    · exact stamp_replay_set myIp ft R (Or.inr ⟨h, hb⟩)
  | fileDelete =>
    dsimp only
    rw [newTft_updateStep_delete ft h]
    split_ifs
    · rfl
    · rw [handleBroadcast_singleton, stamp_broadcast_delete myIp hw h]
  | fileNone => rw [updateStep_skip (Or.inl h)]; rfl
  | other c => rw [updateStep_skip (Or.inr ⟨c, h⟩)]; rfl

/-! ## The condition -/

/-- The entry adds or modifies `f`. -/
def Sets (f : Name) (e : TransFileEntry) : Prop :=
  e.name = f ∧ (e.opType = .fileAdd ∨ e.opType = .fileModify)

/-- The entry adds, modifies or deletes `f`. -/
def Touches (f : Name) (e : TransFileEntry) : Prop :=
  e.name = f ∧ (e.opType = .fileAdd ∨ e.opType = .fileModify ∨ e.opType = .fileDelete)

/-- The names known after an entry. -/
def knownAfter (known : Set Name) (e : TransFileEntry) : Set Name :=
  match e.opType with
  | .fileAdd => insert e.name known
  | .fileModify => insert e.name known
  | .fileDelete => known \ {e.name}
  | .fileNone => known
  | .other _ => known

/-- If `e` modifies an unknown name, a later entry touches that name (unless it is the empty name at
timestamp 0, which is what the nameless entry adds), and a later entry sets the empty name (unless it
is known). -/
def ModifyRepaired (known : Set Name) (e : TransFileEntry) (rest : TransFileTable) : Prop :=
  e.opType = .fileModify → e.name ∉ known →
    (e.name ≠ Name.empty ∨ e.timestamp ≠ 0 → ∃ e' ∈ rest, Touches e.name e') ∧
    (e.name ≠ Name.empty → Name.empty ∉ known → ∃ e' ∈ rest, Sets Name.empty e')

/-- Every modify of a name unknown at that point is repaired by the entries after it. -/
def ModifiesRepaired (known : Set Name) : TransFileTable → Prop
  | [] => True
  | e :: rest => ModifyRepaired known e rest ∧ ModifiesRepaired (knownAfter known e) rest

/-- The names with a timestamp. -/
def Stamps.known (σ : Stamps) : Set Name := {f | σ f ≠ ⊥}

theorem known_stamp (t : FileTable) : Stamps.known t.stamp = t.names := by
  ext f
  exact FileTable.mem_names.symm

theorem known_update_ne_bot {σ : Stamps} {f : Name} {a : WithBot ℕ} (ha : a ≠ ⊥) :
    Stamps.known (Function.update σ f a) = insert f σ.known := by
  ext g
  by_cases hg : g = f
  · subst hg
    simp [Stamps.known, ha]
  · simp [Stamps.known, hg]

theorem known_update_bot {σ : Stamps} {f : Name} :
    Stamps.known (Function.update σ f ⊥) = σ.known \ {f} := by
  ext g
  by_cases hg : g = f
  · subst hg
    simp [Stamps.known]
  · simp [Stamps.known, hg]

theorem known_trackStep (σ : Stamps) (e : TransFileEntry) :
    (trackStep σ e).known = knownAfter σ.known e := by
  have hmax : max (σ e.name) (e.timestamp : WithBot ℕ) ≠ ⊥ :=
    ne_bot_of_le_ne_bot WithBot.coe_ne_bot (le_max_right _ _)
  unfold trackStep knownAfter
  cases e.opType with
  | fileAdd => exact known_update_ne_bot hmax
  | fileModify => exact known_update_ne_bot hmax
  | fileDelete => exact known_update_bot
  | fileNone => rfl
  | other c => rfl

/-! ## How far a replica can be behind -/

/-- At each name the replica agrees with the tracker, misses the name, or is the empty name with the
timestamp 0 of a nameless entry. -/
def Behind (σ ρ : Stamps) : Prop :=
  ∀ g, ρ g = σ g ∨ (g ≠ Name.empty ∧ ρ g = ⊥ ∧ σ g ≠ ⊥) ∨ (g = Name.empty ∧ ρ g = 0 ∧ σ g ≠ 0)

/-- The entries `rest` settle a disagreement at `g`. -/
def Settled (σ : Stamps) (g : Name) (rest : TransFileTable) : Prop :=
  (σ g ≠ ⊥ → ∃ e ∈ rest, Touches g e) ∧ (σ g = ⊥ → ∃ e ∈ rest, Sets g e)

theorem Behind.refl (σ : Stamps) : Behind σ σ := fun _ => Or.inl rfl

theorem Behind.update {σ ρ : Stamps} (h : Behind σ ρ) (f : Name) (a : WithBot ℕ) :
    Behind (Function.update σ f a) (Function.update ρ f a) := by
  intro g
  by_cases hg : g = f
  · subst hg
    simp
  · simpa [hg] using h g

/-- Replaying a snapshot overtakes whatever the replica had. -/
theorem Behind.max_eq {σ ρ : Stamps} (h : Behind σ ρ) (f : Name) (v : ℕ) :
    max (ρ f) (max (σ f) (v : WithBot ℕ)) = max (σ f) (v : WithBot ℕ) := by
  apply max_eq_right
  rcases h f with h | ⟨-, h, -⟩ | ⟨-, h, -⟩
  · rw [h]
    exact le_max_left _ _
  · rw [h]
    exact bot_le
  · rw [h]
    exact le_max_of_le_right (Nat.cast_le.mpr (Nat.zero_le v))

theorem settled_cons_of_not_touches {σ : Stamps} {g : Name} {e : TransFileEntry} {rest : TransFileTable}
    (h : ¬ Touches g e) : Settled σ g (e :: rest) ↔ Settled σ g rest := by
  have hs : ¬ Sets g e := fun hs => h ⟨hs.1, hs.2.elim Or.inl fun hm => Or.inr (Or.inl hm)⟩
  simp [Settled, h, hs]

theorem agree_update {σ ρ : Stamps} {e : TransFileEntry} {rest : TransFileTable} (a : WithBot ℕ)
    (ht : Touches e.name e) (hs : σ e.name = ⊥ → Sets e.name e) :
    (∀ g, Function.update ρ e.name a g ≠ Function.update σ e.name a g →
        Settled (Function.update σ e.name a) g rest) ↔
      ∀ g, ρ g ≠ σ g → Settled σ g (e :: rest) := by
  refine forall_congr' fun g => ?_
  by_cases hg : g = e.name
  · subst hg
    simp only [Function.update_self, ne_eq, not_true_eq_false, false_implies, true_iff]
    intro _
    exact ⟨fun _ => ⟨e, List.mem_cons_self, ht⟩, fun hb => ⟨e, List.mem_cons_self, hs hb⟩⟩
  · rw [settled_cons_of_not_touches fun h => hg h.1.symm]
    simp [Settled, hg]

theorem agree_skip {σ ρ : Stamps} {e : TransFileEntry} {rest : TransFileTable}
    (ht : ∀ g, Touches g e → σ g = ⊥ ∧ ¬ Sets g e) :
    (∀ g, ρ g ≠ σ g → Settled σ g rest) ↔ ∀ g, ρ g ≠ σ g → Settled σ g (e :: rest) := by
  refine forall_congr' fun g => imp_congr_right fun _ => ?_
  by_cases hg : Touches g e
  · obtain ⟨hb, hs⟩ := ht g hg
    simp [Settled, hb, hs]
  · exact (settled_cons_of_not_touches hg).symm

/-! ## A modify of an unknown name -/

section Unknown
variable {σ ρ : Stamps} {e : TransFileEntry} {rest : TransFileTable}

/-- The replica after the nameless entry has the empty name at a timestamp that is still behind. -/
theorem Behind.max_zero (h : Behind σ ρ) :
    max (ρ Name.empty) 0 = if σ Name.empty = ⊥ then 0 else ρ Name.empty := by
  rcases h Name.empty with h | ⟨h, -⟩ | ⟨-, h, -⟩
  · rw [h]
    split_ifs with hb
    · rw [hb]
      exact max_bot_left 0
    · obtain ⟨n, hn⟩ := WithBot.ne_bot_iff_exists.mp hb
      rw [← hn]
      exact max_eq_left (Nat.cast_le.mpr (Nat.zero_le n))
  · exact absurd rfl h
  · rw [h]
    split_ifs <;> exact max_self 0

theorem Behind.unknown (h : Behind σ ρ) (hb : σ e.name = ⊥) :
    Behind (Function.update σ e.name e.timestamp)
      (Function.update ρ Name.empty (max (ρ Name.empty) 0)) := by
  intro g
  rw [h.max_zero]
  by_cases hz : g = Name.empty
  · subst hz
    rw [Function.update_self]
    by_cases hg : Name.empty = e.name
    · rw [← hg] at hb ⊢
      rw [Function.update_self, if_pos hb]
      by_cases h0 : (0 : WithBot ℕ) = e.timestamp
      · exact Or.inl h0
      · exact Or.inr (Or.inr ⟨rfl, rfl, Ne.symm h0⟩)
    · rw [Function.update_of_ne hg]
      by_cases hzb : σ Name.empty = ⊥
      · rw [if_pos hzb, hzb]
        exact Or.inr (Or.inr ⟨rfl, rfl, WithBot.bot_ne_coe⟩)
      · rw [if_neg hzb]
        exact h Name.empty
  · rw [Function.update_of_ne hz]
    by_cases hg : g = e.name
    · subst hg
      rw [Function.update_self]
      rcases h e.name with h | ⟨-, -, h⟩ | ⟨h, -⟩
      · exact Or.inr (Or.inl ⟨hz, h.trans hb, WithBot.coe_ne_bot⟩)
      · exact absurd hb h
      · exact absurd h hz
    · rw [Function.update_of_ne hg]
      exact h g

/-- After a modify of an unknown name the replica disagrees on it, unless the nameless entry names it. -/
theorem disagree_self (h : Behind σ ρ) (hb : σ e.name = ⊥) :
    Function.update ρ Name.empty (max (ρ Name.empty) 0) e.name ≠ Function.update σ e.name e.timestamp e.name ↔
      e.name ≠ Name.empty ∨ e.timestamp ≠ 0 := by
  rw [h.max_zero, Function.update_self]
  by_cases hz : e.name = Name.empty
  · rw [hz] at hb ⊢
    rw [Function.update_self, if_pos hb]
    have h0 : (0 : WithBot ℕ) = e.timestamp ↔ e.timestamp = 0 := by
      rw [eq_comm]
      exact Nat.cast_eq_zero
    simp [h0]
  · rw [Function.update_of_ne hz]
    have hρ : ρ e.name = ⊥ := by
      rcases h e.name with h | ⟨-, h, -⟩ | ⟨h, -⟩
      · exact h.trans hb
      · exact h
      · exact absurd h hz
    rw [hρ]
    exact iff_of_true WithBot.bot_ne_coe (Or.inl hz)

theorem disagree_other (h : Behind σ ρ) {g : Name} (hg : g ≠ e.name) :
    Function.update ρ Name.empty (max (ρ Name.empty) 0) g ≠ Function.update σ e.name e.timestamp g ↔
      (g = Name.empty ∧ σ Name.empty = ⊥) ∨ ρ g ≠ σ g := by
  rw [h.max_zero, Function.update_of_ne hg]
  by_cases hz : g = Name.empty
  · subst hz
    rw [Function.update_self]
    split_ifs with hzb
    · rw [hzb]
      exact iff_of_true WithBot.coe_ne_bot (Or.inl ⟨rfl, rfl⟩)
    · simp [hzb]
  · rw [Function.update_of_ne hz]
    simp [hz]

/-- What has to be settled after a modify of an unknown name. -/
theorem agree_unknown (h : Behind σ ρ) (hop : e.opType = .fileModify) (hb : σ e.name = ⊥) :
    (∀ g, Function.update ρ Name.empty (max (ρ Name.empty) 0) g ≠ Function.update σ e.name e.timestamp g →
        Settled (Function.update σ e.name e.timestamp) g rest) ↔
      ModifyRepaired σ.known e rest ∧ ∀ g, ρ g ≠ σ g → Settled σ g (e :: rest) := by
  have hhead : Settled σ e.name (e :: rest) :=
    ⟨fun hne => absurd hb hne, fun _ => ⟨e, List.mem_cons_self, rfl, Or.inr hop⟩⟩
  have hself : Settled (Function.update σ e.name e.timestamp) e.name rest ↔ ∃ e' ∈ rest, Touches e.name e' := by
    simp [Settled]
  have hother : ∀ g, g ≠ e.name →
      (Settled (Function.update σ e.name e.timestamp) g rest ↔ Settled σ g (e :: rest)) := by
    intro g hg
    rw [settled_cons_of_not_touches fun ht => hg ht.1.symm]
    simp [Settled, hg]
  have hempty : σ Name.empty = ⊥ → (Settled σ Name.empty rest ↔ ∃ e' ∈ rest, Sets Name.empty e') := by
    intro hzb
    simp [Settled, hzb]
  constructor
  · intro hall
    refine ⟨fun _ _ => ⟨fun hne => ?_, fun hz hzb => ?_⟩, fun g hg => ?_⟩
    · exact hself.mp (hall e.name ((disagree_self h hb).mpr hne))
    · have hzb : σ Name.empty = ⊥ := not_not.mp hzb
      have := hall Name.empty ((disagree_other h (Ne.symm hz)).mpr (Or.inl ⟨rfl, hzb⟩))
      rw [hother _ (Ne.symm hz), settled_cons_of_not_touches fun ht => hz ht.1] at this
      exact (hempty hzb).mp this
    · by_cases hge : g = e.name
      · rw [hge]
        exact hhead
      · exact (hother g hge).mp (hall g ((disagree_other h hge).mpr (Or.inr hg)))
  · rintro ⟨hrep, hall⟩ g hg
    obtain ⟨hrep1, hrep2⟩ := hrep hop fun hk => hk hb
    by_cases hge : g = e.name
    · subst hge
      exact hself.mpr (hrep1 ((disagree_self h hb).mp hg))
    · rcases (disagree_other h hge).mp hg with ⟨rfl, hzb⟩ | hg
      · rw [hother _ hge, settled_cons_of_not_touches fun ht => hge ht.1.symm]
        exact (hempty hzb).mpr (hrep2 (Ne.symm hge) fun hk => hk hzb)
      · exact (hother g hge).mpr (hall g hg)

end Unknown

/-! ## Whole tables -/

/-- Tracker and replica after all entries. -/
def runBoth (σ ρ : Stamps) : TransFileTable → Stamps × Stamps
  | [] => (σ, ρ)
  | e :: rest => runBoth (trackStep σ e) (replicaStep σ ρ e) rest

theorem step_agree {σ ρ : Stamps} (h : Behind σ ρ) (e : TransFileEntry) (rest : TransFileTable) :
    Behind (trackStep σ e) (replicaStep σ ρ e) ∧
      ((∀ g, replicaStep σ ρ e g ≠ trackStep σ e g → Settled (trackStep σ e) g rest) ↔
        ModifyRepaired σ.known e rest ∧ ∀ g, ρ g ≠ σ g → Settled σ g (e :: rest)) := by
  have hvacuous : ∀ P : Prop, (e.opType = .fileModify → e.name ∈ σ.known) →
      (P ↔ ModifyRepaired σ.known e rest ∧ P) :=
    fun P hk => ⟨fun hP => ⟨fun ho hn => absurd (hk ho) hn, hP⟩, fun hP => hP.2⟩
  unfold trackStep replicaStep
  cases hop : e.opType with
  | fileAdd =>
    dsimp only
    rw [h.max_eq]
    refine ⟨h.update _ _, (agree_update _ ⟨rfl, Or.inl hop⟩ fun _ => ⟨rfl, Or.inl hop⟩).trans ?_⟩
    exact hvacuous _ (by simp [hop])
  | fileModify =>
    dsimp only
    split_ifs with hb
    · have hmax : max (σ e.name) (e.timestamp : WithBot ℕ) = e.timestamp := by rw [hb, max_bot_left]
      rw [hmax]
      exact ⟨h.unknown hb, agree_unknown h hop hb⟩
    · rw [h.max_eq]
      refine ⟨h.update _ _, (agree_update _ ⟨rfl, Or.inr (Or.inl hop)⟩ fun hb' => absurd hb' hb).trans ?_⟩
      exact hvacuous _ fun _ => hb
  | fileDelete =>
    dsimp only
    split_ifs with hb
    · have hid : Function.update σ e.name ⊥ = σ := by rw [← hb, Function.update_eq_self]
      rw [hid]
      refine ⟨h, (agree_skip fun g hg => ⟨hg.1 ▸ hb, fun hs => ?_⟩).trans (hvacuous _ (by simp [hop]))⟩
      have := hs.2
      simp [hop] at this
    · refine ⟨h.update _ _, (agree_update _ ⟨rfl, Or.inr (Or.inr hop)⟩ fun hb' => absurd hb' hb).trans ?_⟩
      exact hvacuous _ (by simp [hop])
  | fileNone =>
    refine ⟨h, (agree_skip fun g hg => ?_).trans (hvacuous _ (by simp [hop]))⟩
    have := hg.2
    simp [hop] at this
  | other c =>
    refine ⟨h, (agree_skip fun g hg => ?_).trans (hvacuous _ (by simp [hop]))⟩
    have := hg.2
    simp [hop] at this

theorem runBoth_agree_iff {σ ρ : Stamps} (h : Behind σ ρ) (tft : TransFileTable) :
    (runBoth σ ρ tft).2 = (runBoth σ ρ tft).1 ↔
      (∀ g, ρ g ≠ σ g → Settled σ g tft) ∧ ModifiesRepaired σ.known tft := by
  induction tft generalizing σ ρ with
  | nil =>
    constructor
    · intro heq
      exact ⟨fun g hg => absurd (congrFun heq g) hg, trivial⟩
    · rintro ⟨hall, -⟩
      funext g
      by_contra hg
      obtain ⟨h1, h2⟩ := hall g hg
      by_cases hb : σ g = ⊥
      · simpa using h2 hb
      · simpa using h1 hb
  | cons e rest ih =>
    obtain ⟨hbehind, hstep⟩ := step_agree h e rest
    rw [runBoth, ih hbehind, hstep, known_trackStep, ModifiesRepaired]
    constructor
    · rintro ⟨⟨h1, h2⟩, h3⟩
      exact ⟨h2, h1, h3⟩
    · rintro ⟨h2, h1, h3⟩
      exact ⟨⟨h1, h2⟩, h3⟩

theorem stamp_runBoth (myIp : UInt32) {ft R : FileTable} (hw : ft.Wf) (hR : R.Wf) (tft : TransFileTable) :
    runBoth ft.stamp R.stamp tft =
      ((peerFileUpdateTask ft tft).ft.stamp,
        (handleBroadcast myIp R (peerFileUpdateTask ft tft).newTft).stamp) := by
  induction tft generalizing ft R with
  | nil => rfl
  | cons e rest ih =>
    have hsplit : ∀ l l', handleBroadcast myIp R (l ++ l') = handleBroadcast myIp (handleBroadcast myIp R l) l' :=
      fun l l' => List.foldl_append
    rw [runBoth, peerFileUpdateTask_cons, ← stamp_track (s := ⟨ft, []⟩) hw e, ← stamp_replay myIp ft hR e]
    dsimp only
    rw [hsplit, ih (peerFileUpdateStep_wf (s := ⟨ft, []⟩) hw e) (wf_handleBroadcast myIp hR _)]

/-- **When a broadcast carries the update.** A replica that had the tracker's names and timestamps
has them again after replaying the broadcast exactly when every modify of a name unknown to the
tracker at that point is repaired by later entries of the same table. -/
theorem broadcast_faithful_iff (myIp : UInt32) (T R : FileTable) (hT : T.Wf) (hR : R.Wf)
    (hsame : R.stamp = T.stamp) (tft : TransFileTable) :
    (handleBroadcast myIp R (peerFileUpdateTask T tft).newTft).stamp = (peerFileUpdateTask T tft).ft.stamp ↔
      ModifiesRepaired T.names tft := by
  have hrun := stamp_runBoth myIp hT hR tft
  rw [hsame] at hrun
  have hiff := runBoth_agree_iff (Behind.refl T.stamp) tft
  rw [hrun] at hiff
  rw [hiff, known_stamp]
  exact ⟨fun h => h.2, fun h => ⟨fun g hg => absurd rfl hg, h⟩⟩

/-- An add is repaired trivially: its broadcast is faithful on fresh tables. -/
theorem broadcast_faithful_iff_add :
    let f : Name := ⟨[49, 47, 102], by decide, by decide⟩
    let e : TransFileEntry := ⟨f, 5, .fileAdd, .regular, [⟨1, P2P_PORT⟩]⟩
    (handleBroadcast 2 fileTableInit (peerFileUpdateTask fileTableInit [e]).newTft).stamp =
      (peerFileUpdateTask fileTableInit [e]).ft.stamp := by
  intro f e
  apply (broadcast_faithful_iff 2 fileTableInit fileTableInit FileTable.wf_init FileTable.wf_init rfl [e]).mpr
  exact ⟨fun h => absurd h (by decide), trivial⟩

/-- A modify of `1/f` at a tracker that does not know the name: the replica learns of the empty name
instead. -/
theorem broadcast_unknown_modify_lost :
    let f : Name := ⟨[49, 47, 102], by decide, by decide⟩
    let e : TransFileEntry := ⟨f, 5, .fileModify, .regular, [⟨1, P2P_PORT⟩]⟩
    fileTableInit.Wf ∧
      (handleBroadcast 2 fileTableInit (peerFileUpdateTask fileTableInit [e]).newTft).stamp f = ⊥ ∧
      (handleBroadcast 2 fileTableInit (peerFileUpdateTask fileTableInit [e]).newTft).stamp Name.empty = 0 ∧
      (peerFileUpdateTask fileTableInit [e]).ft.stamp f = 5 ∧
      (handleBroadcast 2 fileTableInit (peerFileUpdateTask fileTableInit [e]).newTft).stamp ≠
        (peerFileUpdateTask fileTableInit [e]).ft.stamp := by
  intro f e
  have h1 : (handleBroadcast 2 fileTableInit (peerFileUpdateTask fileTableInit [e]).newTft).stamp f = ⊥ := by
    decide
  have h2 : (peerFileUpdateTask fileTableInit [e]).ft.stamp f = 5 := by decide
  refine ⟨FileTable.wf_init, h1, by decide, h2, fun h => ?_⟩
  rw [h, h2] at h1
  cases h1

end TeleSync
