import TeleSync.Lib.KeyedList

/-!
# Rings of doubly linked cells

Cells of type `α` hold a pointer in either direction. A ring leads from one of its cells, its head, through the others
and back, and its pointers agree.

* `Heap`, `Heap.flip` : the memory, and the memory with the two directions exchanged;
* `Seg h a l b` : from `a` through `l` to `b`, in both directions; `Seg.flip` : the same backwards;
* `Inserts`, `Removes` : what changes in the memory when a cell comes between two others, or goes;
* `Seg.cons_insert`, `Seg.remove` : what that does to a segment;
* `Rings h seq` : the heads lead through the sequences `seq`, no cell twice; `Rings.cons`, `Rings.concat` and
  `Rings.remove` : the same for all rings at once.
-/

namespace Ring

/-! ## Memory -/

/-- The pointers of the cells, `none` for null. -/
@[ext]
structure Heap (α : Type*) where
  next : α → Option α
  prev : α → Option α

variable {α : Type*}

namespace Heap

/-- Either direction for the other. -/
def flip (h : Heap α) : Heap α := ⟨h.prev, h.next⟩

variable [DecidableEq α] (h : Heap α) (a : α) (p : Option α)

def setNext : Heap α := { h with next := Function.update h.next a p }

def setPrev : Heap α := { h with prev := Function.update h.prev a p }

@[simp] theorem next_setNext : (h.setNext a p).next = Function.update h.next a p := rfl
@[simp] theorem prev_setNext : (h.setNext a p).prev = h.prev := rfl
@[simp] theorem next_setPrev : (h.setPrev a p).next = h.next := rfl
@[simp] theorem prev_setPrev : (h.setPrev a p).prev = Function.update h.prev a p := rfl

end Heap

/-! ## Segments -/

/-- From `a` through `l` to `b`; each cell points to the next one, which points back. -/
def Seg (h : Heap α) (a : α) : List α → α → Prop
  | [], b => h.next a = some b ∧ h.prev b = some a
  | n :: l, b => h.next a = some n ∧ h.prev n = some a ∧ Seg h n l b

section Segments
variable {h h' : Heap α} {a b p n q : α} {l l₁ l₂ : List α}

theorem seg_append : Seg h a (l₁ ++ n :: l₂) b ↔ Seg h a l₁ n ∧ Seg h n l₂ b := by
  induction l₁ generalizing a with
  | nil => exact and_assoc.symm
  | cons c l₁ ih =>
    show _ ∧ _ ∧ Seg h c (l₁ ++ n :: l₂) b ↔ (_ ∧ _ ∧ Seg h c l₁ n) ∧ Seg h n l₂ b
    rw [ih, and_assoc, and_assoc]

theorem Seg.flip (hs : Seg h a l b) : Seg h.flip b l.reverse a := by
  induction l generalizing a with
  | nil => exact ⟨hs.2, hs.1⟩
  | cons n l ih =>
    rw [List.reverse_cons, seg_append]
    exact ⟨ih hs.2.2, hs.2.1, hs.1⟩

theorem Seg.next_eq (hs : Seg h a l b) : h.next a = some (l.headD b) := by
  cases l with
  | nil => exact hs.1
  | cons n l => exact hs.1

theorem Seg.prev_mem (hs : Seg h a l b) : ∃ p ∈ a :: l, h.prev b = some p := by
  induction l generalizing a with
  | nil => exact ⟨a, List.mem_cons_self, hs.2⟩
  | cons n l ih =>
    obtain ⟨p, hp, hprev⟩ := ih hs.2.2
    exact ⟨p, List.mem_cons_of_mem a hp, hprev⟩

theorem Seg.next_mem (hs : Seg h a l b) (hn : n ∈ a :: l) : ∃ q ∈ l ++ [b], h.next n = some q := by
  induction l generalizing a with
  | nil =>
    obtain rfl := List.mem_singleton.mp hn
    exact ⟨b, List.mem_cons_self, hs.1⟩
  | cons c l ih =>
    rcases List.mem_cons.mp hn with rfl | hn
    · exact ⟨c, List.mem_cons_self, hs.1⟩
    · obtain ⟨q, hq, hnext⟩ := ih hs.2.2 hn
      exact ⟨q, List.mem_cons_of_mem c hq, hnext⟩

theorem Seg.frame (hs : Seg h a l b) (hnext : ∀ c ∈ a :: l, h'.next c = h.next c)
    (hprev : ∀ c ∈ l ++ [b], h'.prev c = h.prev c) : Seg h' a l b := by
  induction l generalizing a with
  | nil => exact ⟨(hnext a List.mem_cons_self).trans hs.1, (hprev b List.mem_cons_self).trans hs.2⟩
  | cons n l ih =>
    refine ⟨(hnext a List.mem_cons_self).trans hs.1, (hprev n List.mem_cons_self).trans hs.2.1, ih hs.2.2 ?_ ?_⟩
    · exact fun c hc => hnext c (List.mem_cons_of_mem a hc)
    · exact fun c hc => hprev c (List.mem_cons_of_mem n hc)

/-! ## A cell comes or goes -/

/-- Cell `n` comes between `p` and `q`. -/
structure Inserts (h h' : Heap α) (p n q : α) : Prop where
  next_left : h'.next p = some n
  prev_self : h'.prev n = some p
  next_self : h'.next n = some q
  prev_right : h'.prev q = some n
  next_of_ne : ∀ a, a ≠ p → a ≠ n → h'.next a = h.next a
  prev_of_ne : ∀ a, a ≠ n → a ≠ q → h'.prev a = h.prev a

theorem Inserts.flip (hi : Inserts h h' p n q) : Inserts h.flip h'.flip q n p :=
  ⟨hi.prev_right, hi.next_self, hi.prev_self, hi.next_left, fun a hq hn => hi.prev_of_ne a hn hq,
    fun a hn hp => hi.next_of_ne a hp hn⟩

/-- Cell `n` goes from between `p` and `q`; what it then holds itself is left open. -/
structure Removes (h h' : Heap α) (p n q : α) : Prop where
  next_left : h'.next p = some q
  prev_right : h'.prev q = some p
  next_of_ne : ∀ a, a ≠ p → a ≠ n → h'.next a = h.next a
  prev_of_ne : ∀ a, a ≠ q → a ≠ n → h'.prev a = h.prev a

/-- A cell in front of a segment; the segment may end where it starts. -/
theorem Seg.cons_insert (hs : Seg h a l b) (hnodup : (a :: l).Nodup) (hb : b ∉ l) (hn : n ∉ a :: l) (hnb : n ≠ b)
    (hi : Inserts h h' a n (l.headD b)) : Seg h' a (n :: l) b := by
  refine ⟨hi.next_left, hi.prev_self, ?_⟩
  cases l with
  | nil => exact ⟨hi.next_self, hi.prev_right⟩
  | cons q l =>
    obtain ⟨ha, hq⟩ := List.nodup_cons.mp hnodup
    refine ⟨hi.next_self, hi.prev_right, hs.2.2.frame (fun c hc => ?_) fun c hc => ?_⟩
    · apply hi.next_of_ne
      · rintro rfl
        exact ha hc
      · rintro rfl
        exact hn (List.mem_cons_of_mem a hc)
    · rcases List.mem_append.mp hc with hc | hc
      · apply hi.prev_of_ne
        · rintro rfl
          exact hn (List.mem_cons_of_mem a (List.mem_cons_of_mem q hc))
        · rintro rfl
          exact (List.nodup_cons.mp hq).1 hc
      · obtain rfl := List.mem_singleton.mp hc
        apply hi.prev_of_ne
        · exact hnb.symm
        · rintro rfl
          exact hb List.mem_cons_self

theorem Seg.remove (hs : Seg h a (l₁ ++ n :: l₂) b) (hnodup : (a :: (l₁ ++ n :: l₂)).Nodup)
    (hb : b ∉ l₁ ++ n :: l₂) (hp : h.prev n = some p) (hq : h.next n = some q) (hr : Removes h h' p n q) :
    Seg h' a (l₁ ++ l₂) b := by
  induction l₁ generalizing a with
  | nil =>
    obtain ⟨-, hprev, hrest⟩ := hs
    obtain rfl : a = p := Option.some.inj (hprev.symm.trans hp)
    obtain ⟨ha, hnodup₂⟩ := List.nodup_cons.mp hnodup
    cases l₂ with
    | nil =>
      obtain rfl : b = q := Option.some.inj (hrest.1.symm.trans hq)
      exact ⟨hr.next_left, hr.prev_right⟩
    | cons c l₂ =>
      obtain rfl : c = q := Option.some.inj (hrest.1.symm.trans hq)
      obtain ⟨hn, hc⟩ := List.nodup_cons.mp hnodup₂
      refine ⟨hr.next_left, hr.prev_right, hrest.2.2.frame (fun d hd => ?_) fun d hd => ?_⟩
      · apply hr.next_of_ne
        · rintro rfl
          exact ha (List.mem_cons_of_mem n hd)
        · rintro rfl
          exact hn hd
      · rcases List.mem_append.mp hd with hd | hd
        · apply hr.prev_of_ne
          · rintro rfl
            exact (List.nodup_cons.mp hc).1 hd
          · rintro rfl
            exact hn (List.mem_cons_of_mem c hd)
        · obtain rfl := List.mem_singleton.mp hd
          apply hr.prev_of_ne
          · rintro rfl
            exact hb (List.mem_cons_of_mem n List.mem_cons_self)
          · rintro rfl
            exact hb List.mem_cons_self
  | cons c l₁ ih =>
    obtain ⟨hnext, hprev, hrest⟩ := hs
    obtain ⟨ha, hnodup₂⟩ := List.nodup_cons.mp hnodup
    obtain ⟨hc, -⟩ := List.nodup_cons.mp hnodup₂
    obtain ⟨hleft, hright⟩ := seg_append.mp hrest
    -- the neighbours of `n` are `c` or behind it on one side, and behind `n` or at the end on the other
    obtain ⟨p', hp', hprev'⟩ := hleft.prev_mem
    obtain rfl : p' = p := Option.some.inj (hprev'.symm.trans hp)
    have hqmem : q = l₂.headD b := Option.some.inj (hq.symm.trans hright.next_eq)
    refine ⟨?_, ?_, ih hrest hnodup₂ fun h => hb (List.mem_cons_of_mem c h)⟩
    · rw [hr.next_of_ne a]
      · exact hnext
      · rintro rfl
        rcases List.mem_cons.mp hp' with rfl | hp'
        · exact ha List.mem_cons_self
        · exact ha (List.mem_cons_of_mem c (List.mem_append_left _ hp'))
      · rintro rfl
        exact ha (List.mem_cons_of_mem c (List.mem_append_right _ List.mem_cons_self))
    · rw [hr.prev_of_ne c]
      · exact hprev
      · rintro rfl
        cases l₂ with
        | nil =>
          obtain rfl : c = b := hqmem
          exact hb List.mem_cons_self
        | cons d l₂ =>
          obtain rfl : c = d := hqmem
          exact hc (List.mem_append_right _ (List.mem_cons_of_mem n List.mem_cons_self))
      · rintro rfl
        exact hc (List.mem_append_right _ List.mem_cons_self)

end Segments

/-! ## All rings -/

/-- The heads lead through the sequences `seq`, and no cell is in two places. -/
structure Rings (h : Heap α) (seq : α → Option (List α)) : Prop where
  ring : ∀ d l, seq d = some l → Seg h d l d
  nodup : ∀ d l, seq d = some l → (d :: l).Nodup
  unique : ∀ d e l k n, seq d = some l → seq e = some k → n ∈ d :: l → n ∈ e :: k → d = e

/-- The cell is no head and hangs in no ring. -/
def Free (seq : α → Option (List α)) (n : α) : Prop := ∀ d l, seq d = some l → n ∉ d :: l

instance [Fintype α] [DecidableEq α] (seq : α → Option (List α)) (n : α) : Decidable (Free seq n) :=
  inferInstanceAs (Decidable (∀ d, ∀ l ∈ seq d, n ∉ d :: l))

/-- A cell holds what it held. -/
def SameCell (h h' : Heap α) (a : α) : Prop := h'.next a = h.next a ∧ h'.prev a = h.prev a

section All
variable {h h' : Heap α} {seq : α → Option (List α)} {d e n p q a : α} {l k l₁ l₂ : List α}

theorem SameCell.trans {h₁ h₂ h₃ : Heap α} (hs : SameCell h₁ h₂ a) (hs' : SameCell h₂ h₃ a) : SameCell h₁ h₃ a :=
  ⟨hs'.1.trans hs.1, hs'.2.trans hs.2⟩

theorem Seg.frame_ring (hs : Seg h d l d) (hsame : ∀ a ∈ d :: l, SameCell h h' a) : Seg h' d l d := by
  refine hs.frame (fun c hc => (hsame c hc).1) fun c hc => (hsame c ?_).2
  rcases List.mem_append.mp hc with hc | hc
  · exact List.mem_cons_of_mem d hc
  · exact List.mem_singleton.mp hc ▸ List.mem_cons_self

theorem Rings.flip (hc : Rings h seq) : Rings h.flip fun d => (seq d).map List.reverse := by
  have hmem : ∀ {d l n}, (seq d).map List.reverse = some l → ∃ k, seq d = some k ∧ k.reverse = l ∧
      (n ∈ d :: l ↔ n ∈ d :: k) := by
    intro d l n hd
    obtain ⟨k, hk, rfl⟩ := Option.map_eq_some_iff.mp hd
    exact ⟨k, hk, rfl, by rw [List.mem_cons, List.mem_cons, List.mem_reverse]⟩
  refine ⟨fun d l hd => ?_, fun d l hd => ?_, fun d e l k n hd he hnd hne => ?_⟩
  · obtain ⟨k, hk, rfl, -⟩ := hmem (n := d) hd
    exact (hc.ring d k hk).flip
  · obtain ⟨k, hk, rfl, -⟩ := hmem (n := d) hd
    have hnodup := List.nodup_cons.mp (hc.nodup d k hk)
    exact List.nodup_cons.mpr ⟨fun h => hnodup.1 (List.mem_reverse.mp h), List.nodup_reverse.mpr hnodup.2⟩
  · obtain ⟨l', hl', -, hl⟩ := hmem (n := n) hd
    obtain ⟨k', hk', -, hk⟩ := hmem (n := n) he
    exact hc.unique d e l' k' n hl' hk' (hl.mp hnd) (hk.mp hne)

theorem rings_empty (h : Heap α) : Rings h fun _ => none :=
  ⟨fun _ _ hd => (Option.some_ne_none _ hd.symm).elim, fun _ _ hd => (Option.some_ne_none _ hd.symm).elim,
    fun _ _ _ _ _ hd => (Option.some_ne_none _ hd.symm).elim⟩

/-- A cell of a ring lies between two cells of it. -/
theorem Rings.between (hc : Rings h seq) (hd : seq d = some l) (hn : n ∈ d :: l) :
    ∃ p ∈ d :: l, ∃ q ∈ d :: l, h.prev n = some p ∧ h.next n = some q := by
  obtain ⟨q, hq, hnext⟩ := (hc.ring d l hd).next_mem hn
  obtain ⟨p, hp, hprev⟩ := (hc.ring d l hd).flip.next_mem (n := n) (by simpa using hn)
  exact ⟨p, by simpa [or_comm] using hp, q, by simpa [or_comm] using hq, hprev, hnext⟩

/-- Only a head can be its own neighbour. -/
theorem Rings.neighbour_ne (hc : Rings h seq) (hd : seq d = some l) (hn : n ∈ l) :
    h.prev n ≠ some n ∧ h.next n ≠ some n := by
  obtain ⟨l₁, l₂, rfl⟩ := List.append_of_mem hn
  obtain ⟨hleft, hright⟩ := seg_append.mp (hc.ring d _ hd)
  obtain ⟨hdl, hl⟩ := List.nodup_cons.mp (hc.nodup d _ hd)
  have hdn : d ≠ n := fun h => hdl (h ▸ List.mem_append_right _ List.mem_cons_self)
  constructor
  · intro hself
    obtain ⟨p, hp, hprev⟩ := hleft.prev_mem
    obtain rfl : p = n := Option.some.inj (hprev.symm.trans hself)
    rcases List.mem_cons.mp hp with rfl | hp
    · exact hdn rfl
    · exact List.disjoint_of_nodup_append hl hp List.mem_cons_self
  · intro hself
    have hhead : l₂.headD d = n := Option.some.inj (hright.next_eq.symm.trans hself)
    cases l₂ with
    | nil => exact hdn hhead
    | cons c l₂ =>
      obtain rfl : c = n := hhead
      exact (List.nodup_cons.mp hl.of_append_right).1 List.mem_cons_self

theorem Rings.frame (hc : Rings h seq) (hsame : ∀ d l, seq d = some l → ∀ a ∈ d :: l, SameCell h h' a) :
    Rings h' seq :=
  ⟨fun d l hd => (hc.ring d l hd).frame_ring (hsame d l hd), hc.nodup, hc.unique⟩

theorem Rings.mono {seq' : α → Option (List α)} (hc : Rings h seq) (hsub : ∀ d l, seq' d = some l → seq d = some l) :
    Rings h seq' :=
  ⟨fun d l hd => hc.ring d l (hsub d l hd), fun d l hd => hc.nodup d l (hsub d l hd),
    fun d e l k n hd he => hc.unique d e l k n (hsub d l hd) (hsub e k he)⟩

variable [DecidableEq α]

theorem Free.update (hn : Free seq n) (hnl : n ∉ d :: l) : Free (Function.update seq d (some l)) n := by
  intro e k he
  rw [Function.update_apply] at he
  split_ifs at he with hed
  · rw [hed, ← Option.some.inj he]
    exact hnl
  · exact hn e k he

/-- One ring gets other cells, that it had or that were free. -/
theorem Rings.update (hc : Rings h seq) (hring : Seg h' d l d) (hnodup : (d :: l).Nodup)
    (hfrom : ∀ a ∈ d :: l, Free seq a ∨ ∃ k, seq d = some k ∧ a ∈ d :: k)
    (hsame : ∀ e k, e ≠ d → seq e = some k → ∀ a ∈ e :: k, SameCell h h' a) :
    Rings h' (Function.update seq d (some l)) := by
  have hother : ∀ e k a, e ≠ d → seq e = some k → a ∈ e :: k → a ∉ d :: l := by
    intro e k a hed he hae had
    rcases hfrom a had with hfree | ⟨k', hd, had'⟩
    · exact hfree e k he hae
    · exact hed (hc.unique e d k k' a he hd hae had')
  refine ⟨fun e k he => ?_, fun e k he => ?_, fun e f k k' a he hf hae haf => ?_⟩
  · rw [Function.update_apply] at he
    split_ifs at he with hed
    · obtain rfl := Option.some.inj he
      exact hed ▸ hring
    · exact (hc.ring e k he).frame_ring (hsame e k hed he)
  · rw [Function.update_apply] at he
    split_ifs at he with hed
    · obtain rfl := Option.some.inj he
      exact hed ▸ hnodup
    · exact hc.nodup e k he
  · rw [Function.update_apply] at he hf
    split_ifs at he hf with hed hfd hfd
    · exact hed.trans hfd.symm
    · obtain rfl := Option.some.inj he
      exact absurd (hed ▸ hae) (hother f k' a hfd hf haf)
    · obtain rfl := Option.some.inj hf
      exact absurd (hfd ▸ haf) (hother e k a hed he hae)
    · exact hc.unique e f k k' a he hf hae haf

theorem Rings.cons (hc : Rings h seq) (hd : seq d = some l) (hn : Free seq n) (hq : h.next d = some q)
    (hi : Inserts h h' d n q) : Rings h' (Function.update seq d (some (n :: l))) := by
  have hring := hc.ring d l hd
  have hnodup := hc.nodup d l hd
  have hnl : n ∉ d :: l := hn d l hd
  have hqmem : q ∈ d :: l := by
    obtain ⟨-, -, q', hq', -, hnext⟩ := hc.between hd List.mem_cons_self
    exact Option.some.inj (hnext.symm.trans hq) ▸ hq'
  obtain rfl : q = l.headD d := Option.some.inj (hq.symm.trans hring.next_eq)
  have hnd : n ≠ d := fun h => hnl (h ▸ List.mem_cons_self)
  refine hc.update (hring.cons_insert hnodup (List.nodup_cons.mp hnodup).1 hnl hnd hi) ?_ (fun a ha => ?_) ?_
  · rw [List.nodup_cons, List.mem_cons, List.nodup_cons]
    obtain ⟨hdl, hl⟩ := List.nodup_cons.mp hnodup
    exact ⟨not_or.mpr ⟨hnd.symm, hdl⟩, fun h => hnl (List.mem_cons_of_mem d h), hl⟩
  · rcases List.mem_cons.mp ha with rfl | ha
    · exact .inr ⟨l, hd, List.mem_cons_self⟩
    · rcases List.mem_cons.mp ha with rfl | ha
      · exact .inl hn
      · exact .inr ⟨l, hd, List.mem_cons_of_mem d ha⟩
  · intro e k hed he a ha
    have hout : ∀ b ∈ d :: l, a ≠ b := by
      rintro b hb rfl
      exact hed (hc.unique e d k l a he hd ha hb)
    have han : a ≠ n := fun h => hn e k he (h ▸ ha)
    exact ⟨hi.next_of_ne a (hout d List.mem_cons_self) han, hi.prev_of_ne a han (hout _ hqmem)⟩

/-- A free cell at the back, which is the front of the ring backwards. -/
theorem Rings.concat (hc : Rings h seq) (hd : seq d = some l) (hn : Free seq n) (hp : h.prev d = some p)
    (hi : Inserts h h' p n d) : Rings h' (Function.update seq d (some (l ++ [n]))) := by
  have hfree : Free (fun d => (seq d).map List.reverse) n := by
    intro e k he
    obtain ⟨k', hk', rfl⟩ := Option.map_eq_some_iff.mp he
    have hne := hn e k' hk'
    rwa [List.mem_cons, List.mem_reverse, ← List.mem_cons]
  have hrev : (fun d => (seq d).map List.reverse) d = some l.reverse := congrArg (Option.map List.reverse) hd
  have hback := (hc.flip.cons hrev hfree hp hi.flip).flip
  have hseq : (fun e => (Function.update (fun d => (seq d).map List.reverse) d (some (n :: l.reverse)) e).map
      List.reverse) = Function.update seq d (some (l ++ [n])) := by
    funext e
    rw [Function.update_apply, Function.update_apply]
    split_ifs
    · rw [Option.map_some, List.reverse_cons, List.reverse_reverse]
    · rw [Option.map_map, List.reverse_involutive.comp_self, Option.map_id]
      rfl
  rw [hseq] at hback
  exact hback

/-- A cell of a ring goes. -/
theorem Rings.remove (hc : Rings h seq) (hd : seq d = some l) (hn : n ∈ l) (hp : h.prev n = some p)
    (hq : h.next n = some q) (hr : Removes h h' p n q) : Rings h' (Function.update seq d (some (l.erase n))) := by
  obtain ⟨p', hp', q', hq', hprev, hnext⟩ := hc.between hd (List.mem_cons_of_mem d hn)
  obtain rfl : p' = p := Option.some.inj (hprev.symm.trans hp)
  obtain rfl : q' = q := Option.some.inj (hnext.symm.trans hq)
  have hnodup := hc.nodup d l hd
  refine hc.update ?_ (hnodup.sublist (l.erase_sublist.cons_cons d)) (fun a ha => .inr ⟨l, hd, ?_⟩) ?_
  · obtain ⟨l₁, l₂, rfl⟩ := List.append_of_mem hn
    obtain ⟨hdl, hl⟩ := List.nodup_cons.mp hnodup
    rw [KeyedList.erase_append_cons hl]
    exact (hc.ring d _ hd).remove hnodup hdl hp hq hr
  · rcases List.mem_cons.mp ha with rfl | ha
    · exact List.mem_cons_self
    · exact List.mem_cons_of_mem d (List.mem_of_mem_erase ha)
  · intro e k hed he a ha
    have hout : ∀ b ∈ d :: l, a ≠ b := by
      rintro b hb rfl
      exact hed (hc.unique e d k l a he hd ha hb)
    have han := hout n (List.mem_cons_of_mem d hn)
    exact ⟨hr.next_of_ne a (hout p' hp') han, hr.prev_of_ne a (hout q' hq') han⟩

end All

end Ring
