import TeleSync.Lib.KeyedList

/-!
# Chains with pointers back to pointers

Nodes of type `α` hang in chains that start at heads of type `β`. A node holds the next node and the address of the
pointer that leads to it, which is that of a head or of another node.

* `Slot`, `Heap` : the addresses of such pointers, and the memory;
* `Chain h r l` : the pointer at `r` leads through the nodes `l`, each of which points back, to a null pointer;
* `Chain.move` : a chain that another pointer takes over; `Chain.remove` : the pointer to a node skips it;
* `Chained h c` : the heads hold the chains `c`, no node twice;
* `Links`, `Unlinks` : what changes in the memory when a node is put in front of a chain, or taken out of one;
  `Chained.link`, `Chained.unlink` : so change the chains.
-/

namespace PointerChain

/-! ## Memory -/

/-- The address of a pointer to a node. -/
inductive Slot (β α : Type*) where
  | first (head : β)
  | next (n : α)
  deriving DecidableEq

/-- The pointers in heads and nodes, `none` for null, and the addresses that the nodes hold. -/
@[ext]
structure Heap (β α : Type*) where
  ptr : Slot β α → Option α
  pprev : α → Option (Slot β α)

variable {β α : Type*}

namespace Heap

/-- Store a pointer at an address. -/
def set [DecidableEq (Slot β α)] (h : Heap β α) (r : Slot β α) (p : Option α) : Heap β α :=
  { h with ptr := Function.update h.ptr r p }

def setPprev [DecidableEq α] (h : Heap β α) (n : α) (r : Option (Slot β α)) : Heap β α :=
  { h with pprev := Function.update h.pprev n r }

variable (h : Heap β α) (r : Slot β α) (p : Option α) (n : α) (q : Option (Slot β α))

@[simp] theorem ptr_set [DecidableEq (Slot β α)] : (h.set r p).ptr = Function.update h.ptr r p := rfl
@[simp] theorem pprev_set [DecidableEq (Slot β α)] : (h.set r p).pprev = h.pprev := rfl
@[simp] theorem ptr_setPprev [DecidableEq α] : (h.setPprev n q).ptr = h.ptr := rfl
@[simp] theorem pprev_setPprev [DecidableEq α] : (h.setPprev n q).pprev = Function.update h.pprev n q := rfl

end Heap

/-! ## One chain -/

/-- The pointer at `r` leads through `l` to null, and every node knows the address of the pointer to it. -/
def Chain (h : Heap β α) (r : Slot β α) : List α → Prop
  | [] => h.ptr r = none
  | n :: l => h.ptr r = some n ∧ h.pprev n = some r ∧ Chain h (.next n) l

section Chains
variable {h h' : Heap β α} {r r' s : Slot β α} {n : α} {l l₁ l₂ : List α}

theorem Chain.ptr_eq (hl : Chain h r l) : h.ptr r = l.head? := by
  cases l with
  | nil => exact hl
  | cons n l => exact hl.1

theorem Chain.pprev_head (hl : Chain h r l) {f : α} (hf : f ∈ l.head?) : h.pprev f = some r := by
  cases l with
  | nil => cases hf
  | cons n l =>
    obtain rfl : n = f := Option.some.inj hf
    exact hl.2.1

theorem Chain.drop (hl : Chain h r (l₁ ++ n :: l₂)) : Chain h (.next n) l₂ := by
  induction l₁ generalizing r with
  | nil => exact hl.2.2
  | cons a l₁ ih => exact ih hl.2.2

/-- The pointer to a node is the first one or that of a node of the chain, and the node knows it. -/
theorem Chain.pprev_eq (hl : Chain h r l) (hn : n ∈ l) :
    ∃ s, h.pprev n = some s ∧ h.ptr s = some n ∧ (s = r ∨ ∃ a ∈ l, s = .next a) := by
  induction l generalizing r with
  | nil => cases hn
  | cons a l ih =>
    obtain ⟨hptr, hback, hrest⟩ := hl
    rcases List.mem_cons.mp hn with rfl | hn
    · exact ⟨r, hback, hptr, .inl rfl⟩
    · obtain ⟨s, hs, hptrs, hfrom⟩ := ih hrest hn
      refine ⟨s, hs, hptrs, .inr ?_⟩
      rcases hfrom with rfl | ⟨b, hb, rfl⟩
      · exact ⟨a, List.mem_cons_self, rfl⟩
      · exact ⟨b, List.mem_cons_of_mem _ hb, rfl⟩

/-- The pointer at `r'` takes the chain over. -/
theorem Chain.move (hl : Chain h r l) (hptr : h'.ptr r' = h.ptr r) (hhead : ∀ f ∈ l.head?, h'.pprev f = some r')
    (hnext : ∀ a ∈ l, h'.ptr (.next a) = h.ptr (.next a)) (hpprev : ∀ a ∈ l.tail, h'.pprev a = h.pprev a) :
    Chain h' r' l := by
  induction l generalizing r r' with
  | nil => exact hptr.trans hl
  | cons n l ih =>
    obtain ⟨hn, -, hrest⟩ := hl
    refine ⟨hptr.trans hn, hhead n rfl, ih hrest (hnext n List.mem_cons_self) ?_ ?_ ?_⟩
    · intro f hf
      rw [hpprev f (List.mem_of_mem_head? hf), hrest.pprev_head hf]
    · exact fun a ha => hnext a (List.mem_cons_of_mem _ ha)
    · exact fun a ha => hpprev a (List.mem_of_mem_tail ha)

theorem Chain.frame (hl : Chain h r l) (hptr : h'.ptr r = h.ptr r)
    (hsame : ∀ a ∈ l, h'.ptr (.next a) = h.ptr (.next a) ∧ h'.pprev a = h.pprev a) : Chain h' r l := by
  refine hl.move hptr (fun f hf => ?_) (fun a ha => (hsame a ha).1) fun a ha => (hsame a (List.mem_of_mem_tail ha)).2
  rw [(hsame f (List.mem_of_mem_head? hf)).2, hl.pprev_head hf]

/-! ## Taking a node out -/

/-- The pointer at `s` to node `n`, and the successor of `n`, skip `n`; nothing else changes but in `n` itself. -/
structure Unlinks (h h' : Heap β α) (n : α) (s : Slot β α) : Prop where
  ptr : h'.ptr s = h.ptr (.next n)
  pprev : ∀ f, h.ptr (.next n) = some f → h'.pprev f = some s
  ptr_of_ne : ∀ t, t ≠ s → t ≠ .next n → h'.ptr t = h.ptr t
  pprev_of_ne : ∀ a, a ≠ n → h.ptr (.next n) ≠ some a → h'.pprev a = h.pprev a

theorem Chain.remove (hl : Chain h r (l₁ ++ n :: l₂)) (hnodup : (l₁ ++ n :: l₂).Nodup)
    (hr : ∀ a ∈ l₁ ++ n :: l₂, r ≠ .next a) (hs : h.pprev n = some s) (hu : Unlinks h h' n s) :
    Chain h' r (l₁ ++ l₂) := by
  induction l₁ generalizing r with
  | nil =>
    obtain ⟨-, hback, hrest⟩ := hl
    obtain rfl : r = s := Option.some.inj (hback.symm.trans hs)
    have hnext := hrest.ptr_eq
    obtain ⟨hn, hnodup₂⟩ := List.nodup_cons.mp hnodup
    -- the pointer at `r` takes over what was behind `n`
    refine hrest.move hu.ptr (fun f hf => hu.pprev f (hnext.trans hf)) (fun a ha => ?_) fun a ha => ?_
    · refine hu.ptr_of_ne _ (fun h => hr a (List.mem_cons_of_mem _ ha) h.symm) fun h => ?_
      cases h
      exact hn ha
    · refine hu.pprev_of_ne a (fun h => hn (h ▸ List.mem_of_mem_tail ha)) fun h => ?_
      rw [hnext] at h
      cases l₂ with
      | nil => cases h
      | cons b l₂ =>
        obtain rfl : b = a := Option.some.inj h
        exact (List.nodup_cons.mp hnodup₂).1 ha
  | cons a l₁ ih =>
    obtain ⟨hptr, hback, hrest⟩ := hl
    obtain ⟨ha, hnodup₂⟩ := List.nodup_cons.mp hnodup
    have hnmem : n ∈ l₁ ++ n :: l₂ := List.mem_append_right _ List.mem_cons_self
    -- the pointer to `n` is that of `a` or of a node behind it
    obtain ⟨s', hs', -, hfrom⟩ := hrest.pprev_eq hnmem
    obtain rfl : s' = s := Option.some.inj (hs'.symm.trans hs)
    have hrs : r ≠ s' := by
      rcases hfrom with rfl | ⟨b, hb, rfl⟩
      · exact hr a List.mem_cons_self
      · exact hr b (List.mem_cons_of_mem _ hb)
    refine ⟨?_, ?_, ih hrest hnodup₂ fun b hb h => ?_⟩
    · rw [hu.ptr_of_ne r hrs (hr n (List.mem_cons_of_mem _ hnmem))]
      exact hptr
    · rw [hu.pprev_of_ne a (fun h => ha (h ▸ hnmem)) fun h => ?_]
      · exact hback
      · have hhead := hrest.drop.ptr_eq
        rw [h] at hhead
        exact ha (List.mem_append_right _ (List.mem_cons_of_mem _ (List.mem_of_mem_head? hhead.symm)))
    · cases h
      exact ha hb

end Chains

/-! ## All chains -/

/-- The heads hold the chains `c`, and no node is in two places. -/
structure Chained (h : Heap β α) (c : β → List α) : Prop where
  chain : ∀ i, Chain h (.first i) (c i)
  nodup : ∀ i, (c i).Nodup
  unique : ∀ i j n, n ∈ c i → n ∈ c j → i = j

/-- Node `n` is put in front of the chain of head `i`, and nothing else changes. -/
structure Links (h h' : Heap β α) (i : β) (n : α) : Prop where
  first : h'.ptr (.first i) = some n
  pprev : h'.pprev n = some (.first i)
  next : h'.ptr (.next n) = h.ptr (.first i)
  pprev_first : ∀ f, h.ptr (.first i) = some f → h'.pprev f = some (.next n)
  ptr_of_ne : ∀ t, t ≠ .first i → t ≠ .next n → h'.ptr t = h.ptr t
  pprev_of_ne : ∀ a, a ≠ n → h.ptr (.first i) ≠ some a → h'.pprev a = h.pprev a

/-- A node holds what it held. -/
def SameNode (h h' : Heap β α) (a : α) : Prop := h'.ptr (.next a) = h.ptr (.next a) ∧ h'.pprev a = h.pprev a

theorem SameNode.trans {h₁ h₂ h₃ : Heap β α} {a : α} (h : SameNode h₁ h₂ a) (h' : SameNode h₂ h₃ a) :
    SameNode h₁ h₃ a := ⟨h'.1.trans h.1, h'.2.trans h.2⟩

section All
variable {h h' : Heap β α} {c : β → List α} {i : β} {n a : α} {s : Slot β α}

theorem chained_empty (hfirst : ∀ i, h.ptr (.first i) = none) : Chained h fun _ => [] where
  chain := hfirst
  nodup _ := List.nodup_nil
  unique _ _ _ hn := absurd hn List.not_mem_nil

theorem Chained.ptr_first (hc : Chained h c) (i : β) : h.ptr (.first i) = (c i).head? := (hc.chain i).ptr_eq

/-- A linked node points back to the pointer to it, which is that of its head or of a node of its chain. -/
theorem Chained.pprev_eq (hc : Chained h c) (hn : n ∈ c i) :
    ∃ s, h.pprev n = some s ∧ h.ptr s = some n ∧ (s = .first i ∨ ∃ a ∈ c i, s = .next a) :=
  (hc.chain i).pprev_eq hn

theorem Chained.next_mem (hc : Chained h c) (hn : n ∈ c i) (ha : h.ptr (.next n) = some a) : a ∈ c i := by
  obtain ⟨l₁, l₂, hsplit⟩ := List.append_of_mem hn
  have hchain := hc.chain i
  rw [hsplit] at hchain ⊢
  have hhead := hchain.drop.ptr_eq
  rw [ha] at hhead
  exact List.mem_append_right _ (List.mem_cons_of_mem _ (List.mem_of_mem_head? hhead.symm))

theorem Chained.next_ne (hc : Chained h c) (hn : n ∈ c i) : h.ptr (.next n) ≠ some n := by
  intro hself
  obtain ⟨l₁, l₂, hsplit⟩ := List.append_of_mem hn
  have hchain := hc.chain i
  have hnodup := hc.nodup i
  rw [hsplit] at hchain hnodup
  have hhead := hchain.drop.ptr_eq
  rw [hself] at hhead
  exact (List.nodup_cons.mp hnodup.of_append_right).1 (List.mem_of_mem_head? hhead.symm)

/-- Putting a node in front of chain `i` touches this node and that chain. -/
theorem Chained.same_of_links (hc : Chained h c) (hl : Links h h' i n) (hne : a ≠ n) (ha : a ∉ c i) :
    SameNode h h' a := by
  constructor
  · apply hl.ptr_of_ne
    · exact nofun
    · exact fun h => hne (Slot.next.inj h)
  · apply hl.pprev_of_ne a hne
    rw [hc.ptr_first]
    exact fun h => ha (List.mem_of_mem_head? h)

theorem Chained.same_of_unlinks (hc : Chained h c) (hn : n ∈ c i) (hs : h.pprev n = some s) (hu : Unlinks h h' n s)
    (ha : a ∉ c i) : SameNode h h' a := by
  have hne : a ≠ n := fun h => ha (h ▸ hn)
  constructor
  · apply hu.ptr_of_ne
    · rintro rfl
      obtain ⟨s', hs', -, hfrom⟩ := hc.pprev_eq hn
      obtain rfl := Option.some.inj (hs'.symm.trans hs)
      rcases hfrom with h | ⟨b, hb, h⟩
      · cases h
      · exact ha (Slot.next.inj h ▸ hb)
    · exact fun h => hne (Slot.next.inj h)
  · exact hu.pprev_of_ne a hne fun h => ha (hc.next_mem hn h)

theorem Chained.first_of_unlinks (hc : Chained h c) (hn : n ∈ c i) (hs : h.pprev n = some s) (hu : Unlinks h h' n s)
    {j : β} (hj : j ≠ i) : h'.ptr (.first j) = h.ptr (.first j) := by
  apply hu.ptr_of_ne
  · rintro rfl
    obtain ⟨s', hs', -, hfrom⟩ := hc.pprev_eq hn
    obtain rfl := Option.some.inj (hs'.symm.trans hs)
    rcases hfrom with h | ⟨b, hb, h⟩
    · exact hj (Slot.first.inj h)
    · cases h
  · exact nofun

theorem Chained.link [DecidableEq β] (hc : Chained h c) (hn : ∀ j, n ∉ c j) (hl : Links h h' i n) :
    Chained h' (Function.update c i (n :: c i)) := by
  have hmem : ∀ j a, a ∈ Function.update c i (n :: c i) j → (j = i ∧ a = n) ∨ a ∈ c j := by
    intro j a ha
    rw [Function.update_apply] at ha
    split_ifs at ha with hj
    · exact (List.mem_cons.mp ha).imp (fun h => ⟨hj, h⟩) fun h => hj ▸ h
    · exact .inr ha
  refine ⟨fun j => ?_, fun j => ?_, fun j k a hj hk => ?_⟩
  · rw [Function.update_apply]
    split_ifs with hj
    · subst hj
      have hchain := hc.chain j
      have hfirst := hchain.ptr_eq
      refine ⟨hl.first, hl.pprev, hchain.move hl.next (fun f hf => ?_) (fun a ha => ?_) fun a ha => ?_⟩
      · exact hl.pprev_first f (hfirst.trans hf)
      · apply hl.ptr_of_ne
        · exact nofun
        · exact fun h => hn j (Slot.next.inj h ▸ ha)
      · refine hl.pprev_of_ne a (fun h => hn j (h ▸ List.mem_of_mem_tail ha)) fun h => ?_
        rw [hfirst] at h
        have hnodup := hc.nodup j
        rw [← List.cons_head?_tail h, List.nodup_cons] at hnodup
        exact hnodup.1 ha
    · refine (hc.chain j).frame (hl.ptr_of_ne _ (fun h => hj (Slot.first.inj h)) nofun) fun a ha => ?_
      exact hc.same_of_links hl (fun h => hn j (h ▸ ha)) fun hi => hj (hc.unique j i a ha hi)
  · rw [Function.update_apply]
    split_ifs with hj
    · exact List.nodup_cons.mpr ⟨hn i, hc.nodup i⟩
    · exact hc.nodup j
  · rcases hmem j a hj with ⟨rfl, rfl⟩ | hj'
    · rcases hmem k a hk with ⟨rfl, -⟩ | hk'
      · rfl
      · exact absurd hk' (hn k)
    · rcases hmem k a hk with ⟨rfl, rfl⟩ | hk'
      · exact absurd hj' (hn j)
      · exact hc.unique j k a hj' hk'

/-- A node hangs in one chain, and is erased from no other. -/
theorem Chained.erase_of_ne [DecidableEq α] (hc : Chained h c) (hn : n ∈ c i) {j : β} (hj : j ≠ i) :
    (c j).erase n = c j :=
  List.erase_of_not_mem fun h => hj (hc.unique j i n h hn)

theorem Chained.unlink [DecidableEq α] (hc : Chained h c) (hn : n ∈ c i) (hs : h.pprev n = some s)
    (hu : Unlinks h h' n s) : Chained h' fun j => (c j).erase n := by
  refine ⟨fun j => ?_, fun j => (hc.nodup j).erase n, fun j k a hj hk =>
    hc.unique j k a (List.mem_of_mem_erase hj) (List.mem_of_mem_erase hk)⟩
  by_cases hj : j = i
  · subst hj
    obtain ⟨l₁, l₂, hsplit⟩ := List.append_of_mem hn
    have hchain := hc.chain j
    have hnodup := hc.nodup j
    rw [hsplit] at hchain hnodup
    show Chain h' (.first j) ((c j).erase n)
    rw [hsplit, KeyedList.erase_append_cons hnodup]
    exact hchain.remove hnodup (fun _ _ => nofun) hs hu
  · show Chain h' (.first j) ((c j).erase n)
    rw [hc.erase_of_ne hn hj]
    refine (hc.chain j).frame (hc.first_of_unlinks hn hs hu hj) fun a ha => ?_
    exact hc.same_of_unlinks hn hs hu fun hi => hj (hc.unique j i a ha hi)

end All

end PointerChain
