import TeleSync.Lib.PointerChain
import TeleSync.Lib.Transition
import TeleSync.Table.FileTable

/-!
# Hash chains in memory

The hash lists of `list.h` and `hash.h`, pointer by pointer: a node is linked and unlinked through the address of the
pointer that leads to it, and the iteration macros save the next node before their body runs.

* `hlistAddHead` .. `hashDel` : the list operations, statement by statement;
* `hashTable` : `hash_add` of unhashed nodes and `hash_del` of any, in any order;
* `chainsAfter` : the chains that such a sequence stands for;
* `Represents` : the memory holds these chains, and all other nodes are unhashed;
* `hlistForEachEntrySafe`, `hashForEachSafe` : the macros, with the cursor they share;
* `hash_chains` : every sequence of operations leaves the memory that stands for its chains, and the iteration visits
  every linked node once whatever nodes its body deletes and frees.
-/

namespace TeleSync.Hlist
open ChainTable PointerChain Transition

/-! ## Operations -/

section Operations
variable {m : ℕ} {α : Type} [DecidableEq α]

/-- `INIT_HLIST_NODE` -/
def initHlistNode (n : α) (h : Heap (Fin m) α) : Heap (Fin m) α := (h.set (.next n) none).setPprev n none

/-- `hlist_add_head` -/
def hlistAddHead (n : α) (head : Fin m) (h : Heap (Fin m) α) : Heap (Fin m) α :=
  let first := h.ptr (.first head)
  let h := h.set (.next n) first
  let h := match first with
    | none => h
    | some first => h.setPprev first (some (.next n))
  let h := h.set (.first head) (some n)
  h.setPprev n (some (.first head))

/-- `hlist_unhashed` -/
def hlistUnhashed (n : α) (h : Heap (Fin m) α) : Bool := (h.pprev n).isNone

/-- `__hlist_del` of a node whose `pprev` is not null. -/
def hlistDel (n : α) (pprev : Slot (Fin m) α) (h : Heap (Fin m) α) : Heap (Fin m) α :=
  let next := h.ptr (.next n)
  let h := h.set pprev next
  match next with
  | none => h
  | some next => h.setPprev next (some pprev)

/-- `hlist_del_init` -/
def hlistDelInit (n : α) (h : Heap (Fin m) α) : Heap (Fin m) α :=
  match h.pprev n with
  | none => h
  | some pprev => initHlistNode n (hlistDel n pprev h)

/-- `hash_init`: one head after the other. -/
def hashInit (h : Heap (Fin m) α) : Heap (Fin m) α := (List.finRange m).foldl (fun h i => h.set (.first i) none) h

/-- `hash_del` -/
def hashDel (n : α) (h : Heap (Fin m) α) : Heap (Fin m) α := hlistDelInit n h

end Operations

theorem hash32_toNat_lt (val : BitVec 32) (bits : ℕ) : (hash32 val bits).toNat < 2 ^ bits := by
  rw [hash32, BitVec.toNat_ushiftRight, Nat.shiftRight_eq_div_pow]
  apply Nat.div_lt_of_lt_mul
  rw [← pow_add]
  exact lt_of_lt_of_le (BitVec.isLt _) (Nat.pow_le_pow_right (by decide) (by omega))

/-- `hash_min` for a table of `2 ^ bits` buckets. -/
def hashMinBits (bits : ℕ) (val : BitVec 32) : Fin (2 ^ bits) := ⟨(hash32 val bits).toNat, hash32_toNat_lt val bits⟩

example : hashMinBits FILE_HASH_BITS = hashMin := rfl

section Table
variable {bits : ℕ} {α : Type} [DecidableEq α]

/-- `hash_add` -/
def hashAdd (n : α) (key : BitVec 32) (h : Heap (Fin (2 ^ bits)) α) : Heap (Fin (2 ^ bits)) α :=
  hlistAddHead n (hashMinBits bits key) h

inductive HashOp (α : Type) where
  | add (n : α) (key : BitVec 32)
  | del (n : α)
  deriving DecidableEq

/-- Nodes are added when they are unhashed, and deleted at any time. -/
def hashTable (bits : ℕ) (α : Type) [DecidableEq α] : System (Heap (Fin (2 ^ bits)) α) (HashOp α) where
  step h
    | .add n key => if hlistUnhashed n h then some (hashAdd n key h) else none
    | .del n => some (hashDel n h)

/-- What an operation does to the chains. -/
def HashOp.apply (c : Buckets (2 ^ bits) α) : HashOp α → Buckets (2 ^ bits) α
  | .add n key => Scheme.addHead c (hashMinBits bits key) n
  | .del n => fun i => (c i).erase n

/-- The chains of a sequence of operations on an empty table. -/
def chainsAfter (bits : ℕ) (ops : List (HashOp α)) : Buckets (2 ^ bits) α := ops.foldl HashOp.apply fun _ => []

end Table

/-! ## Iteration -/

section Iteration
variable {m : ℕ} {α : Type}

/-- `hlist_for_each_entry_safe`, with the nodes visited so far; `none` when it takes `fuel` rounds or more. -/
def hlistForEachEntrySafe (body : α → Heap (Fin m) α → Heap (Fin m) α) :
    ℕ → Option α → Heap (Fin m) α → List α → Option (Option α × Heap (Fin m) α × List α)
  | 0, _, _, _ => none
  | _ + 1, none, h, visited => some (none, h, visited)
  | fuel + 1, some pos, h, visited =>
    let n := h.ptr (.next pos)
    hlistForEachEntrySafe body fuel n (body pos h) (visited ++ [pos])

/-- `hash_for_each_safe`: `obj` is the cursor of the inner loop, and ends the outer one unless it is null. -/
def hashForEachSafe (body : α → Heap (Fin m) α → Heap (Fin m) α) :
    ℕ → ℕ → Option α → Heap (Fin m) α → List α → Option (Option α × Heap (Fin m) α × List α)
  | 0, _, _, _, _ => none
  | fuel + 1, bkt, obj, h, visited =>
    if hb : obj = none ∧ bkt < m then
      (hlistForEachEntrySafe body fuel (h.ptr (.first ⟨bkt, hb.2⟩)) h visited).bind fun r =>
        hashForEachSafe body fuel (bkt + 1) r.1 r.2.1 r.2.2
    else some (obj, h, visited)

variable [DecidableEq α]

/-- `free`: a node holds whatever the allocator leaves in it. -/
def free (n : α) (junk : Option α × Option (Slot (Fin m) α)) (h : Heap (Fin m) α) : Heap (Fin m) α :=
  (h.set (.next n) junk.1).setPprev n junk.2

/-- A body that deletes and frees the node that it visits, for the nodes in `del`. -/
def visit (del : α → Bool) (junk : α → Option α × Option (Slot (Fin m) α)) (pos : α) (h : Heap (Fin m) α) :
    Heap (Fin m) α :=
  if del pos then free pos (junk pos) (hashDel pos h) else h

end Iteration

/-! ## One operation -/

section Steps
variable {m : ℕ} {α : Type} [DecidableEq α] {h h' : Heap (Fin m) α} {c : Buckets m α} {n : α} {i : Fin m}
  {s : Slot (Fin m) α}

theorem foldl_setFirst (l : List (Fin m)) (h : Heap (Fin m) α) :
    (∀ i ∈ l, (l.foldl (fun h i => h.set (.first i) none) h).ptr (.first i) = none) ∧
      (l.foldl (fun h i => h.set (.first i) none) h).pprev = h.pprev := by
  induction l using List.reverseRecOn with
  | nil => exact ⟨fun i hi => absurd hi List.not_mem_nil, rfl⟩
  | append_singleton l j ih =>
    rw [List.foldl_append]
    refine ⟨fun i hi => ?_, ih.2⟩
    rw [List.foldl_cons, List.foldl_nil, Heap.ptr_set, Function.update_apply]
    split_ifs with hij
    · rfl
    · rcases List.mem_append.mp hi with hi | hi
      · exact ih.1 i hi
      · exact absurd (congrArg Slot.first (List.mem_singleton.mp hi)) hij

/-- `hlist_add_head` puts a node that is not there yet in front. -/
theorem links_hlistAddHead (hn : h.ptr (.first i) ≠ some n) : Links h (hlistAddHead n i h) i n := by
  unfold hlistAddHead
  cases hfirst : h.ptr (.first i) with
  | none =>
    constructor
    · simp
    · simp
    · simp [hfirst]
    · simp [hfirst]
    · intro t hti htn
      simp [hti, htn]
    · intro a ha _
      simp [ha]
  | some first =>
    have hne : first ≠ n := fun h => hn (hfirst.trans (congrArg some h))
    constructor
    · simp
    · simp
    · simp [hfirst]
    · simp [hfirst, hne]
    · intro t hti htn
      simp [hti, htn]
    · intro a ha haf
      have hfa : a ≠ first := fun h => haf (h ▸ hfirst)
      simp [ha, hfa]

/-- `hash_del` takes a node out through the pointer to it. -/
theorem unlinks_hashDel (hs : h.pprev n = some s) (hself : h.ptr (.next n) ≠ some n) (hsn : s ≠ .next n) :
    Unlinks h (hashDel n h) n s := by
  unfold hashDel hlistDelInit
  rw [hs]
  unfold initHlistNode hlistDel
  cases hnext : h.ptr (.next n) with
  | none =>
    constructor
    · simp [hnext, hsn]
    · simp [hnext]
    · intro t hts htn
      simp [hts, htn]
    · intro a ha _
      simp [ha]
  | some f =>
    have hfn : f ≠ n := fun h => hself (hnext.trans (congrArg some h))
    constructor
    · simp [hnext, hsn]
    · simp [hnext, hfn]
    · intro t hts htn
      simp [hts, htn]
    · intro a ha haf
      have hfa : a ≠ f := fun h => haf (h ▸ hnext)
      simp [ha, hfa]

/-- What a freed node holds does not matter. -/
theorem unlinks_free (hu : Unlinks h h' n s) (hself : h.ptr (.next n) ≠ some n) (hsn : s ≠ .next n)
    (junk : Option α × Option (Slot (Fin m) α)) : Unlinks h (free n junk h') n s := by
  constructor
  · simp [free, hsn, hu.ptr]
  · intro f hf
    have hfn : f ≠ n := fun h => hself (h ▸ hf)
    simp [free, hfn, hu.pprev f hf]
  · intro t hts htn
    simp [free, htn, hu.ptr_of_ne t hts htn]
  · intro a ha haf
    simp [free, ha, hu.pprev_of_ne a ha haf]

theorem unlinks_of_chained (hc : Chained h c) (hn : n ∈ c i) :
    ∃ s, h.pprev n = some s ∧ Unlinks h (hashDel n h) n s ∧
      ∀ junk, Unlinks h (free n junk (hashDel n h)) n s := by
  obtain ⟨s, hs, hptr, -⟩ := hc.pprev_eq hn
  have hself := hc.next_ne hn
  have hsn : s ≠ .next n := fun h => hself (h ▸ hptr)
  have hu := unlinks_hashDel hs hself hsn
  exact ⟨s, hs, hu, unlinks_free hu hself hsn⟩

theorem hashDel_of_unhashed (hn : h.pprev n = none) : hashDel n h = h := by
  rw [hashDel, hlistDelInit, hn]

theorem pprev_hashDel (n : α) (h : Heap (Fin m) α) : (hashDel n h).pprev n = none := by
  unfold hashDel hlistDelInit
  split
  · assumption
  · simp [initHlistNode]

end Steps

/-! ## Every sequence of operations -/

/-- The memory holds the chains, and every other node is unhashed. -/
structure Represents {m : ℕ} {α : Type} (h : Heap (Fin m) α) (c : Buckets m α) : Prop extends Chained h c where
  unhashed : ∀ n, (∀ i, n ∉ c i) → h.pprev n = none

section Runs
variable {bits : ℕ} {α : Type} [DecidableEq α] {h h' : Heap (Fin (2 ^ bits)) α} {c : Buckets (2 ^ bits) α}
  {op : HashOp α} {n : α}

omit [DecidableEq α] in
theorem Represents.unhashed_iff {m : ℕ} {h : Heap (Fin m) α} {c : Buckets m α} (hr : Represents h c) (n : α) :
    h.pprev n = none ↔ ∀ i, n ∉ c i := by
  refine ⟨fun hnone i hi => ?_, hr.unhashed n⟩
  obtain ⟨s, hs, -⟩ := hr.pprev_eq hi
  rw [hnone] at hs
  cases hs

theorem chained_hashInit {m : ℕ} (h : Heap (Fin m) α) : Chained (hashInit h) fun _ => [] :=
  chained_empty fun i => (foldl_setFirst _ h).1 i (List.mem_finRange i)

theorem represents_hashInit (hfresh : ∀ n, hlistUnhashed n h) : Represents (hashInit h) fun _ => [] where
  toChained := chained_hashInit h
  unhashed n _ := by
    rw [hashInit, (foldl_setFirst _ h).2]
    exact Option.isNone_iff_eq_none.mp (hfresh n)

omit [DecidableEq α] in
theorem Represents.of_change {m : ℕ} {h h' : Heap (Fin m) α} {c c' : Buckets m α} {i : Fin m} (hr : Represents h c)
    (hchained : Chained h' c') (hmem : ∀ j a, a ≠ n → a ∈ c j → a ∈ c' j) (hn : ∀ j, j ≠ i → n ∉ c j)
    (hpprev : (∀ j, n ∉ c' j) → h'.pprev n = none) (hfirst : ∀ j, j ≠ i → h'.ptr (.first j) = h.ptr (.first j))
    (hsame : ∀ a, a ≠ n → a ∉ c i → SameNode h h' a) (hi : c' i ≠ c i) :
    Represents h' c' ∧ ∀ j, c' j = c j →
      h'.ptr (.first j) = h.ptr (.first j) ∧ ∀ a ∈ c j, SameNode h h' a := by
  refine ⟨⟨hchained, fun a ha => ?_⟩, fun j hj => ?_⟩
  · by_cases han : a = n
    · subst han
      exact hpprev ha
    · have hout : ∀ j, a ∉ c j := fun j haj => ha j (hmem j a han haj)
      rw [(hsame a han (hout i)).2]
      exact hr.unhashed a hout
  · have hji : j ≠ i := by
      rintro rfl
      exact hi hj
    refine ⟨hfirst j hji, fun a ha => ?_⟩
    exact hsame a (fun h => hn j hji (h ▸ ha)) fun hai => hji (hr.unique j i a ha hai)

/-- What an operation on represented chains does: the memory stands for the chains that follow, and chains that do not
change keep their memory. -/
theorem represents_step (hr : Represents h c) (hs : (hashTable bits α).step h op = some h') :
    Represents h' (op.apply c) ∧ ∀ j, op.apply c j = c j →
      h'.ptr (.first j) = h.ptr (.first j) ∧ ∀ a ∈ c j, SameNode h h' a := by
  cases op with
  | add n key =>
    obtain ⟨hun, rfl⟩ : hlistUnhashed n h = true ∧ hashAdd n key h = h' := by simpa [hashTable] using hs
    have hn := (hr.unhashed_iff n).mp (Option.isNone_iff_eq_none.mp hun)
    have hfirst : h.ptr (.first (hashMinBits bits key)) ≠ some n := by
      rw [hr.ptr_first]
      exact fun h => hn _ (List.mem_of_mem_head? h)
    have hl : Links h (hashAdd n key h) (hashMinBits bits key) n := links_hlistAddHead hfirst
    have hat : HashOp.apply c (.add n key) (hashMinBits bits key) = n :: c (hashMinBits bits key) :=
      Function.update_self _ _ c
    refine hr.of_change (hr.link hn hl) (fun j a _ haj => ?_) (fun j _ => hn j) (fun hout => ?_)
      (fun j hj => hl.ptr_of_ne _ (fun h => hj (Slot.first.inj h)) nofun) (fun a => hr.same_of_links hl) ?_
    · show a ∈ Function.update c _ _ j
      rw [Function.update_apply]
      split_ifs with hj
      · exact List.mem_cons_of_mem _ (hj ▸ haj)
      · exact haj
    · exact absurd (hat ▸ List.mem_cons_self) (hout (hashMinBits bits key))
    · exact hat.trans_ne (List.cons_ne_self _ _)
  | del n =>
    obtain rfl : hashDel n h = h' := Option.some.inj hs
    by_cases hlinked : ∃ i, n ∈ c i
    · obtain ⟨i, hi⟩ := hlinked
      obtain ⟨s, hs, hu, -⟩ := unlinks_of_chained hr.toChained hi
      refine hr.of_change (hr.unlink hi hs hu) (fun j a han haj => ?_) (fun j hj hn => hj (hr.unique j i n hn hi))
        (fun _ => pprev_hashDel n h) (fun j => hr.first_of_unlinks hi hs hu)
        (fun a _ => hr.same_of_unlinks hi hs hu) fun heq => ?_
      · exact (List.mem_erase_of_ne han).mpr haj
      · have hnot : n ∉ (c i).erase n := (hr.nodup i).not_mem_erase
        have herase : (c i).erase n = c i := heq
        rw [herase] at hnot
        exact hnot hi
    · have hn : ∀ i, n ∉ c i := not_exists.mp hlinked
      rw [hashDel_of_unhashed (hr.unhashed n hn)]
      have hsame : HashOp.apply c (.del n) = c := funext fun j => List.erase_of_not_mem (hn j)
      rw [hsame]
      exact ⟨hr, fun j _ => ⟨rfl, fun a _ => ⟨rfl, rfl⟩⟩⟩

theorem represents_run {ops : List (HashOp α)} (hr : Represents h c) (hrun : (hashTable bits α).run h ops = some h') :
    Represents h' (ops.foldl HashOp.apply c) := by
  induction ops generalizing h c with
  | nil =>
    rw [System.run_nil, Option.some.injEq] at hrun
    exact hrun ▸ hr
  | cons op ops ih =>
    obtain ⟨h₁, hs, hrest⟩ := System.run_cons_eq_some.mp hrun
    exact ih (represents_step hr hs).1 hrest

end Runs

/-! ## Every iteration -/

section Visits
variable {m : ℕ} {α : Type} [DecidableEq α] {h : Heap (Fin m) α} {c : Buckets m α} (del : α → Bool)
  (junk : α → Option α × Option (Slot (Fin m) α))

theorem chained_visit (hc : Chained h c) {i : Fin m} {n : α} (hn : n ∈ c i) (hdel : del n = true) :
    Chained (visit del junk n h) (fun j => (c j).erase n) ∧
      (∀ a, a ∉ c i → SameNode h (visit del junk n h) a) ∧
      ((visit del junk n h).ptr (.next n), (visit del junk n h).pprev n) = junk n := by
  obtain ⟨s, hs, -, hu⟩ := unlinks_of_chained hc hn
  have hvisit : visit del junk n h = free n (junk n) (hashDel n h) := if_pos hdel
  rw [hvisit]
  refine ⟨hc.unlink hn hs (hu (junk n)), fun a ha => hc.same_of_unlinks hn hs (hu (junk n)) ha, ?_⟩
  simp [free]

/-- The inner loop, from any node of a chain on: the next node has been read before the body runs. -/
theorem forEachEntry_from (hc : Chained h c) (i : Fin m) (l₁ l₂ : List α) (hsplit : c i = l₁ ++ l₂) (visited : List α) :
    ∃ h', (∀ fuel, l₂.length < fuel →
        hlistForEachEntrySafe (visit del junk) fuel l₂.head? h visited = some (none, h', visited ++ l₂)) ∧
      Chained h' (Function.update c i (l₁ ++ l₂.filter fun n => !del n)) ∧
      (∀ n ∈ l₂, del n = true → (h'.ptr (.next n), h'.pprev n) = junk n) ∧
      ∀ a, a ∉ c i → SameNode h h' a := by
  induction l₂ generalizing h c l₁ visited with
  | nil =>
    refine ⟨h, fun fuel hfuel => ?_, ?_, fun n hn => absurd hn List.not_mem_nil, fun a _ => ⟨rfl, rfl⟩⟩
    · obtain ⟨fuel, rfl⟩ := Nat.exists_eq_add_of_le' hfuel
      rw [List.append_nil]
      rfl
    · rw [List.filter_nil, ← hsplit, Function.update_eq_self]
      exact hc
  | cons n l₂ ih =>
    have hn : n ∈ c i := hsplit ▸ List.mem_append_right l₁ List.mem_cons_self
    have hnext : h.ptr (.next n) = l₂.head? := by
      have hchain := hc.chain i
      rw [hsplit] at hchain
      exact hchain.drop.ptr_eq
    have happend : visited ++ n :: l₂ = (visited ++ [n]) ++ l₂ := by rw [List.append_assoc, List.singleton_append]
    have hround : ∀ fuel, hlistForEachEntrySafe (visit del junk) (fuel + 1) (n :: l₂).head? h visited =
        hlistForEachEntrySafe (visit del junk) fuel l₂.head? (visit del junk n h) (visited ++ [n]) := by
      intro fuel
      rw [← hnext]
      rfl
    by_cases hdel : del n = true
    · obtain ⟨hlinked, hsame, hjunk⟩ := chained_visit del junk hc hn hdel
      have herase : (c i).erase n = l₁ ++ l₂ := by
        rw [hsplit]
        exact KeyedList.erase_append_cons (hsplit ▸ hc.nodup i)
      obtain ⟨h', hrun, hlinked', hjunk', hsame'⟩ := ih hlinked l₁ herase (visited ++ [n])
      have hout : ∀ a, a ∉ c i → a ∉ (c i).erase n := fun a ha h => ha (List.mem_of_mem_erase h)
      refine ⟨h', fun fuel hfuel => ?_, ?_, ?_, fun a ha => (hsame a ha).trans (hsame' a (hout a ha))⟩
      · obtain ⟨fuel, rfl⟩ := Nat.exists_eq_add_of_le' (Nat.one_le_of_lt hfuel)
        rw [hround, hrun fuel (Nat.lt_of_succ_lt_succ hfuel), happend]
      · have hupdate : Function.update (fun j => (c j).erase n) i (l₁ ++ l₂.filter fun n => !del n) =
            Function.update c i (l₁ ++ (n :: l₂).filter fun n => !del n) := by
          rw [List.filter_cons_of_neg (by simp [hdel])]
          funext j
          by_cases hj : j = i
          · rw [hj, Function.update_self, Function.update_self]
          · rw [Function.update_of_ne hj, Function.update_of_ne hj]
            exact hc.erase_of_ne hn hj
        exact hupdate ▸ hlinked'
      · intro a ha hdela
        rcases List.mem_cons.mp ha with rfl | ha
        · have hgone := hsame' a fun h => (hc.nodup i).not_mem_erase h
          rw [hgone.1, hgone.2]
          exact hjunk
        · exact hjunk' a ha hdela
    · have hkeep : visit del junk n h = h := if_neg hdel
      have hsplit' : c i = (l₁ ++ [n]) ++ l₂ := by rw [hsplit, List.append_assoc, List.singleton_append]
      obtain ⟨h', hrun, hlinked', hjunk', hsame'⟩ := ih hc (l₁ ++ [n]) hsplit' (visited ++ [n])
      refine ⟨h', fun fuel hfuel => ?_, ?_, ?_, hsame'⟩
      · obtain ⟨fuel, rfl⟩ := Nat.exists_eq_add_of_le' (Nat.one_le_of_lt hfuel)
        rw [hround, hkeep, hrun fuel (Nat.lt_of_succ_lt_succ hfuel), happend]
      · rw [List.filter_cons_of_pos (by simp [hdel])]
        rwa [List.append_assoc, List.singleton_append] at hlinked'
      · intro a ha hdela
        rcases List.mem_cons.mp ha with rfl | ha
        · exact absurd hdela hdel
        · exact hjunk' a ha hdela

/-- The chains after the buckets from `bkt` on have been visited. -/
def sweptFrom (del : α → Bool) (bkt : ℕ) (c : Buckets m α) : Buckets m α := fun j =>
  if bkt ≤ j then (c j).filter fun n => !del n else c j

omit [DecidableEq α] in
theorem sweptFrom_succ {bkt : ℕ} (hlt : bkt < m) :
    sweptFrom del (bkt + 1) (Function.update c ⟨bkt, hlt⟩ ((c ⟨bkt, hlt⟩).filter fun n => !del n)) =
      sweptFrom del bkt c := by
  funext i
  unfold sweptFrom
  rcases Nat.lt_trichotomy bkt i with hi | hi | hi
  · have hni : i ≠ ⟨bkt, hlt⟩ := fun h => absurd (congrArg Fin.val h) hi.ne'
    rw [if_pos (Nat.succ_le_of_lt hi), if_pos hi.le, Function.update_of_ne hni]
  · obtain rfl : ⟨bkt, hlt⟩ = i := Fin.ext hi
    rw [if_neg (Nat.not_succ_le_self bkt), if_pos le_rfl, Function.update_self]
  · have hni : i ≠ ⟨bkt, hlt⟩ := fun h => absurd (congrArg Fin.val h) hi.ne
    rw [if_neg (by omega), if_neg (by omega), Function.update_of_ne hni]

omit [DecidableEq α] in
theorem flatMap_drop_update {bkt : ℕ} (hlt : bkt < m) (l : List α) :
    ((List.finRange m).drop (bkt + 1)).flatMap (Function.update c ⟨bkt, hlt⟩ l) =
      ((List.finRange m).drop (bkt + 1)).flatMap c := by
  have hnodup := (List.nodup_finRange m).sublist (List.drop_sublist bkt _)
  rw [Scheme.drop_finRange hlt, List.nodup_cons] at hnodup
  refine List.flatMap_congr fun i hi => Function.update_of_ne ?_ _ _
  rintro rfl
  exact hnodup.1 hi

/-- The outer loop, from any bucket on: the inner one leaves the cursor null. -/
theorem forEach_from (hc : Chained h c) {bkt : ℕ} (hbkt : bkt ≤ m) {len : ℕ} (hlen : ∀ i, (c i).length ≤ len)
    (visited : List α) :
    ∃ h', (∀ fuel, m - bkt + len < fuel →
        hashForEachSafe (visit del junk) fuel bkt none h visited =
          some (none, h', visited ++ ((List.finRange m).drop bkt).flatMap c)) ∧
      Chained h' (sweptFrom del bkt c) ∧
      (∀ i : Fin m, bkt ≤ i → ∀ n ∈ c i, del n = true → (h'.ptr (.next n), h'.pprev n) = junk n) ∧
      ∀ a, (∀ i : Fin m, bkt ≤ i → a ∉ c i) → SameNode h h' a := by
  induction hleft : m - bkt generalizing bkt h c visited with
  | zero =>
    have hend : ∀ i : Fin m, ¬ bkt ≤ i := fun i => by omega
    refine ⟨h, fun fuel hfuel => ?_, ?_, fun i hi => absurd hi (hend i), fun a _ => ⟨rfl, rfl⟩⟩
    · obtain ⟨fuel, rfl⟩ := Nat.exists_eq_add_of_le' (Nat.one_le_of_lt hfuel)
      rw [hashForEachSafe, dif_neg (by omega), List.drop_of_length_le (by rw [List.length_finRange]; omega),
        List.flatMap_nil, List.append_nil]
    · have hswept : sweptFrom del bkt c = c := funext fun i => if_neg (hend i)
      rwa [hswept]
  | succ left ih =>
    have hlt : bkt < m := by omega
    obtain ⟨h₁, hrun₁, hlinked₁, hjunk₁, hsame₁⟩ := forEachEntry_from del junk hc ⟨bkt, hlt⟩ [] _ rfl visited
    rw [List.nil_append] at hlinked₁
    have hrest : ∀ i : Fin m, bkt + 1 ≤ i →
        Function.update c ⟨bkt, hlt⟩ ((c ⟨bkt, hlt⟩).filter fun n => !del n) i = c i := by
      intro i hi
      apply Function.update_of_ne
      rintro rfl
      exact absurd hi (Nat.not_succ_le_self bkt)
    have hlen₁ : ∀ i, (Function.update c ⟨bkt, hlt⟩ ((c ⟨bkt, hlt⟩).filter fun n => !del n) i).length ≤ len := by
      intro i
      rw [Function.update_apply]
      split_ifs
      · exact (List.length_filter_le _ _).trans (hlen _)
      · exact hlen i
    obtain ⟨h', hrun', hlinked', hjunk', hsame'⟩ :=
      ih hlinked₁ (Nat.succ_le_of_lt hlt) hlen₁ (visited ++ c ⟨bkt, hlt⟩) (by omega)
    -- a node of none of the buckets that are left keeps what it holds now
    have hout : ∀ a, (∀ i : Fin m, bkt + 1 ≤ i → a ∉ c i) → SameNode h₁ h' a := fun a ha =>
      hsame' a fun i hi => (hrest i hi).symm ▸ ha i hi
    refine ⟨h', fun fuel hfuel => ?_, ?_, fun i hi n hn hdel => ?_, fun a ha => ?_⟩
    · obtain ⟨fuel, rfl⟩ := Nat.exists_eq_add_of_le' (Nat.one_le_of_lt hfuel)
      have hbucket := hlen ⟨bkt, hlt⟩
      rw [hashForEachSafe, dif_pos ⟨rfl, hlt⟩, hc.ptr_first, hrun₁ fuel (by omega), Option.bind_some]
      dsimp only
      rw [hrun' fuel (by omega), flatMap_drop_update hlt, Scheme.drop_finRange hlt, List.flatMap_cons,
        List.append_assoc]
    · rwa [sweptFrom_succ del hlt] at hlinked'
    · by_cases hi' : bkt + 1 ≤ i
      · exact hjunk' i hi' n ((hrest i hi').symm ▸ hn) hdel
      · obtain rfl : ⟨bkt, hlt⟩ = i := Fin.ext (Nat.le_antisymm hi (Nat.lt_succ_iff.mp (not_le.mp hi')))
        have hgone : SameNode h₁ h' n := by
          refine hout n fun j hj hnj => ?_
          obtain rfl := hc.unique j _ n hnj hn
          exact absurd hj (Nat.not_succ_le_self bkt)
        rw [hgone.1, hgone.2]
        exact hjunk₁ n hn hdel
    · exact (hsame₁ a (ha ⟨bkt, hlt⟩ le_rfl)).trans (hout a fun i hi => ha i (Nat.le_of_succ_le hi))

end Visits

theorem nodup_toList_of_chained {m : ℕ} {α : Type} {h : Heap (Fin m) α} {c : Buckets m α} (hc : Chained h c) :
    (Scheme.toList c).Nodup := by
  rw [Scheme.toList, List.nodup_flatMap]
  refine ⟨fun i _ => hc.nodup i, (List.nodup_finRange m).imp ?_⟩
  intro i j hij n hi hj
  exact hij (hc.unique i j n hi hj)

/-- From any memory whose nodes are unhashed: after `hash_init` and any sequence of `hash_add`s of unhashed nodes and
`hash_del`s, the buckets hold the chains of the sequence, each from its first pointer to null, where every node points
back to the pointer to it; the next operation leaves the memory of the other buckets alone; and `hash_for_each_safe`
visits every linked node exactly once, whichever of them its body deletes and whatever it leaves in their memory. -/
theorem hash_chains {bits : ℕ} {α : Type} [DecidableEq α] {h₀ h : Heap (Fin (2 ^ bits)) α}
    (hfresh : ∀ n, hlistUnhashed n h₀ = true) {ops : List (HashOp α)}
    (hrun : (hashTable bits α).run (hashInit h₀) ops = some h) :
    (∀ i, Chain h (.first i) (chainsAfter bits ops i) ∧ (chainsAfter bits ops i).Nodup ∧
      ∀ n ∈ chainsAfter bits ops i, ∃ s, h.pprev n = some s ∧ h.ptr s = some n ∧
        (s = .first i ∨ ∃ a ∈ chainsAfter bits ops i, s = .next a)) ∧
      (∀ n, hlistUnhashed n h = true ↔ ∀ i, n ∉ chainsAfter bits ops i) ∧
      (∀ op h', (hashTable bits α).step h op = some h' → ∀ j,
        chainsAfter bits (ops ++ [op]) j = chainsAfter bits ops j →
          h'.ptr (.first j) = h.ptr (.first j) ∧ ∀ a ∈ chainsAfter bits ops j, SameNode h h' a) ∧
      (Scheme.toList (chainsAfter bits ops)).Nodup ∧
      ∀ (del : α → Bool) (junk : α → Option α × Option (Slot (Fin (2 ^ bits)) α)), ∃ h' rounds,
        (∀ fuel, rounds ≤ fuel → hashForEachSafe (visit del junk) fuel 0 none h [] =
          some (none, h', Scheme.toList (chainsAfter bits ops))) ∧
        (∀ i, Chain h' (.first i) ((chainsAfter bits ops i).filter fun n => !del n)) ∧
        (∀ n ∈ Scheme.toList (chainsAfter bits ops), del n = true → (h'.ptr (.next n), h'.pprev n) = junk n) ∧
        ∀ n, n ∉ Scheme.toList (chainsAfter bits ops) → SameNode h h' n := by
  have hr : Represents h (chainsAfter bits ops) := represents_run (represents_hashInit hfresh) hrun
  refine ⟨fun i => ⟨hr.chain i, hr.nodup i, fun n hn => hr.pprev_eq hn⟩, fun n => ?_, fun op h' hs j hj => ?_,
    nodup_toList_of_chained hr.toChained, fun del junk => ?_⟩
  · rw [hlistUnhashed, Option.isNone_iff_eq_none]
    exact hr.unhashed_iff n
  · rw [chainsAfter, List.foldl_append] at hj
    exact (represents_step hr hs).2 j hj
  · have hlen : ∀ i, (chainsAfter bits ops i).length ≤ (Scheme.toList (chainsAfter bits ops)).length := by
      intro i
      rw [Scheme.length_toList]
      exact Finset.single_le_sum (f := fun i => (chainsAfter bits ops i).length) (fun _ _ => Nat.zero_le _)
        (Finset.mem_univ i)
    obtain ⟨h', hvisits, hlinked, hjunk, hsame⟩ := forEach_from del junk hr.toChained (Nat.zero_le _) hlen []
    refine ⟨h', 2 ^ bits - 0 + (Scheme.toList (chainsAfter bits ops)).length + 1, fun fuel hfuel => ?_, fun i => ?_,
      fun n hn hdel => ?_, fun n hn => ?_⟩
    · rw [hvisits fuel (Nat.lt_of_succ_le hfuel), List.drop_zero, List.nil_append, Scheme.toList]
    · have hchain := hlinked.chain i
      rwa [sweptFrom, if_pos (Nat.zero_le _)] at hchain
    · obtain ⟨i, hi⟩ := Scheme.mem_toList.mp hn
      exact hjunk i (Nat.zero_le _) n hi hdel
    · exact hsame n fun i _ hi => hn (Scheme.mem_toList.mpr ⟨i, hi⟩)

/-- Two nodes in bucket 0 and one in bucket 1; the oldest goes, then an iteration deletes and frees the other two. -/
theorem hash_chains_three_nodes :
    ∃ h : Heap (Fin (2 ^ 1)) (Fin 4),
      (hashTable 1 (Fin 4)).run (hashInit ⟨fun _ => none, fun _ => none⟩)
        [.add 0 0, .add 1 0, .add 2 1, .del 0, .del 3] = some h ∧
      Chain h (.first 0) [1] ∧ Chain h (.first 1) [2] ∧
      ∃ h' fuel, hashForEachSafe (visit (fun _ => true) fun _ => (some 3, none)) fuel 0 none h [] =
          some (none, h', [1, 2]) ∧ Chain h' (.first 0) [] ∧ Chain h' (.first 1) [] := by
  have hfresh : ∀ n : Fin 4, hlistUnhashed n (⟨fun _ => none, fun _ => none⟩ : Heap (Fin (2 ^ 1)) (Fin 4)) = true :=
    fun _ => rfl
  obtain ⟨h, hrun⟩ : ∃ h, (hashTable 1 (Fin 4)).run (hashInit ⟨fun _ => none, fun _ => none⟩)
      [.add 0 0, .add 1 0, .add 2 1, .del 0, .del 3] = some h := ⟨_, rfl⟩
  obtain ⟨hchains, -, -, -, hiter⟩ := hash_chains hfresh hrun
  obtain ⟨h', rounds, hvisits, hchains', -⟩ := hiter (fun _ => true) fun _ => (some 3, none)
  have hall : Scheme.toList (chainsAfter 1 [.add 0 0, .add 1 0, .add 2 1, .del 0, .del (3 : Fin 4)]) = [1, 2] := by
    decide +kernel
  refine ⟨h, hrun, (hchains 0).1, (hchains 1).1, h', rounds, ?_, hchains' 0, hchains' 1⟩
  rw [hvisits rounds le_rfl, hall]

end TeleSync.Hlist
