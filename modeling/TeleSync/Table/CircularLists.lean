import TeleSync.Lib.Ring
import TeleSync.Lib.Transition

/-!
# Circular lists in memory

The lists of `list.h` and `utility/list.c`, pointer by pointer. A head that is alone points to itself, an element in no
list holds two null pointers.

* `listAdd`, `listAddTail`, `listDel` : the functions, statement by statement; `none` when a null pointer is followed;
* `circularLists` : these and the two initialisations, on any cells and in any order;
* `Lists`, `ListOp.Allowed`, `ListOp.apply` : the sequences that the heads stand for, and what an operation needs of
  them and makes of them;
* `Represents` : the memory holds these sequences, and null pointers in the elements in no list;
* `listForEach`, `listForEachSafe` : the macros;
* `circular_lists` : every sequence of allowed operations leaves the memory that stands for its sequences, in both
  directions, and an iteration that deletes every cell leaves an empty list.
-/

namespace TeleSync.ListHead
open Ring Transition

/-! ## Operations -/

def LIST_NULL : ℤ := -1

def LIST_SUCCESS : ℤ := 1

section Operations
variable {α : Type} [DecidableEq α]

/-- `INIT_LIST_HEAD` -/
def initListHead (d : α) (h : Heap α) : Heap α := (h.setNext d (some d)).setPrev d (some d)

/-- `INIT_LIST_ELM` -/
def initListElm (n : α) (h : Heap α) : Heap α := (h.setNext n none).setPrev n none

/-- `listelm_detach` -/
def listelmDetach (prev next : Option α) (h : Heap α) : Option (Heap α × ℤ) := do
  let n ← next
  let h := h.setPrev n prev
  let p ← prev
  let h := h.setNext p next
  return (h, LIST_SUCCESS)

/-- `listelm_add` -/
def listelmAdd (le : α) (prev next : Option α) (h : Heap α) : Option (Heap α × ℤ) := do
  let p ← prev
  let h := h.setNext p (some le)
  let h := h.setPrev le prev
  let h := h.setNext le next
  let n ← next
  let h := h.setPrev n (some le)
  return (h, LIST_SUCCESS)

/-- `list_add` -/
def listAdd (head le : Option α) (h : Heap α) : Option (Heap α × ℤ) :=
  match head, le with
  | some head, some le => listelmAdd le (some head) (h.next head) h
  | _, _ => some (h, LIST_NULL)

/-- `list_add_tail` -/
def listAddTail (head le : Option α) (h : Heap α) : Option (Heap α × ℤ) :=
  match head, le with
  | some head, some le => listelmAdd le (h.prev head) (some head) h
  | _, _ => some (h, LIST_NULL)

/-- `list_unattached` -/
def listUnattached (le : α) (h : Heap α) : Bool := (h.next le).isNone && (h.prev le).isNone

/-- `list_del` -/
def listDel (le : Option α) (h : Heap α) : Option (Heap α × ℤ) :=
  match le with
  | none => some (h, LIST_NULL)
  | some le =>
    if listUnattached le h then some (h, LIST_NULL)
    else do
      let (h, _) ← listelmDetach (h.prev le) (h.next le) h
      let h := h.setPrev le none
      let h := h.setNext le none
      return (h, LIST_SUCCESS)

inductive ListOp (α : Type) where
  | initHead (d : α)
  | initElm (n : α)
  | add (d n : α)
  | addTail (d n : α)
  | del (n : α)
  deriving DecidableEq

def ListOp.exec (h : Heap α) : ListOp α → Option (Heap α)
  | .initHead d => some (initListHead d h)
  | .initElm n => some (initListElm n h)
  | .add d n => (listAdd (some d) (some n) h).map Prod.fst
  | .addTail d n => (listAddTail (some d) (some n) h).map Prod.fst
  | .del n => (listDel (some n) h).map Prod.fst

/-- Any operations; one that follows a null pointer is not enabled. -/
def circularLists (α : Type) [DecidableEq α] : System (Heap α) (ListOp α) where
  step := ListOp.exec

/-! ## Sequences -/

/-- The sequences of the heads, and the elements that are initialised and in no list. -/
structure Lists (α : Type) where
  seq : α → Option (List α)
  unattached : α → Bool

def Lists.empty : Lists α := ⟨fun _ => none, fun _ => false⟩

/-- What the operation needs: cells to be initialised or added are neither heads nor in a list, cells to be deleted are
in a list, or initialised and in none. -/
def ListOp.Allowed (r : Lists α) : ListOp α → Prop
  | .initHead d => Free r.seq d
  | .initElm n => Free r.seq n
  | .add d n => (r.seq d).isSome ∧ Free r.seq n
  | .addTail d n => (r.seq d).isSome ∧ Free r.seq n
  | .del n => (∃ d l, r.seq d = some l ∧ n ∈ l) ∨ r.unattached n

instance [Fintype α] (r : Lists α) : (op : ListOp α) → Decidable (op.Allowed r)
  | .initHead d => inferInstanceAs (Decidable (Free r.seq d))
  | .initElm n => inferInstanceAs (Decidable (Free r.seq n))
  | .add d n => inferInstanceAs (Decidable ((r.seq d).isSome ∧ Free r.seq n))
  | .addTail d n => inferInstanceAs (Decidable ((r.seq d).isSome ∧ Free r.seq n))
  | .del n => inferInstanceAs (Decidable ((∃ d, ∃ l ∈ r.seq d, n ∈ l) ∨ r.unattached n))

def ListOp.apply (r : Lists α) : ListOp α → Lists α
  | .initHead d => ⟨Function.update r.seq d (some []), Function.update r.unattached d false⟩
  | .initElm n => ⟨r.seq, Function.update r.unattached n true⟩
  | .add d n => ⟨Function.update r.seq d ((r.seq d).map fun l => n :: l), Function.update r.unattached n false⟩
  | .addTail d n => ⟨Function.update r.seq d ((r.seq d).map fun l => l ++ [n]), Function.update r.unattached n false⟩
  | .del n => ⟨fun d => (r.seq d).map fun l => l.erase n, Function.update r.unattached n true⟩

/-- The sequences alone. -/
def lists (α : Type) [DecidableEq α] : System (Lists α) (ListOp α) where
  step r op := some (op.apply r)

end Operations

/-! ## Iteration -/

section Iteration
variable {α : Type} [DecidableEq α]

/-- `list_for_each` along either pointer; `none` when it takes `fuel` rounds or more, or follows a null pointer. -/
def listForEach (link : α → Option α) (head : α) : ℕ → Option α → Option (List α)
  | 0, _ => none
  | fuel + 1, curr =>
    if curr = some head then some []
    else curr.bind fun curr => (listForEach link head fuel (link curr)).map fun l => curr :: l

/-- The rounds of `list_for_each_safe`, with the cells visited so far. -/
def listForEachSafeLoop (body : α → Heap α → Option (Heap α)) (head : α) :
    ℕ → α → Option α → Heap α → List α → Option (Heap α × List α)
  | 0, _, _, _, _ => none
  | fuel + 1, pos, tmp, h, visited =>
    if pos = head then some (h, visited)
    else (body pos h).bind fun h => tmp.bind fun pos' =>
      listForEachSafeLoop body head fuel pos' (h.next pos') h (visited ++ [pos])

/-- `list_for_each_safe` -/
def listForEachSafe (body : α → Heap α → Option (Heap α)) (head : α) (fuel : ℕ) (h : Heap α) :
    Option (Heap α × List α) :=
  (h.next head).bind fun pos => listForEachSafeLoop body head fuel pos (h.next pos) h []

/-- `free`: a cell holds whatever the allocator leaves in it. -/
def free (n : α) (junk : Option α × Option α) (h : Heap α) : Heap α := (h.setNext n junk.1).setPrev n junk.2

/-- A body that deletes and frees the cell that it visits, for the cells in `del`. -/
def visit (del : α → Bool) (junk : α → Option α × Option α) (pos : α) (h : Heap α) : Option (Heap α) :=
  if del pos then (listDel (some pos) h).map fun r => free pos (junk pos) r.1 else some h

end Iteration

/-! ## One operation -/

section Steps
variable {α : Type} [DecidableEq α] {h h' : Heap α} {seq : α → Option (List α)} {d n p q : α} {l : List α}

theorem inserts_listelmAdd (hp : p ≠ n) (hq : q ≠ n) :
    ∃ h', listelmAdd n (some p) (some q) h = some (h', LIST_SUCCESS) ∧ Inserts h h' p n q := by
  refine ⟨_, rfl, ?_⟩
  constructor
  · simp [hp]
  · simp [hq.symm]
  · simp
  · simp
  · intro a hap han
    simp [hap, han]
  · intro a han haq
    simp [han, haq]

theorem removes_listDel (hp : h.prev n = some p) (hq : h.next n = some q) (hpn : p ≠ n) (hqn : q ≠ n) :
    ∃ h', listDel (some n) h = some (h', LIST_SUCCESS) ∧ Removes h h' p n q ∧ h'.next n = none ∧ h'.prev n = none := by
  have hattached : listUnattached n h = false := by rw [listUnattached, hq]; rfl
  refine ⟨(((h.setPrev q (some p)).setNext p (some q)).setPrev n none).setNext n none, ?_, ?_, ?_, ?_⟩
  · rw [listDel, hattached, hp, hq]
    rfl
  · constructor
    · simp [hpn]
    · simp [hqn]
    · intro a hap han
      simp [hap, han]
    · intro a haq han
      simp [haq, han]
  · simp
  · simp

end Steps

/-! ## Every sequence of operations -/

/-- The memory holds the sequences, and null pointers in the elements that are initialised and in no list. -/
structure Represents {α : Type} (h : Heap α) (r : Lists α) : Prop extends Rings h r.seq where
  null : ∀ n, r.unattached n = true → Free r.seq n ∧ h.next n = none ∧ h.prev n = none

section Runs
variable {α : Type} [DecidableEq α] {h h' : Heap α} {r : Lists α} {d n p q : α} {l : List α}

theorem Represents.listDel_unattached (hr : Represents h r) (hn : r.unattached n = true) :
    listDel (some n) h = some (h, LIST_NULL) := by
  obtain ⟨-, hnext, hprev⟩ := hr.null n hn
  rw [listDel, listUnattached, hnext, hprev]
  rfl

theorem Represents.of_rings (hr : Represents h r) {seq : α → Option (List α)} {b : Bool} (hlinked : Rings h' seq)
    (hcell : ∀ a, Free r.seq a → a ≠ n → Free seq a ∧ SameCell h h' a)
    (hn : b = true → Free seq n ∧ h'.next n = none ∧ h'.prev n = none) :
    Represents h' ⟨seq, Function.update r.unattached n b⟩ := by
  refine ⟨hlinked, fun a ha => ?_⟩
  replace ha : Function.update r.unattached n b a = true := ha
  rw [Function.update_apply] at ha
  split_ifs at ha with han
  · exact han ▸ hn ha
  · obtain ⟨hfree, hnext, hprev⟩ := hr.null a ha
    obtain ⟨hfree', hsame⟩ := hcell a hfree han
    exact ⟨hfree', hsame.1.trans hnext, hsame.2.trans hprev⟩

/-- A ring that takes in no free cell but `n`, by a change that leaves the others alone. -/
theorem Represents.of_update (hr : Represents h r) (hlinked : Rings h' (Function.update r.seq d (some l)))
    (hcell : ∀ a, Free r.seq a → a ≠ n → a ∉ d :: l ∧ SameCell h h' a) :
    Represents h' ⟨Function.update r.seq d (some l), Function.update r.unattached n false⟩ := by
  refine hr.of_rings hlinked (fun a hfree han => ?_) nofun
  obtain ⟨hout, hsame⟩ := hcell a hfree han
  exact ⟨hfree.update hout, hsame⟩

theorem exists_removes (hc : Rings h r.seq) (hd : r.seq d = some l) (hn : n ∈ l) :
    ∃ p ∈ d :: l, ∃ q ∈ d :: l, ∃ h', p ≠ n ∧ q ≠ n ∧ h.prev n = some p ∧ h.next n = some q ∧
      listDel (some n) h = some (h', LIST_SUCCESS) ∧ Removes h h' p n q ∧ h'.next n = none ∧ h'.prev n = none := by
  obtain ⟨p, hp, q, hq, hprev, hnext⟩ := hc.between hd (List.mem_cons_of_mem d hn)
  obtain ⟨hselfp, hselfq⟩ := hc.neighbour_ne hd hn
  have hpn : p ≠ n := fun h => hselfp (h ▸ hprev)
  have hqn : q ≠ n := fun h => hselfq (h ▸ hnext)
  obtain ⟨h', hdel, hr⟩ := removes_listDel hprev hnext hpn hqn
  exact ⟨p, hp, q, hq, h', hpn, hqn, hprev, hnext, hdel, hr⟩

theorem erase_seq (hc : Rings h r.seq) (hd : r.seq d = some l) (hn : n ∈ l) :
    (fun e => (r.seq e).map fun l => l.erase n) = Function.update r.seq d (some (l.erase n)) := by
  funext e
  rw [Function.update_apply]
  split_ifs with hed
  · rw [hed, hd, Option.map_some]
  · cases he : r.seq e with
    | none => rfl
    | some k =>
      have hnk : n ∉ k := fun hnk =>
        hed (hc.unique e d k l n he hd (List.mem_cons_of_mem e hnk) (List.mem_cons_of_mem d hn))
      rw [Option.map_some, List.erase_of_not_mem hnk]

theorem Represents.insert (hr : Represents h r) {k : List α} (hd : r.seq d = some l) (hn : Free r.seq n)
    (hp : p ∈ d :: l) (hq : q ∈ d :: l)
    (hlinked : ∀ h', Inserts h h' p n q → Rings h' (Function.update r.seq d (some k)))
    (hk : ∀ a ∈ d :: k, a = n ∨ a ∈ d :: l) :
    ∃ h', listelmAdd n (some p) (some q) h = some (h', LIST_SUCCESS) ∧
      Represents h' ⟨Function.update r.seq d (some k), Function.update r.unattached n false⟩ := by
  have hne : ∀ a ∈ d :: l, a ≠ n := fun a ha h => hn d l hd (h ▸ ha)
  obtain ⟨h', hadd, hi⟩ := inserts_listelmAdd (h := h) (hne p hp) (hne q hq)
  refine ⟨h', hadd, hr.of_update (hlinked h' hi) fun a hfree han => ?_⟩
  have hout : a ∉ d :: l := hfree d l hd
  refine ⟨fun h => (hk a h).elim han hout, hi.next_of_ne a ?_ han, hi.prev_of_ne a han ?_⟩
  · exact fun h => hout (h ▸ hp)
  · exact fun h => hout (h ▸ hq)

theorem Represents.remove (hr : Represents h r) (hd : r.seq d = some l) (hn : n ∈ l) (hprev : h.prev n = some p)
    (hnext : h.next n = some q) (hp : p ∈ d :: l) (hq : q ∈ d :: l) (hrem : Removes h h' p n q)
    (hnull : h'.next n = none ∧ h'.prev n = none) :
    Represents h' ⟨Function.update r.seq d (some (l.erase n)), Function.update r.unattached n true⟩ := by
  obtain ⟨hdl, hl⟩ := List.nodup_cons.mp (hr.nodup d l hd)
  refine hr.of_rings (hr.toRings.remove hd hn hprev hnext hrem) (fun a hfree han => ?_) fun _ => ⟨?_, hnull⟩
  · have hout : a ∉ d :: l := hfree d l hd
    have hrest : a ∉ d :: l.erase n := fun h => hout (List.cons_subset_cons d l.erase_subset h)
    refine ⟨hfree.update hrest, hrem.next_of_ne a ?_ han, hrem.prev_of_ne a ?_ han⟩
    · exact fun h => hout (h ▸ hp)
    · exact fun h => hout (h ▸ hq)
  · intro e k he hmem
    rw [Function.update_apply] at he
    split_ifs at he with hed
    · obtain rfl := Option.some.inj he
      rcases List.mem_cons.mp hmem with rfl | hmem
      · exact hdl (hed ▸ hn)
      · exact hl.not_mem_erase hmem
    · exact hed (hr.unique e d k l n he hd hmem (List.mem_cons_of_mem d hn))

/-- An allowed operation follows no null pointer and leaves the memory that stands for the sequences it makes. -/
theorem represents_step {op : ListOp α} (hr : Represents h r) (hok : op.Allowed r) :
    ∃ h', op.exec h = some h' ∧ Represents h' (op.apply r) := by
  cases op with
  | initHead d =>
    have hfree : Free r.seq d := hok
    have hsame : ∀ a, a ≠ d → SameCell h (initListHead d h) a := fun a had => by
      constructor <;> simp [initListHead, had]
    have hring : Seg (initListHead d h) d [] d := by constructor <;> simp [initListHead]
    refine ⟨initListHead d h, rfl, hr.of_update (hr.toRings.update hring (List.nodup_singleton d) ?_ ?_) ?_⟩
    · intro a ha
      exact .inl (List.mem_singleton.mp ha ▸ hfree)
    · intro e k _ he a ha
      exact hsame a fun h => hfree e k he (h ▸ ha)
    · exact fun a _ had => ⟨fun h => had (List.mem_singleton.mp h), hsame a had⟩
  | initElm n =>
    have hfree : Free r.seq n := hok
    have hsame : ∀ a, a ≠ n → SameCell h (initListElm n h) a := fun a han => by
      constructor <;> simp [initListElm, han]
    have hrings : Rings (initListElm n h) r.seq :=
      hr.frame fun d l hd a ha => hsame a fun h => hfree d l hd (h ▸ ha)
    refine ⟨initListElm n h, rfl, hr.of_rings hrings (fun a hafree han => ⟨hafree, hsame a han⟩) fun _ => ?_⟩
    exact ⟨hfree, by simp [initListElm], by simp [initListElm]⟩
  | add d n =>
    obtain ⟨hsome, hfree⟩ := hok
    obtain ⟨l, hd⟩ := Option.isSome_iff_exists.mp hsome
    obtain ⟨-, -, q, hq, -, hnext⟩ := hr.between hd List.mem_cons_self
    obtain ⟨h', hadd, hr'⟩ := hr.insert hd hfree List.mem_cons_self hq (fun _ => hr.cons hd hfree hnext) fun a ha => by
      simpa [or_left_comm] using ha
    refine ⟨h', ?_, ?_⟩
    · rw [ListOp.exec, listAdd, hnext, hadd]
      rfl
    · rw [ListOp.apply, hd, Option.map_some]
      exact hr'
  | addTail d n =>
    obtain ⟨hsome, hfree⟩ := hok
    obtain ⟨l, hd⟩ := Option.isSome_iff_exists.mp hsome
    obtain ⟨p, hp, -, -, hprev, -⟩ := hr.between hd List.mem_cons_self
    obtain ⟨h', hadd, hr'⟩ := hr.insert hd hfree hp List.mem_cons_self (fun _ => hr.concat hd hfree hprev) fun a ha => by
      simpa [or_comm, or_left_comm] using ha
    refine ⟨h', ?_, ?_⟩
    · rw [ListOp.exec, listAddTail, hprev, hadd]
      rfl
    · rw [ListOp.apply, hd, Option.map_some]
      exact hr'
  | del n =>
    by_cases hin : ∃ d l, r.seq d = some l ∧ n ∈ l
    · obtain ⟨d, l, hd, hn⟩ := hin
      obtain ⟨p, hp, q, hq, h', -, -, hprev, hnext, hdel, hrem, hnull⟩ := exists_removes hr.toRings hd hn
      refine ⟨h', ?_, ?_⟩
      · rw [ListOp.exec, hdel]
        rfl
      · rw [ListOp.apply, erase_seq hr.toRings hd hn]
        exact hr.remove hd hn hprev hnext hp hq hrem hnull
    · have hn : r.unattached n = true := hok.resolve_left hin
      refine ⟨h, ?_, ?_⟩
      · rw [ListOp.exec, hr.listDel_unattached hn]
        rfl
      · have hseq : (fun d => (r.seq d).map fun l => l.erase n) = r.seq := by
          funext d
          cases hd : r.seq d with
          | none => rfl
          | some l => rw [Option.map_some, List.erase_of_not_mem fun h => hin ⟨d, l, hd, h⟩]
        rw [ListOp.apply, hseq, Function.update_eq_self_iff.mpr hn.symm]
        exact hr

theorem represents_run {ops : List (ListOp α)} (hr : Represents h r)
    (hok : (lists α).RunMeets ListOp.Allowed r ops) :
    ∃ h', (circularLists α).run h ops = some h' ∧ Represents h' (ops.foldl ListOp.apply r) := by
  induction ops generalizing h r with
  | nil => exact ⟨h, rfl, hr⟩
  | cons op ops ih =>
    obtain ⟨h₁, hexec, hr₁⟩ := represents_step hr hok.1
    obtain ⟨h', hrun, hr'⟩ := ih hr₁ (hok.2 _ rfl)
    exact ⟨h', System.run_cons_eq_some.mpr ⟨h₁, hexec, hrun⟩, hr'⟩

end Runs

/-! ## Every iteration -/

section Visits
variable {α : Type} [DecidableEq α] {h h' : Heap α} {seq : α → Option (List α)} {a b d n p q : α} {l : List α}

theorem listForEach_eq (hs : Seg h a l b) (hb : b ∉ l) {fuel : ℕ} (hfuel : l.length < fuel) :
    listForEach h.next b fuel (h.next a) = some l := by
  induction l generalizing a fuel with
  | nil =>
    obtain ⟨fuel, rfl⟩ := Nat.exists_eq_add_of_le' (Nat.one_le_of_lt hfuel)
    rw [listForEach, if_pos hs.1]
  | cons n l ih =>
    obtain ⟨fuel, rfl⟩ := Nat.exists_eq_add_of_le' (Nat.one_le_of_lt hfuel)
    have hnb : some n ≠ some b := fun h => hb (Option.some.inj h ▸ List.mem_cons_self)
    rw [listForEach, hs.1, if_neg hnb, Option.bind_some,
      ih hs.2.2 (fun h => hb (List.mem_cons_of_mem n h)) (Nat.lt_of_succ_lt_succ hfuel), Option.map_some]

/-- What a freed cell holds does not matter. -/
theorem removes_free (hr : Removes h h' p n q) (hp : p ≠ n) (hq : q ≠ n) (junk : Option α × Option α) :
    Removes h (free n junk h') p n q := by
  constructor
  · simp [free, hp, hr.next_left]
  · simp [free, hq, hr.prev_right]
  · intro a hap han
    simp [free, han, hr.next_of_ne a hap han]
  · intro a haq han
    simp [free, han, hr.prev_of_ne a haq han]

variable (del : α → Bool) (junk : α → Option α × Option α)

theorem rings_visit (hc : Rings h seq) (hd : seq d = some l) (hn : n ∈ l) (hdel : del n = true) :
    ∃ h', visit del junk n h = some h' ∧ Rings h' (Function.update seq d (some (l.erase n))) := by
  obtain ⟨p, -, q, -, h', hpn, hqn, hprev, hnext, hlistDel, hrem, -⟩ :=
    exists_removes (r := ⟨seq, fun _ => false⟩) hc hd hn
  refine ⟨free n (junk n) h', ?_, hc.remove hd hn hprev hnext (removes_free hrem hpn hqn (junk n))⟩
  rw [visit, if_pos hdel, hlistDel]
  rfl

/-- The rounds, from any cell of a list on: the next cell has been read before the body runs. -/
theorem listForEachSafe_from (hc : Rings h seq) (l₁ l₂ : List α) (hd : seq d = some (l₁ ++ l₂)) (visited : List α) :
    ∃ h', (∀ fuel, l₂.length < fuel →
        listForEachSafeLoop (visit del junk) d fuel (l₂.headD d) (h.next (l₂.headD d)) h visited =
          some (h', visited ++ l₂)) ∧
      Rings h' (Function.update seq d (some (l₁ ++ l₂.filter fun n => !del n))) := by
  induction l₂ generalizing h seq l₁ visited with
  | nil =>
    refine ⟨h, fun fuel hfuel => ?_, ?_⟩
    · obtain ⟨fuel, rfl⟩ := Nat.exists_eq_add_of_le' (Nat.one_le_of_lt hfuel)
      rw [List.headD_nil, listForEachSafeLoop, if_pos rfl, List.append_nil]
    · rwa [List.filter_nil, ← hd, Function.update_eq_self]
  | cons n l₂ ih =>
    have hnodup := hc.nodup d _ hd
    have hnd : n ≠ d := by
      rintro rfl
      exact (List.nodup_cons.mp hnodup).1 (List.mem_append_right _ List.mem_cons_self)
    have hnext : h.next n = some (l₂.headD d) := (seg_append.mp (hc.ring d _ hd)).2.next_eq
    have happend : visited ++ n :: l₂ = (visited ++ [n]) ++ l₂ := by rw [List.append_assoc, List.singleton_append]
    by_cases hdel : del n = true
    · have hnl : n ∈ l₁ ++ n :: l₂ := List.mem_append_right _ List.mem_cons_self
      obtain ⟨h₁, hvisit, hlinked⟩ := rings_visit del junk hc hd hnl hdel
      rw [KeyedList.erase_append_cons (List.nodup_cons.mp hnodup).2] at hlinked
      obtain ⟨h', hrun, hlinked'⟩ := ih hlinked l₁ (Function.update_self _ _ _) (visited ++ [n])
      refine ⟨h', fun fuel hfuel => ?_, ?_⟩
      · obtain ⟨fuel, rfl⟩ := Nat.exists_eq_add_of_le' (Nat.one_le_of_lt hfuel)
        rw [List.headD_cons, listForEachSafeLoop, if_neg hnd, hvisit, hnext, Option.bind_some, Option.bind_some,
          hrun fuel (Nat.lt_of_succ_lt_succ hfuel), happend]
      · rw [Function.update_idem] at hlinked'
        rwa [List.filter_cons_of_neg (by simp [hdel])]
    · have hd' : seq d = some ((l₁ ++ [n]) ++ l₂) := by rw [hd, List.append_assoc, List.singleton_append]
      obtain ⟨h', hrun, hlinked'⟩ := ih hc (l₁ ++ [n]) hd' (visited ++ [n])
      refine ⟨h', fun fuel hfuel => ?_, ?_⟩
      · obtain ⟨fuel, rfl⟩ := Nat.exists_eq_add_of_le' (Nat.one_le_of_lt hfuel)
        have hvisit : visit del junk n h = some h := if_neg hdel
        rw [List.headD_cons, listForEachSafeLoop, if_neg hnd, hvisit, hnext, Option.bind_some, Option.bind_some,
          hrun fuel (Nat.lt_of_succ_lt_succ hfuel), happend]
      · rw [List.filter_cons_of_pos (by simp [hdel])]
        rwa [List.append_assoc, List.singleton_append] at hlinked'

end Visits

/-- From any memory: a sequence of initialisations, additions of cells that are in no list and deletions of elements
that are in some list, or initialised and in none, follows no null pointer. After it `list_for_each` from every head
meets the sequence of the head and comes back, and meets it backwards along the other pointers; `list_del` of an element
in no list changes nothing; and `list_for_each_safe` meets the whole list and leaves the elements that its body does not
delete and free, none at all when it deletes each of them, with all other lists as they were. -/
theorem circular_lists {α : Type} [DecidableEq α] (h₀ : Heap α) {ops : List (ListOp α)}
    (hok : (lists α).RunMeets ListOp.Allowed Lists.empty ops) :
    ∃ h, (circularLists α).run h₀ ops = some h ∧
      (∀ d l, (ops.foldl ListOp.apply Lists.empty).seq d = some l →
        (d :: l).Nodup ∧ Seg h d l d ∧
        (∀ fuel, l.length < fuel → listForEach h.next d fuel (h.next d) = some l ∧
          listForEach h.prev d fuel (h.prev d) = some l.reverse) ∧
        ∀ del junk, ∃ h',
          (∀ fuel, l.length < fuel → listForEachSafe (visit del junk) d fuel h = some (h', l)) ∧
          Seg h' d (l.filter fun n => !del n) d ∧
          ((∀ n ∈ l, del n = true) → h'.next d = some d ∧ h'.prev d = some d) ∧
          ∀ e k, e ≠ d → (ops.foldl ListOp.apply Lists.empty).seq e = some k → Seg h' e k e) ∧
      ∀ n, (ops.foldl ListOp.apply Lists.empty).unattached n = true → listDel (some n) h = some (h, LIST_NULL) := by
  have hempty : Represents h₀ Lists.empty := ⟨rings_empty h₀, fun _ hn => absurd hn Bool.false_ne_true⟩
  obtain ⟨h, hrun, hr⟩ := represents_run hempty hok
  refine ⟨h, hrun, fun d l hd => ?_, fun n hn => hr.listDel_unattached hn⟩
  have hring := hr.ring d l hd
  have hdl : d ∉ l := (List.nodup_cons.mp (hr.nodup d l hd)).1
  refine ⟨hr.nodup d l hd, hring, fun fuel hfuel => ⟨listForEach_eq hring hdl hfuel, ?_⟩, fun del junk => ?_⟩
  · exact listForEach_eq hring.flip (fun h => hdl (List.mem_reverse.mp h)) (by rwa [List.length_reverse])
  · obtain ⟨h', hvisits, hlinked⟩ := listForEachSafe_from del junk hr.toRings [] l hd []
    have hring' := hlinked.ring d _ (Function.update_self _ _ _)
    refine ⟨h', fun fuel hfuel => ?_, hring', fun hall => ?_, fun e k hed he => ?_⟩
    · rw [listForEachSafe, hring.next_eq, Option.bind_some, hvisits fuel hfuel, List.nil_append]
    · rwa [List.nil_append, List.filter_eq_nil_iff.mpr fun n hn => by simp [hall n hn]] at hring'
    · exact hlinked.ring e k ((Function.update_of_ne hed _ _).trans he)

/-- Two heads; an element moves from one list to the other, and the second list is emptied. -/
theorem circular_lists_two_heads :
    let ops : List (ListOp (Fin 6)) := [.initHead 0, .initHead 1, .initElm 2, .add 0 2, .addTail 0 3, .add 1 4, .del 2,
      .del 2, .addTail 1 2]
    (lists (Fin 6)).RunMeets ListOp.Allowed Lists.empty ops ∧
      ∃ h, (circularLists (Fin 6)).run ⟨fun _ => none, fun _ => some 5⟩ ops = some h ∧
        listForEach h.next 1 3 (h.next 1) = some [4, 2] ∧ listForEach h.prev 1 3 (h.prev 1) = some [2, 4] ∧
        ∃ h', listForEachSafe (visit (fun _ => true) fun _ => (none, some 5)) 1 3 h = some (h', [4, 2]) ∧
          h'.next 1 = some 1 ∧ h'.prev 1 = some 1 := by
  intro ops
  have hok : (lists (Fin 6)).RunMeets ListOp.Allowed Lists.empty ops := by decide
  obtain ⟨h, hrun, hlists, -⟩ := circular_lists ⟨fun _ => none, fun _ => some 5⟩ hok
  obtain ⟨-, -, hwalk, hiter⟩ := hlists 1 [4, 2] rfl
  obtain ⟨h', hvisits, -, hempty, -⟩ := hiter (fun _ => true) fun _ => (none, some 5)
  exact ⟨hok, h, hrun, (hwalk 3 (by decide)).1, (hwalk 3 (by decide)).2, h', hvisits 3 (by decide),
    hempty fun _ _ => rfl⟩

end TeleSync.ListHead
