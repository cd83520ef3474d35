import TeleSync.Table.HeapTable

/-!
# Owner lists in memory

What the pointers of a file table stand for, and the functions on owner lists.

* `Represents` : the memory holds the chains `c` of entries and the owners `o` of each; all other owners that are
  allocated have been left behind;
* `record`, `table` : the entries and the table that it stands for;
* `Rewrites` : the owners of one entry have changed, and nothing else;
* `exists_peerIdListAdd`, `exists_ownersSafe`, `exists_peerIdListReplace`, `exists_removeMyself` : the functions do so,
  and come to an end.
-/

namespace TeleSync.HeapTable
open ChainTable PointerChain Ring

variable {α β : Type}

/-! ## What the memory stands for -/

/-- The rings of the owners `o`, one for each entry that is allocated. -/
def rings (m : Mem α β) (o : α → List β) : Cell α β → Option (List (Cell α β))
  | .head fe => if m.liveEntry fe then some ((o fe).map .elm) else none
  | .elm _ => none

/-- The entries hang in the chains `c` and their owners in the lists `o`; the owners in `leaked` are allocated and in no
list. -/
structure Represents (m : Mem α β) (c : Buckets HASH_SIZE α) (o : α → List β) (leaked : List β) : Prop where
  chained : Chained m.chains c
  ringed : Rings m.lists (rings m o)
  live : ∀ i, ∀ fe ∈ c i, m.liveEntry fe = true
  dead : ∀ fe, m.liveEntry fe = false → o fe = []
  owned : ∀ fe, ∀ p ∈ o fe, (m.peers p).isSome = true
  leaked_live : ∀ p ∈ leaked, (m.peers p).isSome = true
  leaked_nodup : leaked.Nodup
  leaked_alone : ∀ p ∈ leaked, ∀ fe, p ∉ o fe
  found : ∀ p, (m.peers p).isSome = true → p ∈ leaked ∨ ∃ fe, p ∈ o fe

namespace Mem

def dataOf (m : Mem α β) (fe : α) : EntryData := (m.entries fe).getD ⟨Name.empty, 0, .regular⟩

def peerOf (m : Mem α β) (p : β) : PeerId := (m.peers p).getD ⟨0, 0⟩

end Mem

/-- The entry at an address. -/
def record (m : Mem α β) (o : α → List β) (fe : α) : FileEntry :=
  ⟨⟨(m.dataOf fe).timestamp, (m.dataOf fe).type, (o fe).map m.peerOf⟩, (m.dataOf fe).name⟩

def table (m : Mem α β) (c : Buckets HASH_SIZE α) (o : α → List β) : FileTable :=
  ⟨m.n, fun i => (c i).map (record m o)⟩

/-- The owners of an entry have changed, and nothing else. -/
structure Kept (m m' : Mem α β) (o : α → List β) (fe : α) : Prop where
  n : m'.n = m.n
  chains : m'.chains = m.chains
  entries : m'.entries = m.entries
  peers : ∀ a, a ≠ fe → ∀ p ∈ o a, m'.peers p = m.peers p

section Reads
variable {m m' m'' : Mem α β} {c : Buckets HASH_SIZE α} {o : α → List β} {leaked : List β} {fe a : α} {p : β}

theorem rings_head (hfe : m.liveEntry fe = true) : rings m o (.head fe) = some ((o fe).map .elm) := if_pos hfe

theorem rings_eq_some {d : Cell α β} {k : List (Cell α β)} (hd : rings m o d = some k) :
    ∃ fe, d = .head fe ∧ m.liveEntry fe = true ∧ k = (o fe).map .elm := by
  cases d with
  | elm p => cases hd
  | head fe =>
    rw [rings] at hd
    split_ifs at hd with hfe
    exact ⟨fe, rfl, hfe, (Option.some.inj hd).symm⟩

theorem Mem.peers_eq (hp : (m.peers p).isSome = true) : m.peers p = some (m.peerOf p) := by
  obtain ⟨q, hq⟩ := Option.isSome_iff_exists.mp hp
  rw [Mem.peerOf, hq]
  rfl

theorem Mem.entries_eq (hfe : m.liveEntry fe = true) : m.entries fe = some (m.dataOf fe) := by
  obtain ⟨d, hd⟩ := Option.isSome_iff_exists.mp hfe
  rw [Mem.dataOf, hd]
  rfl

theorem Represents.ring (hr : Represents m c o leaked) (hfe : m.liveEntry fe = true) :
    Seg m.lists (.head fe) ((o fe).map .elm) (.head fe) :=
  hr.ringed.ring _ _ (rings_head hfe)

theorem Represents.nodup (hr : Represents m c o leaked) (hfe : m.liveEntry fe = true) : (o fe).Nodup :=
  (List.nodup_cons.mp (hr.ringed.nodup _ _ (rings_head hfe))).2.of_map _

theorem Represents.live_of_mem (hr : Represents m c o leaked) (hp : p ∈ o fe) : m.liveEntry fe = true := by
  by_contra hfe
  rw [hr.dead fe (eq_false_of_ne_true hfe)] at hp
  exact List.not_mem_nil hp

theorem Represents.unique (hr : Represents m c o leaked) (hp : p ∈ o fe) (hpa : p ∈ o a) : fe = a := by
  have hmem : ∀ {e : α}, p ∈ o e → Cell.elm p ∈ Cell.head e :: (o e).map (Cell.elm (α := α)) := fun h =>
    List.mem_cons_of_mem _ (List.mem_map_of_mem h)
  exact Cell.head.inj (hr.ringed.unique _ _ _ _ (Cell.elm p) (rings_head (hr.live_of_mem hp))
    (rings_head (hr.live_of_mem hpa)) (hmem hp) (hmem hpa))

theorem Represents.liveCell (hr : Represents m c o leaked) {d b : Cell α β} {k : List (Cell α β)}
    (hd : rings m o d = some k) (hb : b ∈ d :: k) : m.liveCell b = true := by
  obtain ⟨e, rfl, he, rfl⟩ := rings_eq_some hd
  rcases List.mem_cons.mp hb with rfl | hb
  · exact he
  · obtain ⟨q, hq, rfl⟩ := List.mem_map.mp hb
    exact hr.owned e q hq

theorem free_elm (hp : ∀ fe, p ∉ o fe) : Free (rings m o) (.elm p) := by
  intro d k hd hmem
  obtain ⟨e, rfl, -, rfl⟩ := rings_eq_some hd
  rcases List.mem_cons.mp hmem with h | h
  · cases h
  · obtain ⟨q, hq, heq⟩ := List.mem_map.mp h
    exact hp e (Cell.elm.inj heq ▸ hq)

theorem rings_congr (h : m'.entries = m.entries) : rings m' o = rings m o := by
  funext d
  cases d with
  | elm p => rfl
  | head a => rw [rings, rings, Mem.liveEntry, Mem.liveEntry, h]

theorem Kept.refl (m : Mem α β) (o : α → List β) (fe : α) : Kept m m o fe := ⟨rfl, rfl, rfl, fun _ _ _ _ => rfl⟩

theorem Kept.trans {o' : α → List β} (h : Kept m m' o fe) (h' : Kept m' m'' o' fe) (ho : ∀ a, a ≠ fe → o' a = o a) :
    Kept m m'' o fe where
  n := h'.n.trans h.n
  chains := h'.chains.trans h.chains
  entries := h'.entries.trans h.entries
  peers a ha p hp := (h'.peers a ha p ((ho a ha).symm ▸ hp)).trans (h.peers a ha p hp)

theorem Kept.liveEntry (h : Kept m m' o fe) (a : α) : m'.liveEntry a = m.liveEntry a := by
  rw [Mem.liveEntry, Mem.liveEntry, h.entries]

end Reads

/-! ## One operation -/

variable [DecidableEq α] [DecidableEq β]

section Steps
variable {m m' m'' : Mem α β} {c : Buckets HASH_SIZE α} {o : α → List β} {leaked leaked' l l' : List β} {fe a : α}
  {p : β}

theorem rings_update (hfe : m.liveEntry fe = true) (l : List β) :
    rings m (Function.update o fe l) = Function.update (rings m o) (.head fe) (some (l.map .elm)) := by
  funext d
  cases d with
  | elm p => rfl
  | head a =>
    by_cases ha : a = fe
    · subst ha
      rw [rings, Function.update_self, Function.update_self, if_pos hfe]
    · rw [Function.update_of_ne fun h => ha (Cell.head.inj h), rings, rings, Function.update_of_ne ha]

/-- Other owners for one entry, in memory where its ring leads through them. -/
theorem Represents.rewrite (hr : Represents m c o leaked) (hfe : m.liveEntry fe = true) (hk : Kept m m' o fe)
    (hlists : Rings m'.lists (Function.update (rings m o) (.head fe) (some (l.map .elm))))
    (hl : ∀ p ∈ l, (m'.peers p).isSome = true) (hleaked : ∀ p ∈ leaked', (m'.peers p).isSome = true)
    (hnodup : leaked'.Nodup) (halone : ∀ p ∈ leaked', p ∉ l ∧ ∀ a, a ≠ fe → p ∉ o a)
    (hfound : ∀ p, (m'.peers p).isSome = true → p ∈ leaked' ∨ p ∈ l ∨ ∃ a, a ≠ fe ∧ p ∈ o a) :
    Represents m' c (Function.update o fe l) leaked' where
  chained := hk.chains ▸ hr.chained
  ringed := by
    rw [rings_congr hk.entries, rings_update hfe]
    exact hlists
  live i a ha := (hk.liveEntry a).trans (hr.live i a ha)
  dead a ha := by
    rw [hk.liveEntry] at ha
    have hne : a ≠ fe := by
      rintro rfl
      rw [hfe] at ha
      cases ha
    rw [Function.update_of_ne hne]
    exact hr.dead a ha
  owned a p hp := by
    rw [Function.update_apply] at hp
    split_ifs at hp with ha
    · exact hl p hp
    · rw [hk.peers a ha p hp]
      exact hr.owned a p hp
  leaked_live := hleaked
  leaked_nodup := hnodup
  leaked_alone p hp a := by
    rw [Function.update_apply]
    split_ifs with ha
    · exact (halone p hp).1
    · exact (halone p hp).2 a ha
  found p hp := by
    rcases hfound p hp with h | h | ⟨a, ha, h⟩
    · exact .inl h
    · exact .inr ⟨fe, (Function.update_self fe l o).symm ▸ h⟩
    · exact .inr ⟨a, (Function.update_of_ne ha l o).symm ▸ h⟩

theorem Represents.callocPeer (hr : Represents m c o leaked) (hp : m.peers p = none) :
    Represents (m.callocPeer p) c o (p :: leaked) := by
  have hdead : ¬ (m.peers p).isSome = true := by rw [hp]; exact Bool.false_ne_true
  have hlive : ∀ q, (m.peers q).isSome = true → ((m.callocPeer p).peers q).isSome = true := by
    intro q hq
    show (Function.update m.peers p _ q).isSome = true
    rw [Function.update_apply]
    split_ifs
    · rfl
    · exact hq
  refine ⟨hr.chained, ?_, hr.live, hr.dead, fun a q hq => hlive q (hr.owned a q hq), ?_, ?_, ?_, ?_⟩
  · refine hr.ringed.frame fun d k hd b hb => ?_
    have hne : b ≠ .elm p := by
      rintro rfl
      exact hdead (hr.liveCell hd hb)
    constructor <;> simp [Mem.callocPeer, ListHead.initListElm, hne]
  · refine List.forall_mem_cons.mpr ⟨?_, fun q hq => hlive q (hr.leaked_live q hq)⟩
    show (Function.update m.peers p _ p).isSome = true
    rw [Function.update_self]
    rfl
  · exact List.nodup_cons.mpr ⟨fun h => hdead (hr.leaked_live p h), hr.leaked_nodup⟩
  · exact List.forall_mem_cons.mpr ⟨fun a hpa => hdead (hr.owned a p hpa), hr.leaked_alone⟩
  · intro q hq
    by_cases hqp : q = p
    · exact .inl (hqp ▸ List.mem_cons_self)
    · have hold : (m.peers q).isSome = true := by
        have : (m.callocPeer p).peers q = m.peers q := Function.update_of_ne hqp _ _
        rwa [this] at hq
      exact (hr.found q hold).imp_left (List.mem_cons_of_mem p)

omit [DecidableEq α] in
theorem Represents.setPeer (hr : Represents m c o (p :: leaked)) (owner : PeerId) (fe : α) :
    ∃ m', m.setPeer p owner = some m' ∧ Represents m' c o (p :: leaked) ∧ m'.peerOf p = owner ∧ Kept m m' o fe ∧
      (∀ q, q ≠ p → m'.peers q = m.peers q) ∧ m'.calls = m.calls ∧ m'.failed = m.failed := by
  have hp := hr.leaked_live p List.mem_cons_self
  have hother : ∀ q, q ≠ p → Function.update m.peers p (some owner) q = m.peers q := fun q hq =>
    Function.update_of_ne hq _ _
  have hlive : ∀ q, (Function.update m.peers p (some owner) q).isSome = (m.peers q).isSome := by
    intro q
    rw [Function.update_apply]
    split_ifs with hq
    · rw [hq, hp]
      rfl
    · rfl
  refine ⟨{ m with peers := Function.update m.peers p (some owner) }, ?_, ?_, ?_, ?_, hother, rfl, rfl⟩
  · rw [Mem.setPeer, Mem.peers_eq hp, Option.map_some]
  · exact ⟨hr.chained, hr.ringed, hr.live, hr.dead, fun a q hq => (hlive q).trans (hr.owned a q hq),
      fun q hq => (hlive q).trans (hr.leaked_live q hq), hr.leaked_nodup, hr.leaked_alone,
      fun q hq => hr.found q ((hlive q).symm.trans hq)⟩
  · rw [Mem.peerOf]
    dsimp only
    rw [Function.update_self]
    rfl
  · refine ⟨rfl, rfl, rfl, fun a _ q hq => hother q ?_⟩
    rintro rfl
    exact hr.leaked_alone q List.mem_cons_self a hq

theorem Represents.listAddTail (hr : Represents m c o (p :: leaked)) (hfe : m.liveEntry fe = true) :
    ∃ m', m.listAddTail fe p = some m' ∧ Represents m' c (Function.update o fe (o fe ++ [p])) leaked ∧
      Kept m m' o fe ∧ m'.peers = m.peers ∧ m'.calls = m.calls ∧ m'.failed = m.failed := by
  have hhead := rings_head (o := o) hfe
  have halone := hr.leaked_alone p List.mem_cons_self
  have hfree : Free (rings m o) (.elm p) := free_elm halone
  obtain ⟨q, hq, -, -, hprev, -⟩ := hr.ringed.between hhead List.mem_cons_self
  have hqp : q ≠ .elm p := fun h => hfree _ _ hhead (h ▸ hq)
  obtain ⟨h', hadd, hins⟩ := ListHead.inserts_listelmAdd (h := m.lists) hqp (nofun : Cell.head fe ≠ .elm p)
  have hlists := hr.ringed.concat hhead hfree hprev hins
  have hp := hr.leaked_live p List.mem_cons_self
  obtain ⟨hpl, hnodup⟩ := List.nodup_cons.mp hr.leaked_nodup
  have hk : Kept m { m with lists := h' } o fe := ⟨rfl, rfl, rfl, fun _ _ _ _ => rfl⟩
  refine ⟨{ m with lists := h' }, ?_, hr.rewrite hfe hk ?_ ?_ ?_ hnodup ?_ ?_, hk, rfl, rfl, rfl⟩
  · have hlive : ([some (.head fe), some (.elm p), m.lists.prev (.head fe)] : List (Option (Cell α β))).all
        (fun c => c.all m.liveCell) = true := by
      have helm : m.liveCell (.elm p) = true := hp
      rw [hprev]
      simp [hr.liveCell hhead hq, hr.liveCell hhead List.mem_cons_self, helm]
    rw [Mem.listAddTail, Mem.withLists, if_pos hlive, ListHead.listAddTail, hprev, hadd, Option.map_some]
  · rw [List.map_append]
    exact hlists
  · intro q hq
    rcases List.mem_append.mp hq with hq | hq
    · exact hr.owned fe q hq
    · rwa [List.mem_singleton.mp hq]
  · exact fun q hq => hr.leaked_live q (List.mem_cons_of_mem p hq)
  · intro q hq
    refine ⟨fun h => ?_, fun a _ => hr.leaked_alone q (List.mem_cons_of_mem p hq) a⟩
    rcases List.mem_append.mp h with h | h
    · exact hr.leaked_alone q (List.mem_cons_of_mem p hq) fe h
    · exact hpl (List.mem_singleton.mp h ▸ hq)
  · intro q hq
    rcases hr.found q hq with h | ⟨a, h⟩
    · rcases List.mem_cons.mp h with rfl | h
      · exact .inr (.inl (List.mem_append_right _ (List.mem_singleton_self q)))
      · exact .inl h
    · by_cases ha : a = fe
      · exact .inr (.inl (List.mem_append_left _ (ha ▸ h)))
      · exact .inr (.inr ⟨a, ha, h⟩)

theorem Represents.drop (hr : Represents m c o leaked) (hp : p ∈ o fe) :
    ∃ m', (m.listDel p).bind (fun m => m.freePeer p) = some m' ∧
      Represents m' c (Function.update o fe ((o fe).erase p)) leaked ∧ Kept m m' o fe ∧
      (∀ q, q ≠ p → m'.peers q = m.peers q) ∧ m'.calls = m.calls ∧ m'.failed = m.failed := by
  have hfe := hr.live_of_mem hp
  have hhead := rings_head (o := o) hfe
  have hmem : Cell.elm p ∈ (o fe).map (Cell.elm (α := α)) := List.mem_map_of_mem hp
  obtain ⟨q₁, hq₁, q₂, hq₂, h', -, -, hprev, hnext, hdel, hrem, -⟩ :=
    ListHead.exists_removes (r := ⟨rings m o, fun _ => false⟩) (d := .head fe) hr.ringed hhead hmem
  have hlists := hr.ringed.remove hhead hmem hprev hnext hrem
  have hother : ∀ q, q ≠ p → Function.update m.peers p none q = m.peers q := fun q hq => Function.update_of_ne hq _ _
  have hlive : ∀ q, q ≠ p → (m.peers q).isSome = true → (Function.update m.peers p none q).isSome = true :=
    fun q hq h => (hother q hq).symm ▸ h
  have hpeer := hr.owned fe p hp
  let m' : Mem α β := { m with lists := h', peers := Function.update m.peers p none }
  have hk : Kept m m' o fe := by
    refine ⟨rfl, rfl, rfl, fun a ha q hq => hother q ?_⟩
    rintro rfl
    exact ha (hr.unique hq hp)
  have hnodup := hr.nodup hfe
  refine ⟨m', ?_, hr.rewrite hfe hk ?_ (fun q hq => ?_) (fun q hq => ?_) hr.leaked_nodup (fun q hq => ?_) fun q hq => ?_,
    hk, hother, rfl, rfl⟩
  · have hcells : ([some (.elm p), m.lists.prev (.elm p), m.lists.next (.elm p)] : List (Option (Cell α β))).all
        (fun c => c.all m.liveCell) = true := by
      have helm : m.liveCell (.elm p) = true := hpeer
      rw [hprev, hnext]
      simp [hr.liveCell hhead hq₁, hr.liveCell hhead hq₂, helm]
    rw [Mem.listDel, Mem.withLists, if_pos hcells, hdel, Option.map_some, Option.bind_some, Mem.freePeer,
      Mem.peers_eq (m := { m with lists := h' }) hpeer, Option.map_some]
  · have herase : ((o fe).erase p).map (Cell.elm (α := α)) = ((o fe).map .elm).erase (.elm p) := by
      rw [List.map_erase fun _ _ => Cell.elm.inj]
    rw [herase]
    exact hlists
  · exact hlive q (fun h => hnodup.not_mem_erase (h ▸ hq)) (hr.owned fe q (List.mem_of_mem_erase hq))
  · exact hlive q (fun h => hr.leaked_alone q hq fe (h ▸ hp)) (hr.leaked_live q hq)
  · exact ⟨fun h => hr.leaked_alone q hq fe (List.mem_of_mem_erase h), fun a _ => hr.leaked_alone q hq a⟩
  · have hqp : q ≠ p := by
      rintro rfl
      have hnone : m'.peers q = none := Function.update_self _ _ _
      rw [hnone] at hq
      cases hq
    have hold : (m.peers q).isSome = true := (hother q hqp) ▸ hq
    rcases hr.found q hold with h | ⟨a, h⟩
    · exact .inl h
    · by_cases ha : a = fe
      · exact .inr (.inl ((List.mem_erase_of_ne hqp).mpr (ha ▸ h)))
      · exact .inr (.inr ⟨a, ha, h⟩)

end Steps

/-! ## Loops that read -/

section Reading
variable {m : Mem α β} {fe : α} {a : Cell α β} {l : List β}

omit [DecidableEq α] [DecidableEq β] in
theorem Mem.listNext_eq (ha : m.liveCell a = true) : m.listNext a = some (m.lists.next a) := if_pos ha

theorem alreadyInOwners_eq (hs : Seg m.lists a (l.map .elm) (.head fe)) (hl : ∀ p ∈ l, (m.peers p).isSome = true)
    (owner : PeerId) {fuel : ℕ} (hfuel : l.length < fuel) :
    alreadyInOwners m fe owner.ip fuel (m.lists.next a) =
      some (TeleSync.alreadyInOwners (l.map m.peerOf) owner) := by
  induction l generalizing a fuel with
  | nil =>
    obtain ⟨fuel, rfl⟩ := Nat.exists_eq_add_of_le' (Nat.one_le_of_lt hfuel)
    rw [hs.1]
    exact if_pos rfl
  | cons p l ih =>
    obtain ⟨fuel, rfl⟩ := Nat.exists_eq_add_of_le' (Nat.one_le_of_lt hfuel)
    obtain ⟨hp, hl⟩ := List.forall_mem_cons.mp hl
    have hrest := ih hs.2.2 hl (Nat.lt_of_succ_lt_succ hfuel)
    rw [hs.1, alreadyInOwners, if_neg (by simp), Mem.peers_eq hp]
    simp only [Option.bind_eq_bind, Option.bind_some, hrest]
    by_cases hip : (m.peerOf p).ip = owner.ip
    · simp [TeleSync.alreadyInOwners, hip]
    · simp [TeleSync.alreadyInOwners, hip]

theorem fillOwners_eq (hs : Seg m.lists a (l.map .elm) (.head fe)) (hl : ∀ p ∈ l, (m.peers p).isSome = true)
    (owners : List PeerId) {fuel : ℕ} (hfuel : l.length < fuel) :
    fillOwners m fe fuel (m.lists.next a) owners = some (owners ++ l.map m.peerOf) := by
  induction l generalizing a fuel owners with
  | nil =>
    obtain ⟨fuel, rfl⟩ := Nat.exists_eq_add_of_le' (Nat.one_le_of_lt hfuel)
    rw [hs.1, List.map_nil, List.append_nil]
    exact if_pos rfl
  | cons p l ih =>
    obtain ⟨fuel, rfl⟩ := Nat.exists_eq_add_of_le' (Nat.one_le_of_lt hfuel)
    obtain ⟨hp, hl⟩ := List.forall_mem_cons.mp hl
    rw [hs.1, fillOwners, if_neg (by simp), Mem.peers_eq hp]
    simp only [Option.bind_eq_bind, Option.bind_some]
    rw [ih hs.2.2 hl _ (Nat.lt_of_succ_lt_succ hfuel), List.append_assoc]
    rfl

end Reading

/-! ## Adding owners -/

/-- `__peer_id_list_add` of a list of owners. -/
def addOwners (head owners : List PeerId) : List PeerId :=
  TeleSync.peerIdListAdd head { TransFileEntry.zero with owners := owners }

/-- How many of the owners are there already when their turn comes. -/
def duplicates (head : List PeerId) : List PeerId → ℕ
  | [] => 0
  | p :: owners =>
    if TeleSync.alreadyInOwners head p then duplicates head owners + 1 else duplicates (head ++ [p]) owners

/-- The entry `fe` gets the owners `l`, which are `owners`. -/
structure Rewrites (m m' : Mem α β) (c : Buckets HASH_SIZE α) (o : α → List β) (fe : α) (l leaked : List β)
    (owners : List PeerId) : Prop where
  represents : Represents m' c (Function.update o fe l) leaked
  kept : Kept m m' o fe
  owners : l.map m'.peerOf = owners

section Writing
variable {m m' m'' : Mem α β} {c : Buckets HASH_SIZE α} {o : α → List β} {leaked leaked' l l' : List β} {fe : α} {p : β}
  {owners owners' : List PeerId}

omit [DecidableEq β] in
theorem Rewrites.trans (h : Rewrites m m' c o fe l leaked owners)
    (h' : Rewrites m' m'' c (Function.update o fe l) fe l' leaked' owners') :
    Rewrites m m'' c o fe l' leaked' owners' where
  represents := by
    have hr := h'.represents
    rwa [Function.update_idem] at hr
  kept := h.kept.trans h'.kept fun _ ha => Function.update_of_ne ha _ _
  owners := h'.owners

omit [DecidableEq β] in
theorem Rewrites.refl (hr : Represents m c o leaked) (fe : α) :
    Rewrites m m c o fe (o fe) leaked ((o fe).map m.peerOf) where
  represents := by rwa [Function.update_eq_self]
  kept := .refl m o fe
  owners := rfl

omit [DecidableEq α] [DecidableEq β] in
theorem map_peerOf (h : ∀ p ∈ l, m'.peers p = m.peers p) : l.map m'.peerOf = l.map m.peerOf :=
  List.map_congr_left fun p hp => congrArg (fun q => q.getD ⟨0, 0⟩) (h p hp)

/-- A fresh owner with its address, for an entry. -/
theorem Represents.newPeer (hr : Represents m c o leaked) (hp : m.peers p = none) (owner : PeerId) (fe : α) :
    ∃ m', (m.callocPeer p).setPeer p owner = some m' ∧ Represents m' c o (p :: leaked) ∧ m'.peerOf p = owner ∧
      Kept m m' o fe ∧ (∀ q ∈ o fe, m'.peers q = m.peers q) ∧ m'.failed = m.failed := by
  obtain ⟨m', hset, hr', howner, hk, hpeers, -, hfailed⟩ := (hr.callocPeer hp).setPeer owner fe
  have hsame : ∀ a, ∀ q ∈ o a, m'.peers q = m.peers q := by
    intro a q hq
    have hqp : q ≠ p := by
      rintro rfl
      exact hr'.leaked_alone q List.mem_cons_self a hq
    exact (hpeers q hqp).trans (Function.update_of_ne hqp _ _)
  exact ⟨m', hset, hr', howner, ⟨hk.n, hk.chains, hk.entries, fun a _ => hsame a⟩, hsame fe, hfailed⟩

/-- `__peer_id_list_add`, as far as the allocations go. -/
theorem exists_peerIdListAdd (A : Allocator α β) (hr : Represents m c o leaked) (hfe : m.liveEntry fe = true)
    (owners : List PeerId) :
    ∃ k m' l left, (∀ fuel, (o fe).length + owners.length < fuel → peerIdListAdd A fuel fe owners m = some m') ∧
      Rewrites m m' c o fe l (left ++ leaked) (addOwners ((o fe).map m.peerOf) (owners.take k)) ∧
      left.length = duplicates ((o fe).map m.peerOf) (owners.take k) ∧
      (m'.failed = false → m.failed = false ∧ owners.take k = owners) := by
  induction owners generalizing m o leaked with
  | nil => exact ⟨0, m, o fe, [], fun _ _ => rfl, .refl hr fe, rfl, fun h => ⟨h, rfl⟩⟩
  | cons owner owners ih =>
    cases hA : A.peer m.calls m.peers with
    | none =>
      refine ⟨0, m.callocFails, o fe, [], fun fuel _ => ?_, ⟨?_, ⟨rfl, rfl, rfl, fun _ _ _ _ => rfl⟩, rfl⟩, rfl, nofun⟩
      · rw [peerIdListAdd, hA]
      · rw [Function.update_eq_self]
        exact ⟨hr.chained, hr.ringed, hr.live, hr.dead, hr.owned, hr.leaked_live, hr.leaked_nodup, hr.leaked_alone,
          hr.found⟩
    | some p =>
      obtain ⟨m₁, hset, hr₁, howner, hk₁, hsame, hfailed₁⟩ := hr.newPeer (A.peer_fresh hA) owner fe
      have hfe₁ : m₁.liveEntry fe = true := (hk₁.liveEntry fe).trans hfe
      have hmap : (o fe).map m₁.peerOf = (o fe).map m.peerOf := map_peerOf hsame
      have hdup : ∀ fuel, (o fe).length < fuel → alreadyInOwners m₁ fe owner.ip fuel (m₁.lists.next (.head fe)) =
          some (TeleSync.alreadyInOwners ((o fe).map m.peerOf) owner) := by
        intro fuel hfuel
        rw [alreadyInOwners_eq (hr₁.ring hfe₁) (hr₁.owned fe) owner hfuel, hmap]
      have hround : ∀ fuel, (o fe).length < fuel → peerIdListAdd A fuel fe (owner :: owners) m =
          (if TeleSync.alreadyInOwners ((o fe).map m.peerOf) owner then some m₁ else m₁.listAddTail fe p).bind
            (peerIdListAdd A fuel fe owners) := by
        intro fuel hfuel
        rw [peerIdListAdd, hA]
        simp only [hset, Mem.listNext_eq (a := .head fe) hfe₁, hdup fuel hfuel, Option.bind_eq_bind, Option.bind_some]
        split_ifs <;> rfl
      by_cases hin : TeleSync.alreadyInOwners ((o fe).map m.peerOf) owner = true
      · obtain ⟨k, m', l, left, hrun, hrw, hleft, hfailed⟩ := ih hr₁ hfe₁
        rw [hmap] at hrw hleft
        refine ⟨k + 1, m', l, left ++ [p], fun fuel hfuel => ?_, ⟨?_, ?_, ?_⟩, ?_, fun h => ?_⟩
        · rw [List.length_cons] at hfuel
          rw [hround fuel (by omega), if_pos hin, Option.bind_some, hrun fuel (by omega)]
        · rw [List.append_assoc, List.singleton_append]
          exact hrw.represents
        · exact hk₁.trans hrw.kept fun _ _ => rfl
        · rw [hrw.owners, List.take_succ_cons]
          simp [addOwners, TeleSync.peerIdListAdd, hin]
        · rw [List.take_succ_cons, duplicates, if_pos hin, List.length_append, hleft]
          rfl
        · obtain ⟨h₁, hk⟩ := hfailed h
          exact ⟨hfailed₁ ▸ h₁, by rw [List.take_succ_cons, hk]⟩
      · obtain ⟨m₂, hadd, hr₂, hk₂, hpeers₂, -, hfailed₂⟩ := hr₁.listAddTail hfe₁
        have hfe₂ : m₂.liveEntry fe = true := (hk₂.liveEntry fe).trans hfe₁
        obtain ⟨k, m', l, left, hrun, hrw, hleft, hfailed⟩ := ih hr₂ hfe₂
        have hmap₂ : (Function.update o fe (o fe ++ [p]) fe).map m₂.peerOf = (o fe).map m.peerOf ++ [owner] := by
          rw [Function.update_self, List.map_append, map_peerOf fun q _ => congrFun hpeers₂ q, hmap, List.map_singleton,
            ← howner, Mem.peerOf, Mem.peerOf, hpeers₂]
        rw [hmap₂] at hrw hleft
        refine ⟨k + 1, m', l, left, fun fuel hfuel => ?_, ⟨?_, ?_, ?_⟩, ?_, fun h => ?_⟩
        · rw [List.length_cons] at hfuel
          rw [hround fuel (by omega), if_neg hin, hadd, Option.bind_some, hrun fuel]
          rw [Function.update_self, List.length_append, List.length_singleton]
          omega
        · have hrep := hrw.represents
          rwa [Function.update_idem] at hrep
        · exact hk₁.trans (hk₂.trans hrw.kept fun _ ha => Function.update_of_ne ha _ _) fun _ _ => rfl
        · rw [hrw.owners, List.take_succ_cons]
          simp [addOwners, TeleSync.peerIdListAdd, hin]
        · rw [List.take_succ_cons, duplicates, if_neg hin, hleft]
        · obtain ⟨h₂, hk⟩ := hfailed h
          exact ⟨hfailed₁ ▸ hfailed₂ ▸ h₂, by rw [List.take_succ_cons, hk]⟩

/-! ## Removing owners -/

/-- The rounds, from any owner on: the next cell has been read before the owner goes. -/
theorem exists_ownersSafeLoop (del : PeerId → Bool) (hr : Represents m c o leaked) (hfe : m.liveEntry fe = true)
    (l₁ l₂ : List β) (hl : o fe = l₁ ++ l₂) :
    ∃ m', (∀ fuel, l₂.length < fuel →
        ownersSafeLoop del fe fuel ((l₂.map .elm).headD (.head fe)) (m.lists.next ((l₂.map .elm).headD (.head fe))) m =
          some m') ∧
      Represents m' c (Function.update o fe (l₁ ++ l₂.filter fun p => !del (m.peerOf p))) leaked ∧ Kept m m' o fe ∧
      (∀ p ∈ l₁ ++ l₂.filter fun p => !del (m.peerOf p), m'.peers p = m.peers p) ∧ m'.failed = m.failed := by
  induction l₂ generalizing m o l₁ with
  | nil =>
    refine ⟨m, fun fuel hfuel => ?_, ?_, .refl m o fe, fun _ _ => rfl, rfl⟩
    · obtain ⟨fuel, rfl⟩ := Nat.exists_eq_add_of_le' (Nat.one_le_of_lt hfuel)
      exact if_pos rfl
    · rwa [List.filter_nil, ← hl, Function.update_eq_self]
  | cons p l₂ ih =>
    have hp : p ∈ o fe := hl ▸ List.mem_append_right l₁ List.mem_cons_self
    have hseg : Seg m.lists (.elm p) (l₂.map .elm) (.head fe) := by
      have hring := hr.ring hfe
      rw [hl, List.map_append, List.map_cons] at hring
      exact (seg_append.mp hring).2
    have hnodup := hr.nodup hfe
    rw [hl] at hnodup
    have hround : ∀ m₁, (if del (m.peerOf p) then (m.listDel p).bind fun m => m.freePeer p else some m) = some m₁ →
        m₁.liveEntry fe = true → (∀ q ∈ l₂, (m₁.peers q).isSome = true) → ∀ fuel,
          ownersSafeLoop del fe (fuel + 1) (.elm p) (m.lists.next (.elm p)) m =
            ownersSafeLoop del fe fuel ((l₂.map .elm).headD (.head fe))
              (m₁.lists.next ((l₂.map .elm).headD (.head fe))) m₁ := by
      intro m₁ hbody hfe₁ hlive fuel
      have hnext : m₁.liveCell ((l₂.map .elm).headD (.head fe)) = true := by
        cases l₂ with
        | nil => exact hfe₁
        | cons q l₂ => exact hlive q List.mem_cons_self
      rw [ownersSafeLoop, if_neg nofun, Mem.peers_eq (hr.owned fe p hp)]
      simp only [hseg.next_eq, Option.bind_eq_bind, Option.bind_some]
      split_ifs at hbody ⊢ with hdel
      · rw [hbody, Option.bind_some, Mem.listNext_eq hnext, Option.bind_some]
      · obtain rfl := Option.some.inj hbody
        rw [Mem.listNext_eq hnext, Option.bind_some]
    by_cases hdel : del (m.peerOf p) = true
    · obtain ⟨m₁, hdrop, hr₁, hk₁, hpeers₁, -, hfailed₁⟩ := hr.drop hp
      have herase : (o fe).erase p = l₁ ++ l₂ := by rw [hl, KeyedList.erase_append_cons hnodup]
      rw [herase] at hr₁
      have hne : ∀ q ∈ l₁ ++ l₂, q ≠ p := by
        rintro q hq rfl
        rw [← herase] at hq
        exact (hr.nodup hfe).not_mem_erase hq
      have hpeer : ∀ q ∈ l₂, m₁.peerOf q = m.peerOf q := fun q hq =>
        congrArg (fun q => q.getD ⟨0, 0⟩) (hpeers₁ q (hne q (List.mem_append_right l₁ hq)))
      have hfilter : (l₂.filter fun q => !del (m₁.peerOf q)) = l₂.filter fun q => !del (m.peerOf q) :=
        List.filter_congr fun q hq => by rw [hpeer q hq]
      have hfe₁ : m₁.liveEntry fe = true := (hk₁.liveEntry fe).trans hfe
      obtain ⟨m', hrun, hr', hk', hpeers', hfailed'⟩ := ih hr₁ hfe₁ l₁ (Function.update_self _ _ _)
      rw [hfilter] at hr' hpeers'
      have hcons : ((p :: l₂).filter fun q => !del (m.peerOf q)) = l₂.filter fun q => !del (m.peerOf q) :=
        List.filter_cons_of_neg (by simp [hdel])
      rw [hcons]
      refine ⟨m', fun fuel hfuel => ?_, ?_, hk₁.trans hk' fun _ ha => Function.update_of_ne ha _ _, fun q hq => ?_,
        hfailed'.trans hfailed₁⟩
      · obtain ⟨fuel, rfl⟩ := Nat.exists_eq_add_of_le' (Nat.one_le_of_lt hfuel)
        rw [← hrun fuel (Nat.lt_of_succ_lt_succ hfuel)]
        refine hround m₁ ?_ hfe₁ (fun q hq => ?_) fuel
        · rw [if_pos hdel, hdrop]
        · refine hr₁.owned fe q ?_
          rw [Function.update_self]
          exact List.mem_append_right l₁ hq
      · rwa [Function.update_idem] at hr'
      · have hq' : q ∈ l₁ ++ l₂ := by
          rcases List.mem_append.mp hq with hq | hq
          · exact List.mem_append_left _ hq
          · exact List.mem_append_right _ (List.mem_of_mem_filter hq)
        exact (hpeers' q hq).trans (hpeers₁ q (hne q hq'))
    · obtain ⟨m', hrun, hr', hk', hpeers', hfailed'⟩ := ih hr hfe (l₁ ++ [p]) (by rw [hl, List.append_cons])
      have hcons : l₁ ++ ((p :: l₂).filter fun q => !del (m.peerOf q)) =
          l₁ ++ [p] ++ l₂.filter fun q => !del (m.peerOf q) := by
        rw [List.filter_cons_of_pos (by simp [hdel]), List.append_cons]
      rw [hcons]
      refine ⟨m', fun fuel hfuel => ?_, hr', hk', hpeers', hfailed'⟩
      obtain ⟨fuel, rfl⟩ := Nat.exists_eq_add_of_le' (Nat.one_le_of_lt hfuel)
      rw [← hrun fuel (Nat.lt_of_succ_lt_succ hfuel)]
      refine hround m (if_neg hdel) hfe (fun q hq => hr.owned fe q ?_) fuel
      rw [hl]
      exact List.mem_append_right l₁ (List.mem_cons_of_mem p hq)

theorem exists_ownersSafe (del : PeerId → Bool) (hr : Represents m c o leaked) (hfe : m.liveEntry fe = true) :
    ∃ m', (∀ fuel, (o fe).length < fuel → ownersSafe fuel del fe m = some m') ∧
      Rewrites m m' c o fe ((o fe).filter fun p => !del (m.peerOf p)) leaked
        (((o fe).map m.peerOf).filter fun q => !del q) ∧
      m'.failed = m.failed := by
  obtain ⟨m', hrun, hr', hk', hpeers', hfailed'⟩ := exists_ownersSafeLoop del hr hfe [] (o fe) rfl
  rw [List.nil_append] at hr' hpeers'
  refine ⟨m', fun fuel hfuel => ?_, ⟨hr', hk', ?_⟩, hfailed'⟩
  · have hnext : m.liveCell (((o fe).map .elm).headD (.head fe)) = true := by
      cases hl : o fe with
      | nil => exact hfe
      | cons q l => exact hr.owned fe q (hl ▸ List.mem_cons_self)
    rw [ownersSafe, Mem.listNext_eq (a := .head fe) hfe, (hr.ring hfe).next_eq]
    simp only [Option.bind_eq_bind, Option.bind_some, Mem.listNext_eq hnext]
    exact hrun fuel hfuel
  · rw [map_peerOf hpeers', List.filter_map]
    rfl

theorem exists_peerIdListDestroy (hr : Represents m c o leaked) (hfe : m.liveEntry fe = true) :
    ∃ m', (∀ fuel, (o fe).length < fuel → peerIdListDestroy fuel fe m = some m') ∧ Rewrites m m' c o fe [] leaked [] ∧
      m'.failed = m.failed := by
  obtain ⟨m', hrun, hrw, hfailed⟩ := exists_ownersSafe (fun _ => true) hr hfe
  rw [Bool.not_true, List.filter_false, List.filter_false] at hrw
  exact ⟨m', hrun, hrw, hfailed⟩

theorem exists_peerIdListReplace (A : Allocator α β) (hr : Represents m c o leaked) (hfe : m.liveEntry fe = true)
    (te : TransFileEntry) :
    ∃ k m' l left, (∀ fuel, (o fe).length + te.owners.length < fuel → peerIdListReplace A fuel fe te m = some m') ∧
      Rewrites m m' c o fe l (left ++ leaked) (addOwners [] (te.owners.take k)) ∧
      left.length = duplicates [] (te.owners.take k) ∧
      (m'.failed = false → m.failed = false ∧ te.owners.take k = te.owners) := by
  obtain ⟨m₁, hrun₁, hrw₁, hfailed₁⟩ := exists_peerIdListDestroy hr hfe
  have hfe₁ : m₁.liveEntry fe = true := (hrw₁.kept.liveEntry fe).trans hfe
  obtain ⟨k, m', l, left, hrun, hrw, hleft, hfailed⟩ := exists_peerIdListAdd A hrw₁.represents hfe₁ te.owners
  rw [Function.update_self] at hrun hrw hleft
  refine ⟨k, m', l, left, fun fuel hfuel => ?_, hrw₁.trans hrw, hleft, fun h => hfailed₁ ▸ hfailed h⟩
  rw [peerIdListReplace, hrun₁ fuel (by omega)]
  refine hrun fuel ?_
  rw [List.length_nil]
  omega

theorem exists_removeMyselfLoop (myIp : UInt32) (hr : Represents m c o leaked) (hfe : m.liveEntry fe = true)
    (l₁ l₂ : List β) (hl : o fe = l₁ ++ l₂) :
    ∃ m', (∀ fuel, l₂.length < fuel → removeMyselfLoop myIp fe m fuel (some ((l₂.map .elm).headD (.head fe))) = some m') ∧
      Represents m' c (Function.update o fe (l₁ ++ l₂.eraseP fun p => (m.peerOf p).ip == myIp)) leaked ∧
        Kept m m' o fe ∧
      (∀ p ∈ l₁ ++ l₂.eraseP fun p => (m.peerOf p).ip == myIp, m'.peers p = m.peers p) ∧ m'.failed = m.failed := by
  induction l₂ generalizing l₁ with
  | nil =>
    refine ⟨m, fun fuel hfuel => ?_, ?_, .refl m o fe, fun _ _ => rfl, rfl⟩
    · obtain ⟨fuel, rfl⟩ := Nat.exists_eq_add_of_le' (Nat.one_le_of_lt hfuel)
      exact if_pos rfl
    · rwa [List.eraseP_nil, ← hl, Function.update_eq_self]
  | cons p l₂ ih =>
    have hp : p ∈ o fe := hl ▸ List.mem_append_right l₁ List.mem_cons_self
    have hround : ∀ fuel, removeMyselfLoop myIp fe m (fuel + 1) (some (.elm p)) =
        if (m.peerOf p).ip = myIp then (m.listDel p).bind fun m => m.freePeer p
        else removeMyselfLoop myIp fe m fuel (m.lists.next (.elm p)) := by
      intro fuel
      rw [removeMyselfLoop, if_neg (by simp), Mem.peers_eq (hr.owned fe p hp)]
      rfl
    by_cases hip : (m.peerOf p).ip = myIp
    · obtain ⟨m₁, hdrop, hr₁, hk₁, hpeers₁, -, hfailed₁⟩ := hr.drop hp
      have hnodup := hr.nodup hfe
      have herase : (o fe).erase p = l₁ ++ l₂ := by rw [hl, KeyedList.erase_append_cons (hl ▸ hnodup)]
      rw [List.eraseP_cons_of_pos (by simpa using hip), ← herase]
      refine ⟨m₁, fun fuel hfuel => ?_, hr₁, hk₁, fun q hq => hpeers₁ q ?_, hfailed₁⟩
      · obtain ⟨fuel, rfl⟩ := Nat.exists_eq_add_of_le' (Nat.one_le_of_lt hfuel)
        rw [List.map_cons, List.headD_cons, hround, if_pos hip, hdrop]
      · rintro rfl
        exact hnodup.not_mem_erase hq
    · have hseg : Seg m.lists (.elm p) (l₂.map .elm) (.head fe) := by
        have hring := hr.ring hfe
        rw [hl, List.map_append, List.map_cons] at hring
        exact (seg_append.mp hring).2
      obtain ⟨m', hrun, hrest⟩ := ih (l₁ ++ [p]) (by rw [hl, List.append_cons])
      rw [List.eraseP_cons_of_neg (by simpa using hip), List.append_cons]
      refine ⟨m', fun fuel hfuel => ?_, hrest⟩
      obtain ⟨fuel, rfl⟩ := Nat.exists_eq_add_of_le' (Nat.one_le_of_lt hfuel)
      rw [List.map_cons, List.headD_cons, hround, if_neg hip, hseg.next_eq]
      exact hrun fuel (Nat.lt_of_succ_lt_succ hfuel)

theorem exists_removeMyself (myIp : UInt32) (hr : Represents m c o leaked) (hfe : m.liveEntry fe = true) :
    ∃ m' l, (∀ fuel, (o fe).length < fuel → peerIdListRemoveMyself fuel myIp fe m = some m') ∧
      Rewrites m m' c o fe l leaked (((o fe).map m.peerOf).eraseP fun p => p.ip == myIp) ∧ m'.failed = m.failed := by
  obtain ⟨m', hrun, hr', hk', hpeers', hfailed'⟩ := exists_removeMyselfLoop myIp hr hfe [] (o fe) rfl
  rw [List.nil_append] at hr' hpeers'
  refine ⟨m', _, fun fuel hfuel => ?_, ⟨hr', hk', ?_⟩, hfailed'⟩
  · rw [peerIdListRemoveMyself, Mem.listNext_eq (a := .head fe) hfe, (hr.ring hfe).next_eq]
    exact hrun fuel hfuel
  · rw [map_peerOf hpeers', List.eraseP_map]
    rfl

end Writing

end TeleSync.HeapTable
