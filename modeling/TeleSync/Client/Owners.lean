import TeleSync.Client.Handlers

/-!
# Whose owners a client records

A client learns owners from the entries that `broadcast_entry_handler` and `file_table_sync` handle. A download
asks the owners in the table, so they should be owners of the version in the table.

* `handleEntry` : one entry through either handler; `entryHandling` : any sequence of them, with the entries
  handled so far;
* `Announced` : an owner was announced for a version, by an entry or by the table at the start;
* `NotStale` : an entry is not older than the recorded version of its name;
* `owners_announced` : as long as no entry is stale, all recorded owners were announced for the recorded
  version.
-/

namespace TeleSync
open Transition

/-! ## Handling entries -/

/-- The two ways in which an entry reaches the table. -/
inductive HandlerPath where
  | broadcast
  | sync
  deriving DecidableEq

/-- One entry, in a broadcast or as a sync reply of its own. -/
def handleEntry (myIp : UInt32) (path : HandlerPath) (ft : FileTable) (te : TransFileEntry) :
    FileTable × List ClientAction :=
  match path with
  | .broadcast => broadcastEntryHandler myIp ft te
  | .sync => fileTableSync myIp ft [te]

/-- The entry adds or modifies; `file_table_sync` does not look at the operation. -/
def Receives (path : HandlerPath) (te : TransFileEntry) : Prop :=
  path = .sync ∨ te.opType = .fileAdd ∨ te.opType = .fileModify

instance (path : HandlerPath) (te : TransFileEntry) : Decidable (Receives path te) :=
  inferInstanceAs (Decidable (path = .sync ∨ te.opType = .fileAdd ∨ te.opType = .fileModify))

/-- All three copies of the decision do the same. -/
theorem handleEntry_eq (myIp : UInt32) {path : HandlerPath} (ft : FileTable) {te : TransFileEntry}
    (h : Receives path te) : handleEntry myIp path ft te = fileTableSyncEntry myIp ft te := by
  cases path with
  | sync =>
    rw [handleEntry, fileTableSync, List.foldl_cons, List.foldl_nil, fileTableSyncStep, List.nil_append]
  | broadcast =>
    rw [handleEntry, broadcastEntryHandler]
    rcases h with h | h | h
    · cases h
    · rw [h]
      exact broadcastFileAdd_eq myIp ft te
    · rw [h]
      exact broadcastFileModify_eq myIp ft te

/-- The table and the entries handled so far. -/
structure OwnerState where
  ft : FileTable
  handled : List TransFileEntry

/-- Entries that add or modify, in any order and by either path. -/
def entryHandling (myIp : UInt32) : System OwnerState (HandlerPath × TransFileEntry) where
  step s e :=
    if Receives e.1 e.2 then some ⟨(handleEntry myIp e.1 s.ft e.2).1, s.handled ++ [e.2]⟩ else none

/-! ## Announced owners -/

/-- `p` was announced as an owner of this version: by a handled entry, or by the table `T₀` at the start. -/
def Announced (T₀ : FileTable) (handled : List TransFileEntry) (name : Name) (timestamp : ℕ) (p : PeerId) : Prop :=
  (∃ te ∈ handled, te.name = name ∧ te.timestamp = timestamp ∧ p ∈ te.owners) ∨
    ∃ r, T₀.view name = some r ∧ r.timestamp = timestamp ∧ p ∈ r.owners

/-- Every recorded owner was announced for the recorded version. -/
def OwnersAnnounced (T₀ : FileTable) (s : OwnerState) : Prop :=
  ∀ name r, s.ft.view name = some r → ∀ p ∈ r.owners, Announced T₀ s.handled name r.timestamp p

/-- The entry is not older than the recorded version of its name. -/
def NotStale (s : OwnerState) (e : HandlerPath × TransFileEntry) : Prop :=
  ∀ r, s.ft.view e.2.name = some r → r.timestamp ≤ e.2.timestamp

instance (s : OwnerState) (e : HandlerPath × TransFileEntry) : Decidable (NotStale s e) :=
  inferInstanceAs (Decidable (∀ r ∈ s.ft.view e.2.name, r.timestamp ≤ e.2.timestamp))

section Steps
variable {T₀ : FileTable} {myIp : UInt32} {te : TransFileEntry} {p : PeerId}

theorem Announced.append {handled : List TransFileEntry} {name : Name} {timestamp : ℕ}
    (h : Announced T₀ handled name timestamp p) : Announced T₀ (handled ++ [te]) name timestamp p := by
  rcases h with ⟨e, he, hrest⟩ | h
  · exact Or.inl ⟨e, List.mem_append_left _ he, hrest⟩
  · exact Or.inr h

theorem mem_receiveRecord {o : Option FileRecord} (h : p ∈ (receiveRecord myIp te o).owners) : p ∈ te.owners := by
  have hadd : p ∈ peerIdListAdd [] te := by
    cases o with
    | none => exact h
    | some r => exact List.mem_of_mem_eraseP h
  exact (mem_peerIdListAdd hadd).resolve_left List.not_mem_nil

/-- The recorded version after an entry that is not stale is the version of that entry. -/
theorem timestamp_receiveRecord {o : Option FileRecord} (h : ∀ r, o = some r → r.timestamp ≤ te.timestamp) :
    (receiveRecord myIp te o).timestamp = te.timestamp := by
  cases o with
  | none => rfl
  | some r => exact max_eq_right (h r rfl)

theorem OwnersAnnounced.step {s s' : OwnerState} {e : HandlerPath × TransFileEntry} (h : OwnersAnnounced T₀ s)
    (hok : NotStale s e) (hs : (entryHandling myIp).step s e = some s') : OwnersAnnounced T₀ s' := by
  obtain ⟨path, te⟩ := e
  simp only [entryHandling] at hs
  split_ifs at hs with hg
  cases hs
  intro name r hr q hq
  simp only at hr ⊢
  rw [handleEntry_eq myIp s.ft hg, view_receive] at hr
  by_cases hn : name = te.name
  · rw [hn, Function.update_self, Option.some.injEq] at hr
    subst hr
    rw [hn, timestamp_receiveRecord hok]
    exact Or.inl ⟨te, List.mem_append_right _ (List.mem_singleton_self te), rfl, rfl, mem_receiveRecord hq⟩
  · rw [Function.update_of_ne hn] at hr
    exact (h name r hr q hq).append

end Steps

/-- **Owners of the recorded version.** From any table, along every sequence of entries none of which is older
than what the table records for its name, the recorded owners of every name were announced for its recorded
version. -/
theorem owners_announced (myIp : UInt32) (T₀ : FileTable) (es : List (HandlerPath × TransFileEntry)) (s : OwnerState)
    (hok : (entryHandling myIp).RunMeets NotStale ⟨T₀, []⟩ es)
    (hrun : (entryHandling myIp).run ⟨T₀, []⟩ es = some s) : OwnersAnnounced T₀ s := by
  have hstart : OwnersAnnounced T₀ ⟨T₀, []⟩ := fun name r hr p hp => Or.inr ⟨r, hr, rfl, hp⟩
  exact System.runMeets_invariant (I := OwnersAnnounced T₀) (fun _ _ _ ht hmeets hstep => ht.step hmeets hstep)
    hstart hok hrun

/-- A new file, then a newer version of it with another owner. -/
theorem owners_announced_two_versions :
    let f : Name := ⟨[102], by decide, by decide⟩
    let es : List (HandlerPath × TransFileEntry) :=
      [(.broadcast, ⟨f, 3, .fileAdd, .regular, [⟨1, P2P_PORT⟩]⟩),
        (.sync, ⟨f, 5, .fileModify, .regular, [⟨2, P2P_PORT⟩]⟩)]
    ∃ s, (entryHandling 9).run ⟨fileTableInit, []⟩ es = some s ∧
      s.ft.view f = some ⟨5, .regular, [⟨2, P2P_PORT⟩]⟩ ∧ OwnersAnnounced fileTableInit s := by
  intro f es
  have hok : (entryHandling 9).RunMeets NotStale ⟨fileTableInit, []⟩ es := by decide
  have hlast : ((entryHandling 9).run ⟨fileTableInit, []⟩ es).map (fun s => s.ft.view f) =
      some (some ⟨5, .regular, [⟨2, P2P_PORT⟩]⟩) := by decide
  obtain ⟨s, hrun, hs⟩ := Option.map_eq_some_iff.mp hlast
  exact ⟨s, hrun, hs, owners_announced 9 fileTableInit es s hok hrun⟩

/-- An entry of version 5, then an older one of version 3 with another owner: the table then records version 5
with an owner that announced version 3 only. -/
theorem owner_of_older_version :
    let f : Name := ⟨[102], by decide, by decide⟩
    let es : List (HandlerPath × TransFileEntry) :=
      [(.broadcast, ⟨f, 5, .fileAdd, .regular, [⟨1, P2P_PORT⟩]⟩),
        (.broadcast, ⟨f, 3, .fileModify, .regular, [⟨2, P2P_PORT⟩]⟩)]
    ∃ s, (entryHandling 9).run ⟨fileTableInit, []⟩ es = some s ∧ ¬ OwnersAnnounced fileTableInit s := by
  intro f es
  have hlast : ((entryHandling 9).run ⟨fileTableInit, []⟩ es).map (fun s => (s.ft.view f, s.handled)) =
      some (some ⟨5, .regular, [⟨2, P2P_PORT⟩]⟩, es.map Prod.snd) := by decide
  obtain ⟨s, hrun, hs⟩ := Option.map_eq_some_iff.mp hlast
  obtain ⟨hview, hhandled⟩ := Prod.mk.inj hs
  refine ⟨s, hrun, fun h => ?_⟩
  rcases h f _ hview ⟨2, P2P_PORT⟩ (List.mem_singleton_self _) with ⟨te, hte, -, ht, hp⟩ | ⟨r, hr, -⟩
  · rw [hhandled] at hte
    have hall : ∀ te ∈ es.map Prod.snd, te.timestamp = 5 → ⟨2, P2P_PORT⟩ ∉ te.owners := by decide
    exact hall te hte ht hp
  · cases hr

end TeleSync
