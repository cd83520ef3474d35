import Mathlib

/-!
# A hub, its replicas and the values under way

A hub and its replicas hold a value for each key. Values are linearly ordered and only grow; they travel from a
replica to the hub and from the hub to the replicas, and may be anywhere on the way.

* `Hub` : the values that are held, and those under way in both directions;
* `Tracked s c` : whatever replica `c` has before the hub is under way to it, and the other way round;
* `Advances s s' c` : a change of the state that loses nothing on the way to or from `c`, whatever else it does;
* `Tracked.advance` : such a change keeps `Tracked`;
* `Tracked.eq_hub` : with nothing under way the replica has the hub's values.
-/

namespace Replication

/-- The values of hub and replicas, and those under way: `up` from a replica, `down` to one. -/
structure Hub (ι κ V : Type*) where
  hub : κ → V
  rep : ι → κ → V
  up : ι → κ → V → Prop
  down : ι → κ → V → Prop

variable {ι κ V : Type*} [LinearOrder V]

/-- Nothing is lost between the hub and replica `c`. -/
structure Tracked (s : Hub ι κ V) (c : ι) : Prop where
  up_le : ∀ k v, s.up c k v → v ≤ s.rep c k
  down_le : ∀ k v, s.down c k v → v ≤ s.hub k
  lead : ∀ k, s.rep c k ≤ s.hub k ∨ ∃ v, s.up c k v ∧ s.rep c k ≤ v
  lag : ∀ k, s.hub k ≤ s.rep c k ∨ ∃ v, s.down c k v ∧ s.hub k ≤ v

/-- Values grow, what is under way arrives or stays under way, and what is new at one end is known or under way at the
other. -/
structure Advances (s s' : Hub ι κ V) (c : ι) : Prop where
  hub_le : ∀ k, s.hub k ≤ s'.hub k
  rep_le : ∀ k, s.rep c k ≤ s'.rep c k
  up_sound : ∀ k v, s'.up c k v → s.up c k v ∨ v ≤ s'.rep c k
  down_sound : ∀ k v, s'.down c k v → s.down c k v ∨ v ≤ s'.hub k
  up_kept : ∀ k v, s.up c k v → v ≤ s'.hub k ∨ s'.up c k v
  down_kept : ∀ k v, s.down c k v → v ≤ s'.rep c k ∨ ∃ w, v ≤ w ∧ s'.down c k w
  rep_new : ∀ k, s'.rep c k = s.rep c k ∨ s'.rep c k ≤ s'.hub k ∨ s'.up c k (s'.rep c k)
  hub_new : ∀ k, s'.hub k = s.hub k ∨ s'.hub k ≤ s'.rep c k ∨ s'.down c k (s'.hub k)

variable {s s' : Hub ι κ V} {c : ι}

theorem Tracked.advance (h : Tracked s c) (ha : Advances s s' c) : Tracked s' c where
  up_le k v hv := by
    rcases ha.up_sound k v hv with hold | hle
    · exact (h.up_le k v hold).trans (ha.rep_le k)
    · exact hle
  down_le k v hv := by
    rcases ha.down_sound k v hv with hold | hle
    · exact (h.down_le k v hold).trans (ha.hub_le k)
    · exact hle
  lead k := by
    rcases ha.rep_new k with heq | hle | hup
    · rw [heq]
      rcases h.lead k with hle | ⟨v, hv, hle⟩
      · exact .inl (hle.trans (ha.hub_le k))
      · rcases ha.up_kept k v hv with hin | hup
        · exact .inl (hle.trans hin)
        · exact .inr ⟨v, hup, hle⟩
    · exact .inl hle
    · exact .inr ⟨_, hup, le_rfl⟩
  lag k := by
    rcases ha.hub_new k with heq | hle | hdown
    · rw [heq]
      rcases h.lag k with hle | ⟨v, hv, hle⟩
      · exact .inl (hle.trans (ha.rep_le k))
      · rcases ha.down_kept k v hv with hin | ⟨w, hvw, hw⟩
        · exact .inl (hle.trans hin)
        · exact .inr ⟨w, hw, hle.trans hvw⟩
    · exact .inl hle
    · exact .inr ⟨_, hdown, le_rfl⟩

/-- A change that replica `c` does not take part in. -/
theorem Advances.of_iff (hhub : s'.hub = s.hub) (hrep : s'.rep c = s.rep c) (hup : ∀ k v, s'.up c k v ↔ s.up c k v)
    (hdown : ∀ k v, s'.down c k v ↔ s.down c k v) : Advances s s' c where
  hub_le k := (congrFun hhub k).ge
  rep_le k := (congrFun hrep k).ge
  up_sound k v hv := .inl ((hup k v).mp hv)
  down_sound k v hv := .inl ((hdown k v).mp hv)
  up_kept k v hv := .inr ((hup k v).mpr hv)
  down_kept k v hv := .inr ⟨v, le_rfl, (hdown k v).mpr hv⟩
  rep_new k := .inl (congrFun hrep k)
  hub_new k := .inl (congrFun hhub k)

/-- What the replica has not got is still under way. -/
theorem Tracked.eq_hub (h : Tracked s c) (hup : ∀ k v, ¬ s.up c k v) (hdown : ∀ k v, ¬ s.down c k v) :
    s.rep c = s.hub := by
  funext k
  apply le_antisymm
  · rcases h.lead k with hle | ⟨v, hv, -⟩
    · exact hle
    · exact absurd hv (hup k v)
  · rcases h.lag k with hle | ⟨v, hv, -⟩
    · exact hle
    · exact absurd hv (hdown k v)

end Replication
