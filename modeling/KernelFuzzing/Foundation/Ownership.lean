import Mathlib.Data.List.Flatten
import Mathlib.Data.List.Nodup
import Mathlib.Data.Set.Basic
import Mathlib.Data.List.Basic

/-! Ownership of a set of resources: the resources in use are the disjoint union
of what the live owners hold. -/
namespace KernelFuzzing.Foundation.Ownership

variable {α : Type*} {inUse : Set α} {live : List (List α)} {held : List α}

/-- Each resource in use has one live owner, and nothing else is in use. -/
structure Owns (inUse : Set α) (live : List (List α)) : Prop where
  nodup : live.flatten.Nodup
  exact : ∀ a, a ∈ inUse ↔ a ∈ live.flatten

theorem Owns.empty (h : Owns inUse []) : inUse = ∅ := by
  ext a
  simp [h.exact a]

theorem Owns.owner_unique (h : Owns inUse live) (hi : i < live.length)
    (hj : j < live.length) (ai : a ∈ live[i]) (aj : a ∈ live[j]) : i = j := by
  have hpair := (List.nodup_flatten.mp h.nodup).2
  rw [List.pairwise_iff_getElem] at hpair
  rcases Nat.lt_trichotomy i j with hlt | heq | hgt
  · exact absurd aj (hpair i j hi hj hlt ai)
  · exact heq
  · exact absurd ai (hpair j i hj hi hgt aj)

theorem Owns.grant (h : Owns inUse live) (hnodup : held.Nodup)
    (fresh : ∀ a ∈ held, a ∉ inUse) :
    Owns (inUse ∪ {a | a ∈ held}) (live ++ [held]) where
  nodup := by
    rw [List.flatten_append, List.flatten_singleton, List.nodup_append]
    refine ⟨h.nodup, hnodup, ?_⟩
    rintro a ha b hb rfl
    exact fresh a hb ((h.exact a).mpr ha)
  exact := by
    intro a
    simp [h.exact a]

theorem Owns.release (h : Owns inUse live) (hk : k < live.length) :
    Owns (inUse \ {a | a ∈ live[k]}) (live.eraseIdx k) where
  nodup := h.nodup.sublist (List.eraseIdx_sublist live k).flatten
  exact := by
    intro a
    rw [Set.mem_sdiff, Set.mem_ofPred_eq, h.exact a, List.mem_flatten, List.mem_flatten]
    constructor
    · rintro ⟨⟨held, hheld, ha⟩, hnot⟩
      obtain ⟨j, hj, rfl⟩ := List.getElem_of_mem hheld
      have hne : j ≠ k := fun hjk => hnot (hjk ▸ ha)
      exact ⟨live[j], List.mem_eraseIdx_iff_getElem.mpr ⟨j, hj, hne, rfl⟩, ha⟩
    · rintro ⟨held, hheld, ha⟩
      obtain ⟨j, hj, hne, rfl⟩ := List.mem_eraseIdx_iff_getElem.mp hheld
      exact ⟨⟨live[j], List.getElem_mem hj, ha⟩,
        fun hak => hne (h.owner_unique hj hk ha hak)⟩

end KernelFuzzing.Foundation.Ownership
