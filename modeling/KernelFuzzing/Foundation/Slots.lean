import Mathlib.Data.List.Nodup
import Mathlib.Data.List.Basic
import Mathlib.Data.Nat.Count
import Mathlib.Data.List.Perm.Subperm

/-! Slots with a mark each, and owners that hold them: what handing out a slot and
taking it back do to the agreement of marks and owners. -/
namespace KernelFuzzing.Foundation.Slots

variable {ι : Type*} {n i j : Nat} {marked marked' : Nat → Prop} {holds holds' : ι → Nat → Prop}

/-- Among the slots below `n`, the marked ones are those held, each by one owner. -/
structure Assigned (n : Nat) (marked : Nat → Prop) (holds : ι → Nat → Prop) : Prop where
  held : ∀ {o i}, holds o i → i < n ∧ marked i
  owned : ∀ {i}, i < n → marked i → ∃ o, holds o i
  unique : ∀ {o p i}, holds o i → holds p i → o = p

theorem Assigned.congr (h : Assigned n marked holds) (hm : ∀ i < n, marked' i ↔ marked i)
    (hh : ∀ o i, holds' o i ↔ holds o i) : Assigned n marked' holds' where
  held hold := by
    obtain ⟨hi, mark⟩ := h.held ((hh _ _).mp hold)
    exact ⟨hi, (hm _ hi).mpr mark⟩
  owned hi mark := by
    obtain ⟨o, hold⟩ := h.owned hi ((hm _ hi).mp mark)
    exact ⟨o, (hh _ _).mpr hold⟩
  unique ho hp := h.unique ((hh _ _).mp ho) ((hh _ _).mp hp)

theorem Assigned.empty (hm : ∀ i < n, ¬ marked i) (hh : ∀ o i, ¬ holds o i) :
    Assigned n marked holds where
  held hold := absurd hold (hh _ _)
  owned hi mark := absurd mark (hm _ hi)
  unique ho := absurd ho (hh _ _)

theorem Assigned.marked_iff (h : Assigned n marked holds) (hi : i < n) :
    marked i ↔ ∃! o, holds o i := by
  constructor
  · intro mark
    obtain ⟨o, hold⟩ := h.owned hi mark
    exact ⟨o, hold, fun p hp => h.unique hp hold⟩
  · rintro ⟨o, hold, -⟩
    exact (h.held hold).2

theorem Assigned.grant (h : Assigned n marked holds) (hi : i < n) (free : ¬ marked i) (o : ι) :
    Assigned n (fun j => j = i ∨ marked j) (fun p j => holds p j ∨ p = o ∧ j = i) where
  held := by
    rintro p j (hold | ⟨rfl, rfl⟩)
    · exact (h.held hold).imp id .inr
    · exact ⟨hi, .inl rfl⟩
  owned := by
    rintro j hj (rfl | mark)
    · exact ⟨o, .inr ⟨rfl, rfl⟩⟩
    · exact (h.owned hj mark).imp fun p => .inl
  unique := by
    rintro p q j (hp | ⟨rfl, rfl⟩) (hq | ⟨rfl, hij⟩)
    · exact h.unique hp hq
    · exact absurd (hij ▸ (h.held hp).2) free
    · exact absurd (h.held hq).2 free
    · rfl

theorem Assigned.release (h : Assigned n marked holds) {o : ι} (hold : holds o i)
    (only : ∀ j, holds o j → j = i) :
    Assigned n (fun j => j ≠ i ∧ marked j) (fun p j => holds p j ∧ p ≠ o) where
  held := by
    rintro p j ⟨hp, hne⟩
    obtain ⟨hj, mark⟩ := h.held hp
    exact ⟨hj, fun hij => hne (h.unique (hij ▸ hp) hold), mark⟩
  owned := by
    rintro j hj ⟨hne, mark⟩
    obtain ⟨p, hp⟩ := h.owned hj mark
    refine ⟨p, hp, ?_⟩
    rintro rfl
    exact hne (only j hp)
  unique hp hq := h.unique hp.1 hq.1

theorem Assigned.not_owned (h : Assigned n marked holds) {o : ι} (hold : holds o i)
    (leave : ∀ p j, holds' p j → holds p j ∧ p ≠ o) : ¬ ∃! p, holds' p i := by
  rintro ⟨p, hp, -⟩
  obtain ⟨hp, hne⟩ := leave p i hp
  exact hne (h.unique hp hold)

theorem Assigned.exists_unmarked (h : Assigned n marked holds) {slots : List Nat}
    (all : ∀ o i, holds o i → i ∈ slots) (few : slots.length < n) : ∃ i < n, ¬ marked i := by
  by_contra hnone
  have full : ∀ i < n, marked i := by simpa using hnone
  have hsub : List.range n ⊆ slots := by
    intro i hi
    have hin := List.mem_range.mp hi
    obtain ⟨o, hold⟩ := h.owned hin (full i hin)
    exact all o i hold
  have hlength := (List.subperm_of_subset List.nodup_range hsub).length_le
  rw [List.length_range] at hlength
  omega

section
variable [DecidablePred marked] [DecidablePred marked']

theorem count_grant (hi : i < n) (free : ¬ marked i)
    (same : ∀ j < n, marked' j ↔ j = i ∨ marked j) : n.count marked' = n.count marked + 1 := by
  have hset : (Finset.range n).filter marked' = insert i ((Finset.range n).filter marked) := by
    ext j
    simp only [Finset.mem_filter, Finset.mem_insert, Finset.mem_range]
    constructor
    · rintro ⟨hj, mark⟩
      exact ((same j hj).mp mark).imp_right fun mark => ⟨hj, mark⟩
    · rintro (rfl | ⟨hj, mark⟩)
      · exact ⟨hi, (same j hi).mpr (.inl rfl)⟩
      · exact ⟨hj, (same j hj).mpr (.inr mark)⟩
  have hnot : i ∉ (Finset.range n).filter marked := fun h => free (Finset.mem_filter.mp h).2
  rw [Nat.count_eq_card_filter_range, Nat.count_eq_card_filter_range, hset,
    Finset.card_insert_of_notMem hnot]

theorem count_release (keep : ∀ j < n, j ≠ i → marked j → marked' j) :
    n.count marked ≤ n.count marked' + 1 := by
  have hsub : (Finset.range n).filter marked ⊆ insert i ((Finset.range n).filter marked') := by
    intro j hj
    rw [Finset.mem_filter, Finset.mem_range] at hj
    rw [Finset.mem_insert, Finset.mem_filter, Finset.mem_range]
    by_cases hji : j = i
    · exact .inl hji
    · exact .inr ⟨hj.1, keep j hj.1 hji hj.2⟩
  rw [Nat.count_eq_card_filter_range, Nat.count_eq_card_filter_range]
  exact (Finset.card_le_card hsub).trans (Finset.card_insert_le ..)

end

end KernelFuzzing.Foundation.Slots
