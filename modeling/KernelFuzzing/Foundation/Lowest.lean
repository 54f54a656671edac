import Mathlib.Data.List.Sort
import Mathlib.Data.Set.Basic
import Mathlib.Tactic.Common

/-! The lowest elements of a set in a linear order, as a first-fit search meets
them, and the beginnings of a sorted list. -/
namespace KernelFuzzing.Foundation

variable {α : Type*} [LinearOrder α] {free : Set α} {ps l : List α}

/-- `ps` are elements of `free` in increasing order, with all the others above them. -/
structure Lowest (free : Set α) (ps : List α) : Prop where
  sorted : ps.Pairwise (· < ·)
  subset : ∀ p ∈ ps, p ∈ free
  below : ∀ q ∈ free, q ∉ ps → ∀ p ∈ ps, p < q

theorem lowest_take (sorted : l.Pairwise (· < ·)) (members : ∀ a, a ∈ free ↔ a ∈ l) (n : Nat) :
    Lowest free (l.take n) where
  sorted := sorted.sublist (List.take_sublist n l)
  subset := fun p hp => (members p).mpr (List.mem_of_mem_take hp)
  below := by
    intro q hq hnot p hp
    have hdrop : q ∈ l.drop n := by
      have hmem : q ∈ l.take n ++ l.drop n := by
        rw [List.take_append_drop]
        exact (members q).mp hq
      exact (List.mem_append.mp hmem).resolve_left hnot
    rw [← List.take_append_drop n l, List.pairwise_append] at sorted
    exact sorted.2.2 p hp q hdrop

theorem filter_lt_eq_take (sorted : l.Pairwise (· < ·)) (c : α) :
    l.filter (· < c) = l.take (l.countP (· < c)) := by
  induction l with
  | nil => rfl
  | cons a l ih =>
    rw [List.pairwise_cons] at sorted
    by_cases ha : a < c
    · simp [ha, ih sorted.2]
    · have hnone : ∀ b ∈ l, ¬ b < c := fun b hb hbc => ha ((sorted.1 b hb).trans hbc)
      have hcount : l.countP (· < c) = 0 := by simpa [List.countP_eq_zero] using hnone
      simpa [ha, hcount] using hnone

theorem below_subset_take_iff (sorted : l.Pairwise (· < ·)) (c : α) (n : Nat) :
    (∀ q ∈ l, q < c → q ∈ l.take n) ↔ l.countP (· < c) ≤ n := by
  have hfilter := filter_lt_eq_take sorted c
  constructor
  · intro h
    have hnodup : l.Nodup := sorted.imp fun hab => hab.ne
    have hsub : l.filter (· < c) ⊆ l.take n := by
      intro q hq
      rw [List.mem_filter, decide_eq_true_eq] at hq
      exact h q hq.1 hq.2
    have hlength := (List.subperm_of_subset (hnodup.filter _) hsub).length_le
    rw [← List.countP_eq_length_filter, List.length_take] at hlength
    exact hlength.trans (Nat.min_le_left n _)
  · intro h q hq hqc
    have hmem : q ∈ l.filter (· < c) := List.mem_filter.mpr ⟨hq, decide_eq_true hqc⟩
    rw [hfilter] at hmem
    exact (List.take_prefix_take_left h).subset hmem

theorem take_eq_range {l : List Nat} (sorted : l.Pairwise (· < ·)) {f n : Nat}
    (h : ∀ i < n, f + i ∈ l.take n) : l.take n = List.range' f n := by
  have hsub : List.range' f n ⊆ l.take n := by
    intro p hp
    obtain ⟨i, hi, rfl⟩ := List.mem_range'.mp hp
    simpa using h i hi
  have hperm := (List.subperm_of_subset List.nodup_range' hsub).perm_of_length_le
    (by rw [List.length_range']; exact List.length_take_le n l)
  have hrange : (List.range' f n).Pairwise (· ≤ ·) :=
    (List.pairwise_lt_range' 1).imp Nat.le_of_lt
  have htake : (l.take n).Pairwise (· ≤ ·) :=
    (sorted.sublist (List.take_sublist n l)).imp Nat.le_of_lt
  exact (hperm.eq_of_pairwise' hrange htake).symm

end KernelFuzzing.Foundation
