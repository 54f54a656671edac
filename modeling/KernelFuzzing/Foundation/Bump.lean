import Mathlib.Algebra.BigOperators.Group.List.Basic
import Mathlib.Algebra.Order.Group.Nat
import Mathlib.Algebra.Ring.Nat

/-! A bump allocator: each request is served right behind the one before it, and
nothing comes back. -/
namespace KernelFuzzing.Foundation.Bump

variable {sizes : List Nat} {j k : Nat}

def start (sizes : List Nat) (j : Nat) : Nat := (sizes.take j).sum

@[simp] theorem start_zero (sizes : List Nat) : start sizes 0 = 0 := rfl

theorem start_succ (h : j < sizes.length) : start sizes (j + 1) = start sizes j + sizes[j] := by
  rw [start, List.take_succ_eq_append_getElem h, List.sum_append, List.sum_singleton]
  rfl

theorem start_le_start (h : j ≤ k) : start sizes j ≤ start sizes k := by
  have hprefix : sizes.take j <+: sizes.take k := List.take_prefix_take_left h
  obtain ⟨rest, hrest⟩ := hprefix
  rw [start, start, ← hrest, List.sum_append]
  exact Nat.le_add_right _ _

theorem end_le_start (hj : j < sizes.length) (h : j < k) :
    start sizes j + sizes[j] ≤ start sizes k := by
  rw [← start_succ hj]
  exact start_le_start h

theorem start_le_sum (sizes : List Nat) (j : Nat) : start sizes j ≤ sizes.sum := by
  have hsplit : (sizes.take j).sum + (sizes.drop j).sum = sizes.sum := by
    rw [← List.sum_append, List.take_append_drop]
  unfold start
  omega

theorem end_le_sum (hj : j < sizes.length) : start sizes j + sizes[j] ≤ sizes.sum := by
  rw [← start_succ hj]
  exact start_le_sum sizes (j + 1)

end KernelFuzzing.Foundation.Bump
