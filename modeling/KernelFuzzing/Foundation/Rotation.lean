import Mathlib.Data.List.Induction
import Mathlib.Logic.Function.Basic

/-! Values put into a ring of places one after the other: the `k`-th goes to the place
`k` modulo the size of the ring. -/
namespace KernelFuzzing.Foundation.Rotation

variable {α : Type*} {size k p : Nat} {ring : Nat → α} {xs : List α} {x : α}

def put (size : Nat) (ring : Nat → α) (k : Nat) (x : α) : Nat → α :=
  Function.update ring (k % size) x

def putAll (size : Nat) (ring : Nat → α) (xs : List α) : Nat → α :=
  xs.zipIdx.foldl (fun ring entry => put size ring entry.2 entry.1) ring

@[simp] theorem putAll_nil : putAll size ring [] = ring := rfl

theorem putAll_concat (size : Nat) (ring : Nat → α) (xs : List α) (x : α) :
    putAll size ring (xs ++ [x]) = put size (putAll size ring xs) xs.length x := by
  simp [putAll, List.zipIdx_append]

theorem putAll_eq (value : xs[k]? = some x) (place : k % size = p)
    (last : ∀ j, k < j → j < xs.length → j % size ≠ p) : putAll size ring xs p = x := by
  induction xs using List.reverseRecOn with
  | nil => simp at value
  | append_singleton xs y ih =>
    rw [putAll_concat, put]
    rw [List.length_append, List.length_singleton] at last
    by_cases hk : k < xs.length
    · rw [List.getElem?_append_left hk] at value
      rw [Function.update_of_ne (last xs.length hk (Nat.lt_succ_self _)).symm]
      exact ih value fun j hkj hj => last j hkj (Nat.lt_succ_of_lt hj)
    · obtain ⟨hlt, -⟩ := List.getElem?_eq_some_iff.mp value
      rw [List.length_append, List.length_singleton] at hlt
      obtain rfl : k = xs.length := by omega
      rw [List.getElem?_concat_length, Option.some.injEq] at value
      rw [place, Function.update_self, value]

end KernelFuzzing.Foundation.Rotation
