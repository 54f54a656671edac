import Mathlib.Data.BitVec
import Mathlib.Logic.Function.Basic

/-! One word of memory shared by cores with an exclusive monitor each: load-exclusive
sets the own monitor, store-exclusive succeeds only while it is set and consumes it, and
a store clears the monitors of the other cores. -/
namespace KernelFuzzing.Foundation.Exclusive

structure Shared (ι : Type*) where
  word : BitVec 32
  monitor : ι → Bool

variable {ι : Type*} [DecidableEq ι]

def ldaxr (c : ι) (m : Shared ι) : BitVec 32 × Shared ι :=
  (m.word, { m with monitor := Function.update m.monitor c true })

/-- The status, 0 for a store that was made, and the state after it. -/
def stlxr (c : ι) (value : BitVec 32) (m : Shared ι) : BitVec 32 × Shared ι :=
  if m.monitor c then (0, ⟨value, fun _ => false⟩)
  else (1, { m with monitor := Function.update m.monitor c false })

def clear (c : ι) (m : Shared ι) : Shared ι :=
  { m with monitor := Function.update m.monitor c false }

/-- What a step of a core `c` can do to the word and the other cores' monitors: leave the
word and set none of them, or store with its own monitor set, which clears them all. -/
inductive Effect (c : ι) (m m' : Shared ι) : Prop where
  | keep : m'.word = m.word → (∀ d, d ≠ c → m'.monitor d = true → m.monitor d = true) →
      Effect c m m'
  | store : m.monitor c = true → (∀ d, m'.monitor d = false) → Effect c m m'

omit [DecidableEq ι] in
theorem Effect.refl (c : ι) (m : Shared ι) : Effect c m m := .keep rfl fun _ _ => id

theorem ldaxr_effect (c : ι) (m : Shared ι) : Effect c m (ldaxr c m).2 :=
  .keep rfl fun d hd h => by simpa [ldaxr, hd] using h

theorem clear_effect (c : ι) (m : Shared ι) : Effect c m (clear c m) :=
  .keep rfl fun d hd h => by simpa [clear, hd] using h

theorem stlxr_effect (c : ι) (value : BitVec 32) (m : Shared ι) :
    Effect c m (stlxr c value m).2 := by
  unfold stlxr
  split
  next hset => exact .store hset fun _ => rfl
  next => exact .keep rfl fun d hd h => by simpa [hd] using h

omit [DecidableEq ι] in
theorem Effect.vouches {c d : ι} {m m' : Shared ι} (h : Effect c m m') (hd : d ≠ c)
    {P : BitVec 32 → Prop} (vouched : m.monitor d = true → P m.word) :
    m'.monitor d = true → P m'.word := by
  intro hset
  cases h with
  | keep hword hmonitor => exact hword ▸ vouched (hmonitor d hd hset)
  | store _ hcleared => exact absurd hset (by simp [hcleared d])

end KernelFuzzing.Foundation.Exclusive
