import KernelFuzzing.Foundation.Nesting
import KernelFuzzing.Sync.Spinlock

/-! The lock with the interrupt mask, on one core. -/
namespace KernelFuzzing.Sync.Mask
open Foundation Foundation.Nesting

variable {ι : Type*} [DecidableEq ι]

/-- PSTATE.D, A, I and F, from bit 3 down, and the words of the locks. -/
structure Cpu (ι : Type*) where
  daif : BitVec 4
  lock : ι → BitVec 32

/-- The calls of `spin_lock` and `spin_unlock` are taken as a whole: with no other core
they return with the word 1 and 0. -/
inductive Instr (ι : Type*) where
  | daifset (imm : BitVec 4)
  | daifclr (imm : BitVec 4)
  | spinLock (l : ι)
  | spinUnlock (l : ι)

def exec (s : Cpu ι) : Instr ι → Cpu ι
  | .daifset imm => { s with daif := s.daif ||| imm }
  | .daifclr imm => { s with daif := s.daif &&& ~~~ imm }
  | .spinLock l => { s with lock := Function.update s.lock l 1 }
  | .spinUnlock l => { s with lock := Function.update s.lock l 0 }

def maskInterrupts : Instr ι := .daifset 0xf

def unmaskInterrupts : Instr ι := .daifclr 2

def spinLockWithMask (l : ι) : List (Instr ι) := [maskInterrupts, .spinLock l]

def spinUnlockWithMask (l : ι) : List (Instr ι) := [.spinUnlock l, unmaskInterrupts]

def code : Bracket ι → List (Instr ι)
  | .opening l => spinLockWithMask l
  | .closing l => spinUnlockWithMask l

def start (daif : BitVec 4) : Cpu ι := ⟨daif, fun _ => 0⟩

def Cpu.Held (s : Cpu ι) : Prop := ∃ l, s.lock l = 1

def Cpu.IrqMasked (s : Cpu ι) : Prop := s.daif.getLsbD 1 = true

def Cpu.Covered (s : Cpu ι) : Prop := s.Held → s.IrqMasked

/-- IRQs are masked whenever a lock is held, and after each outermost unlock DAIF is what
it was at the start. -/
structure Composes (daif : BitVec 4) (calls : List (Bracket ι)) : Prop where
  masked : Run.Always exec Cpu.Covered (start daif) (calls.flatMap code)
  restored : ∀ pre, pre <+: calls → WellNested pre →
    (Run.run exec (start daif) (pre.flatMap code)).daif = daif

theorem word_of_returned {κ : Type*} [DecidableEq κ] [Subsingleton κ] (c : κ)
    (k : κ → BitVec 32 × BitVec 32) (monitor : κ → Bool) (events : List (Event κ)) :
    let s := Run.run step (Sync.start k monitor) events
    ((s.cores c).place = .critical → s.shared.word = 1) ∧
      ((s.cores c).place = .outside → s.shared.word = 0) := by
  intro s
  have hinv : Inv s := (always_inv k monitor events).last
  constructor
  · intro hplace
    exact hinv.held ⟨c, .inr (.inr (.inl hplace))⟩
  · intro hplace
    apply hinv.free
    intro d
    rw [Subsingleton.elim d c]
    simp [Core.Holds, Core.Critical, hplace]

variable {s : Cpu ι} {l : ι}

/-- The locks held are those of `stack`, without repetition. -/
structure Holding (stack : List ι) (s : Cpu ι) : Prop where
  nodup : stack.Nodup
  word : ∀ l, s.lock l = 1 ↔ l ∈ stack

theorem run_lock (s : Cpu ι) (l : ι) :
    Run.run exec s (spinLockWithMask l) = ⟨0xf, Function.update s.lock l 1⟩ := by
  have hall : s.daif ||| 0xf = 0xf := BitVec.or_allOnes
  simp only [spinLockWithMask, maskInterrupts, Run.run_cons, Run.run_nil, exec, hall]

theorem run_unlock (s : Cpu ι) (l : ι) :
    Run.run exec s (spinUnlockWithMask l) = ⟨s.daif &&& 0xd, Function.update s.lock l 0⟩ := rfl

theorem Holding.lock {stack : List ι} (h : Holding stack s) (hl : l ∉ stack) :
    Holding (l :: stack) (Run.run exec s (spinLockWithMask l)) := by
  rw [run_lock]
  constructor
  · exact List.nodup_cons.mpr ⟨hl, h.nodup⟩
  · intro d
    by_cases hd : d = l
    · simp [hd]
    · simpa [hd] using h.word d

theorem Holding.unlock {stack : List ι} (h : Holding (l :: stack) s) :
    Holding stack (Run.run exec s (spinUnlockWithMask l)) := by
  rw [run_unlock]
  obtain ⟨hl, hnodup⟩ := List.nodup_cons.mp h.nodup
  constructor
  · exact hnodup
  · intro d
    by_cases hd : d = l
    · simp [hd, hl]
    · simpa [hd] using h.word d

theorem not_irqMasked_unlock (s : Cpu ι) (l : ι) :
    ¬ (Run.run exec s (spinUnlockWithMask l)).IrqMasked := by
  rw [run_unlock]
  simp [Cpu.IrqMasked]

/-- An inner unlock leaves the outer lock uncovered, so the calls are pairs one after the
other, up to the closing of a lock held at the start. -/
theorem pairs_of_covered {calls : List (Bracket ι)} {stack : List ι}
    (h : Holding stack s) (hclosed : opened stack calls = some [])
    (hcovered : Run.Always exec Cpu.Covered s (calls.flatMap code)) :
    stack = [] ∧ Pairs calls ∨
      ∃ l rest, stack = [l] ∧ calls = .closing l :: rest ∧ Pairs rest := by
  induction calls generalizing s stack with
  | nil =>
    left
    exact ⟨by simpa [opened] using hclosed, .nil⟩
  | cons call calls ih =>
    rw [List.flatMap_cons, Run.always_append] at hcovered
    obtain ⟨hfirst, hrest⟩ := hcovered
    cases call with
    | opening l =>
      obtain ⟨hl, hclosed⟩ := opened_opening_eq_some.mp hclosed
      rcases ih (h.lock hl) hclosed hrest with ⟨hstack, _⟩ | ⟨d, rest, hstack, rfl, hpairs⟩
      · exact absurd hstack (List.cons_ne_nil l stack)
      · obtain ⟨rfl, rfl⟩ := List.cons_eq_cons.mp hstack
        exact .inl ⟨rfl, .cons l hpairs⟩
    | closing l =>
      obtain ⟨inner, rfl, hinner⟩ := opened_closing_eq_some.mp hclosed
      rcases ih h.unlock hinner hrest with ⟨rfl, hpairs⟩ | ⟨d, rest, rfl, rfl, hpairs⟩
      · exact .inr ⟨l, calls, rfl, rfl, hpairs⟩
      · have hheld : (Run.run exec s (spinUnlockWithMask l)).Held :=
          ⟨d, (h.unlock.word d).mpr (List.mem_singleton_self d)⟩
        exact absurd (hrest.first hheld) (not_irqMasked_unlock s l)

theorem run_pair (s : Cpu ι) (l : ι) (calls : List (Bracket ι)) :
    Run.run exec s ((.opening l :: .closing l :: calls).flatMap code) =
      Run.run exec ⟨0xd, Function.update s.lock l 0⟩ (calls.flatMap code) := by
  have hupdate : Function.update (Function.update s.lock l 1) l 0 = Function.update s.lock l 0 :=
    Function.update_idem _ _ _
  rw [List.flatMap_cons, List.flatMap_cons, Run.run_append, Run.run_append]
  simp only [code, run_lock, run_unlock, hupdate]
  rfl

omit [DecidableEq ι] in
theorem covered_of_free (h : Holding [] s) : s.Covered := by
  rintro ⟨l, hl⟩
  exact absurd ((h.word l).mp hl) List.not_mem_nil

theorem irqMasked_mask (s : Cpu ι) : (exec s maskInterrupts).IrqMasked := by
  simp [exec, maskInterrupts, Cpu.IrqMasked]

theorem covered_of_pairs {calls : List (Bracket ι)} (hpairs : Pairs calls) (h : Holding [] s) :
    Run.Always exec Cpu.Covered s (calls.flatMap code) := by
  induction hpairs generalizing s with
  | nil => simpa using covered_of_free h
  | @cons l calls hpairs ih =>
    have hmask := irqMasked_mask s
    have hrest := ih (h.lock (l := l) List.not_mem_nil).unlock
    change Run.Always exec Cpu.Covered s (maskInterrupts :: .spinLock l :: .spinUnlock l ::
      unmaskInterrupts :: calls.flatMap code)
    simp only [Run.always_cons]
    exact ⟨covered_of_free h, fun _ => hmask, fun _ => hmask, fun _ => hmask, hrest⟩

theorem restored_of_pairs {calls pre : List (Bracket ι)} (hpairs : Pairs calls)
    (hpre : pre <+: calls) (hnested : WellNested pre) (hdaif : s.daif = 0xd) :
    (Run.run exec s (pre.flatMap code)).daif = 0xd := by
  induction hpairs generalizing s pre with
  | nil =>
    rw [List.prefix_nil.mp hpre]
    exact hdaif
  | cons l hpairs ih =>
    rcases Pairs.prefix_cases hpre with rfl | rfl | ⟨tail, rfl, htail⟩
    · exact hdaif
    · exact absurd hnested not_wellNested_opening
    · rw [run_pair]
      exact ih htail (wellNested_pair.mp hnested) rfl

omit [DecidableEq ι] in
theorem holding_start (daif : BitVec 4) : Holding [] (start daif : Cpu ι) where
  nodup := List.nodup_nil
  word _ := by simp [start]

/-- Masking composes exactly for pairs that are not nested, from D, A and F set and I
clear. -/
theorem mask_composes_iff (daif : BitVec 4) {calls : List (Bracket ι)}
    (hnested : WellNested calls) :
    Composes daif calls ↔ calls = [] ∨ daif = 0xd ∧ Pairs calls := by
  constructor
  · intro h
    rcases pairs_of_covered (holding_start daif) hnested h.masked with
      ⟨_, hpairs⟩ | ⟨l, rest, hstack, _⟩
    · cases hpairs with
      | nil => exact .inl rfl
      | @cons l calls hpairs =>
        have hpre : [.opening l, .closing l] <+: .opening l :: .closing l :: calls :=
          ⟨calls, rfl⟩
        have hrestored := h.restored _ hpre (by simp)
        rw [run_pair] at hrestored
        exact .inr ⟨hrestored.symm, .cons l hpairs⟩
    · exact absurd hstack.symm (List.cons_ne_nil l [])
  · rintro (rfl | ⟨rfl, hpairs⟩)
    · constructor
      · simpa using covered_of_free (holding_start daif)
      · intro pre hpre _
        rw [List.prefix_nil.mp hpre]
        rfl
    · exact ⟨covered_of_pairs hpairs (holding_start 0xd),
        fun pre hpre hpreNested => restored_of_pairs hpairs hpre hpreNested rfl⟩

theorem mask_composes_three_pairs :
    Composes 0xd [.opening (0 : Nat), .closing 0, .opening 1, .closing 1, .opening 0,
      .closing 0] :=
  (mask_composes_iff 0xd (by decide)).mpr (.inr ⟨rfl, .cons 0 (.cons 1 (.cons 0 .nil))⟩)

/-- In an exception handler, where all four are masked, one pair unmasks IRQs. -/
theorem mask_not_composes_masked :
    WellNested [.opening (0 : Nat), .closing 0] ∧
      ¬ Composes 0xf [.opening (0 : Nat), .closing 0] := by
  constructor
  · decide
  · intro h
    exact absurd (h.restored _ List.prefix_rfl (by decide)) (by decide)

end KernelFuzzing.Sync.Mask
