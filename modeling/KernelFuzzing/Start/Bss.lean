import Mathlib.Logic.Function.Iterate
import KernelFuzzing.Foundation.AArch64

/-! The loop of arch/aarch64/start.s that clears .bss, between the two symbols that
linker.ld puts around it. -/
namespace KernelFuzzing.Start
open Foundation AArch64 Memory

/-- The instructions of the loop; a branch goes to the instruction of the given number. -/
inductive Instr where
  | ldrLiteral (d : Reg) (v : Word)
  | cmp (a b : Reg)
  | bEq (target : Nat)
  | strXzrPost (a : Reg) (imm : Nat)
  | b (target : Nat)
deriving DecidableEq

def condEq (m : Machine) : Bool := m.pstate.getLsbD 30

def address (base : Word) (n : Nat) : Word := base + BitVec.ofNat 64 (4 * n)

def exec (base : Word) (m : Machine) : Instr → Machine
  | .ldrLiteral d v => { m.set d v with pc := m.pc + 4#64 }
  | .cmp a b =>
      { m with
        pstate := (m.pstate &&& 0xFFFFFFFF0FFFFFFF#64) ||| flags (m.x a) (m.x b)
        pc := m.pc + 4#64 }
  | .bEq target => { m with pc := if condEq m then address base target else m.pc + 4#64 }
  | .strXzrPost a imm =>
      { m.set a (m.x a + BitVec.ofNat 64 imm) with
        mem := store64 m.mem (m.x a) 0
        pc := m.pc + 4#64 }
  | .b target => { m with pc := address base target }

def stores (m : Machine) : Instr → List Word
  | .strXzrPost a _ => (List.range 8).map fun i => m.x a + BitVec.ofNat 64 i
  | _ => []

/-- `_start` from the load of `__bss_start` to the label 2. -/
def zeroBss (bssStart bssEnd : Word) : List Instr :=
  [.ldrLiteral 1 bssStart, .ldrLiteral 2 bssEnd, .cmp 1 2, .bEq 6, .strXzrPost 1 8, .b 2]

/-- The symbols of linker.ld, and where `_start` loads the first of them. -/
structure Bss where
  base : Word
  bssStart : Word
  bssEnd : Word

def Bss.code (bss : Bss) : List Instr := zeroBss bss.bssStart bss.bssEnd

def Bss.fetch (bss : Bss) (m : Machine) : Option Instr :=
  bss.code[(m.pc - bss.base).toNat / 4]?

/-- One instruction, as long as the core is in the code. -/
def Bss.step (bss : Bss) (m : Machine) : Machine :=
  match bss.fetch m with
  | some i => exec bss.base m i
  | none => m

def Bss.run (bss : Bss) (n : Nat) (m : Machine) : Machine := bss.step^[n] m

def Bss.written (bss : Bss) (n : Nat) (m : Machine) : List Word :=
  (List.range n).flatMap fun k =>
    ((bss.fetch (bss.run k m)).map (stores (bss.run k m))).getD []

def Bss.limit (bss : Bss) : Nat := (bss.bssEnd.toNat + 7) / 8 * 8

/-- The loop gets to the label 2 with .bss cleared and nothing written behind it. -/
def Bss.Clears (bss : Bss) (m : Machine) : Prop :=
  ∃ n, (bss.run n m).pc = address bss.base 6 ∧
    (∀ a, bss.bssStart ≤ a → a < bss.bssEnd → (bss.run n m).mem a = 0) ∧
    ∀ a ∈ bss.written n m, a.toNat < bss.limit

section
variable {bss : Bss} {m : Machine}

theorem step_at {k : Nat} (hk : k < 6) (hpc : m.pc = address bss.base k) {i : Instr}
    (hi : bss.code[k]? = some i) : bss.fetch m = some i ∧ bss.step m = exec bss.base m i := by
  have hindex : (m.pc - bss.base).toNat / 4 = k := by
    rw [hpc, address]
    bv_omega
  have hfetch : bss.fetch m = some i := by rw [Bss.fetch, hindex, hi]
  exact ⟨hfetch, by rw [Bss.step, hfetch]⟩

theorem address_succ (base : Word) (k : Nat) : address base k + 4#64 = address base (k + 1) := by
  rw [address, address]
  bv_omega

theorem condEq_cmp (m : Machine) (a b : Reg) :
    condEq (exec bss.base m (.cmp a b)) = (m.x a == m.x b) :=
  getLsbD_flags m.pstate (m.x a) (m.x b)

theorem run_add (n k : Nat) (m : Machine) : bss.run (n + k) m = bss.run k (bss.run n m) := by
  rw [Bss.run, Nat.add_comm, Function.iterate_add_apply]
  rfl

theorem written_add (n k : Nat) (m : Machine) :
    bss.written (n + k) m = bss.written n m ++ bss.written k (bss.run n m) := by
  rw [Bss.written, List.range_add, List.flatMap_append, List.flatMap_map]
  simp only [run_add]
  rfl

theorem written_one (m : Machine) :
    bss.written 1 m = ((bss.fetch m).map (stores m)).getD [] := by
  simp [Bss.written, Bss.run]

theorem run_one {k : Nat} (hk : k < 6) (hpc : m.pc = address bss.base k) {i : Instr}
    (hi : bss.code[k]? = some i) :
    bss.run 1 m = exec bss.base m i ∧ bss.written 1 m = stores m i := by
  obtain ⟨hfetch, hstep⟩ := step_at hk hpc hi
  exact ⟨hstep, by rw [written_one, hfetch]; rfl⟩

theorem run_entry (hpc : m.pc = bss.base) :
    (bss.run 2 m).pc = address bss.base 2 ∧ (bss.run 2 m).x 1 = bss.bssStart ∧
      (bss.run 2 m).x 2 = bss.bssEnd ∧ (bss.run 2 m).mem = m.mem ∧ bss.written 2 m = [] := by
  have hzero : m.pc = address bss.base 0 := by simp [hpc, address]
  obtain ⟨hrun, hwritten⟩ := run_one (by decide) hzero rfl
  have hone : (bss.run 1 m).pc = address bss.base 1 := by
    rw [hrun, ← address_succ, ← hzero]
    rfl
  obtain ⟨hrun', hwritten'⟩ := run_one (by decide) hone rfl
  rw [run_add 1 1, written_add 1 1, hrun', hwritten, hwritten']
  refine ⟨?_, ?_, ?_, ?_, rfl⟩
  · rw [← address_succ, ← hone]
    rfl
  · rw [hrun]
    simp [exec, Machine.set]
  · simp [exec, Machine.set]
  · rw [hrun]
    rfl

theorem run_cmp (hpc : m.pc = address bss.base 2) :
    (bss.run 1 m).pc = address bss.base 3 ∧ (bss.run 1 m).x = m.x ∧ (bss.run 1 m).mem = m.mem ∧
      condEq (bss.run 1 m) = (m.x 1 == m.x 2) ∧ bss.written 1 m = [] := by
  obtain ⟨hrun, hwritten⟩ := run_one (by decide) hpc rfl
  rw [hrun, hwritten]
  refine ⟨?_, rfl, rfl, condEq_cmp m 1 2, rfl⟩
  rw [← address_succ, ← hpc]
  rfl

theorem run_exit (hpc : m.pc = address bss.base 2) (heq : m.x 1 = m.x 2) :
    (bss.run 2 m).pc = address bss.base 6 ∧ (bss.run 2 m).mem = m.mem ∧
      bss.written 2 m = [] := by
  obtain ⟨hpc3, -, hmem, hcond, hwritten⟩ := run_cmp hpc
  obtain ⟨hrun, hwritten'⟩ := run_one (by decide) hpc3 rfl
  rw [run_add 1 1, written_add 1 1, hrun, hwritten, hwritten']
  refine ⟨?_, hmem, rfl⟩
  rw [heq, beq_self_eq_true] at hcond
  exact if_pos hcond

def eightBytes (a : Word) : List Word := (List.range 8).map fun i => a + BitVec.ofNat 64 i

theorem run_round (hpc : m.pc = address bss.base 2) (hne : m.x 1 ≠ m.x 2) :
    (bss.run 4 m).pc = address bss.base 2 ∧ (bss.run 4 m).x 1 = m.x 1 + 8#64 ∧
      (bss.run 4 m).x 2 = m.x 2 ∧ (bss.run 4 m).mem = store64 m.mem (m.x 1) 0 ∧
      bss.written 4 m = eightBytes (m.x 1) := by
  obtain ⟨hpc3, hx, hmem, hcond, hwritten⟩ := run_cmp hpc
  rw [beq_false_of_ne hne] at hcond
  obtain ⟨hrun, hwritten'⟩ := run_one (by decide) hpc3 rfl
  have hpc4 : (bss.run 1 (bss.run 1 m)).pc = address bss.base 4 := by
    rw [hrun, ← address_succ, ← hpc3]
    exact if_neg (by rw [hcond]; decide)
  obtain ⟨hstr, hstored⟩ := run_one (by decide) hpc4 rfl
  have hpc5 : (bss.run 1 (bss.run 1 (bss.run 1 m))).pc = address bss.base 5 := by
    rw [hstr, ← address_succ, ← hpc4]
    rfl
  obtain ⟨hb, hjumped⟩ := run_one (by decide) hpc5 rfl
  rw [run_add 3 1, run_add 2 1, run_add 1 1, written_add 3 1, written_add 2 1, written_add 1 1,
    run_add 2 1, run_add 1 1, hb, hwritten, hwritten', hstored, hjumped, hstr, hrun]
  refine ⟨rfl, ?_, ?_, ?_, ?_⟩
  · simp [exec, Machine.set, hx]
  · simp [exec, Machine.set, hx]
  · simp [exec, hx, hmem]
  · simp [stores, exec, hx, eightBytes]

/-- What a loop that starts with `x1` and gets to its exit has done. -/
structure Cleared (bss : Bss) (m : Machine) (n : Nat) : Prop where
  pc : (bss.run n m).pc = address bss.base 6
  zero : ∀ a, m.x 1 ≤ a → a < m.x 2 → (bss.run n m).mem a = 0
  below : ∀ a, a < m.x 1 → (bss.run n m).mem a = m.mem a
  written : ∀ a ∈ bss.written n m, a < m.x 2

theorem exists_cleared (j : Nat) (hpc : m.pc = address bss.base 2)
    (hj : (m.x 1).toNat + 8 * j = (m.x 2).toNat) : ∃ n, Cleared bss m n := by
  induction j generalizing m with
  | zero =>
    have heq : m.x 1 = m.x 2 := BitVec.eq_of_toNat_eq hj
    obtain ⟨hexit, hmem, hwritten⟩ := run_exit hpc heq
    refine ⟨2, hexit, fun a hge hlt => ?_, fun a _ => by rw [hmem], by simp [hwritten]⟩
    rw [heq] at hge
    exact absurd hlt (BitVec.not_lt.mpr hge)
  | succ j ih =>
    have hbound := (m.x 2).isLt
    have hnext : (m.x 1 + 8#64).toNat = (m.x 1).toNat + 8 := by bv_omega
    have hne : m.x 1 ≠ m.x 2 := fun h => by
      rw [h] at hj
      omega
    obtain ⟨hhead, hx1, hx2, hmem, hwritten⟩ := run_round hpc hne
    obtain ⟨n, hcleared⟩ := ih hhead (by rw [hx1, hx2, hnext]; omega)
    have hzero := hcleared.zero
    have hbelow := hcleared.below
    have hafter := hcleared.written
    rw [hx1, hx2] at hzero
    rw [hx1, hmem] at hbelow
    rw [hx2] at hafter
    refine ⟨4 + n, ?_, ?_, ?_, ?_⟩
    · rw [run_add]
      exact hcleared.pc
    · intro a hge hlt
      rw [run_add]
      by_cases hword : a < m.x 1 + 8#64
      · rw [hbelow a hword, store64, if_pos (by rw [Within]; bv_omega)]
        simp
      · exact hzero a (BitVec.not_lt.mp hword) hlt
    · intro a hlt
      rw [run_add, hbelow a (by bv_omega), store64, if_neg (by rw [Within]; bv_omega)]
    · intro a ha
      rw [written_add, List.mem_append, hwritten] at ha
      rcases ha with ha | ha
      · obtain ⟨i, hi, rfl⟩ := List.mem_map.mp ha
        rw [List.mem_range] at hi
        bv_omega
      · exact hafter a ha

inductive Looping (bss : Bss) (m : Machine) : Prop where
  | entry (pc : m.pc = address bss.base 0)
  | loaded (pc : m.pc = address bss.base 1) (x1 : m.x 1 = bss.bssStart)
  | loop (k : Nat) (pc : m.pc = address bss.base k) (inside : 2 ≤ k ∧ k < 6)
      (x1 : (m.x 1).toNat % 8 = 0) (x2 : m.x 2 = bss.bssEnd)
      (cond : k = 3 → condEq m = false)

theorem looping_step (haligned : bss.bssStart.toNat % 8 = 0) (hodd : bss.bssEnd.toNat % 8 ≠ 0)
    (h : Looping bss m) : Looping bss (bss.step m) := by
  cases h with
  | entry hpc =>
    rw [(step_at (by decide) hpc rfl).2]
    refine .loaded ?_ (by simp [exec, Machine.set])
    rw [← address_succ, ← hpc]
    rfl
  | loaded hpc hx1 =>
    rw [(step_at (by decide) hpc rfl).2]
    refine .loop 2 ?_ (by decide) ?_ (by simp [exec, Machine.set]) (by simp)
    · rw [← address_succ, ← hpc]
      rfl
    · simpa [exec, Machine.set, hx1] using haligned
  | loop k hpc hinside hx1 hx2 hcond =>
    obtain rfl | rfl | rfl | rfl : k = 2 ∨ k = 3 ∨ k = 4 ∨ k = 5 := by omega
    · rw [(step_at (by decide) hpc rfl).2]
      refine .loop 3 ?_ (by decide) hx1 hx2 fun _ => ?_
      · rw [← address_succ, ← hpc]
        rfl
      · -- the pointers differ modulo 8
        rw [condEq_cmp, beq_eq_false_iff_ne, hx2]
        exact fun heq => hodd (heq ▸ hx1)
    · rw [(step_at (by decide) hpc rfl).2]
      refine .loop 4 ?_ (by decide) hx1 hx2 (by simp)
      rw [← address_succ, ← hpc]
      exact if_neg (by rw [hcond rfl]; decide)
    · rw [(step_at (by decide) hpc rfl).2]
      refine .loop 5 ?_ (by decide) ?_ hx2 (by simp)
      · rw [← address_succ, ← hpc]
        rfl
      · simp only [exec, Machine.set, Function.update_self]
        bv_omega
    · rw [(step_at (by decide) hpc rfl).2]
      exact .loop 2 rfl (by decide) hx1 hx2 (by simp)

theorem looping_run (haligned : bss.bssStart.toNat % 8 = 0) (hodd : bss.bssEnd.toNat % 8 ≠ 0)
    (hpc : m.pc = bss.base) (n : Nat) : Looping bss (bss.run n m) := by
  induction n with
  | zero => exact .entry (by simp [Bss.run, hpc, address])
  | succ n ih =>
    rw [run_add]
    exact looping_step haligned hodd ih

theorem Looping.pc_ne (h : Looping bss m) : m.pc ≠ address bss.base 6 := by
  have hinj {k : Nat} (hk : k < 6) : address bss.base k ≠ address bss.base 6 := by
    rw [address, address]
    bv_omega
  cases h with
  | entry hpc => exact hpc ▸ hinj (by decide)
  | loaded hpc => exact hpc ▸ hinj (by decide)
  | loop k hpc hinside => exact hpc ▸ hinj hinside.2

/-- The loop clears .bss exactly when the length of .bss is a multiple of 8; otherwise it
never ends. -/
theorem clears_iff_length (haligned : bss.bssStart.toNat % 8 = 0)
    (hle : bss.bssStart ≤ bss.bssEnd) (hpc : m.pc = bss.base) :
    bss.Clears m ↔ (bss.bssEnd - bss.bssStart).toNat % 8 = 0 := by
  have hlength : (bss.bssEnd - bss.bssStart).toNat = bss.bssEnd.toNat - bss.bssStart.toNat := by
    bv_omega
  have hle : bss.bssStart.toNat ≤ bss.bssEnd.toNat := hle
  rw [hlength]
  constructor
  · rintro ⟨n, hexit, -⟩
    by_contra hodd
    exact (looping_run haligned (by omega) hpc n).pc_ne hexit
  · intro heven
    obtain ⟨hhead, hx1, hx2, hmem, hwritten⟩ := run_entry hpc
    obtain ⟨n, hcleared⟩ := exists_cleared
      ((bss.bssEnd.toNat - bss.bssStart.toNat) / 8) hhead (by rw [hx1, hx2]; omega)
    refine ⟨2 + n, ?_, ?_, ?_⟩
    · rw [run_add]
      exact hcleared.pc
    · rw [run_add, ← hx1, ← hx2]
      exact hcleared.zero
    · intro a ha
      rw [written_add, hwritten, List.nil_append] at ha
      have hlt := hcleared.written a ha
      rw [hx2, BitVec.lt_def] at hlt
      rw [Bss.limit]
      omega

end

def reset : Machine where
  x := fun _ => 0#64
  sp := 0#64
  sys := fun _ => 0#64
  pc := 0x80000014#64
  pstate := 0x3C5#64
  mem := fun _ => 0xFF#8

def threeWords : Bss := ⟨0x80000014#64, 0x8000D000#64, 0x8000D018#64⟩

theorem clears_iff_length_three_words :
    threeWords.bssStart.toNat % 8 = 0 ∧ threeWords.bssStart ≤ threeWords.bssEnd ∧
      reset.pc = threeWords.base ∧
      (threeWords.Clears reset ↔ (threeWords.bssEnd - threeWords.bssStart).toNat % 8 = 0) :=
  ⟨by decide, by decide, rfl, clears_iff_length (by decide) (by decide) rfl⟩

def oddEnd : Bss := ⟨0x80000014#64, 0x8000D000#64, 0x8000D019#64⟩

theorem not_clears_odd_end : ¬ oddEnd.Clears reset := by
  rintro ⟨n, hexit, -⟩
  have looping : Looping oddEnd (oddEnd.run n reset) :=
    looping_run (by decide) (by decide) rfl n
  exact looping.pc_ne hexit

end KernelFuzzing.Start
