import Mathlib.Logic.Function.Basic
import KernelFuzzing.Foundation.Memory

/-! The AArch64 instructions that exception entry and return code is made of, run at
EL1 on its own stack pointer, and the exceptions that lead to it. -/
namespace KernelFuzzing.Foundation.AArch64
open Memory

abbrev Reg := Fin 31

instance regNeZero : NeZero 31 := ⟨by decide⟩

inductive SysReg where
  | spEl0
  | elrEl1
  | spsrEl1
  | ttbr0El1
  | esrEl1
deriving DecidableEq

/-- The state of the core; `sp` is SP_EL1, and `pstate` is laid out as an SPSR. -/
structure Machine where
  x : Reg → Word
  sp : Word
  sys : SysReg → Word
  pc : Word
  pstate : Word
  mem : Memory

inductive Instr where
  | subSp (imm : Nat)
  | addSp (imm : Nat)
  | stp (a b : Reg) (off : Nat)
  | str (a : Reg) (off : Nat)
  | ldp (a b : Reg) (off : Nat)
  | ldr (a : Reg) (off : Nat)
  | mrs (d : Reg) (s : SysReg)
  | msr (d : SysReg) (s : Reg)
  | mov (d s : Reg)
  | movFromSp (d : Reg)
  | movToSp (s : Reg)
  | lsr (d s : Reg) (shift : Nat)
  | cmp (a : Reg) (imm : Nat)
  | eret
deriving DecidableEq

def Machine.stack (m : Machine) (off : Nat) : Word := m.sp + BitVec.ofNat 64 off

def Machine.set (m : Machine) (d : Reg) (v : Word) : Machine :=
  { m with x := Function.update m.x d v }

def flags (a b : Word) : Word :=
  let n := (a - b).msb
  let z := a == b
  let c := b ≤ a
  let v := (a.msb != b.msb) && (a.msb != (a - b).msb)
  (BitVec.ofBool n ++ BitVec.ofBool z ++ BitVec.ofBool c ++ BitVec.ofBool v).setWidth 64 <<< 28

def Instr.effect (m : Machine) : Instr → Machine
  | .subSp imm => { m with sp := m.sp - BitVec.ofNat 64 imm }
  | .addSp imm => { m with sp := m.sp + BitVec.ofNat 64 imm }
  | .stp a b off =>
      { m with mem := store64 (store64 m.mem (m.stack off) (m.x a)) (m.stack (off + 8)) (m.x b) }
  | .str a off => { m with mem := store64 m.mem (m.stack off) (m.x a) }
  | .ldp a b off =>
      (m.set a (load64 m.mem (m.stack off))).set b (load64 m.mem (m.stack (off + 8)))
  | .ldr a off => m.set a (load64 m.mem (m.stack off))
  | .mrs d s => m.set d (m.sys s)
  | .msr d s => { m with sys := Function.update m.sys d (m.x s) }
  | .mov d s => m.set d (m.x s)
  | .movFromSp d => m.set d m.sp
  | .movToSp s => { m with sp := m.x s }
  | .lsr d s shift => m.set d (m.x s >>> shift)
  | .cmp a imm =>
      { m with
        pstate := (m.pstate &&& 0xFFFFFFFF0FFFFFFF#64) ||| flags (m.x a) (BitVec.ofNat 64 imm) }
  | .eret => m

def exec (m : Machine) : Instr → Machine
  | .eret => { m with pc := m.sys .elrEl1, pstate := m.sys .spsrEl1 }
  | i => { i.effect m with pc := m.pc + 4#64 }

/-- The machine after a stretch of code without branches. -/
def run (m : Machine) (code : List Instr) : Machine := code.foldl exec m

theorem run_cons (m : Machine) (i : Instr) (is : List Instr) :
    run m (i :: is) = run (exec m i) is := rfl

theorem run_append (m : Machine) (is js : List Instr) : run m (is ++ js) = run (run m is) js := by
  simp [run]

theorem run_keep {α : Type*} (get : Machine → α) {code : List Instr}
    (h : ∀ i ∈ code, ∀ m, get (exec m i) = get m) (m : Machine) : get (run m code) = get m := by
  induction code generalizing m with
  | nil => rfl
  | cons i is ih =>
    have rest : get (run (exec m i) is) = get (exec m i) :=
      ih (fun j hj => h j (List.mem_cons_of_mem i hj)) _
    exact rest.trans (h i List.mem_cons_self m)

def Instr.writes : Instr → List Reg
  | .ldp a b _ => [a, b]
  | .ldr a _ => [a]
  | .mrs d _ | .mov d _ | .movFromSp d | .lsr d _ _ => [d]
  | _ => []

def Instr.writesSp : Instr → Bool
  | .subSp _ | .addSp _ | .movToSp _ => true
  | _ => false

def Instr.writesSys : Instr → Bool
  | .msr _ _ => true
  | _ => false

def Instr.writesMem : Instr → Bool
  | .stp _ _ _ | .str _ _ => true
  | _ => false

def Instr.writesPstate : Instr → Bool
  | .cmp _ _ | .eret => true
  | _ => false

theorem exec_x {i : Instr} {k : Reg} (h : k ∉ i.writes) (m : Machine) :
    (exec m i).x k = m.x k := by
  cases i <;> simp_all [exec, Instr.effect, Instr.writes, Machine.set]

theorem exec_sp {i : Instr} (h : i.writesSp = false) (m : Machine) : (exec m i).sp = m.sp := by
  cases i <;> first | rfl | cases h

theorem exec_sys {i : Instr} (h : i.writesSys = false) (m : Machine) :
    (exec m i).sys = m.sys := by
  cases i <;> first | rfl | cases h

theorem exec_mem {i : Instr} (h : i.writesMem = false) (m : Machine) :
    (exec m i).mem = m.mem := by
  cases i <;> first | rfl | cases h

theorem exec_pstate {i : Instr} (h : i.writesPstate = false) (m : Machine) :
    (exec m i).pstate = m.pstate := by
  cases i <;> first | rfl | cases h

theorem exec_pc {i : Instr} (h : i ≠ .eret) (m : Machine) : (exec m i).pc = m.pc + 4#64 := by
  cases i <;> first | rfl | exact absurd rfl h

theorem run_pc {code : List Instr} (h : .eret ∉ code) (m : Machine) :
    (run m code).pc = m.pc + BitVec.ofNat 64 (4 * code.length) := by
  induction code generalizing m with
  | nil => simp [run]
  | cons i is ih =>
    have hi : i ≠ .eret := fun heq => h (heq ▸ List.mem_cons_self)
    have rest := ih (fun hmem => h (List.mem_cons_of_mem i hmem)) (exec m i)
    rw [exec_pc hi] at rest
    change (run (exec m i) is).pc = _
    rw [rest, List.length_cons]
    bv_omega

def Machine.ne (m : Machine) : Bool := !m.pstate.getLsbD 30

private theorem zero_flag (n z c v : Bool) :
    (BitVec.ofBool n ++ BitVec.ofBool z ++ BitVec.ofBool c ++ BitVec.ofBool v)[2] = z := by
  revert n z c v
  decide

theorem getLsbD_flags (pstate a b : Word) :
    ((pstate &&& 0xFFFFFFFF0FFFFFFF#64) ||| flags a b).getLsbD 30 = (a == b) := by
  simp [flags, zero_flag]

theorem exec_cmp_ne (m : Machine) (a : Reg) (imm : Nat) :
    (exec m (.cmp a imm)).ne = (m.x a != BitVec.ofNat 64 imm) :=
  congrArg Bool.not (getLsbD_flags m.pstate (m.x a) (BitVec.ofNat 64 imm))

/-- `bl`: the callee runs with the return address in x30. -/
def call (callee : Machine → Machine) (m : Machine) : Machine :=
  callee (m.set 30 (m.pc + 4#64))

/-- What the calling convention promises of a call, from its entry to its return, to a
caller with `n` bytes of its own at the stack pointer. -/
structure Respects (n : Nat) (entry return' : Machine) : Prop where
  returns : return'.pc = entry.x 30
  sp : return'.sp = entry.sp
  saved : ∀ k : Reg, 19 ≤ k.val → k.val ≤ 29 → return'.x k = entry.x k
  frame : ∀ x, Within entry.sp n x → return'.mem x = entry.mem x

structure User where
  x : Reg → Word
  spEl0 : Word
  pc : Word
  pstate : Word
  mem : Memory

def User.on (u : User) (m : Machine) : Machine :=
  { m with
    x := u.x
    sys := Function.update m.sys .spEl0 u.spEl0
    pc := u.pc
    pstate := u.pstate
    mem := u.mem }

/-- `pstate` in an EL1 handler: EL1h, with D, A, I and F set. -/
def maskedEl1 : Word := 0x3C5#64

/-- An exception to EL1: the address to return to and `pstate` are saved, the vector's
code starts. -/
def takeException (m : Machine) (vector : Word) : Machine :=
  { m with
    sys := Function.update (Function.update m.sys .elrEl1 m.pc) .spsrEl1 m.pstate
    pc := vector
    pstate := maskedEl1 }

/-- A synchronous exception or an SError also sets the syndrome. -/
def takeSync (m : Machine) (vector esr : Word) : Machine :=
  let m := takeException m vector
  { m with sys := Function.update m.sys .esrEl1 esr }

def exceptionClass (esr : Word) : Word := (esr >>> 26) &&& 0x3F#64

/-- The syndrome of `svc` with an immediate, from a 64-bit program. -/
def svcSyndrome (imm : BitVec 16) : Word := 0x56000000#64 ||| imm.setWidth 64

end KernelFuzzing.Foundation.AArch64
