import KernelFuzzing.Vectors.Entry
import KernelFuzzing.Vectors.Switch

/-! System calls that interrupts interrupt: `spin_unlock_with_mask` clears PSTATE.I in the
dispatcher, and nothing sets it before the `eret`. -/
namespace KernelFuzzing.Vectors
open Foundation AArch64 Memory Scheduler

structure SameRegs (m m' : Machine) : Prop where
  x : m'.x = m.x
  sp : m'.sp = m.sp
  spEl0 : m'.sys .spEl0 = m.sys .spEl0
  ttbr0 : m'.sys .ttbr0El1 = m.sys .ttbr0El1
  pc : m'.pc = m.pc
  pstate : m'.pstate = m.pstate

/-- Stack below the stack pointer, down to `base`. -/
def Free (base : Word) (m : Machine) (x : Word) : Prop := base ≤ x ∧ x < m.sp

/-- The compiled `syscall_dispatcher` in one call, on the stack from `base` up to the saved
frame: the states it can be in, and its instructions. -/
structure Dispatcher (base frame ret : Word) where
  Running : Machine → Prop
  Instruction : Machine → Machine → Prop
  /-- It runs below the frame, and the word at its stack pointer is of no further use. -/
  Spare : Machine → Prop
  top : frame.toNat + 280 ≤ 2 ^ 64
  alignedFrame : frame.toNat % 16 = 0
  el1 : Running m → checkCurrentEl m.pstate = true
  aligned : Running m → m.sp.toNat % 16 = 0
  room : Running m → base.toNat + 272 ≤ m.sp.toNat
  below : Running m → m.sp.toNat ≤ frame.toNat
  returned : Running m → m.pc = ret → m.sp = frame
  spare : Running m → Spare m → m.sp ≠ frame
  next : Running m → Instruction m m' → Running m'
  keeps : Running m → Instruction m m' → ∀ x, Within frame 280 x → m'.mem x = m.mem x
  /-- It is not sensitive to the stack below its stack pointer. -/
  resume : Running m → SameRegs m m' →
    (∀ x, ¬ Free base m x → ¬ (Within m.sp 8 x ∧ Spare m) → m'.mem x = m.mem x) → Running m'

/-- Where `el0_sync_entry` is: in the dispatcher, before an instruction of RESTORE_AND_ERET,
or behind its `eret`. -/
inductive Phase where
  | dispatching
  | restoring (i : Nat)
  | returned
deriving DecidableEq

structure Syscall where
  machine : Machine
  phase : Phase

/-- The next instruction, where the dispatcher's own leads to the given machine, or an
interrupt that leaves the given registers and memory. -/
inductive Move where
  | instruction (next : Machine)
  | irq (iar : BitVec 32) (left : Machine)

section
variable {ι : Type*} [DecidableEq ι]

def Syscall.next (sched : Sched ι Word) (irqEntry ret : Word) (s : Syscall) : Move → Syscall
  | .instruction m =>
      match s.phase with
      | .dispatching => ⟨m, if m.pc = ret then .restoring 0 else .dispatching⟩
      | .restoring i =>
          match restoreAndEret[i]? with
          | some instr =>
              ⟨exec s.machine instr,
                if i + 1 = restoreAndEret.length then .returned else .restoring (i + 1)⟩
          | none => s
      | .returned => s
  | .irq iar left =>
      if s.phase = .returned then s
      else { s with machine := (takeIrq irqEntry sched iar left s.machine).2 }

end

/-- The dispatcher's instructions are its own; an interrupt is taken while PSTATE.I is
clear, and its C code writes below the nested frame only. -/
def Syscall.Legal {base frame ret : Word} (D : Dispatcher base frame ret) (irqEntry : Word)
    (s : Syscall) : Move → Prop
  | .instruction m => s.phase = .dispatching → D.Instruction s.machine m
  | .irq _ left =>
      s.machine.pstate.getLsbD 7 = false ∧
      ∀ x, ¬ (base ≤ x ∧ x < s.machine.sp - 272#64) →
        left.mem x = (atIrq (takeException s.machine irqEntry)).mem x

/-- The interrupt comes before ELR_EL1 is restored, and the word at the stack pointer is
the one that SAVE_CONTEXT stores there, or of no use. -/
def Syscall.Harmless {base frame ret : Word} (D : Dispatcher base frame ret) (s : Syscall) :
    Move → Prop
  | .instruction _ => True
  | .irq _ _ =>
      let there := load64 s.machine.mem s.machine.sp = s.machine.sys .ttbr0El1
      match s.phase with
      | .dispatching => there ∨ D.Spare s.machine
      | .restoring i => i < 6 ∧ there
      | .returned => True

/-- The frame holds what the program had at its `svc`, and after the `eret` so do PC,
PSTATE and SP_EL0. -/
structure Syscall.Safe (u : Machine) (frame : Word) (s : Syscall) : Prop where
  frame : Context.read s.machine.mem frame = interruptedContext u
  pc : s.phase = .returned → s.machine.pc = u.pc
  pstate : s.phase = .returned → s.machine.pstate = u.pstate
  spEl0 : s.phase = .returned → s.machine.sys .spEl0 = u.sys .spEl0

section
variable {ι : Type*} [DecidableEq ι]

theorem irqDispatcher_el1 (s : Sched ι Word) (iar : BitVec 32) {spsr : Word}
    (el1 : checkCurrentEl spsr = true) (context : Word) :
    irqDispatcher s iar spsr context = (context, s) := by
  simp [irqDispatcher, el1]

/-- What an interrupt of EL1 code leaves: the registers but ELR_EL1 and SPSR_EL1, and the
memory but the stack in use below and one word at the stack pointer. -/
structure Nested (base : Word) (m m' : Machine) : Prop where
  regs : SameRegs m m'
  mem : ∀ x, ¬ Free base m x → ¬ Within m.sp 8 x → m'.mem x = m.mem x
  word : load64 m'.mem m.sp = m.sys .ttbr0El1
  elr : m'.sys .elrEl1 = m.pc

theorem Nested.mem_of_there {base : Word} {m m' : Machine} (h : Nested base m m')
    (there : load64 m.mem m.sp = m.sys .ttbr0El1) {x : Word} (hx : ¬ Free base m x) :
    m'.mem x = m.mem x := by
  by_cases hword : Within m.sp 8 x
  · exact load64_eq_iff.mp (h.word.trans there.symm) x hword
  · exact h.mem x hx hword

theorem takeIrq_nested {base irqEntry : Word} {m left : Machine} (sched : Sched ι Word)
    (iar : BitVec 32) (el1 : checkCurrentEl m.pstate = true)
    (room : base.toNat + 272 ≤ m.sp.toNat) (top : m.sp.toNat + 8 ≤ 2 ^ 64)
    (hleft : ∀ x, ¬ (base ≤ x ∧ x < m.sp - 272#64) →
      left.mem x = (atIrq (takeException m irqEntry)).mem x) :
    Nested base m (takeIrq irqEntry sched iar left m).2 := by
  have hsp : (takeException m irqEntry).sp = m.sp := rfl
  have hframe : Context.read left.mem (m.sp - 272#64) = context (takeException m irqEntry) := by
    rw [← read_save, save_sp, hsp, ← atIrq_mem]
    apply Context.read_congr
    intro x hx
    apply hleft
    unfold Within at hx
    rw [BitVec.le_def, BitVec.lt_def]
    bv_omega
  obtain ⟨called, henters, hmem, hx⟩ := takeIrq_enters irqEntry sched iar left m
  rw [irqDispatcher_el1 sched iar el1] at hx
  have hcontext := context_takeException m irqEntry
  have hread := (congrArg₂ Context.read hmem hx).trans (hframe.trans hcontext)
  rw [henters]
  have hregs := (firstUserEnter_context called).trans hread
  exact {
    regs := {
      x := congrArg Context.x hregs
      sp := by rw [firstUserEnter_sp, hx, BitVec.sub_add_cancel]
      spEl0 := congrArg Context.spEl0 hregs
      ttbr0 := congrArg Context.ttbr0El1 hregs
      pc := (firstUserEnter_pc called).trans (congrArg Context.elrEl1 hread)
      pstate := (firstUserEnter_pstate called).trans (congrArg Context.spsrEl1 hread) }
    mem := by
      intro x hfree hword
      have houtside : ¬ Within (m.sp - 272#64) 280 x := by
        unfold Free Within at *
        rw [BitVec.le_def, BitVec.lt_def] at hfree
        bv_omega
      rw [firstUserEnter_mem, hmem, hleft x, atIrq_mem, save_mem, hsp,
        storeAll_wordsAt_of_not_within (by simp) (by simpa using houtside)]
      · rfl
      · unfold Free at hfree
        rw [BitVec.le_def, BitVec.lt_def] at *
        bv_omega
    word := by
      have hslot := congrArg Context.ttbr0El1 (hframe.trans hcontext)
      rw [firstUserEnter_mem, hmem]
      exact (congrArg (load64 left.mem) (BitVec.sub_add_cancel m.sp 272#64)).symm.trans hslot
    elr := congrArg Context.elrEl1 hregs }

end

/-- The machine before the `i`-th instruction, as far as the `eret` depends on it. -/
structure Restoring (saved : Context) (frame : Word) (i : Nat) (m : Machine) : Prop where
  sp : m.sp = if i < 25 then frame else frame + 272#64
  el1 : checkCurrentEl m.pstate = true
  heldSpEl0 : i = 3 → m.x 1 = saved.spEl0
  heldElr : i = 5 → m.x 1 = saved.elrEl1
  heldSpsr : i = 7 → m.x 1 = saved.spsrEl1
  spEl0 : 4 ≤ i → m.sys .spEl0 = saved.spEl0
  elr : 6 ≤ i → m.sys .elrEl1 = saved.elrEl1
  spsr : 8 ≤ i → m.sys .spsrEl1 = saved.spsrEl1

private theorem loads_only : ∀ k : Fin restoreAndEret.length, 8 ≤ k.val → k.val < 24 →
    (restoreAndEret.get k).writesSp = false ∧ (restoreAndEret.get k).writesSys = false ∧
      (restoreAndEret.get k).writesPstate = false := by
  decide

section
variable {saved : Context} {base frame ret : Word} {i : Nat} {m : Machine}

theorem Restoring.early (h : Restoring saved frame i m) (hread : Context.read m.mem frame = saved)
    (hlow : i < 8) (hi : i < restoreAndEret.length) :
    Restoring saved frame (i + 1) (exec m restoreAndEret[i]) := by
  have hsp : m.sp = frame := by rw [h.sp, if_pos (by omega)]
  subst hsp hread
  match i, hlow with
  | 0, _ => exact ⟨rfl, h.el1, nofun, nofun, nofun, by omega, by omega, by omega⟩
  | 1, _ => exact ⟨rfl, h.el1, nofun, nofun, nofun, by omega, by omega, by omega⟩
  | 2, _ => exact ⟨rfl, h.el1, fun _ => rfl, nofun, nofun, by omega, by omega, by omega⟩
  | 3, _ =>
    exact ⟨rfl, h.el1, nofun, nofun, nofun, fun _ => h.heldSpEl0 rfl, by omega, by omega⟩
  | 4, _ =>
    exact ⟨rfl, h.el1, nofun, fun _ => rfl, nofun, fun _ => h.spEl0 (by omega), by omega,
      by omega⟩
  | 5, _ =>
    exact ⟨rfl, h.el1, nofun, nofun, nofun, fun _ => h.spEl0 (by omega),
      fun _ => h.heldElr rfl, by omega⟩
  | 6, _ =>
    exact ⟨rfl, h.el1, nofun, nofun, fun _ => rfl, fun _ => h.spEl0 (by omega),
      fun _ => h.elr (by omega), by omega⟩
  | 7, _ =>
    exact ⟨rfl, h.el1, nofun, nofun, nofun, fun _ => h.spEl0 (by omega),
      fun _ => h.elr (by omega), fun _ => h.heldSpsr rfl⟩

theorem Restoring.load (h : Restoring saved frame i m) (hlow : 8 ≤ i) (hhigh : i < 24)
    (hi : i < restoreAndEret.length) :
    Restoring saved frame (i + 1) (exec m restoreAndEret[i]) := by
  have hplain := loads_only ⟨i, hi⟩ hlow hhigh
  have hsp : restoreAndEret[i].writesSp = false := hplain.1
  have hsys : restoreAndEret[i].writesSys = false := hplain.2.1
  have hpstate : restoreAndEret[i].writesPstate = false := hplain.2.2
  constructor
  · rw [exec_sp hsp, h.sp, if_pos (by omega), if_pos (by omega)]
  · rw [exec_pstate hpstate]
    exact h.el1
  · omega
  · omega
  · omega
  · rw [exec_sys hsys]
    exact fun _ => h.spEl0 (by omega)
  · rw [exec_sys hsys]
    exact fun _ => h.elr (by omega)
  · rw [exec_sys hsys]
    exact fun _ => h.spsr (by omega)

theorem Restoring.next (h : Restoring saved frame i m) (hread : Context.read m.mem frame = saved)
    (hlast : i < 25) (hi : i < restoreAndEret.length) :
    Restoring saved frame (i + 1) (exec m restoreAndEret[i]) := by
  by_cases hlow : i < 8
  · exact h.early hread hlow hi
  · by_cases hhigh : i < 24
    · exact h.load (by omega) hhigh hi
    · have heq : i = 24 := by omega
      subst heq
      have hsp : m.sp = frame := h.sp
      exact {
        sp := congrArg (· + 272#64) hsp
        el1 := h.el1
        heldSpEl0 := by omega
        heldElr := by omega
        heldSpsr := by omega
        spEl0 := fun _ => h.spEl0 (by decide)
        elr := fun _ => h.elr (by decide)
        spsr := fun _ => h.spsr (by decide) }

theorem Restoring.eret (h : Restoring saved frame 25 m) :
    (exec m .eret).pc = saved.elrEl1 ∧ (exec m .eret).pstate = saved.spsrEl1 ∧
      (exec m .eret).sys .spEl0 = saved.spEl0 :=
  ⟨h.elr (by decide), h.spsr (by decide), h.spEl0 (by decide)⟩

theorem restoring_mem (hi : i < restoreAndEret.length) :
    (exec m restoreAndEret[i]).mem = m.mem := by
  have frame : ∀ k : Fin restoreAndEret.length, (restoreAndEret.get k).writesMem = false := by
    decide
  exact exec_mem (frame ⟨i, hi⟩) m

end

inductive Syscall.Inv {base frame ret : Word} (D : Dispatcher base frame ret) (saved : Context) :
    Syscall → Prop where
  | dispatching (m : Machine) (read : Context.read m.mem frame = saved)
      (running : D.Running m) : Inv D saved ⟨m, .dispatching⟩
  | restoring (m : Machine) (i : Nat) (read : Context.read m.mem frame = saved)
      (hi : i < restoreAndEret.length) (room : base.toNat + 272 ≤ frame.toNat)
      (progress : Restoring saved frame i m) : Inv D saved ⟨m, .restoring i⟩
  | returned (m : Machine) (read : Context.read m.mem frame = saved)
      (pc : m.pc = saved.elrEl1) (pstate : m.pstate = saved.spsrEl1)
      (spEl0 : m.sys .spEl0 = saved.spEl0) : Inv D saved ⟨m, .returned⟩

section
variable {ι : Type*} [DecidableEq ι] {sched : Sched ι Word} {saved : Context}
  {base frame ret irqEntry : Word} {D : Dispatcher base frame ret} {s : Syscall}

theorem Syscall.Inv.instruction (h : s.Inv D saved) {m' : Machine}
    (legal : s.Legal D irqEntry (.instruction m')) :
    (s.next sched irqEntry ret (.instruction m')).Inv D saved := by
  cases h with
  | dispatching m read running =>
    have step := legal rfl
    have running' := D.next running step
    have read' : Context.read m'.mem frame = saved :=
      (Context.read_congr (D.keeps running step)).trans read
    by_cases hret : m'.pc = ret
    · have hsp := D.returned running' hret
      have room := D.room running'
      rw [hsp] at room
      have progress : Restoring saved frame 0 m' :=
        ⟨hsp, D.el1 running', nofun, nofun, nofun, by omega, by omega, by omega⟩
      simpa [next, hret] using Inv.restoring m' 0 read' (by decide) room progress
    · simpa [next, hret] using Inv.dispatching m' read' running'
  | restoring m i read hi room progress =>
    have hnext : (Syscall.mk m (.restoring i)).next sched irqEntry ret (.instruction m') =
        ⟨exec m restoreAndEret[i],
          if i + 1 = restoreAndEret.length then .returned else .restoring (i + 1)⟩ := by
      simp [next, hi]
    have read' : Context.read (exec m restoreAndEret[i]).mem frame = saved := by
      rw [restoring_mem hi, read]
    rw [hnext]
    by_cases hlast : i = 25
    · subst hlast
      obtain ⟨pc, pstate, spEl0⟩ := progress.eret
      exact Inv.returned _ read' pc pstate spEl0
    · have hlength : restoreAndEret.length = 26 := rfl
      rw [if_neg (by omega)]
      exact Inv.restoring _ _ read' (by omega) room (progress.next read (by omega) hi)
  | returned m read pc pstate spEl0 => exact Inv.returned m read pc pstate spEl0

theorem Syscall.Inv.irq (h : s.Inv D saved) {iar : BitVec 32} {left : Machine}
    (legal : s.Legal D irqEntry (.irq iar left)) (harmless : s.Harmless D (.irq iar left)) :
    (s.next sched irqEntry ret (.irq iar left)).Inv D saved := by
  have htop := D.top
  have haligned := D.alignedFrame
  cases h with
  | dispatching m read running =>
    have hbelow := D.below running
    have nested := takeIrq_nested sched iar (D.el1 running) (D.room running) (by omega) legal.2
    have kept (x : Word) (hx : ¬ Free base m x) (hspare : ¬ (Within m.sp 8 x ∧ D.Spare m)) :
        (takeIrq irqEntry sched iar left m).2.mem x = m.mem x := by
      by_cases hword : Within m.sp 8 x
      · have there := harmless.resolve_right fun spare => hspare ⟨hword, spare⟩
        exact nested.mem_of_there there hx
      · exact nested.mem x hx hword
    refine Inv.dispatching _ ?_ (D.resume running nested.regs kept)
    rw [← read]
    apply Context.read_congr
    intro x hx
    apply kept
    · unfold Free Within at *
      rw [BitVec.le_def, BitVec.lt_def]
      bv_omega
    · rintro ⟨hword, spare⟩
      have hne := D.spare running spare
      have hsp := D.aligned running
      unfold Within at *
      bv_omega
  | restoring m i read hi room progress =>
    obtain ⟨hearly, there⟩ := harmless
    have hsp : m.sp = frame := by rw [progress.sp, if_pos (by omega)]
    have hfit : m.sp.toNat + 8 ≤ 2 ^ 64 := by
      rw [hsp]
      omega
    have nested := takeIrq_nested sched iar progress.el1 (hsp ▸ room) hfit legal.2
    refine Inv.restoring _ i ?_ hi room ?_
    · rw [← read]
      apply Context.read_congr
      intro x hx
      apply nested.mem_of_there there
      unfold Free Within at *
      rw [BitVec.le_def, BitVec.lt_def, hsp]
      bv_omega
    · exact {
        sp := nested.regs.sp.trans progress.sp
        el1 := by
          rw [nested.regs.pstate]
          exact progress.el1
        heldSpEl0 := by
          rw [nested.regs.x]
          exact progress.heldSpEl0
        heldElr := by
          rw [nested.regs.x]
          exact progress.heldElr
        heldSpsr := by omega
        spEl0 := by
          rw [nested.regs.spEl0]
          exact progress.spEl0
        elr := by omega
        spsr := by omega }
  | returned m read pc pstate spEl0 => exact Inv.returned m read pc pstate spEl0

theorem Syscall.Inv.step (h : s.Inv D saved) {move : Move} (legal : s.Legal D irqEntry move)
    (harmless : s.Harmless D move) : (s.next sched irqEntry ret move).Inv D saved := by
  cases move with
  | instruction m => exact h.instruction legal
  | irq iar left => exact h.irq legal harmless

theorem Syscall.Inv.safe {u : Machine} (h : s.Inv D (interruptedContext u)) :
    s.Safe u frame := by
  cases h with
  | dispatching m read running => exact ⟨read, nofun, nofun, nofun⟩
  | restoring m i read hi room progress => exact ⟨read, nofun, nofun, nofun⟩
  | returned m read pc pstate spEl0 =>
    exact ⟨read, fun _ => pc, fun _ => pstate, fun _ => spEl0⟩

end

/-- A system call that only harmless interrupts meet returns as the program left it. -/
theorem nested_irqs_safe {ι : Type*} [DecidableEq ι] (sched : Sched ι Word)
    (u m : Machine) (entry irqEntry : Word) (imm : BitVec 16)
    (svc : m = takeSync u entry (svcSyndrome imm)) (base : Word)
    (D : Dispatcher base (m.sp - 272#64) ((atCall m).x 30)) (called : D.Running (atCall m))
    (moves : List Move)
    (legal : Run.Guarded (Syscall.next sched irqEntry ((atCall m).x 30))
      (Syscall.Legal D irqEntry) ⟨atCall m, .dispatching⟩ moves)
    (harmless : Run.Guarded (Syscall.next sched irqEntry ((atCall m).x 30))
      (Syscall.Harmless D) ⟨atCall m, .dispatching⟩ moves) :
    Run.Always (Syscall.next sched irqEntry ((atCall m).x 30)) (Syscall.Safe u (m.sp - 272#64))
      ⟨atCall m, .dispatching⟩ moves := by
  have saved := context_takeSync u entry (svcSyndrome imm)
  rw [← svc] at saved
  have read : Context.read (atCall m).mem (m.sp - 272#64) = interruptedContext u := by
    rw [← saved, ← read_atCall, atCall_sp, save_sp]
  have start : Syscall.Inv D (interruptedContext u) ⟨atCall m, .dispatching⟩ :=
    .dispatching _ read called
  have keep : ∀ (s : Syscall) (move : Move), s.Inv D (interruptedContext u) →
      s.Legal D irqEntry move ∧ s.Harmless D move →
      (s.next sched irqEntry ((atCall m).x 30) move).Inv D (interruptedContext u) :=
    fun _ _ h hmove => h.step hmove.1 hmove.2
  exact (Run.always_of_guarded keep start (legal.and harmless)).mono fun _ h => h.safe

/-- `msr DAIFCLr, #2` of core/spinlock.c. -/
def unmaskInterrupts (m : Machine) : Machine := { m with pstate := m.pstate &&& ~~~0x80#64 }

theorem unmaskInterrupts_el1 (m : Machine) :
    checkCurrentEl (unmaskInterrupts m).pstate = checkCurrentEl m.pstate := by
  have kept : (~~~0x80#64) >>> 2 &&& 0b11#64 = 0b11#64 := by decide
  unfold checkCurrentEl unmaskInterrupts
  dsimp only
  rw [BitVec.ushiftRight_and_distrib, BitVec.and_assoc, kept]

def unmask (ret : Word) (m : Machine) : Machine := { unmaskInterrupts m with pc := ret }

theorem unmask_sp (ret : Word) (m : Machine) : (unmask ret m).sp = m.sp := rfl

theorem unmask_sys (ret : Word) (m : Machine) : (unmask ret m).sys = m.sys := rfl

theorem unmask_mem (ret : Word) (m : Machine) : (unmask ret m).mem = m.mem := rfl

theorem unmask_el1 (ret : Word) (m : Machine) :
    checkCurrentEl (unmask ret m).pstate = checkCurrentEl m.pstate :=
  unmaskInterrupts_el1 m

theorem unmask_irq (ret : Word) (m : Machine) : (unmask ret m).pstate.getLsbD 7 = false := by
  simp [unmask, unmaskInterrupts]

def unmasking {base frame : Word} (ret : Word) (top : frame.toNat + 280 ≤ 2 ^ 64)
    (aligned : frame.toNat % 16 = 0) (room : base.toNat + 272 ≤ frame.toNat) :
    Dispatcher base frame ret where
  Running m := m.sp = frame ∧ checkCurrentEl m.pstate = true
  Instruction m m' := m' = unmask ret m
  Spare _ := False
  top := top
  alignedFrame := aligned
  el1 h := h.2
  aligned h := h.1 ▸ aligned
  room h := h.1 ▸ room
  below h := h.1 ▸ Nat.le_refl _
  returned h _ := h.1
  spare _ hspare := hspare.elim
  next h hnext := by
    subst hnext
    exact ⟨h.1, (unmask_el1 _ _).trans h.2⟩
  keeps _ hnext _ _ := by
    subst hnext
    rfl
  resume h regs _ := ⟨regs.sp.trans h.1, regs.pstate ▸ h.2⟩

section
variable {ι : Type*} [DecidableEq ι] {sched : Sched ι Word} {irqEntry ret : Word} {m n : Machine}

theorem next_unmask : (Syscall.mk m .dispatching).next sched irqEntry ret
    (.instruction (unmask ret m)) = ⟨unmask ret m, .restoring 0⟩ := by
  have hret : (unmask ret m).pc = ret := rfl
  simp [Syscall.next, hret]

theorem run_restoring {k : Nat} (hk : k < restoreAndEret.length) :
    Run.run (Syscall.next sched irqEntry ret) ⟨m, .restoring 0⟩
      (List.replicate k (.instruction n)) = ⟨run m (restoreAndEret.take k), .restoring k⟩ := by
  induction k with
  | zero => rfl
  | succ k ih =>
    have hlast : k + 1 ≠ restoreAndEret.length := Nat.ne_of_lt hk
    have hget : restoreAndEret[k]? = some restoreAndEret[k] := List.getElem?_eq_getElem _
    rw [List.replicate_succ', Run.run_append, ih (by omega), List.take_add_one, hget, run_append]
    simp [Syscall.next, hget, hlast]
    rfl

theorem next_not_dispatching {s : Syscall} (h : s.phase ≠ .dispatching) :
    (s.next sched irqEntry ret (.instruction n)).phase ≠ .dispatching := by
  cases s with
  | mk m phase =>
    cases phase with
    | dispatching => exact absurd rfl h
    | restoring i =>
      cases hget : restoreAndEret[i]? with
      | none => simp [Syscall.next, hget]
      | some instr =>
        simp only [Syscall.next, hget]
        split <;> exact Phase.noConfusion
    | returned => exact h

theorem legal_instructions {base frame : Word} {D : Dispatcher base frame ret} {s : Syscall}
    (h : s.phase ≠ .dispatching) (k : Nat) :
    Run.Guarded (Syscall.next sched irqEntry ret) (Syscall.Legal D irqEntry) s
      (List.replicate k (.instruction n)) := by
  induction k generalizing s with
  | zero => trivial
  | succ k ih => exact ⟨fun hphase => absurd hphase h, ih (next_not_dispatching h)⟩

end

def writing (fd : Word) : Machine :=
  takeSync (program fd 0x80070000#64) 0x80002400#64 (svcSyndrome 0)

theorem writing_frame (fd : Word) : (writing fd).sp - 272#64 = 0x80090EE0#64 := by
  change 0x80090FF0#64 - 272#64 = _
  decide

def unmaskingCall (fd : Word) : Dispatcher 0x80090000#64 ((writing fd).sp - 272#64)
    ((atCall (writing fd)).x 30) :=
  unmasking _ (by rw [writing_frame]; decide) (by rw [writing_frame]; decide)
    (by rw [writing_frame]; decide)

theorem running_unmaskingCall (fd : Word) :
    (unmaskingCall fd).Running (atCall (writing fd)) := by
  have el1 : checkCurrentEl ((maskedEl1 &&& 0xFFFFFFFF0FFFFFFF#64) |||
      flags (svcSyndrome 0 >>> 26) 0x15#64) = true := by decide
  refine ⟨(atCall_sp _).trans (save_sp _), ?_⟩
  rw [atCall_pstate]
  exact el1

def unmasked (fd : Word) : Machine := unmask ((atCall (writing fd)).x 30) (atCall (writing fd))

def noTasks : Sched Bool Word := ⟨fun _ => ⟨.ready, 0, 0, none⟩, none, none, none⟩

theorem nested_irqs_safe_before_restore :
    Run.Always (Syscall.next noTasks 0x80002280 ((atCall (writing 0x80070000)).x 30))
      (Syscall.Safe (program 0x80070000 0x80070000) ((writing 0x80070000).sp - 272#64))
      ⟨atCall (writing 0x80070000), .dispatching⟩
      [.instruction (unmasked 0x80070000),
        .irq 27 (atIrq (takeException (unmasked 0x80070000) 0x80002280))] := by
  have there : load64 (unmasked 0x80070000).mem (unmasked 0x80070000).sp =
      (unmasked 0x80070000).sys .ttbr0El1 := by
    have hread := congrArg (fun c => c.x 0) (read_atCall (writing 0x80070000))
    rw [unmasked, unmask_mem, unmask_sp, unmask_sys, atCall_sys]
    exact (congrArg (load64 _) (BitVec.add_zero _).symm).trans hread
  refine nested_irqs_safe noTasks _ (writing 0x80070000) 0x80002400 0x80002280 0 rfl 0x80090000
    (unmaskingCall 0x80070000) (running_unmaskingCall _) _ ⟨fun _ => rfl, ?_, trivial⟩
    ⟨trivial, ?_, trivial⟩
  · rw [unmasked, next_unmask]
    exact ⟨unmask_irq _ _, fun _ _ => rfl⟩
  · rw [unmasked, next_unmask]
    exact ⟨by decide, there⟩

def beforeEret (fd : Word) : Machine := run (unmasked fd) (restoreAndEret.take 25)

private theorem beforeEret_sp (fd : Word) : (beforeEret fd).sp = 0x80090FF0#64 := by
  have hsp : (unmasked fd).sp = 0x80090EE0#64 := by
    rw [unmasked, unmask_sp, atCall_sp, save_sp, writing_frame]
  have hadd (m : Machine) : (run m (restoreAndEret.take 25)).sp = m.sp + 272#64 := by
    exact rfl
  rw [beforeEret, hadd, hsp]
  decide

private theorem beforeEret_pstate (fd : Word) :
    (beforeEret fd).pstate = (unmasked fd).pstate := by
  have frame : ∀ i ∈ restoreAndEret.take 25, i.writesPstate = false := by decide
  have keep := run_keep (·.pstate) (fun i hi => exec_pstate (frame i hi)) (unmasked fd)
  rw [beforeEret]
  exact keep

private theorem beforeEret_pc (fd : Word) : (beforeEret fd).pc = 0x800024E0#64 := by
  have straight : Instr.eret ∉ restoreAndEret.take 25 := by decide
  have hret : (unmasked fd).pc = (writing fd).pc + 124#64 := atCall_link _
  rw [beforeEret, run_pc straight, hret]
  change 0x80002400#64 + 124#64 + BitVec.ofNat 64 (4 * 25) = _
  decide

/-- An interrupt taken at the `eret` sends the system call back to the `eret`. -/
theorem nested_irqs_not_safe_at_eret :
    ¬ ∀ (sched : Sched Bool Word) (u m : Machine) (entry irqEntry : Word) (imm : BitVec 16),
      m = takeSync u entry (svcSyndrome imm) →
      ∀ (base : Word) (D : Dispatcher base (m.sp - 272#64) ((atCall m).x 30)),
      D.Running (atCall m) → ∀ moves : List Move,
      Run.Guarded (Syscall.next sched irqEntry ((atCall m).x 30)) (Syscall.Legal D irqEntry)
        ⟨atCall m, .dispatching⟩ moves →
      Run.Always (Syscall.next sched irqEntry ((atCall m).x 30))
        (Syscall.Safe u (m.sp - 272#64)) ⟨atCall m, .dispatching⟩ moves := by
  intro h
  have hlegal : (Syscall.mk (beforeEret 1) (.restoring 25)).Legal (unmaskingCall 1) 0x80002280
      (.irq 27 (atIrq (takeException (beforeEret 1) 0x80002280))) := by
    refine ⟨?_, fun _ _ => rfl⟩
    change (beforeEret 1).pstate.getLsbD 7 = false
    rw [beforeEret_pstate, unmasked, unmask_irq]
  have el1 : checkCurrentEl (beforeEret 1).pstate = true := by
    rw [beforeEret_pstate, unmasked, unmask_el1]
    exact (running_unmaskingCall 1).2
  have nested := takeIrq_nested noTasks 27 el1
    (by rw [beforeEret_sp]; decide) (by rw [beforeEret_sp]; decide) hlegal.2
  have always := h noTasks (program 1 0x80070000) (writing 1) 0x80002400 0x80002280 0 rfl
    0x80090000 (unmaskingCall 1) (running_unmaskingCall 1)
    (.instruction (unmasked 1) :: (List.replicate 25 (.instruction (unmasked 1)) ++
      [.irq 27 (atIrq (takeException (beforeEret 1) 0x80002280)), .instruction (unmasked 1)])) ?_
  · have last := always.last
    rw [Run.run_cons, unmasked, next_unmask, Run.run_append, run_restoring (by decide)] at last
    have hpc := last.pc rfl
    have hback := nested.elr.symm.trans hpc
    rw [beforeEret_pc] at hback
    exact absurd hback (by decide)
  · refine ⟨fun _ => rfl, ?_⟩
    rw [unmasked, next_unmask, Run.guarded_append, run_restoring (by decide)]
    exact ⟨legal_instructions (by decide) 25, hlegal, nofun, trivial⟩

end KernelFuzzing.Vectors
