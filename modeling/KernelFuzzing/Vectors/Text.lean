import KernelFuzzing.Foundation.AArch64

/-! The entries of arch/aarch64/vectors.s. -/
namespace KernelFuzzing.Vectors
open Foundation AArch64

def ctxTtbr0El1 : Nat := 34 * 8
def ctxSpsr : Nat := 33 * 8
def ctxElr : Nat := 32 * 8
def ctxSpEl0 : Nat := 31 * 8
def ctxSize : Nat := 34 * 8

def saveContext : List Instr :=
  [.subSp ctxSize,
   .stp 0 1 (0 * 16), .stp 2 3 (1 * 16), .stp 4 5 (2 * 16), .stp 6 7 (3 * 16),
   .stp 8 9 (4 * 16), .stp 10 11 (5 * 16), .stp 12 13 (6 * 16), .stp 14 15 (7 * 16),
   .stp 16 17 (8 * 16), .stp 18 19 (9 * 16), .stp 20 21 (10 * 16), .stp 22 23 (11 * 16),
   .stp 24 25 (12 * 16), .stp 26 27 (13 * 16), .stp 28 29 (14 * 16), .str 30 (15 * 16),
   .mrs 0 .spEl0, .str 0 ctxSpEl0,
   .mrs 0 .elrEl1, .str 0 ctxElr,
   .mrs 0 .spsrEl1, .str 0 ctxSpsr,
   .mrs 0 .ttbr0El1, .str 0 ctxTtbr0El1]

def restoreAndEret : List Instr :=
  [.ldr 1 ctxTtbr0El1, .msr .ttbr0El1 1,
   .ldr 1 ctxSpEl0, .msr .spEl0 1,
   .ldr 1 ctxElr, .msr .elrEl1 1,
   .ldr 1 ctxSpsr, .msr .spsrEl1 1,
   .ldr 30 (15 * 16), .ldp 28 29 (14 * 16), .ldp 26 27 (13 * 16), .ldp 24 25 (12 * 16),
   .ldp 22 23 (11 * 16), .ldp 20 21 (10 * 16), .ldp 18 19 (9 * 16), .ldp 16 17 (8 * 16),
   .ldp 14 15 (7 * 16), .ldp 12 13 (6 * 16), .ldp 10 11 (5 * 16), .ldp 8 9 (4 * 16),
   .ldp 6 7 (3 * 16), .ldp 4 5 (2 * 16), .ldp 2 3 (1 * 16), .ldp 0 1 (0 * 16),
   .addSp ctxSize, .eret]

def notSyscall : List Instr := [.eret]

def defaultEntry : List Instr := [.eret]

/-- `el1_irq_entry`, with what `irq_dispatcher` does. -/
def el1IrqEntry (irqDispatcher : Machine → Machine) (m : Machine) : Machine :=
  let m := run m (saveContext ++ [.movFromSp 0])
  let m := call irqDispatcher m
  run m (.movToSp 0 :: restoreAndEret)

/-- `el0_sync_entry` up to its branch. -/
def el0SyncEntry.head : List Instr := saveContext ++ [.mrs 10 .esrEl1, .lsr 11 10 26, .cmp 11 0x15]

/-- `el0_sync_entry`, with what `syscall_dispatcher` does. -/
def el0SyncEntry (syscallDispatcher : Machine → Machine) (m : Machine) : Machine :=
  let m := run m el0SyncEntry.head
  -- the branch `b.ne not_syscall` is an instruction of its own
  let next := { m with pc := m.pc + 4#64 }
  if m.ne then run next notSyscall
  else run (call syscallDispatcher (run next [.mov 7 8])) restoreAndEret

def firstUserEnter (m : Machine) : Machine := run m (.movToSp 0 :: restoreAndEret)

end KernelFuzzing.Vectors
