import KernelFuzzing.Foundation.Run
import KernelFuzzing.Vectors.Frame

/-! System calls and the other exceptions that programs raise at EL0. -/
namespace KernelFuzzing.Vectors
open Foundation AArch64 Memory

/-- `el0_sync_entry` from the end of SAVE_CONTEXT to the dispatcher's first instruction. -/
def calling (s : Machine) : Machine :=
  let s := run s [.mrs 10 .esrEl1, .lsr 11 10 26, .cmp 11 0x15]
  let s := run { s with pc := s.pc + 4#64 } [.mov 7 8]
  s.set 30 (s.pc + 4#64)

/-- The machine on which `el0_sync_entry` calls the dispatcher. -/
def atCall (m : Machine) : Machine := calling (run m saveContext)

theorem calling_sp (s : Machine) : (calling s).sp = s.sp := rfl

theorem calling_mem (s : Machine) : (calling s).mem = s.mem := rfl

theorem calling_sys (s : Machine) : (calling s).sys = s.sys := rfl

theorem calling_pstate (s : Machine) : (calling s).pstate =
    (s.pstate &&& 0xFFFFFFFF0FFFFFFF#64) ||| flags (s.sys .esrEl1 >>> 26) 0x15#64 := rfl

theorem calling_link (s : Machine) : (calling s).x 30 =
    s.pc + 4#64 + 4#64 + 4#64 + 4#64 + 4#64 + 4#64 := rfl

theorem calling_x {k : Reg} (hk : k ∉ ([7, 10, 11, 30] : List Reg)) (s : Machine) :
    (calling s).x k = s.x k := by
  simp only [List.mem_cons, List.not_mem_nil, or_false, not_or] at hk
  simp [calling, run, exec, Instr.effect, Machine.set, hk]

theorem calling_number (s : Machine) : (calling s).x 7 = s.x 8 := rfl

theorem atCall_sp (m : Machine) : (atCall m).sp = (run m saveContext).sp :=
  calling_sp _

theorem atCall_mem (m : Machine) : (atCall m).mem = (run m saveContext).mem :=
  calling_mem _

theorem atCall_sys (m : Machine) : (atCall m).sys = m.sys := by
  rw [atCall, calling_sys, save_sys]

theorem read_atCall (m : Machine) : Context.read (atCall m).mem (atCall m).sp = context m := by
  rw [atCall_mem, atCall_sp, read_save]

theorem atCall_x_zero (m : Machine) : (atCall m).x 0 = m.sys .ttbr0El1 := by
  rw [atCall, calling_x (by decide), save_x_zero]

theorem atCall_x {k : Reg} (hk : k.val < 7) (hzero : k ≠ 0) (m : Machine) :
    (atCall m).x k = m.x k := by
  have kept : ∀ k : Reg, k.val < 7 → k ∉ ([7, 10, 11, 30] : List Reg) := by decide
  rw [atCall, calling_x (kept k hk), save_x hzero]

theorem atCall_number (m : Machine) : (atCall m).x 7 = m.x 8 := by
  rw [atCall, calling_number, save_x (by decide)]

theorem atCall_pstate (m : Machine) : (atCall m).pstate =
    (m.pstate &&& 0xFFFFFFFF0FFFFFFF#64) ||| flags (m.sys .esrEl1 >>> 26) 0x15#64 := by
  rw [atCall, calling_pstate, save_pstate, save_sys]

theorem atCall_link (m : Machine) : (atCall m).x 30 = m.pc + 124#64 := by
  rw [atCall, calling_link, save_pc]
  bv_omega

theorem head_ne (m : Machine) :
    (run m el0SyncEntry.head).ne = (m.sys .esrEl1 >>> 26 != 0x15#64) := by
  rw [el0SyncEntry.head, run_append]
  change (exec (run (run m saveContext) [.mrs 10 .esrEl1, .lsr 11 10 26]) (.cmp 11 0x15)).ne = _
  rw [exec_cmp_ne, ← save_sys m]
  rfl

theorem el0SyncEntry_svc {m : Machine} (h : m.sys .esrEl1 >>> 26 = 0x15#64)
    (syscallDispatcher : Machine → Machine) :
    el0SyncEntry syscallDispatcher m =
      run (syscallDispatcher (atCall m)) restoreAndEret := by
  have taken : (run m el0SyncEntry.head).ne = false := by simp [head_ne, h]
  unfold el0SyncEntry
  rw [if_neg (by simp [taken]), el0SyncEntry.head, run_append]
  rfl

theorem svcSyndrome_class (imm : BitVec 16) : svcSyndrome imm >>> 26 = 0x15#64 := by
  have low : imm.setWidth 64 >>> 26 = 0#64 := by
    apply BitVec.eq_of_toNat_eq
    rw [BitVec.toNat_ushiftRight, Nat.shiftRight_eq_div_pow]
    have hlt := imm.isLt
    simp
    omega
  rw [svcSyndrome, BitVec.ushiftRight_or_distrib, low]
  rfl

/-- The system call interface, for a program `u` and the machine `m` at its `svc`. -/
structure SyscallAbi (syscallDispatcher : Machine → Machine) (u m : Machine) : Prop where
  args : ∀ k : Reg, k.val < 7 → (atCall m).x k = u.x k
  number : (atCall m).x 7 = u.x 8
  result : (el0SyncEntry syscallDispatcher m).x 0 =
    (syscallDispatcher (atCall m)).x 0
  others : ∀ k, k ≠ 0 → (el0SyncEntry syscallDispatcher m).x k = u.x k
  spEl0 : (el0SyncEntry syscallDispatcher m).sys .spEl0 = u.sys .spEl0
  pc : (el0SyncEntry syscallDispatcher m).pc = u.pc
  pstate : (el0SyncEntry syscallDispatcher m).pstate = u.pstate

private theorem el0SyncEntry_restores {syscallDispatcher : Machine → Machine} {m : Machine}
    (svc : m.sys .esrEl1 >>> 26 = 0x15#64)
    (convention : Respects 280 (atCall m) (syscallDispatcher (atCall m))) :
    context (el0SyncEntry syscallDispatcher m) = context m ∧
    (el0SyncEntry syscallDispatcher m).pc = m.sys .elrEl1 ∧
    (el0SyncEntry syscallDispatcher m).pstate = m.sys .spsrEl1 := by
  have frame := Context.read_congr convention.frame
  rw [read_atCall] at frame
  rw [el0SyncEntry_svc svc, restore_context, restore_pc, restore_pstate, convention.sp, frame]
  exact ⟨rfl, rfl, rfl⟩

/-- SAVE_CONTEXT spoils the first argument, and the restore the result. -/
theorem syscall_abi_iff (syscallDispatcher : Machine → Machine) (u m : Machine) (entry : Word)
    (imm : BitVec 16) (svc : m = takeSync u entry (svcSyndrome imm))
    (convention : Respects 280 (atCall m) (syscallDispatcher (atCall m))) :
    SyscallAbi syscallDispatcher u m ↔
      u.x 0 = u.sys .ttbr0El1 ∧ (syscallDispatcher (atCall m)).x 0 = u.x 0 := by
  have saved := context_takeSync u entry (svcSyndrome imm)
  rw [← svc] at saved
  have hclass : m.sys .esrEl1 >>> 26 = 0x15#64 := by
    rw [svc]
    exact svcSyndrome_class imm
  have hx : m.x = u.x := congrArg Context.x saved
  have restored := el0SyncEntry_restores hclass convention
  rw [saved] at restored
  have hregs : (el0SyncEntry syscallDispatcher m).x = u.x := congrArg Context.x restored.1
  have hfirst : (atCall m).x 0 = u.sys .ttbr0El1 := by
    rw [atCall_x_zero]
    exact congrArg Context.ttbr0El1 saved
  constructor
  · intro h
    constructor
    · rw [← h.args 0 (by decide), hfirst]
    · rw [← h.result, hregs]
  · intro h
    exact {
      args := by
        intro k hk
        by_cases hzero : k = 0
        · rw [hzero, hfirst, h.1]
        · rw [atCall_x hk hzero, hx]
      number := by rw [atCall_number, hx]
      result := by rw [hregs, h.2]
      others := fun k _ => by rw [hregs]
      spEl0 := congrArg Context.spEl0 restored.1
      pc := by
        rw [restored.2.1]
        exact congrArg Context.elrEl1 saved
      pstate := by
        rw [restored.2.2]
        exact congrArg Context.spsrEl1 saved }

def program (fd ttbr0 : Word) : Machine where
  x k := if k = 0 then fd else if k = 2 then 512 else if k = 8 then 64 else 0
  sp := 0x80090FF0#64
  sys
    | .spEl0 => 0xC0010000#64
    | .ttbr0El1 => ttbr0
    | _ => 0
  pc := 0x80001F40#64
  pstate := 0
  mem _ := 0

def returnAtOnce (m : Machine) : Machine := { m with pc := m.x 30 }

theorem returnAtOnce_x (m : Machine) : (returnAtOnce m).x = m.x := rfl

theorem returnAtOnce_respects (n : Nat) (m : Machine) : Respects n m (returnAtOnce m) where
  returns := rfl
  sp := rfl
  saved _ _ _ := rfl
  frame _ _ := rfl

theorem syscall_abi_table_argument :
    SyscallAbi returnAtOnce (program 0x80070000 0x80070000)
      (takeSync (program 0x80070000 0x80070000) 0x80002400 (svcSyndrome 0)) :=
  (syscall_abi_iff returnAtOnce _ _ _ 0 rfl (returnAtOnce_respects 280 _)).mpr
    ⟨rfl, by rw [returnAtOnce_x, atCall_x_zero]; rfl⟩

theorem syscall_abi_not_first_argument :
    ¬ ∀ (syscallDispatcher : Machine → Machine) (u m : Machine) (entry : Word)
      (imm : BitVec 16), m = takeSync u entry (svcSyndrome imm) →
      Respects 280 (atCall m) (syscallDispatcher (atCall m)) →
      SyscallAbi syscallDispatcher u m := by
  intro h
  have abi := h returnAtOnce (program 1 0x80070000) _ 0x80002400 0 rfl
    (returnAtOnce_respects 280 _)
  have spoiled := (atCall_x_zero _).symm.trans (abi.args 0 (by decide))
  exact absurd spoiled (by decide)

inductive Fault where
  | sync (esr : Word) (notSvc : exceptionClass esr ≠ 0x15#64)
  | fiq
  | sError (esr : Word)

def Fault.isSync : Fault → Bool
  | .sync _ _ => true
  | _ => false

/-- The machine back at EL0 after an exception, through the entry of its vector. -/
def Fault.take (syscallDispatcher : Machine → Machine) (entry : Word) (u : Machine) :
    Fault → Machine
  | .sync esr _ => el0SyncEntry syscallDispatcher (takeSync u entry esr)
  | .fiq => run (takeException u entry) defaultEntry
  | .sError esr => run (takeSync u entry esr) defaultEntry

/-- What a program has come to when a fault meets it. -/
structure Faulting where
  fault : Fault
  user : User

structure Visit where
  before : Machine
  after : Machine

def Visit.next (syscallDispatcher : Machine → Machine) (entry : Word) (v : Visit)
    (e : Faulting) : Visit :=
  let u := e.user.on v.after
  ⟨u, e.fault.take syscallDispatcher entry u⟩

structure Visit.Transparent (v : Visit) : Prop where
  x : v.after.x = v.before.x
  spEl0 : v.after.sys .spEl0 = v.before.sys .spEl0
  pc : v.after.pc = v.before.pc
  pstate : v.after.pstate = v.before.pstate
  sp : v.after.sp = v.before.sp

theorem shift_ne_of_class {esr : Word} (h : exceptionClass esr ≠ 0x15#64) :
    esr >>> 26 ≠ 0x15#64 := by
  intro heq
  apply h
  rw [exceptionClass, heq]
  rfl

theorem el0SyncEntry_fault_sp {m : Machine} (h : m.sys .esrEl1 >>> 26 ≠ 0x15#64)
    (syscallDispatcher : Machine → Machine) :
    (el0SyncEntry syscallDispatcher m).sp = m.sp - 272#64 := by
  have taken : (run m el0SyncEntry.head).ne = true := by simp [head_ne, h]
  unfold el0SyncEntry
  rw [if_pos taken, ← save_sp m, el0SyncEntry.head, run_append]
  generalize run m saveContext = s
  rfl

theorem take_transparent {syscallDispatcher : Machine → Machine} {entry : Word} {u : Machine}
    {fault : Fault} (h : fault.isSync = false) :
    Visit.Transparent ⟨u, fault.take syscallDispatcher entry u⟩ := by
  cases fault with
  | sync esr notSvc => cases h
  | fiq => exact ⟨rfl, rfl, rfl, rfl, rfl⟩
  | sError esr => exact ⟨rfl, rfl, rfl, rfl, rfl⟩

theorem take_sync_not_transparent {syscallDispatcher : Machine → Machine} {entry : Word}
    {u : Machine} {fault : Fault} (h : fault.isSync = true) :
    ¬ Visit.Transparent ⟨u, fault.take syscallDispatcher entry u⟩ := by
  cases fault with
  | fiq => cases h
  | sError esr => cases h
  | sync esr notSvc =>
    intro transparent
    have moved : u.sp - 272#64 = u.sp :=
      (el0SyncEntry_fault_sp (m := takeSync u entry esr) (shift_ne_of_class notSvc)
        syscallDispatcher).symm.trans transparent.sp
    bv_omega

/-- Every return is transparent in exactly the runs without a synchronous fault. -/
theorem faults_transparent_iff (syscallDispatcher : Machine → Machine) (entry : Word)
    (m : Machine) (es : List Faulting) :
    Run.Always (Visit.next syscallDispatcher entry) Visit.Transparent ⟨m, m⟩ es ↔
      ∀ e ∈ es, e.fault.isSync = false := by
  have plain : Run.Guarded (Visit.next syscallDispatcher entry)
      (fun _ e => e.fault.isSync = false) ⟨m, m⟩ es ↔ ∀ e ∈ es, e.fault.isSync = false :=
    Run.guarded_iff_forall _ es
  rw [← plain]
  have allowed : Run.Guarded (Visit.next syscallDispatcher entry) (fun _ _ => True) ⟨m, m⟩ es :=
    (Run.guarded_iff_forall _ es).mpr fun _ _ => trivial
  have keep : ∀ (v : Visit) (e : Faulting), v.Transparent → True → e.fault.isSync = false →
      (v.next syscallDispatcher entry e).Transparent :=
    fun v e _ _ h => take_transparent h
  have fails : ∀ (v : Visit) (e : Faulting), v.Transparent → True →
      ¬ e.fault.isSync = false → ¬ (v.next syscallDispatcher entry e).Transparent :=
    fun v e _ _ h => take_sync_not_transparent (Bool.eq_true_of_not_eq_false h)
  exact Run.always_iff_guarded (fun _ h => h) keep fails ⟨rfl, rfl, rfl, rfl, rfl⟩ allowed

def dataAbort : Faulting where
  fault := .sync 0x92000006#64 (by decide)
  user := ⟨fun _ => 0, 0xC0010000#64, 0x80001F40#64, 0, fun _ => 0⟩

theorem faults_not_transparent_data_abort :
    ¬ ∀ (syscallDispatcher : Machine → Machine) (entry : Word) (m : Machine)
      (es : List Faulting),
      Run.Always (Visit.next syscallDispatcher entry) Visit.Transparent ⟨m, m⟩ es := by
  intro h
  have always := h returnAtOnce 0x80002400 (program 1 0x80070000) [dataAbort]
  have sync : dataAbort.fault.isSync = true := rfl
  exact take_sync_not_transparent sync always.last

end KernelFuzzing.Vectors
