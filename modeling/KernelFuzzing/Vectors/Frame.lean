import Mathlib.Tactic.FinCases
import KernelFuzzing.Vectors.Text

/-! What SAVE_CONTEXT writes, and what RESTORE_AND_ERET makes of it. -/
namespace KernelFuzzing.Vectors
open Foundation AArch64 Memory

/-- `Context` of core/scheduler/context.h. -/
@[ext] structure Context where
  x : Reg → Word
  spEl0 : Word
  elrEl1 : Word
  spsrEl1 : Word
  ttbr0El1 : Word

def Context.words (c : Context) : List Word :=
  List.ofFn c.x ++ [c.spEl0, c.elrEl1, c.spsrEl1, c.ttbr0El1]

def Context.read (mem : Memory) (base : Word) : Context where
  x k := load64 mem (base + BitVec.ofNat 64 (8 * k))
  spEl0 := load64 mem (base + BitVec.ofNat 64 ctxSpEl0)
  elrEl1 := load64 mem (base + BitVec.ofNat 64 ctxElr)
  spsrEl1 := load64 mem (base + BitVec.ofNat 64 ctxSpsr)
  ttbr0El1 := load64 mem (base + BitVec.ofNat 64 ctxTtbr0El1)

def context (m : Machine) : Context where
  x := m.x
  spEl0 := m.sys .spEl0
  elrEl1 := m.sys .elrEl1
  spsrEl1 := m.sys .spsrEl1
  ttbr0El1 := m.sys .ttbr0El1

def interruptedContext (u : Machine) : Context :=
  ⟨u.x, u.sys .spEl0, u.pc, u.pstate, u.sys .ttbr0El1⟩

theorem context_takeException (u : Machine) (vector : Word) :
    context (takeException u vector) = interruptedContext u := by
  simp [context, takeException, interruptedContext]

theorem context_takeSync (u : Machine) (vector esr : Word) :
    context (takeSync u vector esr) = interruptedContext u := by
  simp [context, takeSync, takeException, interruptedContext]

@[simp] theorem Context.length_words (c : Context) : c.words.length = 35 := by
  simp [Context.words]

theorem Context.words_injective : Function.Injective Context.words := by
  intro c d h
  cases c with
  | mk x spEl0 elrEl1 spsrEl1 ttbr0El1 =>
    have hsplit := List.append_inj h (by simp)
    have hx := List.ofFn_injective hsplit.1
    simp_all

theorem Context.words_read (mem : Memory) (base : Word) :
    (Context.read mem base).words =
      List.ofFn fun i : Fin 35 => load64 mem (base + BitVec.ofNat 64 (8 * i)) := rfl

theorem Context.read_eq_iff {mem : Memory} {base : Word} {c : Context} :
    Context.read mem base = c ↔ ∀ i, ∀ hi : i < c.words.length,
      load64 mem (base + BitVec.ofNat 64 (8 * i)) = c.words[i] := by
  rw [← Context.words_injective.eq_iff, Context.words_read]
  constructor
  · intro h i hi
    rw [← List.getElem_of_eq h (by simpa using hi), List.getElem_ofFn]
  · intro h
    apply List.ext_getElem
    · rw [List.length_ofFn, Context.length_words]
    · intro i hi hi'
      rw [List.getElem_ofFn, h i hi']

theorem Context.read_storeAll (mem : Memory) (base : Word) (c : Context) :
    Context.read (storeAll mem (wordsAt base c.words)) base = c :=
  Context.read_eq_iff.mpr fun _ hi => load64_storeAll_wordsAt mem base (by simp) hi

theorem Context.read_congr {mem mem' : Memory} {base : Word}
    (h : ∀ x, Within base 280 x → mem x = mem' x) :
    Context.read mem base = Context.read mem' base := by
  apply Context.words_injective
  rw [Context.words_read, Context.words_read]
  congr 1
  funext i
  apply load64_congr
  intro x hx
  apply h
  have hi := i.isLt
  unfold Within at hx ⊢
  bv_omega

theorem save_mem (m : Machine) : (run m saveContext).mem =
    storeAll m.mem (wordsAt (m.sp - 272#64) (context m).words) := by
  exact rfl

theorem save_sp (m : Machine) : (run m saveContext).sp = m.sp - 272#64 := by
  exact rfl

theorem save_x {k : Reg} (hk : k ≠ 0) (m : Machine) : (run m saveContext).x k = m.x k := by
  have scratch : ∀ i ∈ saveContext, ∀ r ∈ i.writes, r = 0 := by decide
  exact run_keep (·.x k) (fun i hi => exec_x fun hr => hk (scratch i hi k hr)) m

theorem save_x_zero (m : Machine) : (run m saveContext).x 0 = m.sys .ttbr0El1 := by
  exact rfl

theorem save_sys (m : Machine) : (run m saveContext).sys = m.sys := by
  have frame : ∀ i ∈ saveContext, i.writesSys = false := by decide
  exact run_keep (·.sys) (fun i hi => exec_sys (frame i hi)) m

theorem save_pstate (m : Machine) : (run m saveContext).pstate = m.pstate := by
  have frame : ∀ i ∈ saveContext, i.writesPstate = false := by decide
  exact run_keep (·.pstate) (fun i hi => exec_pstate (frame i hi)) m

theorem save_pc (m : Machine) : (run m saveContext).pc = m.pc + 100#64 := by
  have straight : Instr.eret ∉ saveContext := by decide
  exact run_pc straight m

theorem restore_mem (m : Machine) : (run m restoreAndEret).mem = m.mem := by
  have frame : ∀ i ∈ restoreAndEret, i.writesMem = false := by decide
  exact run_keep (·.mem) (fun i hi => exec_mem (frame i hi)) m

theorem restore_sp (m : Machine) : (run m restoreAndEret).sp = m.sp + 272#64 := by
  exact rfl

theorem restore_context (m : Machine) :
    context (run m restoreAndEret) = Context.read m.mem m.sp := by
  unfold context Context.read
  congr 1
  funext k
  fin_cases k <;> rfl

theorem restore_pc (m : Machine) :
    (run m restoreAndEret).pc = (Context.read m.mem m.sp).elrEl1 := by
  exact rfl

theorem restore_pstate (m : Machine) :
    (run m restoreAndEret).pstate = (Context.read m.mem m.sp).spsrEl1 := by
  exact rfl

/-- The machine that `el1_irq_entry` calls `irq_dispatcher` on. -/
def atIrq (m : Machine) : Machine := run m (saveContext ++ [.movFromSp 0])

theorem atIrq_eq (m : Machine) : atIrq m = exec (run m saveContext) (.movFromSp 0) := by
  rw [atIrq, run_append]
  rfl

theorem atIrq_x_zero (m : Machine) : (atIrq m).x 0 = m.sp - 272#64 := by
  rw [atIrq_eq, ← save_sp]
  generalize run m saveContext = s
  rfl

theorem atIrq_sys (m : Machine) : (atIrq m).sys = m.sys := by
  rw [atIrq_eq, exec_sys rfl, save_sys]

theorem atIrq_mem (m : Machine) : (atIrq m).mem = (run m saveContext).mem := by
  rw [atIrq_eq, exec_mem rfl]

theorem el1IrqEntry_eq (irqDispatcher : Machine → Machine) (m : Machine) :
    el1IrqEntry irqDispatcher m = firstUserEnter (call irqDispatcher (atIrq m)) := rfl

theorem firstUserEnter_eq (m : Machine) :
    firstUserEnter m = run (exec m (.movToSp 0)) restoreAndEret := by
  rw [firstUserEnter, run_cons]

theorem firstUserEnter_mem (m : Machine) : (firstUserEnter m).mem = m.mem := by
  rw [firstUserEnter_eq, restore_mem, exec_mem rfl]

theorem firstUserEnter_sp (m : Machine) : (firstUserEnter m).sp = m.x 0 + 272#64 := by
  rw [firstUserEnter_eq, restore_sp]
  rfl

theorem firstUserEnter_context (m : Machine) :
    context (firstUserEnter m) = Context.read m.mem (m.x 0) := by
  rw [firstUserEnter_eq, restore_context]
  rfl

theorem firstUserEnter_pc (m : Machine) :
    (firstUserEnter m).pc = (Context.read m.mem (m.x 0)).elrEl1 := by
  rw [firstUserEnter_eq, restore_pc]
  rfl

theorem firstUserEnter_pstate (m : Machine) :
    (firstUserEnter m).pstate = (Context.read m.mem (m.x 0)).spsrEl1 := by
  rw [firstUserEnter_eq, restore_pstate]
  rfl

/-- The address of the `i`-th word that SAVE_CONTEXT stores. -/
def slot (sp : Word) (i : Nat) : Word := sp - 272#64 + BitVec.ofNat 64 (8 * i)

theorem read_save (m : Machine) :
    Context.read (run m saveContext).mem (run m saveContext).sp = context m := by
  rw [save_mem, save_sp, Context.read_storeAll]

theorem restore_save {m m' : Machine} (hsp : m'.sp = (run m saveContext).sp)
    (hread : Context.read m'.mem m'.sp = context m) :
    context (run m' restoreAndEret) = context m ∧ (run m' restoreAndEret).sp = m.sp := by
  constructor
  · rw [restore_context, hread]
  · rw [restore_sp, hsp, save_sp, BitVec.sub_add_cancel]

/-- The registers and the stack pointer come back, and no byte at or above it changes. -/
def Inverse (m : Machine) : Prop :=
  ∀ m' : Machine, m'.sp = (run m saveContext).sp → m'.mem = (run m saveContext).mem →
    context (run m' restoreAndEret) = context m ∧ (run m' restoreAndEret).sp = m.sp ∧
    ∀ x, m.sp ≤ x → (run m' restoreAndEret).mem x = m.mem x

/-- Each word that SAVE_CONTEXT stores at or above the stack pointer is there already. -/
def Unharmed (m : Machine) : Prop :=
  ∀ i, ∀ hi : i < (context m).words.length,
    m.sp ≤ slot m.sp i → load64 m.mem (slot m.sp i) = (context m).words[i]

private theorem inverse_iff_bytes (m : Machine) :
    Inverse m ↔ ∀ x, m.sp ≤ x → (run m saveContext).mem x = m.mem x := by
  constructor
  · intro h x hx
    rw [← (h (run m saveContext) rfl rfl).2.2 x hx, restore_mem]
  · intro h m' hsp hmem
    have hread : Context.read m'.mem m'.sp = context m := by rw [hmem, hsp, read_save]
    have hregs := restore_save hsp hread
    refine ⟨hregs.1, hregs.2, fun x hx => ?_⟩
    rw [restore_mem, hmem, h x hx]

private theorem le_slot_iff {sp x : Word} {i : Nat} (aligned : sp.toNat % 16 = 0)
    (hx : Within (slot sp i) 8 x) : sp ≤ x ↔ sp ≤ slot sp i := by
  unfold Within slot at *
  rw [BitVec.le_def, BitVec.le_def]
  bv_omega

private theorem inverse_iff_unharmed (m : Machine) (aligned : m.sp.toNat % 16 = 0) :
    Inverse m ↔ Unharmed m := by
  rw [inverse_iff_bytes, save_mem]
  constructor
  · intro h i hi hle
    rw [← load64_storeAll_wordsAt m.mem (m.sp - 272#64) (by simp) hi]
    apply load64_congr
    intro x hx
    exact (h x ((le_slot_iff aligned hx).mpr hle)).symm
  · intro h x hx
    by_cases hframe : Within (m.sp - 272#64) 280 x
    · have hlen : (x - (m.sp - 272#64)).toNat / 8 < 35 := by
        unfold Within at hframe
        omega
      have hin : Within (slot m.sp ((x - (m.sp - 272#64)).toNat / 8)) 8 x := by
        unfold Within slot at *
        bv_omega
      have hi : (x - (m.sp - 272#64)).toNat / 8 < (context m).words.length := by simpa using hlen
      have there := h _ hi ((le_slot_iff aligned hin).mp hx)
      rw [← load64_storeAll_wordsAt m.mem (m.sp - 272#64) (by simp) hi] at there
      exact (load64_eq_iff.mp there x hin).symm
    · exact storeAll_wordsAt_of_not_within (by simp) (by simpa using hframe)

private theorem unharmed_iff (m : Machine) (room : 272 ≤ m.sp.toNat) :
    Unharmed m ↔ load64 m.mem m.sp = m.sys .ttbr0El1 := by
  have top : slot m.sp 34 = m.sp := BitVec.sub_add_cancel m.sp 272#64
  constructor
  · intro h
    have there := h 34 (by simp) (by rw [top]; exact BitVec.le_refl _)
    rw [top] at there
    exact there
  · intro h i hi hle
    have hlen : i < 35 := by simpa using hi
    have last : i = 34 := by
      unfold slot at hle
      rw [BitVec.le_def] at hle
      bv_omega
    subst last
    rw [top]
    exact h

/-- A restore undoes a save exactly when the words above the frame survive it. -/
theorem save_restore_inverse_iff (m : Machine) (aligned : m.sp.toNat % 16 = 0) :
    (Inverse m ↔ Unharmed m) ∧
    (272 ≤ m.sp.toNat → (Inverse m ↔ load64 m.mem m.sp = m.sys .ttbr0El1)) := by
  have hinverse := inverse_iff_unharmed m aligned
  exact ⟨hinverse, fun room => hinverse.trans (unharmed_iff m room)⟩

def interrupted (ttbr0 : Word) : Machine where
  x _ := 0
  sp := 0x80001000#64
  sys
    | .ttbr0El1 => ttbr0
    | .elrEl1 => 0x80000000#64
    | .spsrEl1 => 0x305#64
    | _ => 0
  pc := 0x80002280#64
  pstate := maskedEl1
  mem _ := 0

theorem save_restore_inverse_zero_table : Inverse (interrupted 0) :=
  ((save_restore_inverse_iff (interrupted 0) (by decide)).2 (by decide)).mpr (by decide)

theorem save_restore_not_inverse : ¬ ∀ m : Machine, m.sp.toNat % 16 = 0 → Inverse m := by
  intro h
  have inverse := h (interrupted 0x80070000#64) (by decide)
  have unharmed := (unharmed_iff _ (by decide)).mp ((inverse_iff_unharmed _ (by decide)).mp inverse)
  exact absurd unharmed (by decide)

end KernelFuzzing.Vectors
