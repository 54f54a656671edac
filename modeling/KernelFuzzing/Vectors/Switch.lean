import KernelFuzzing.Foundation.Run
import KernelFuzzing.Mmu.PageTable
import KernelFuzzing.Scheduler.Confined
import KernelFuzzing.Vectors.Frame

/-! Timer interrupts of programs: each saves a context on the kernel stack of the current
task, and the return takes the context of the task that is current then. -/
namespace KernelFuzzing.Vectors
open Foundation AArch64 Memory Scheduler

/-- What `init_task` gives a task: a kernel stack of `sz` bytes, the entry point and the
top of the user stack as the program sees them, and a translation table. -/
structure TaskPlan where
  kstack : Word
  sz : Word
  entry : Word
  ustack : Word
  table : Word

def sizeofContext : Word := 288#64

/-- The address of the context that `init_task` builds. -/
def TaskPlan.ctx (p : TaskPlan) : Word := p.kstack + p.sz - sizeofContext

def spsrEl0tDefault : Word := 0b0000#64 ||| (0#64 <<< 6)

def buildInitialContext (mem : Memory) (ctx entry userStack : Word) : Memory :=
  let mem := store64 mem (ctx + BitVec.ofNat 64 ctxSpEl0) userStack
  let mem := store64 mem (ctx + BitVec.ofNat 64 ctxElr) entry
  store64 mem (ctx + BitVec.ofNat 64 ctxSpsr) spsrEl0tDefault

/-- The scheduler and the machine; `captured` records, for each task, the context of its
last interruption. -/
structure Kernel (ι : Type*) where
  sched : Sched ι Word
  machine : Machine
  captured : ι → Context

variable {ι : Type*} [DecidableEq ι]

def initTask (k : Kernel ι) (t : ι) (p : TaskPlan) : Kernel ι :=
  let mem := buildInitialContext k.machine.mem p.ctx p.entry p.ustack
  let mem := store64 mem (p.ctx + BitVec.ofNat 64 ctxTtbr0El1) p.table
  { k with
    sched := schedReadyEnqueue (k.sched.modify t ({ · with context := p.ctx })) t
    machine := { k.machine with mem } }

def TaskPlan.initial (p : TaskPlan) (c : Context) : Context :=
  { c with spEl0 := p.ustack, elrEl1 := p.entry, spsrEl1 := spsrEl0tDefault, ttbr0El1 := p.table }

/-- The kernel before any task: the static pointers are null. -/
def idle (plan : ι → TaskPlan) (task : ι → Task ι Word) (m : Machine) : Kernel ι where
  sched := ⟨task, none, none, none⟩
  machine := m
  captured t := (plan t).initial (Context.read m.mem (plan t).ctx)

/-- The end of `kmain`: the tasks are built, one is set current and entered. -/
def start (plan : ι → TaskPlan) (k : Kernel ι) (tasks : List ι) (first : ι) : Kernel ι :=
  let k := tasks.foldl (fun k t => initTask k t (plan t)) k
  let sched := schedSetCurrent k.sched first
  { k with sched, machine := firstUserEnter (k.machine.set 0 (sched.task first).context) }

def checkCurrentEl (spsr : Word) : Bool := (spsr >>> 2) &&& 0b11#64 == 0x1#64

/-- The context to return to and the scheduler after the interrupt `iar` of the GIC. -/
def irqDispatcher (s : Sched ι Word) (iar : BitVec 32) (spsr context : Word) :
    Word × Sched ι Word :=
  let id := iar &&& 0x3FF#32
  if id = 27#32 then
    if !checkCurrentEl spsr then scheduleOnTick s context else (context, s)
  else (context, s)

/-- `el1_irq_entry` on the scheduler and the machine that the interrupt finds, where the C
code leaves the memory and the other registers of `left`. -/
def takeIrq (entry : Word) (s : Sched ι Word) (iar : BitVec 32) (left m : Machine) :
    Sched ι Word × Machine :=
  let m := takeException m entry
  let result := irqDispatcher s iar ((atIrq m).sys .spsrEl1) ((atIrq m).x 0)
  let handler (c : Machine) : Machine :=
    { left.set 0 result.1 with sp := c.sp, pc := c.x 30 }
  (result.2, el1IrqEntry handler m)

/-- An interrupt: the program it meets, what the GIC says, and what the C code leaves. -/
structure Irq where
  user : User
  iar : BitVec 32
  left : Machine

def Kernel.interrupt (entry : Word) (k : Kernel ι) (e : Irq) : Kernel ι :=
  let u := e.user.on k.machine
  let after := takeIrq entry k.sched e.iar e.left u
  { sched := after.1
    machine := after.2
    captured := match k.sched.current with
      | some c => Function.update k.captured c (context (takeException u entry))
      | none => k.captured }

/-- The C code keeps to the current kernel stack, below the saved context. -/
def KeepsBelow (plan : ι → TaskPlan) (tasks : List ι) (entry : Word) (k : Kernel ι)
    (e : Irq) : Prop :=
  ∀ t ∈ tasks, ∀ a, Within (plan t).kstack (plan t).sz.toNat a →
    ¬ (k.sched.current = some t ∧ Within (plan t).kstack ((plan t).sz.toNat - 288) a) →
    e.left.mem a = (atIrq (takeException (e.user.on k.machine) entry)).mem a

/-- The program changes no byte of a waiting task's saved context. -/
def SparesContexts (plan : ι → TaskPlan) (tasks : List ι) (k : Kernel ι) (e : Irq) : Prop :=
  ∀ t ∈ tasks, k.sched.current ≠ some t → ∀ a, Within (plan t).ctx 280 a →
    e.user.mem a = k.machine.mem a

/-- The kernel stacks have room for a context and do not meet. -/
structure Layout (plan : ι → TaskPlan) (tasks : List ι) : Prop where
  room : ∀ t ∈ tasks, 288 ≤ (plan t).sz.toNat
  disjoint : ∀ t ∈ tasks, ∀ u ∈ tasks, t ≠ u →
    Apart (plan t).kstack (plan t).sz.toNat (plan u).kstack (plan u).sz.toNat

/-- Back at EL0, the current task has its own table and the context of its last
interruption, and the next frame goes where the task's first context was. -/
structure Isolated (plan : ι → TaskPlan) (tasks : List ι) (k : Kernel ι) (c : ι) : Prop where
  mem : c ∈ tasks
  current : k.sched.current = some c
  table : k.machine.sys .ttbr0El1 = (plan c).table
  regs : context k.machine = k.captured c
  pc : k.machine.pc = (k.captured c).elrEl1
  pstate : k.machine.pstate = (k.captured c).spsrEl1
  sp : k.machine.sp = (plan c).ctx + 272#64
  contexts : ∀ t ∈ tasks, (k.sched.task t).context = (plan t).ctx

section
variable {p q : TaskPlan}

theorem within_stack {x : Word} (room : 288 ≤ p.sz.toNat) (h : Within p.ctx 280 x) :
    Within p.kstack p.sz.toNat x ∧ ¬ Within p.kstack (p.sz.toNat - 288) x := by
  unfold Within TaskPlan.ctx sizeofContext at *
  constructor <;> bv_omega

theorem initTask_mem (k : Kernel ι) (t : ι) (p : TaskPlan) :
    (initTask k t p).machine.mem = storeAll k.machine.mem
      (wordsAt (p.ctx + 248#64) [p.ustack, p.entry, spsrEl0tDefault, p.table]) := by
  simp [initTask, buildInitialContext, wordsAt, BitVec.add_assoc, ctxSpEl0, ctxElr, ctxSpsr,
    ctxTtbr0El1]

theorem initTask_mem_of_not_within (k : Kernel ι) (t : ι) {x : Word}
    (h : ¬ Within p.ctx 280 x) : (initTask k t p).machine.mem x = k.machine.mem x := by
  rw [initTask_mem]
  apply storeAll_wordsAt_of_not_within (by simp)
  intro hx
  apply h
  unfold Within at hx ⊢
  dsimp only [List.length_cons, List.length_nil] at hx
  bv_omega

theorem read_initTask (k : Kernel ι) (t : ι) (p : TaskPlan) :
    Context.read (initTask k t p).machine.mem p.ctx =
      p.initial (Context.read k.machine.mem p.ctx) := by
  rw [initTask_mem]
  have slot (i : Nat) (hi : i < [p.ustack, p.entry, spsrEl0tDefault, p.table].length) :
      load64 (storeAll k.machine.mem
        (wordsAt (p.ctx + 248#64) [p.ustack, p.entry, spsrEl0tDefault, p.table]))
        (p.ctx + BitVec.ofNat 64 (248 + 8 * i)) =
        [p.ustack, p.entry, spsrEl0tDefault, p.table][i] := by
    rw [BitVec.ofNat_add, ← BitVec.add_assoc]
    exact load64_storeAll_wordsAt k.machine.mem _ (by simp) hi
  apply Context.ext
  · funext r
    apply load64_congr
    intro x hx
    apply storeAll_wordsAt_of_not_within (by simp)
    intro hwords
    unfold Within at hx hwords
    dsimp only [List.length_cons, List.length_nil] at hwords
    bv_omega
  · exact slot 0 (by simp)
  · exact slot 1 (by simp)
  · exact slot 2 (by simp)
  · exact slot 3 (by simp)

end

section
variable {plan : ι → TaskPlan} {tasks : List ι} {k : Kernel ι} {c d t : ι} {entry : Word}

/-- The current task is at EL0, and every other task has its context in its frame. -/
structure Serving (plan : ι → TaskPlan) (tasks : List ι) (k : Kernel ι) (c : ι) : Prop where
  confined : Confined k.sched tasks c
  contexts : ∀ t ∈ tasks, (k.sched.task t).context = (plan t).ctx
  regs : context k.machine = k.captured c
  pc : k.machine.pc = (k.captured c).elrEl1
  pstate : k.machine.pstate = (k.captured c).spsrEl1
  sp : k.machine.sp = (plan c).ctx + 272#64
  saved : ∀ t ∈ tasks, t ≠ c → Context.read k.machine.mem (plan t).ctx = k.captured t
  tables : ∀ t ∈ tasks, (k.captured t).ttbr0El1 = (plan t).table

omit [DecidableEq ι] in
theorem Serving.isolated (h : Serving plan tasks k c) : Isolated plan tasks k c where
  mem := h.confined.mem
  current := h.confined.current
  table := (congrArg Context.ttbr0El1 h.regs).trans (h.tables c h.confined.mem)
  regs := h.regs
  pc := h.pc
  pstate := h.pstate
  sp := h.sp
  contexts := h.contexts

omit [DecidableEq ι] in
theorem serving_enter {sched : Sched ι Word} {m : Machine} {captured : ι → Context}
    (confined : Confined sched tasks c)
    (contexts : ∀ t ∈ tasks, (sched.task t).context = (plan t).ctx)
    (hx : m.x 0 = (plan c).ctx)
    (saved : ∀ t ∈ tasks, Context.read m.mem (plan t).ctx = captured t)
    (tables : ∀ t ∈ tasks, (captured t).ttbr0El1 = (plan t).table) :
    Serving plan tasks ⟨sched, firstUserEnter m, captured⟩ c := by
  have hread := saved c confined.mem
  exact {
    confined
    contexts
    regs := by rw [firstUserEnter_context, hx, hread]
    pc := by rw [firstUserEnter_pc, hx, hread]
    pstate := by rw [firstUserEnter_pstate, hx, hread]
    sp := by rw [firstUserEnter_sp, hx]
    saved := fun t ht _ => by rw [firstUserEnter_mem, saved t ht]
    tables }

structure Built (plan : ι → TaskPlan) (tasks : List ι) (mem : Memory) (k : Kernel ι)
    (done : List ι) : Prop where
  closed : Closed k.sched done
  known : ∀ t ∈ done, t ∈ tasks
  contexts : ∀ t ∈ done, (k.sched.task t).context = (plan t).ctx
  built : ∀ t ∈ done, Context.read k.machine.mem (plan t).ctx =
    (plan t).initial (Context.read mem (plan t).ctx)
  fresh : ∀ t ∈ tasks, t ∉ done →
    Context.read k.machine.mem (plan t).ctx = Context.read mem (plan t).ctx

theorem read_initTask_of_ne (layout : Layout plan tasks) (k : Kernel ι) (ht : t ∈ tasks)
    {u : ι} (hu : u ∈ tasks) (hne : u ≠ t) :
    Context.read (initTask k t (plan t)).machine.mem (plan u).ctx =
      Context.read k.machine.mem (plan u).ctx := by
  apply Context.read_congr
  intro x hx
  apply initTask_mem_of_not_within
  intro hxt
  exact layout.disjoint u hu t ht hne x (within_stack (layout.room u hu) hx).1
    (within_stack (layout.room t ht) hxt).1

theorem initTask_context (k : Kernel ι) (t u : ι) (p : TaskPlan) :
    ((initTask k t p).sched.task u).context =
      if u = t then p.ctx else (k.sched.task u).context := by
  split
  · rename_i heq
    rw [heq]
    have hfields := enqueue_fields (k.sched.modify t ({ · with context := p.ctx })) t
    rw [modify_task_self] at hfields
    exact congrArg (fun f => f.2.1) hfields
  · rename_i hne
    have hfields := enqueue_fields_of_ne (k.sched.modify t ({ · with context := p.ctx })) hne
    rw [modify_fields_of_ne _ _ hne] at hfields
    exact congrArg (fun f => f.2.1) hfields

theorem Built.build (layout : Layout plan tasks) {mem : Memory} {done : List ι}
    (h : Built plan tasks mem k done) (ht : t ∈ tasks) :
    Built plan tasks mem (initTask k t (plan t)) (done ++ [t]) where
  closed := by
    have hmodify : Closed (k.sched.modify t ({ · with context := (plan t).ctx })) done :=
      h.closed.congr rfl rfl (modify_next _ t)
    exact hmodify.enqueue t
  known u hu := by
    cases List.mem_append.mp hu with
    | inl hold => exact h.known u hold
    | inr hnew => exact List.mem_singleton.mp hnew ▸ ht
  contexts u hu := by
    rw [initTask_context]
    split
    · rename_i heq
      rw [heq]
    · rename_i hne
      exact h.contexts u (by simpa [hne] using hu)
  built u hu := by
    by_cases heq : u = t
    · rw [heq, read_initTask]
      by_cases hold : t ∈ done
      · rw [h.built t hold]
        rfl
      · rw [h.fresh t ht hold]
    · have hold : u ∈ done := by simpa [heq] using hu
      rw [read_initTask_of_ne layout k ht (h.known u hold) heq, h.built u hold]
  fresh u hu hnot := by
    have hne : u ≠ t := fun heq => hnot (by simp [heq])
    rw [read_initTask_of_ne layout k ht hu hne]
    exact h.fresh u hu fun hold => hnot (List.mem_append_left _ hold)

theorem Built.buildAll (layout : Layout plan tasks) {mem : Memory} {done ts : List ι}
    (h : Built plan tasks mem k done) (hts : ∀ t ∈ ts, t ∈ tasks) :
    Built plan tasks mem (ts.foldl (fun k t => initTask k t (plan t)) k) (done ++ ts) := by
  induction ts generalizing k done with
  | nil => simpa using h
  | cons t ts ih =>
    have hnext := h.build layout (hts t List.mem_cons_self)
    have hrest := ih hnext fun u hu => hts u (List.mem_cons_of_mem t hu)
    rw [List.append_assoc] at hrest
    exact hrest

theorem serving_start (layout : Layout plan tasks) (task : ι → Task ι Word) (m : Machine)
    {first : ι} (hfirst : first ∈ tasks) :
    Serving plan tasks (start plan (idle plan task m) tasks first) first := by
  have hidle : Built plan tasks m.mem (idle plan task m) [] := {
    closed := ⟨nofun, nofun, nofun⟩
    known := nofun
    contexts := nofun
    built := nofun
    fresh := fun _ _ _ => rfl }
  have hbuilt := hidle.buildAll layout fun _ ht => ht
  rw [List.nil_append] at hbuilt
  have hcaptured (ts : List ι) (k : Kernel ι) :
      (ts.foldl (fun k t => initTask k t (plan t)) k).captured = k.captured := by
    induction ts generalizing k with
    | nil => rfl
    | cons t ts ih => exact ih _
  have hall := hcaptured tasks (idle plan task m)
  unfold start
  generalize tasks.foldl (fun k t => initTask k t (plan t)) (idle plan task m) = k at hbuilt hall
  have hset (t : ι) : ((schedSetCurrent k.sched first).task t).context =
      (k.sched.task t).context := by
    have hfields := setCurrent_fields k.sched first t
    split at hfields <;> exact congrArg (fun f => f.2.1) hfields
  have hcontexts (t : ι) (ht : t ∈ tasks) :
      ((schedSetCurrent k.sched first).task t).context = (plan t).ctx :=
    (hset t).trans (hbuilt.contexts t ht)
  refine serving_enter ?_ hcontexts ?_ (fun t ht => ?_) fun t ht => ?_
  · exact {
      closed := hbuilt.closed.congr rfl rfl (setCurrent_next _ first)
      current := rfl
      mem := hfirst
      phase := .inl (setCurrent_running _ first) }
  · exact hcontexts first hfirst
  · rw [hall]
    exact hbuilt.built t ht
  · rw [hall]
    rfl

private theorem irq_arguments (entry : Word) (m : Machine) :
    (atIrq (takeException m entry)).sys .spsrEl1 = m.pstate ∧
    (atIrq (takeException m entry)).x 0 = m.sp - 272#64 := by
  constructor
  · rw [atIrq_sys]
    exact congrArg Context.spsrEl1 (context_takeException m entry)
  · exact atIrq_x_zero _

theorem takeIrq_sched (entry : Word) (s : Sched ι Word) (iar : BitVec 32) (left m : Machine) :
    (takeIrq entry s iar left m).1 = (irqDispatcher s iar m.pstate (m.sp - 272#64)).2 := by
  have hargs := irq_arguments entry m
  rw [← hargs.1, ← hargs.2]
  rfl

theorem takeIrq_enters (entry : Word) (s : Sched ι Word) (iar : BitVec 32) (left m : Machine) :
    ∃ called, (takeIrq entry s iar left m).2 = firstUserEnter called ∧
      called.mem = left.mem ∧
      called.x 0 = (irqDispatcher s iar m.pstate (m.sp - 272#64)).1 := by
  have hargs := irq_arguments entry m
  rw [← hargs.1, ← hargs.2]
  exact ⟨_, el1IrqEntry_eq _ _, rfl, rfl⟩

theorem irqDispatcher_ticked (h : Confined k.sched tasks c) (iar : BitVec 32) (spsr : Word) :
    ∃ d, Ticked k.sched tasks (irqDispatcher k.sched iar spsr (k.sched.task c).context) d := by
  have kept : Ticked k.sched tasks ((k.sched.task c).context, k.sched) c := ⟨h, rfl, fun _ => rfl⟩
  unfold irqDispatcher
  dsimp only
  split
  · split
    · exact h.tick
    · exact ⟨c, kept⟩
  · exact ⟨c, kept⟩

theorem Serving.frames (layout : Layout plan tasks) (h : Serving plan tasks k c) {e : Irq}
    (keeps : KeepsBelow plan tasks entry k e) (spares : SparesContexts plan tasks k e)
    (ht : t ∈ tasks) :
    Context.read e.left.mem (plan t).ctx = Function.update k.captured c
      (context (takeException (e.user.on k.machine) entry)) t := by
  have hroom := layout.room t ht
  have hbase : (takeException (e.user.on k.machine) entry).sp - 272#64 = (plan c).ctx := by
    change k.machine.sp - 272#64 = _
    rw [h.sp, BitVec.add_sub_cancel]
  have hleft : Context.read e.left.mem (plan t).ctx = Context.read
      (atIrq (takeException (e.user.on k.machine) entry)).mem (plan t).ctx := by
    apply Context.read_congr
    intro x hx
    have hin := within_stack hroom hx
    exact keeps t ht x hin.1 fun hbelow => hin.2 hbelow.2
  rw [hleft, atIrq_mem]
  by_cases heq : t = c
  · rw [heq, Function.update_self, ← hbase, ← save_sp, read_save]
  · rw [Function.update_of_ne heq, ← h.saved t ht heq]
    apply Context.read_congr
    intro x hx
    have hin := within_stack hroom hx
    rw [save_mem, storeAll_wordsAt_of_not_within (by simp)]
    · have hwaits : k.sched.current ≠ some t := fun hcurrent =>
        heq (Option.some.inj (hcurrent.symm.trans h.confined.current))
      exact spares t ht hwaits x hx
    · intro hframe
      rw [hbase, Context.length_words] at hframe
      exact layout.disjoint t ht c h.confined.mem heq x hin.1
        (within_stack (layout.room c h.confined.mem) hframe).1

theorem Serving.interrupt (layout : Layout plan tasks) (h : Serving plan tasks k c) {e : Irq}
    (keeps : KeepsBelow plan tasks entry k e) (spares : SparesContexts plan tasks k e) :
    ∃ d, Serving plan tasks (k.interrupt entry e) d := by
  have hframes {t : ι} (ht : t ∈ tasks) := h.frames layout keeps spares ht
  have hpointer : k.machine.sp - 272#64 = (k.sched.task c).context := by
    rw [h.contexts c h.confined.mem, h.sp, BitVec.add_sub_cancel]
  have hsp : (e.user.on k.machine).sp = k.machine.sp := rfl
  obtain ⟨d, hticked⟩ := irqDispatcher_ticked h.confined e.iar (e.user.on k.machine).pstate
  obtain ⟨called, henters, hmem, hx⟩ :=
    takeIrq_enters entry k.sched e.iar e.left (e.user.on k.machine)
  rw [hsp, hpointer] at hx
  unfold Kernel.interrupt
  dsimp only
  rw [henters, takeIrq_sched, hsp, hpointer, h.confined.current]
  refine ⟨d, serving_enter hticked.confined (fun t ht => ?_) ?_ (fun t ht => ?_)
    fun t ht => ?_⟩
  · rw [hticked.contexts, h.contexts t ht]
  · rw [hx, hticked.returned, h.contexts d hticked.confined.mem]
  · rw [hmem]
    exact hframes ht
  · dsimp only
    by_cases heq : t = c
    · rw [heq, Function.update_self, context_takeException]
      exact (congrArg Context.ttbr0El1 h.regs).trans (h.tables c h.confined.mem)
    · rw [Function.update_of_ne heq, h.tables t ht]

end

/-- Contexts and address spaces do not mix as long as no program changes the saved context
of another task. -/
theorem tasks_isolated (plan : ι → TaskPlan) (tasks : List ι) (layout : Layout plan tasks)
    (task : ι → Task ι Word) (m : Machine) (first : ι) (hfirst : first ∈ tasks) (entry : Word)
    (irqs : List Irq)
    (keeps : Run.Guarded (Kernel.interrupt entry) (KeepsBelow plan tasks entry)
      (start plan (idle plan task m) tasks first) irqs)
    (spares : Run.Guarded (Kernel.interrupt entry) (SparesContexts plan tasks)
      (start plan (idle plan task m) tasks first) irqs) :
    Run.Always (Kernel.interrupt entry) (fun k => ∃ c, Isolated plan tasks k c)
      (start plan (idle plan task m) tasks first) irqs := by
  have keep : ∀ (k : Kernel ι) (e : Irq), (∃ c, Serving plan tasks k c) →
      KeepsBelow plan tasks entry k e ∧ SparesContexts plan tasks k e →
      ∃ c, Serving plan tasks (k.interrupt entry e) c := by
    rintro k e ⟨c, h⟩ ⟨hkeeps, hspares⟩
    exact h.interrupt layout hkeeps hspares
  have start := serving_start layout task m hfirst
  refine (Run.always_of_guarded keep ⟨first, start⟩ (keeps.and spares)).mono ?_
  rintro k ⟨c, h⟩
  exact ⟨c, h.isolated⟩

def twoPlans (t : Bool) : TaskPlan where
  kstack := if t then 0xFFFF0000C0006000#64 else 0xFFFF0000C0003000#64
  sz := 4096#64
  entry := 0x80001E00#64
  ustack := if t then 0xC0008000#64 else 0xC0005000#64
  table := if t then 0x80080000#64 else 0x80070000#64

theorem layout_twoPlans : Layout twoPlans [false, true] where
  room t _ := by cases t <;> decide
  disjoint t _ u _ hne := by
    cases t <;> cases u
    · exact absurd rfl hne
    · exact apart_of_le (by decide) (by decide)
    · exact (apart_of_le (by decide) (by decide)).symm
    · exact absurd rfl hne

def timerIrqOver (mem : Memory) (entry : Word) (k : Kernel ι) : Irq :=
  let user : User := ⟨k.machine.x, 0xC0004FF0#64, 0x80001E40#64, 0, mem⟩
  ⟨user, 27, atIrq (takeException (user.on k.machine) entry)⟩

def timerIrq (entry : Word) (k : Kernel ι) : Irq := timerIrqOver k.machine.mem entry k

def twoStarted : Kernel Bool :=
  start twoPlans (idle twoPlans (fun _ => ⟨.ready, 0, 0, none⟩) (interrupted 0)) [false, true] false

def timerIrqs (n : Nat) : List Irq :=
  Run.drive (Kernel.interrupt 0x80002480) (timerIrq 0x80002480) twoStarted n

section
variable {plan : ι → TaskPlan} {tasks : List ι} {k : Kernel ι} {c : ι} {entry : Word}

omit [DecidableEq ι] in
theorem keepsBelow_timerIrqOver (mem : Memory) (entry : Word) (k : Kernel ι) :
    KeepsBelow plan tasks entry k (timerIrqOver mem entry k) := fun _ _ _ _ _ => rfl

omit [DecidableEq ι] in
theorem sparesContexts_timerIrq (entry : Word) (k : Kernel ι) :
    SparesContexts plan tasks k (timerIrq entry k) := fun _ _ _ _ _ => rfl

theorem interrupt_captured_of_ne (hc : k.sched.current = some c) {t : ι} (hne : t ≠ c)
    (e : Irq) : (k.interrupt entry e).captured t = k.captured t := by
  unfold Kernel.interrupt
  rw [hc]
  exact Function.update_of_ne hne _ _

theorem irqDispatcher_timer (s : Sched ι Word) (context : Word) :
    irqDispatcher s 27#32 0#64 context = scheduleOnTick s context := rfl

theorem Serving.timer (h : Serving plan tasks k c) (mem : Memory) :
    (k.interrupt entry (timerIrqOver mem entry k)).sched =
        (scheduleOnTick k.sched (plan c).ctx).2 ∧
      ∃ called words, (k.interrupt entry (timerIrqOver mem entry k)).machine =
          firstUserEnter called ∧ words.length = 35 ∧
        called.mem = storeAll mem (wordsAt (plan c).ctx words) ∧
        called.x 0 = (scheduleOnTick k.sched (plan c).ctx).1 := by
  let e := timerIrqOver mem entry k
  have hbase : (e.user.on k.machine).sp - 272#64 = (plan c).ctx := by
    change k.machine.sp - 272#64 = _
    rw [h.sp, BitVec.add_sub_cancel]
  have hsched := takeIrq_sched entry k.sched e.iar e.left (e.user.on k.machine)
  obtain ⟨called, henters, hmem, hx⟩ :=
    takeIrq_enters entry k.sched e.iar e.left (e.user.on k.machine)
  rw [hbase] at hsched hx
  refine ⟨hsched.trans (congrArg Prod.snd (irqDispatcher_timer _ _)), called, _, henters,
    Context.length_words (context (takeException (e.user.on k.machine) entry)), ?_,
    hx.trans (congrArg Prod.fst (irqDispatcher_timer _ _))⟩
  rw [hmem, ← hbase]
  change (atIrq (takeException (e.user.on k.machine) entry)).mem = _
  rw [atIrq_mem, save_mem]
  rfl

end

/-! The first of two tasks stores a word in the context of the second, whose stack `kmalloc`
has mapped for EL0 as well, and the slice of the first runs out. -/

def nineTicks : Kernel Bool :=
  Run.run (Kernel.interrupt 0x80002480) twoStarted (timerIrqs 9)

def overwriting : Irq :=
  timerIrqOver (store64 nineTicks.machine.mem ((twoPlans true).ctx + BitVec.ofNat 64 ctxElr)
    0x80002000#64) 0x80002480 nineTicks

def twoTicked (n : Nat) : Sched Bool Word :=
  (fun s => (scheduleOnTick s (twoPlans false).ctx).2)^[n] twoStarted.sched

private theorem twoTicked_succ (n : Nat) :
    twoTicked (n + 1) = (scheduleOnTick (twoTicked n) (twoPlans false).ctx).2 :=
  Function.iterate_succ_apply' _ n _

private theorem twoTicked_current : ∀ n < 10, (twoTicked n).current = some false := by
  decide

private theorem twoTicked_switch : (scheduleOnTick (twoTicked 9) (twoPlans false).ctx).1 =
    (twoPlans true).ctx ∧ (twoTicked 10).current = some true := by
  decide

private theorem run_timerIrqs_succ (n : Nat) :
    Run.run (Kernel.interrupt 0x80002480) twoStarted (timerIrqs (n + 1)) =
      (Run.run (Kernel.interrupt 0x80002480) twoStarted (timerIrqs n)).interrupt 0x80002480
        (timerIrq 0x80002480
          (Run.run (Kernel.interrupt 0x80002480) twoStarted (timerIrqs n))) :=
  Run.run_drive_succ _ _ n

private theorem serving_timerIrqs {n : Nat} (hn : n < 10) :
    ∃ k, Run.run (Kernel.interrupt 0x80002480) twoStarted (timerIrqs n) = k ∧
      Serving twoPlans [false, true] k false ∧ k.sched = twoTicked n ∧
      k.captured true = twoStarted.captured true := by
  refine ⟨_, rfl, ?_⟩
  induction n with
  | zero => exact ⟨serving_start layout_twoPlans _ _ (by decide), rfl, rfl⟩
  | succ n ih =>
    obtain ⟨hserving, hsched, hcaptured⟩ := ih (by omega)
    rw [run_timerIrqs_succ]
    generalize Run.run (Kernel.interrupt 0x80002480) twoStarted (timerIrqs n) = k at *
    have hnext : (k.interrupt 0x80002480 (timerIrq 0x80002480 k)).sched = twoTicked (n + 1) := by
      rw [twoTicked_succ, ← hsched]
      exact (hserving.timer _).1
    obtain ⟨d, hserved⟩ := hserving.interrupt layout_twoPlans
      (keepsBelow_timerIrqOver k.machine.mem 0x80002480 k) (sparesContexts_timerIrq _ _)
    have hd : some d = some false := by
      rw [← hserved.confined.current, ← twoTicked_current (n + 1) hn, ← hnext]
      rfl
    obtain rfl := Option.some.inj hd
    exact ⟨hserved, hnext,
      (interrupt_captured_of_ne hserving.confined.current (by decide) _).trans hcaptured⟩

theorem tasks_not_isolated_overwritten :
    (Mmu.makeL3BlockDesc 0xC0006000#64).getLsbD 6 = true ∧
      Run.Guarded (Kernel.interrupt 0x80002480) (KeepsBelow twoPlans [false, true] 0x80002480)
        twoStarted (timerIrqs 9 ++ [overwriting]) ∧
      ¬ Run.Always (Kernel.interrupt 0x80002480)
        (fun k => ∃ c, Isolated twoPlans [false, true] k c) twoStarted
        (timerIrqs 9 ++ [overwriting]) := by
  obtain ⟨k, hk, hserving, hsched, hcaptured⟩ := serving_timerIrqs (n := 9) (by decide)
  refine ⟨by decide, ?_, fun always => ?_⟩
  · rw [Run.guarded_append]
    exact ⟨Run.guarded_drive (fun _ => keepsBelow_timerIrqOver _ _ _) _ _,
      keepsBelow_timerIrqOver _ _ _, trivial⟩
  · obtain ⟨c, isolated⟩ := always.last
    have hover : overwriting = timerIrqOver (store64 k.machine.mem
        ((twoPlans true).ctx + BitVec.ofNat 64 ctxElr) 0x80002000#64) 0x80002480 k := by
      rw [← hk]
      rfl
    rw [Run.run_append, Run.run_cons, Run.run_nil, hk, hover] at isolated
    obtain ⟨hnext, called, words, henters, hlength, hmem, hx⟩ := hserving.timer (store64
      k.machine.mem ((twoPlans true).ctx + BitVec.ofNat 64 ctxElr) 0x80002000#64)
    rw [hsched, ← twoTicked_succ] at hnext
    rw [hsched, twoTicked_switch.1] at hx
    have hc : c = true := by
      have hcurrent := isolated.current
      rw [hnext, twoTicked_switch.2] at hcurrent
      exact (Option.some.inj hcurrent).symm
    have hpc := isolated.pc
    rw [henters, firstUserEnter_pc, hx, hmem, hc] at hpc
    -- the program's word, which the frame of the first task does not meet
    have hword : (Context.read (storeAll (store64 k.machine.mem
        ((twoPlans true).ctx + BitVec.ofNat 64 ctxElr) 0x80002000#64)
        (wordsAt (twoPlans false).ctx words)) (twoPlans true).ctx).elrEl1 = 0x80002000#64 := by
      refine (load64_congr fun x hx => ?_).trans (load64_store64 k.machine.mem _ _)
      apply storeAll_wordsAt_of_not_within (by rw [hlength]; decide)
      intro hframe
      rw [hlength] at hframe
      have happart : Apart (twoPlans false).ctx (8 * 35)
          ((twoPlans true).ctx + BitVec.ofNat 64 ctxElr) 8 := apart_of_le (by decide) (by decide)
      exact happart x hframe hx
    rw [hword, interrupt_captured_of_ne hserving.confined.current (by decide), hcaptured] at hpc
    exact absurd hpc (by decide)

theorem tasks_isolated_two : Run.Always (Kernel.interrupt 0x80002480)
    (fun k => ∃ c, Isolated twoPlans [false, true] k c) twoStarted (timerIrqs 20) :=
  tasks_isolated twoPlans [false, true] layout_twoPlans _ _ false (by decide) 0x80002480 _
    (Run.guarded_drive (fun _ => keepsBelow_timerIrqOver _ _ _) _ _)
    (Run.guarded_drive (sparesContexts_timerIrq _) _ _)

end KernelFuzzing.Vectors
