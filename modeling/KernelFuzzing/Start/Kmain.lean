import KernelFuzzing.Start.InitTask

/-! The end of `kmain` and the timer interrupts after it, with the scheduler's records, the
run queue's links and every saved context in one memory. -/
namespace KernelFuzzing.Start.Kmain
open Foundation AArch64 Memory Mmu Scheduler
open InMemory (Simulates)
open Vectors (TaskPlan Context Irq Serving context atIrq el1IrqEntry firstUserEnter checkCurrentEl)

/-- The machine and the scheduler's static pointers; `captured` records, for each task, the
context of its last interruption. -/
structure Kernel where
  machine : Machine
  rqHead : Word
  rqTail : Word
  current : Word
  captured : Word → Context

def Kernel.over (k : Kernel) (m : Memory) : InMemory.State := ⟨m, k.rqHead, k.rqTail, k.current⟩

/-- The context to return to and the scheduler after the interrupt `iar` of the GIC. -/
def irqDispatcher (s : InMemory.State) (iar : BitVec 32) (spsr context : Word) :
    Word × InMemory.State :=
  let id := iar &&& 0x3FF#32
  if id = 27#32 then
    if !checkCurrentEl spsr then InMemory.scheduleOnTick s context else (context, s)
  else (context, s)

/-- An interrupt, where the C code beside the scheduler leaves the memory and the other
registers of `e.left`. -/
def Kernel.interrupt (entry : Word) (k : Kernel) (e : Irq) : Kernel :=
  let m := takeException (e.user.on k.machine) entry
  let result := irqDispatcher (k.over e.left.mem) e.iar ((atIrq m).sys .spsrEl1) ((atIrq m).x 0)
  let handler (c : Machine) : Machine :=
    { e.left.set 0 result.1 with mem := result.2.mem, sp := c.sp, pc := c.x 30 }
  { machine := el1IrqEntry handler m
    rqHead := result.2.rqHead
    rqTail := result.2.rqTail
    current := result.2.current
    captured :=
      if k.current = 0#64 then k.captured
      else Function.update k.captured k.current (context m) }

/-- The end of `kmain`: the task `first` is set current and entered. -/
def enter (s : InitTask.State) (m : Machine) (first : Word) : Kernel :=
  let v := InMemory.schedSetCurrent s.view first
  let ctx := load64 v.mem (InMemory.contextOf first)
  { machine := firstUserEnter ({ m with mem := v.mem }.set 0 ctx)
    rqHead := v.rqHead
    rqTail := v.rqTail
    current := v.current
    captured := fun t => Context.read s.memory.flat (s.plan t).ctx }

/-- Programs change neither the records nor the saved contexts of waiting tasks. The C code
beside the scheduler keeps to the current stack below the saved context. -/
structure Legal (plan : Word → TaskPlan) (tasks : List Word) (entry : Word) (k : Kernel)
    (e : Irq) : Prop where
  user : ∀ t ∈ tasks, ∀ a, Within t InMemory.sizeofTask a ∨
    k.current ≠ t ∧ Within (plan t).ctx 280 a → e.user.mem a = k.machine.mem a
  record : ∀ t ∈ tasks, ∀ a, Within t InMemory.sizeofTask a →
    e.left.mem a = (atIrq (takeException (e.user.on k.machine) entry)).mem a
  stack : ∀ t ∈ tasks, ∀ a, Within (plan t).kstack (plan t).sz.toNat a →
    ¬ (k.current = t ∧ Within (plan t).kstack ((plan t).sz.toNat - 288) a) →
    e.left.mem a = (atIrq (takeException (e.user.on k.machine) entry)).mem a

/-- Back at EL0, the current task has its own table and the context of its last
interruption, and every record points to its task's own frame. -/
structure Isolated (plan : Word → TaskPlan) (tasks : List Word) (k : Kernel) (c : Word) :
    Prop where
  mem : c ∈ tasks
  current : k.current = c
  table : k.machine.sys .ttbr0El1 = (plan c).table
  regs : context k.machine = k.captured c
  pc : k.machine.pc = (k.captured c).elrEl1
  pstate : k.machine.pstate = (k.captured c).spsrEl1
  sp : k.machine.sp = (plan c).ctx + 272#64
  contexts : ∀ t ∈ tasks, load64 k.machine.mem (InMemory.contextOf t) = (plan t).ctx

/-- The records hold the fields of the tasks of a kernel whose tasks are not in memory. -/
structure Models (tasks : List Word) (k : Kernel) (a : Vectors.Kernel Word) : Prop where
  machine : a.machine = k.machine
  captured : a.captured = k.captured
  simulates : Simulates k.machine.mem tasks (k.over k.machine.mem) a.sched

structure Places (plan : Word → TaskPlan) (tasks : List Word) : Prop where
  nonnull : ∀ t ∈ tasks, t ≠ 0#64
  placed : Placed tasks InMemory.sizeofTask
  layout : Vectors.Layout plan tasks
  apart : ∀ t ∈ tasks, ∀ u ∈ tasks,
    Apart t InMemory.sizeofTask (plan u).kstack (plan u).sz.toNat

section
variable {plan : Word → TaskPlan} {tasks : List Word} {k : Kernel} {a : Vectors.Kernel Word}
  {c : Word} {entry : Word} {e : Irq} {b : Sched Word Word}

theorem irqDispatcher_simulates {m₀ : Memory} {s : InMemory.State} {b : Sched Word Word}
    (placed : Placed tasks InMemory.sizeofTask) (h : Simulates m₀ tasks s b)
    (confined : Confined b tasks c) (iar : BitVec 32) (spsr context : Word) :
    (irqDispatcher s iar spsr context).1 = (Vectors.irqDispatcher b iar spsr context).1 ∧
      Simulates m₀ tasks (irqDispatcher s iar spsr context).2
        (Vectors.irqDispatcher b iar spsr context).2 := by
  have hsafe : InMemory.Safe b tasks := {
    closed := confined.closed
    current := fun d hd => by
      obtain rfl := Option.some.inj (confined.current.symm.trans hd)
      exact confined.mem
    phase := confined.phase.imp_left fun hrunning => ⟨c, confined.current, hrunning⟩ }
  unfold irqDispatcher Vectors.irqDispatcher
  dsimp only
  split
  · split
    · exact h.tick placed hsafe (fun _ ht => ht) context
    · exact ⟨rfl, h⟩
  · exact ⟨rfl, h⟩

/-- The interrupt as the model without memory sees it: what the scheduler stores is part of
what the C code leaves. -/
def leaving (entry : Word) (k : Kernel) (e : Irq) : Irq :=
  let m := takeException (e.user.on k.machine) entry
  { e with
    left := { e.left with
      mem := (irqDispatcher (k.over e.left.mem) e.iar ((atIrq m).sys .spsrEl1)
        ((atIrq m).x 0)).2.mem } }

theorem Models.left (places : Places plan tasks) (h : Models tasks k a)
    (serving : Serving plan tasks a c) (legal : Legal plan tasks entry k e) :
    Simulates e.left.mem tasks (k.over e.left.mem) a.sched where
  tasks t ht := by
    refine (InMemory.taskAt_congr fun x hx => ?_).trans (h.simulates.tasks t ht)
    have hbase : (takeException (e.user.on k.machine) entry).sp - 272#64 = (plan c).ctx := by
      change k.machine.sp - 272#64 = _
      rw [← h.machine, serving.sp, BitVec.add_sub_cancel]
    have hroom := places.layout.room c serving.confined.mem
    change e.left.mem x = k.machine.mem x
    rw [legal.record t ht x hx, Vectors.atIrq_mem, Vectors.save_mem, hbase,
      storeAll_wordsAt_of_not_within (by simp)]
    · exact legal.user t ht x (.inl hx)
    · intro hframe
      rw [Context.length_words] at hframe
      exact places.apart t ht c serving.confined.mem x hx
        (Vectors.within_stack hroom hframe).1
  head := h.simulates.head
  tail := h.simulates.tail
  current := h.simulates.current
  elsewhere _ _ := rfl

theorem Models.legal (places : Places plan tasks) (h : Models tasks k a)
    (legal : Legal plan tasks entry k e) (after : Simulates e.left.mem tasks
      (irqDispatcher (k.over e.left.mem) e.iar
        ((atIrq (takeException (e.user.on k.machine) entry)).sys .spsrEl1)
        ((atIrq (takeException (e.user.on k.machine) entry)).x 0)).2 b) :
    Vectors.KeepsBelow plan tasks entry a (leaving entry k e) ∧
      Vectors.SparesContexts plan tasks a (leaving entry k e) := by
  have hwaits {t : Word} (ht : t ∈ tasks) : a.sched.current = some t ↔ k.current = t := by
    rw [← h.simulates.current]
    exact InMemory.pointer_eq_some.trans (and_iff_left (places.nonnull t ht))
  constructor
  · intro t ht x hx hbelow
    have helsewhere := after.elsewhere x fun u hu hrecord => places.apart u hu t ht x hrecord hx
    rw [h.machine]
    exact helsewhere.trans (legal.stack t ht x hx fun hcurrent =>
      hbelow ⟨(hwaits ht).mpr hcurrent.1, hcurrent.2⟩)
  · intro t ht hother x hx
    rw [h.machine]
    exact legal.user t ht x (.inr ⟨fun hcurrent => hother ((hwaits ht).mpr hcurrent), hx⟩)

/-- An interrupt with the records in memory is the interrupt without. -/
theorem Models.interrupt (places : Places plan tasks) (h : Models tasks k a)
    (serving : Serving plan tasks a c) (legal : Legal plan tasks entry k e) :
    Models tasks (k.interrupt entry e) (a.interrupt entry (leaving entry k e)) ∧
      Vectors.KeepsBelow plan tasks entry a (leaving entry k e) ∧
      Vectors.SparesContexts plan tasks a (leaving entry k e) := by
  obtain ⟨hcontext, hafter⟩ := irqDispatcher_simulates places.placed
    (h.left places serving legal) serving.confined e.iar
    ((atIrq (takeException (e.user.on k.machine) entry)).sys .spsrEl1)
    ((atIrq (takeException (e.user.on k.machine) entry)).x 0)
  have hmem : (k.interrupt entry e).machine.mem = (irqDispatcher (k.over e.left.mem) e.iar
      ((atIrq (takeException (e.user.on k.machine) entry)).sys .spsrEl1)
      ((atIrq (takeException (e.user.on k.machine) entry)).x 0)).2.mem := by
    unfold Kernel.interrupt
    dsimp only
    rw [Vectors.el1IrqEntry_eq, Vectors.firstUserEnter_mem]
    rfl
  have hsched : (a.interrupt entry (leaving entry k e)).sched = (Vectors.irqDispatcher a.sched e.iar
      ((atIrq (takeException (e.user.on k.machine) entry)).sys .spsrEl1)
      ((atIrq (takeException (e.user.on k.machine) entry)).x 0)).2 := by
    rw [← h.machine]
    rfl
  refine ⟨⟨?_, ?_, ?_⟩, h.legal places legal hafter⟩
  · unfold Vectors.Kernel.interrupt Vectors.takeIrq Kernel.interrupt leaving
    dsimp only
    rw [h.machine, ← hcontext]
    rfl
  · obtain ⟨hcurrent, hne⟩ := InMemory.pointer_eq_some.mp
      (h.simulates.current.trans serving.confined.current)
    have hcurrent : k.current = c := hcurrent
    unfold Vectors.Kernel.interrupt Kernel.interrupt leaving
    dsimp only
    rw [serving.confined.current, hcurrent, if_neg hne, h.machine, h.captured]
  · rw [hsched]
    exact {
      tasks := by rw [hmem]; exact hafter.tasks
      head := hafter.head
      tail := hafter.tail
      current := hafter.current
      elsewhere := fun _ _ => rfl }

theorem Models.isolated (h : Models tasks k a) (serving : Serving plan tasks a c) :
    Isolated plan tasks k c where
  mem := serving.confined.mem
  current := (InMemory.pointer_eq_some.mp
    (h.simulates.current.trans serving.confined.current)).1
  table := by rw [← h.machine]; exact serving.isolated.table
  regs := by rw [← h.machine, ← h.captured]; exact serving.regs
  pc := by rw [← h.machine, ← h.captured]; exact serving.pc
  pstate := by rw [← h.machine, ← h.captured]; exact serving.pstate
  sp := by rw [← h.machine]; exact serving.sp
  contexts t ht := (h.simulates.context ht).trans (serving.contexts t ht)

def Served (plan : Word → TaskPlan) (tasks : List Word) (k : Kernel) : Prop :=
  ∃ a c, Models tasks k a ∧ Serving plan tasks a c

theorem Served.interrupt (places : Places plan tasks) (h : Served plan tasks k)
    (legal : Legal plan tasks entry k e) : Served plan tasks (k.interrupt entry e) := by
  obtain ⟨a, c, hmodels, hserving⟩ := h
  obtain ⟨hnext, hkeeps, hspares⟩ := hmodels.interrupt places hserving legal
  obtain ⟨d, hserved⟩ := hserving.interrupt places.layout hkeeps hspares
  exact ⟨_, d, hnext, hserved⟩

end

section
variable {s : InitTask.State} {calls : List InitTask.Args} {first : Word}

end

def timerIrq (entry : Word) (k : Kernel) : Irq :=
  let user : User := ⟨k.machine.x, 0xC0004FF0#64, 0x80001E40#64, 0, k.machine.mem⟩
  ⟨user, 27, atIrq (takeException (user.on k.machine) entry)⟩

end KernelFuzzing.Start.Kmain
