import Mathlib.Algebra.Ring.Nat
import KernelFuzzing.Foundation.Chain

/-! The run queue and the tick of core/scheduler/sched.c. A task is known by its
pointer; null is `none`. The queue is a chain through the tasks' `next` fields. -/
namespace KernelFuzzing.Scheduler
open Foundation Chain

inductive TaskState where
  | ready
  | running
  | blocked
deriving DecidableEq

/-- The fields of a `Task` at pointers `ι` that the scheduler uses. -/
structure Task (ι C : Type*) where
  state : TaskState
  /-- The pointer to the saved `Context`. -/
  context : C
  sliceLeft : BitVec 32
  next : Option ι

/-- The tasks in memory and the scheduler's static pointers. -/
structure Sched (ι C : Type*) where
  task : ι → Task ι C
  rqHead : Option ι
  rqTail : Option ι
  current : Option ι

def rrSliceTicks : BitVec 32 := 10#32

variable {ι C : Type*} [DecidableEq ι]

def Sched.modify (s : Sched ι C) (t : ι) (f : Task ι C → Task ι C) : Sched ι C :=
  { s with task := Function.update s.task t (f (s.task t)) }

def rqPush (s : Sched ι C) (t : ι) : Sched ι C :=
  match s.rqTail with
  | none => { s with rqHead := some t, rqTail := some t }
  | some tail => { s.modify tail ({ · with next := some t }) with rqTail := some t }

/-- The popped element is cut off, and the one behind it is returned. -/
def rqPop (s : Sched ι C) : Option ι × Sched ι C :=
  match s.rqHead with
  | none => (none, s)
  | some t =>
      let s := { s with rqHead := (s.task t).next }
      let s := if s.rqHead = none then { s with rqTail := none } else s
      let s := s.modify t ({ · with next := none })
      (s.rqHead, s)

def schedReadyEnqueue (s : Sched ι C) (t : ι) : Sched ι C :=
  rqPush (s.modify t ({ · with state := .ready, sliceLeft := rrSliceTicks })) t

def schedSetCurrent (s : Sched ι C) (t : ι) : Sched ι C :=
  { s with current := some t }.modify t ({ · with state := .running })

/-- The end of `scheduleOnTick`, which takes the next task off the queue. -/
def scheduleOnTick.switch (s : Sched ι C) (tf : C) : C × Sched ι C :=
  match rqPop s with
  | (none, s) =>
      match s.current with
      | some c => ((s.task c).context, s)
      | none => (tf, s)
  | (some next, s) =>
      let s := s.modify next ({ · with state := .running })
      let s := { s with current := some next }
      ((s.task next).context, s)

/-- The context to return to and the scheduler after a tick that saved `tf`. -/
def scheduleOnTick (s : Sched ι C) (tf : C) : C × Sched ι C :=
  match s.current with
  | none => scheduleOnTick.switch s tf
  | some c =>
      if (s.task c).state = .running then
        let s := s.modify c ({ · with context := tf })
        let s := s.modify c fun t => { t with sliceLeft := t.sliceLeft - 1#32 }
        if (0#32).slt (s.task c).sliceLeft then ((s.task c).context, s)
        else
          let s := s.modify c ({ · with sliceLeft := rrSliceTicks, state := .ready })
          scheduleOnTick.switch (rqPush s c) tf
      else scheduleOnTick.switch s tf

def Sched.next (s : Sched ι C) (t : ι) : Option ι := (s.task t).next

@[simp] theorem modify_rqHead (s : Sched ι C) (t : ι) (f : Task ι C → Task ι C) :
    (s.modify t f).rqHead = s.rqHead := rfl

@[simp] theorem modify_rqTail (s : Sched ι C) (t : ι) (f : Task ι C → Task ι C) :
    (s.modify t f).rqTail = s.rqTail := rfl

@[simp] theorem modify_current (s : Sched ι C) (t : ι) (f : Task ι C → Task ι C) :
    (s.modify t f).current = s.current := rfl

@[simp] theorem modify_task_self (s : Sched ι C) (t : ι) (f : Task ι C → Task ι C) :
    (s.modify t f).task t = f (s.task t) := Function.update_self _ _ _

theorem modify_task_of_ne (s : Sched ι C) {t u : ι} (f : Task ι C → Task ι C) (h : u ≠ t) :
    (s.modify t f).task u = s.task u := Function.update_of_ne h _ _

theorem modify_next (s : Sched ι C) (t : ι) {f : Task ι C → Task ι C}
    (h : ∀ k, (f k).next = k.next := by intro _; rfl) : (s.modify t f).next = s.next := by
  funext u
  unfold Sched.next
  by_cases hu : u = t
  · rw [hu, modify_task_self, h]
  · rw [modify_task_of_ne s f hu]

theorem modify_next_set (s : Sched ι C) (t : ι) (p : Option ι) :
    (s.modify t ({ · with next := p })).next = Function.update s.next t p := by
  funext u
  unfold Sched.next
  by_cases hu : u = t
  · rw [hu, modify_task_self, Function.update_self]
  · rw [modify_task_of_ne s _ hu, Function.update_of_ne hu]

def Sched.fields (s : Sched ι C) (t : ι) : TaskState × C × BitVec 32 :=
  ((s.task t).state, (s.task t).context, (s.task t).sliceLeft)

theorem modify_fields_of_ne (s : Sched ι C) {t u : ι} (f : Task ι C → Task ι C) (h : u ≠ t) :
    (s.modify t f).fields u = s.fields u := by
  unfold Sched.fields
  rw [modify_task_of_ne s f h]

theorem modify_fields_set (s : Sched ι C) (t : ι) (p : Option ι) :
    (s.modify t ({ · with next := p })).fields = s.fields := by
  funext u
  by_cases hu : u = t
  · unfold Sched.fields
    rw [hu, modify_task_self]
  · rw [modify_fields_of_ne s _ hu]

/-- The run queue holds the tasks of a list in order and ends in null. -/
structure Queue (s : Sched ι C) (l : List ι) : Prop where
  linked : Linked s.next s.rqHead l
  tail : s.rqTail = l.getLast?

theorem Queue.modify {s : Sched ι C} {l : List ι} (h : Queue s l) (t : ι)
    {f : Task ι C → Task ι C} (hf : ∀ k, (f k).next = k.next := by intro _; rfl) :
    Queue (s.modify t f) l where
  linked := by
    rw [modify_next s t hf]
    exact h.linked
  tail := h.tail

theorem Queue.setCurrent {s : Sched ι C} {l : List ι} (h : Queue s l) (c : ι) :
    Queue (schedSetCurrent s c) l := by
  have hcurrent : Queue { s with current := some c } l := ⟨h.linked, h.tail⟩
  exact hcurrent.modify c

theorem setCurrent_fields (s : Sched ι C) (c t : ι) :
    (schedSetCurrent s c).fields t =
      if t = c then (.running, (s.fields t).2) else s.fields t := by
  unfold schedSetCurrent
  by_cases ht : t = c
  · rw [if_pos ht, ht]
    unfold Sched.fields
    rw [modify_task_self]
  · rw [if_neg ht, modify_fields_of_ne _ _ ht]
    rfl

theorem setCurrent_next (s : Sched ι C) (c : ι) : (schedSetCurrent s c).next = s.next := by
  unfold schedSetCurrent
  rw [modify_next]
  rfl

theorem setCurrent_running (s : Sched ι C) (c : ι) :
    ((schedSetCurrent s c).task c).state = .running :=
  congrArg Task.state (modify_task_self _ c _)

theorem rqPush_fields (s : Sched ι C) (t : ι) : (rqPush s t).fields = s.fields := by
  unfold rqPush
  split
  · rfl
  · exact modify_fields_set s _ _

theorem rqPush_current (s : Sched ι C) (t : ι) : (rqPush s t).current = s.current := by
  unfold rqPush
  split <;> rfl

theorem enqueue_fields_of_ne (s : Sched ι C) {t u : ι} (h : u ≠ t) :
    (schedReadyEnqueue s t).fields u = s.fields u := by
  rw [schedReadyEnqueue, rqPush_fields, modify_fields_of_ne s _ h]

theorem enqueue_current (s : Sched ι C) (t : ι) :
    (schedReadyEnqueue s t).current = s.current := by
  rw [schedReadyEnqueue, rqPush_current, modify_current]

theorem enqueue_fields (s : Sched ι C) (t : ι) :
    (schedReadyEnqueue s t).fields t = (.ready, (s.task t).context, rrSliceTicks) := by
  rw [schedReadyEnqueue, rqPush_fields]
  unfold Sched.fields
  rw [modify_task_self]

theorem Queue.rqPush {s : Sched ι C} {l : List ι} (h : Queue s l) {t : ι} (fresh : t ∉ l)
    (end' : s.next t = none) : Queue (rqPush s t) (l ++ [t]) := by
  have htail := h.tail
  unfold Scheduler.rqPush
  cases hlast : l.getLast? with
  | none =>
    rw [List.getLast?_eq_none_iff.mp hlast]
    rw [hlast] at htail
    rw [htail]
    exact ⟨⟨rfl, end'⟩, rfl⟩
  | some b =>
    rw [hlast] at htail
    rw [htail]
    refine ⟨?_, by rw [List.getLast?_append]; rfl⟩
    change Linked (s.modify b ({ · with next := some t })).next s.rqHead (l ++ [t])
    rw [modify_next_set]
    exact h.linked.append hlast fresh end'

theorem modify_modify (s : Sched ι C) (t : ι) (f g : Task ι C → Task ι C) :
    (s.modify t f).modify t g = s.modify t fun k => g (f k) := by
  unfold Sched.modify
  simp only [Function.update_self, Function.update_idem]

theorem rqPop_of_head {s : Sched ι C} {a : ι} (h : s.rqHead = some a) :
    rqPop s = (s.next a,
      { s with
        rqHead := s.next a
        rqTail := if s.next a = none then none else s.rqTail }.modify a
          ({ · with next := none })) := by
  unfold rqPop
  rw [h]
  change _ = (s.next a, _)
  unfold Sched.next
  by_cases hnext : (s.task a).next = none
  · simp only [hnext, if_true]
    rfl
  · simp only [hnext, if_false]
    rfl

theorem rqPop_fields (s : Sched ι C) : (rqPop s).2.fields = s.fields := by
  cases h : s.rqHead with
  | none =>
    unfold rqPop
    rw [h]
  | some a =>
    rw [rqPop_of_head h, modify_fields_set]
    rfl

theorem rqPop_current (s : Sched ι C) : (rqPop s).2.current = s.current := by
  cases h : s.rqHead with
  | none =>
    unfold rqPop
    rw [h]
  | some a => rw [rqPop_of_head h, modify_current]

theorem rqPop_next {s : Sched ι C} {a : ι} (h : s.rqHead = some a) :
    (rqPop s).2.next = Function.update s.next a none := by
  rw [rqPop_of_head h, modify_next_set]
  rfl

theorem Queue.rqPop {s : Sched ι C} {a : ι} {l : List ι} (h : Queue s (a :: l)) :
    (rqPop s).1 = l.head? ∧ Queue (rqPop s).2 l := by
  have hhead : s.rqHead = some a := h.linked.1
  have hnext : s.next a = l.head? := h.linked.2.head
  have fresh : a ∉ l := (List.nodup_cons.mp h.linked.nodup).1
  refine ⟨by rw [rqPop_of_head hhead, hnext], ?_, ?_⟩
  · rw [rqPop_next hhead, rqPop_of_head hhead]
    exact h.linked.2.congr fun b hb =>
      (Function.update_of_ne (fun heq : b = a => fresh (heq ▸ hb)) _ _).symm
  · rw [rqPop_of_head hhead, modify_rqTail, hnext, h.tail]
    cases l with
    | nil => rfl
    | cons b l => rfl

theorem rqPush_of_tail {s : Sched ι C} {b : ι} (h : s.rqTail = some b) (c : ι) :
    (rqPush s c).next = Function.update s.next b (some c) ∧
      (rqPush s c).rqHead = s.rqHead ∧ (rqPush s c).rqTail = some c := by
  have hpush : rqPush s c = { s.modify b ({ · with next := some c }) with rqTail := some c } := by
    unfold rqPush
    rw [h]
  rw [hpush]
  exact ⟨modify_next_set s b _, rfl, rfl⟩

omit [DecidableEq ι] in
theorem Queue.exists_last {s : Sched ι C} {c : ι} {l : List ι} (h : Queue s (c :: l)) :
    ∃ b ∈ c :: l, (c :: l).getLast? = some b ∧ s.rqTail = some b :=
  have hlast := List.getLast?_eq_some_getLast (List.cons_ne_nil c l)
  ⟨_, List.getLast_mem _, hlast, h.tail.trans hlast⟩

theorem Queue.rotate {s : Sched ι C} {c : ι} {l : List ι} (h : Queue s (c :: l)) :
    (Scheduler.rqPop (Scheduler.rqPush s c)).1 = (l ++ [c]).head? ∧
      Queue (Scheduler.rqPop (Scheduler.rqPush s c)).2 (l ++ [c]) := by
  obtain ⟨b, -, hlast, htail⟩ := h.exists_last
  obtain ⟨hnext, hpush, hpushed⟩ := rqPush_of_tail htail c
  have hhead : (Scheduler.rqPush s c).rqHead = some c := hpush.trans h.linked.1
  have hlinked := h.linked.rotate hlast
  have hfirst := hlinked.head
  refine ⟨by rw [rqPop_of_head hhead, hnext, hfirst], ?_, ?_⟩
  · rw [rqPop_next hhead, rqPop_of_head hhead, hnext]
    exact hlinked
  · have hsome : Function.update s.next b (some c) c ≠ none := by
      rw [hfirst]
      cases l <;> exact Option.some_ne_none _
    rw [rqPop_of_head hhead, modify_rqTail, hnext, if_neg hsome, List.getLast?_append]
    exact hpushed

theorem Queue.rotate_next {s : Sched ι C} {c u : ι} {l : List ι} (h : Queue s (c :: l))
    (hu : u ∉ c :: l) : (Scheduler.rqPop (Scheduler.rqPush s c)).2.next u = s.next u := by
  obtain ⟨b, hb, -, htail⟩ := h.exists_last
  obtain ⟨hnext, hpush, -⟩ := rqPush_of_tail htail c
  have huc : u ≠ c := fun heq => hu (heq ▸ List.mem_cons_self)
  have hub : u ≠ b := fun heq => hu (heq ▸ hb)
  rw [rqPop_next (hpush.trans h.linked.1), hnext, Function.update_of_ne huc,
    Function.update_of_ne hub]

/-- The slice goes on after a tick, where `int` wraps. -/
def GoesOn (sliceLeft : BitVec 32) : Prop := (0#32).slt (sliceLeft - 1#32) = true

instance (v : BitVec 32) : Decidable (GoesOn v) := inferInstanceAs (Decidable (_ = true))

theorem goesOn_iff (v : BitVec 32) : GoesOn v ↔ 1 < v.toNat ∧ v.toNat ≤ 2 ^ 31 := by
  unfold GoesOn
  rw [BitVec.slt_iff_toInt_lt, BitVec.toInt_eq_toNat_cond, BitVec.toInt_eq_toNat_cond]
  bv_omega

def ticked (s : Sched ι C) (c : ι) (tf : C) : Sched ι C :=
  s.modify c fun t => { t with context := tf, sliceLeft := t.sliceLeft - 1#32 }

def expired (s : Sched ι C) (c : ι) (tf : C) : Sched ι C :=
  s.modify c ({ · with context := tf, sliceLeft := rrSliceTicks, state := .ready })

theorem Queue.ticked {s : Sched ι C} {l : List ι} (h : Queue s l) (c : ι) (tf : C) :
    Queue (ticked s c tf) l := h.modify c

theorem Queue.expired {s : Sched ι C} {l : List ι} (h : Queue s l) (c : ι) (tf : C) :
    Queue (expired s c tf) l := h.modify c

theorem ticked_next (s : Sched ι C) (c : ι) (tf : C) : (ticked s c tf).next = s.next :=
  modify_next s c

theorem expired_next (s : Sched ι C) (c : ι) (tf : C) : (expired s c tf).next = s.next :=
  modify_next s c

theorem ticked_fields (s : Sched ι C) (c t : ι) (tf : C) : (ticked s c tf).fields t =
    if t = c then ((s.task c).state, tf, (s.task c).sliceLeft - 1#32) else s.fields t := by
  by_cases ht : t = c
  · rw [if_pos ht, ht, Scheduler.ticked]
    unfold Sched.fields
    rw [modify_task_self]
  · rw [if_neg ht, Scheduler.ticked, modify_fields_of_ne s _ ht]

theorem expired_fields (s : Sched ι C) (c t : ι) (tf : C) : (expired s c tf).fields t =
    if t = c then (.ready, tf, rrSliceTicks) else s.fields t := by
  by_cases ht : t = c
  · rw [if_pos ht, ht, Scheduler.expired]
    unfold Sched.fields
    rw [modify_task_self]
  · rw [if_neg ht, Scheduler.expired, modify_fields_of_ne s _ ht]

theorem scheduleOnTick_keep {s : Sched ι C} {c : ι} (hc : s.current = some c)
    (running : (s.task c).state = .running) (left : GoesOn (s.task c).sliceLeft) (tf : C) :
    scheduleOnTick s tf = (tf, ticked s c tf) := by
  unfold GoesOn at left
  simp only [scheduleOnTick, hc, running, if_true, modify_modify, modify_task_self, left, ticked]

theorem scheduleOnTick_expire {s : Sched ι C} {c : ι} (hc : s.current = some c)
    (running : (s.task c).state = .running) (spent : ¬ GoesOn (s.task c).sliceLeft) (tf : C) :
    scheduleOnTick s tf = scheduleOnTick.switch (rqPush (expired s c tf) c) tf := by
  unfold GoesOn at spent
  simp only [scheduleOnTick, hc, running, if_true, modify_modify, modify_task_self, spent,
    Bool.false_eq_true, if_false, expired]

theorem switch_some {s : Sched ι C} {d : ι} (h : (rqPop s).1 = some d) (tf : C) :
    scheduleOnTick.switch s tf = ((s.task d).context, schedSetCurrent (rqPop s).2 d) := by
  have hcontext : ((rqPop s).2.task d).context = (s.task d).context :=
    congrArg (fun f => (f d).2.1) (rqPop_fields s)
  unfold scheduleOnTick.switch
  generalize hp : rqPop s = popped at h hcontext
  obtain ⟨first, s'⟩ := popped
  dsimp only at h hcontext
  subst h
  simp only [modify_task_self, hcontext]
  rfl

theorem switch_none {s : Sched ι C} (h : (rqPop s).1 = none) (tf : C) :
    (scheduleOnTick.switch s tf).2 = (rqPop s).2 := by
  unfold scheduleOnTick.switch
  generalize rqPop s = popped at h
  obtain ⟨first, s'⟩ := popped
  dsimp only at h
  subst h
  dsimp only
  cases s'.current <;> rfl

end KernelFuzzing.Scheduler
