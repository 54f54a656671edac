import KernelFuzzing.Foundation.Memory
import KernelFuzzing.Foundation.Simulation
import KernelFuzzing.Scheduler.Confined

/-! The tasks of core/scheduler/sched.c as records in memory that hold each other's
addresses, and the scheduler that loads and stores their fields. -/
namespace KernelFuzzing.Scheduler.InMemory
open Foundation Memory Simulation

def stateOf (t : Word) : Word := t + BitVec.ofNat 64 4
def contextOf (t : Word) : Word := t + BitVec.ofNat 64 8
def sliceLeftOf (t : Word) : Word := t + BitVec.ofNat 64 32
def nextOf (t : Word) : Word := t + BitVec.ofNat 64 48

def sizeofTask : Nat := 56

/-- Memory and the static pointers, null being 0. -/
structure State where
  mem : Memory
  rqHead : Word
  rqTail : Word
  current : Word

def ready : BitVec 32 := 0#32
def running : BitVec 32 := 1#32

def rqPush (s : State) (t : Word) : State :=
  if s.rqTail = 0#64 then { s with rqHead := t, rqTail := t }
  else { s with mem := store64 s.mem (nextOf s.rqTail) t, rqTail := t }

def rqPop (s : State) : Word × State :=
  let t := s.rqHead
  if t = 0#64 then (0#64, s)
  else
    let s := { s with rqHead := load64 s.mem (nextOf t) }
    let s := if s.rqHead = 0#64 then { s with rqTail := 0#64 } else s
    let s := { s with mem := store64 s.mem (nextOf t) 0#64 }
    (s.rqHead, s)

def schedReadyEnqueue (s : State) (t : Word) : State :=
  let s := { s with mem := store32 s.mem (stateOf t) ready }
  let s := { s with mem := store32 s.mem (sliceLeftOf t) 10#32 }
  rqPush s t

def schedSetCurrent (s : State) (t : Word) : State :=
  let s := { s with current := t }
  { s with mem := store32 s.mem (stateOf t) running }

def scheduleOnTick.switch (s : State) (tf : Word) : Word × State :=
  let (next, s) := rqPop s
  if next = 0#64 then
    if s.current = 0#64 then (tf, s) else (load64 s.mem (contextOf s.current), s)
  else
    let s := { s with mem := store32 s.mem (stateOf next) running }
    let s := { s with current := next }
    (load64 s.mem (contextOf s.current), s)

def scheduleOnTick (s : State) (tf : Word) : Word × State :=
  if s.current ≠ 0#64 ∧ load32 s.mem (stateOf s.current) = running then
    let c := s.current
    let s := { s with mem := store64 s.mem (contextOf c) tf }
    let s := { s with mem := store32 s.mem (sliceLeftOf c) (load32 s.mem (sliceLeftOf c) - 1#32) }
    if (0#32).slt (load32 s.mem (sliceLeftOf c)) then (load64 s.mem (contextOf c), s)
    else
      let s := { s with mem := store32 s.mem (sliceLeftOf c) 10#32 }
      let s := { s with mem := store32 s.mem (stateOf c) ready }
      scheduleOnTick.switch (rqPush s c) tf
  else scheduleOnTick.switch s tf

def pointer (w : Word) : Option Word := if w = 0#64 then none else some w

def stateOfWord (w : BitVec 32) : TaskState :=
  if w = ready then .ready else if w = running then .running else .blocked

def taskAt (m : Memory) (t : Word) : Task Word Word where
  state := stateOfWord (load32 m (stateOf t))
  context := load64 m (contextOf t)
  sliceLeft := load32 m (sliceLeftOf t)
  next := pointer (load64 m (nextOf t))

/-- The scheduler's state as the fields of tasks. -/
def schedAt (s : State) : Sched Word Word :=
  ⟨taskAt s.mem, pointer s.rqHead, pointer s.rqTail, pointer s.current⟩

theorem taskAt_congr {m m' : Memory} {t : Word} (h : ∀ x, Within t sizeofTask x → m x = m' x) :
    taskAt m t = taskAt m' t := by
  have field {i n : Nat} (hi : i + n ≤ sizeofTask) (x : Word)
      (hx : Within (t + BitVec.ofNat 64 i) n x) : m x = m' x := h x (within_of_field hi hx)
  have hstate : load32 m (stateOf t) = load32 m' (stateOf t) := load32_congr (field (by decide))
  have hcontext : load64 m (contextOf t) = load64 m' (contextOf t) :=
    load64_congr (field (by decide))
  have hslice : load32 m (sliceLeftOf t) = load32 m' (sliceLeftOf t) :=
    load32_congr (field (by decide))
  have hnext : load64 m (nextOf t) = load64 m' (nextOf t) := load64_congr (field (by decide))
  rw [taskAt, taskAt, hstate, hcontext, hslice, hnext]

section
variable (m : Memory) (t : Word)

theorem taskAt_store_state (v : BitVec 32) : taskAt (store32 m (stateOf t) v) t =
    { taskAt m t with state := stateOfWord v } := by
  have hcontext : load64 (store32 m (stateOf t) v) (contextOf t) = _ :=
    load64_store32_apart (apart_of_offsets (by decide) (by decide))
  have hslice : load32 (store32 m (stateOf t) v) (sliceLeftOf t) = _ :=
    load32_store32_apart (apart_of_offsets (by decide) (by decide))
  have hnext : load64 (store32 m (stateOf t) v) (nextOf t) = _ :=
    load64_store32_apart (apart_of_offsets (by decide) (by decide))
  rw [taskAt, hcontext, hslice, hnext, load32_store32]
  rfl

theorem taskAt_store_context (v : Word) : taskAt (store64 m (contextOf t) v) t =
    { taskAt m t with context := v } := by
  have hstate : load32 (store64 m (contextOf t) v) (stateOf t) = _ :=
    load32_store64_apart (apart_of_offsets (by decide) (by decide)).symm
  have hslice : load32 (store64 m (contextOf t) v) (sliceLeftOf t) = _ :=
    load32_store64_apart (apart_of_offsets (by decide) (by decide))
  have hnext : load64 (store64 m (contextOf t) v) (nextOf t) = _ :=
    load64_store64_apart (apart_of_offsets (by decide) (by decide))
  rw [taskAt, hstate, hslice, hnext, load64_store64]
  rfl

theorem taskAt_store_sliceLeft (v : BitVec 32) : taskAt (store32 m (sliceLeftOf t) v) t =
    { taskAt m t with sliceLeft := v } := by
  have hstate : load32 (store32 m (sliceLeftOf t) v) (stateOf t) = _ :=
    load32_store32_apart (apart_of_offsets (by decide) (by decide)).symm
  have hcontext : load64 (store32 m (sliceLeftOf t) v) (contextOf t) = _ :=
    load64_store32_apart (apart_of_offsets (by decide) (by decide)).symm
  have hnext : load64 (store32 m (sliceLeftOf t) v) (nextOf t) = _ :=
    load64_store32_apart (apart_of_offsets (by decide) (by decide))
  rw [taskAt, hstate, hcontext, hnext, load32_store32]
  rfl

theorem taskAt_store_next (v : Word) : taskAt (store64 m (nextOf t) v) t =
    { taskAt m t with next := pointer v } := by
  have hstate : load32 (store64 m (nextOf t) v) (stateOf t) = _ :=
    load32_store64_apart (apart_of_offsets (by decide) (by decide)).symm
  have hcontext : load64 (store64 m (nextOf t) v) (contextOf t) = _ :=
    load64_store64_apart (apart_of_offsets (by decide) (by decide)).symm
  have hslice : load32 (store64 m (nextOf t) v) (sliceLeftOf t) = _ :=
    load32_store64_apart (apart_of_offsets (by decide) (by decide)).symm
  rw [taskAt, hstate, hcontext, hslice, load64_store64]
  rfl

end

/-- The records of `T` hold the fields of the tasks, and outside them memory is `m₀`. -/
structure Simulates (m₀ : Memory) (T : List Word) (s : State) (a : Sched Word Word) : Prop where
  tasks : ∀ t ∈ T, taskAt s.mem t = a.task t
  head : pointer s.rqHead = a.rqHead
  tail : pointer s.rqTail = a.rqTail
  current : pointer s.current = a.current
  elsewhere : ∀ x, (∀ t ∈ T, ¬ Within t sizeofTask x) → s.mem x = m₀ x

theorem pointer_eq_none {w : Word} : pointer w = none ↔ w = 0#64 := by
  unfold pointer
  split <;> simp [*]

theorem pointer_eq_some {w t : Word} : pointer w = some t ↔ w = t ∧ t ≠ 0#64 := by
  unfold pointer
  split
  · rename_i hzero
    simp only [reduceCtorEq, hzero, false_iff, not_and, not_not]
    exact Eq.symm
  · rename_i hne
    simp only [Option.some.injEq]
    exact ⟨fun h => ⟨h, h ▸ hne⟩, And.left⟩

section
variable {m₀ : Memory} {T : List Word} {s : State} {a : Sched Word Word} {t : Word}

theorem Simulates.modify (placed : Placed T sizeofTask) (h : Simulates m₀ T s a) (ht : t ∈ T)
    {m : Memory} {f : Task Word Word → Task Word Word} (self : taskAt m t = f (taskAt s.mem t))
    (frame : ∀ x, ¬ Within t sizeofTask x → m x = s.mem x) :
    Simulates m₀ T { s with mem := m } (a.modify t f) where
  tasks u hu := by
    by_cases heq : u = t
    · rw [heq, modify_task_self, self, h.tasks t ht]
    · rw [modify_task_of_ne a f heq, ← h.tasks u hu]
      exact taskAt_congr fun x hx => frame x (placed u hu t ht heq x hx)
  head := h.head
  tail := h.tail
  current := h.current
  elsewhere x hx := (frame x (hx t ht)).trans (h.elsewhere x hx)

theorem Simulates.store_state (placed : Placed T sizeofTask) (h : Simulates m₀ T s a)
    (ht : t ∈ T) (v : BitVec 32) : Simulates m₀ T { s with mem := store32 s.mem (stateOf t) v }
      (a.modify t ({ · with state := stateOfWord v })) :=
  h.modify placed ht (taskAt_store_state s.mem t v) fun _ hx =>
    store32_of_not_within fun hfield => hx (within_of_field (by decide) hfield)

theorem Simulates.store_context (placed : Placed T sizeofTask) (h : Simulates m₀ T s a)
    (ht : t ∈ T) (v : Word) : Simulates m₀ T { s with mem := store64 s.mem (contextOf t) v }
      (a.modify t ({ · with context := v })) :=
  h.modify placed ht (taskAt_store_context s.mem t v) fun _ hx =>
    store64_of_not_within fun hfield => hx (within_of_field (by decide) hfield)

theorem Simulates.store_sliceLeft (placed : Placed T sizeofTask) (h : Simulates m₀ T s a)
    (ht : t ∈ T) (v : BitVec 32) :
    Simulates m₀ T { s with mem := store32 s.mem (sliceLeftOf t) v }
      (a.modify t ({ · with sliceLeft := v })) :=
  h.modify placed ht (taskAt_store_sliceLeft s.mem t v) fun _ hx =>
    store32_of_not_within fun hfield => hx (within_of_field (by decide) hfield)

theorem Simulates.store_next (placed : Placed T sizeofTask) (h : Simulates m₀ T s a)
    (ht : t ∈ T) (v : Word) : Simulates m₀ T { s with mem := store64 s.mem (nextOf t) v }
      (a.modify t ({ · with next := pointer v })) :=
  h.modify placed ht (taskAt_store_next s.mem t v) fun _ hx =>
    store64_of_not_within fun hfield => hx (within_of_field (by decide) hfield)

theorem Simulates.rqPush (placed : Placed T sizeofTask) (h : Simulates m₀ T s a)
    (htail : ∀ b, a.rqTail = some b → b ∈ T) (nonnull : t ≠ 0#64) :
    Simulates m₀ T (InMemory.rqPush s t) (Scheduler.rqPush a t) := by
  have hpointer : pointer t = some t := pointer_eq_some.mpr ⟨rfl, nonnull⟩
  unfold InMemory.rqPush Scheduler.rqPush
  split
  · rename_i hempty
    have hnone : a.rqTail = none := h.tail.symm.trans (pointer_eq_none.mpr hempty)
    rw [hnone]
    exact { h with head := hpointer, tail := hpointer }
  · rename_i hne
    have hsome : a.rqTail = some s.rqTail := h.tail.symm.trans (pointer_eq_some.mpr ⟨rfl, hne⟩)
    have hlink := h.store_next placed (htail _ hsome) t
    rw [hpointer] at hlink
    rw [hsome]
    exact { hlink with tail := hpointer }

theorem Simulates.rqPop (placed : Placed T sizeofTask) (h : Simulates m₀ T s a)
    (hhead : ∀ t, a.rqHead = some t → t ∈ T) :
    pointer (InMemory.rqPop s).1 = (Scheduler.rqPop a).1 ∧
      Simulates m₀ T (InMemory.rqPop s).2 (Scheduler.rqPop a).2 := by
  by_cases hempty : s.rqHead = 0#64
  · have hnone : a.rqHead = none := h.head.symm.trans (pointer_eq_none.mpr hempty)
    have hpop : InMemory.rqPop s = (0#64, s) := if_pos hempty
    have hpop' : Scheduler.rqPop a = (none, a) := by
      unfold Scheduler.rqPop
      rw [hnone]
    rw [hpop, hpop']
    exact ⟨rfl, h⟩
  · have hsome : a.rqHead = some s.rqHead := h.head.symm.trans (pointer_eq_some.mpr ⟨rfl, hempty⟩)
    have ht := hhead _ hsome
    have hnext : pointer (load64 s.mem (nextOf s.rqHead)) = (a.task s.rqHead).next :=
      congrArg Task.next (h.tasks _ ht)
    have hmoved : Simulates m₀ T { s with rqHead := load64 s.mem (nextOf s.rqHead) }
        { a with rqHead := (a.task s.rqHead).next } := { h with head := hnext }
    have hpopped : Simulates m₀ T
        (if load64 s.mem (nextOf s.rqHead) = 0#64 then
          { s with rqHead := load64 s.mem (nextOf s.rqHead), rqTail := 0#64 }
        else { s with rqHead := load64 s.mem (nextOf s.rqHead) })
        (if (a.task s.rqHead).next = none then
          { a with rqHead := (a.task s.rqHead).next, rqTail := none }
        else { a with rqHead := (a.task s.rqHead).next }) := by
      rw [← hnext]
      by_cases hlast : load64 s.mem (nextOf s.rqHead) = 0#64
      · rw [if_pos hlast, if_pos (pointer_eq_none.mpr hlast), hnext]
        exact { hmoved with tail := rfl }
      · rw [if_neg hlast, if_neg fun heq => hlast (pointer_eq_none.mp heq), hnext]
        exact hmoved
    have hcut := hpopped.store_next placed ht 0#64
    have hresult : (InMemory.rqPop s).1 = load64 s.mem (nextOf s.rqHead) := by
      rw [InMemory.rqPop, if_neg hempty]
      dsimp only
      split <;> rfl
    have hresult' : (Scheduler.rqPop a).1 = (a.task s.rqHead).next := by
      unfold Scheduler.rqPop
      rw [hsome]
      dsimp only
      split <;> rfl
    constructor
    · rw [hresult, hresult', hnext]
    · unfold InMemory.rqPop Scheduler.rqPop
      rw [if_neg hempty, hsome]
      exact hcut

theorem Simulates.enqueue (placed : Placed T sizeofTask) (h : Simulates m₀ T s a) (ht : t ∈ T)
    (htail : ∀ b, a.rqTail = some b → b ∈ T) (nonnull : t ≠ 0#64) :
    Simulates m₀ T (InMemory.schedReadyEnqueue s t) (Scheduler.schedReadyEnqueue a t) := by
  have hready := h.store_state placed ht ready
  have hslice := hready.store_sliceLeft placed ht 10#32
  have hpushed := hslice.rqPush placed htail nonnull
  have hfields : Scheduler.schedReadyEnqueue a t = Scheduler.rqPush
      ((a.modify t ({ · with state := stateOfWord ready })).modify t
        ({ · with sliceLeft := 10#32 })) t := by
    rw [Scheduler.schedReadyEnqueue]
    simp only [Sched.modify, Function.update_idem, Function.update_self]
    rfl
  rw [hfields]
  exact hpushed

theorem Simulates.setCurrent (placed : Placed T sizeofTask) (h : Simulates m₀ T s a)
    (ht : t ∈ T) (nonnull : t ≠ 0#64) :
    Simulates m₀ T (InMemory.schedSetCurrent s t) (Scheduler.schedSetCurrent a t) := by
  have hset : Simulates m₀ T { s with current := t } { a with current := some t } :=
    { h with current := pointer_eq_some.mpr ⟨rfl, nonnull⟩ }
  exact hset.store_state placed ht running

theorem Simulates.context (h : Simulates m₀ T s a) (ht : t ∈ T) :
    load64 s.mem (contextOf t) = (a.task t).context := congrArg Task.context (h.tasks t ht)

theorem Simulates.switch (placed : Placed T sizeofTask) (h : Simulates m₀ T s a) {S : List Word}
    (safe : Sealed a S) (hcurrent : ∀ c, a.current = some c → c ∈ T) (sub : ∀ t ∈ S, t ∈ T)
    (tf : Word) :
    (InMemory.scheduleOnTick.switch s tf).1 = (Scheduler.scheduleOnTick.switch a tf).1 ∧
      Simulates m₀ T (InMemory.scheduleOnTick.switch s tf).2
        (Scheduler.scheduleOnTick.switch a tf).2 := by
  obtain ⟨hnext, hpopped⟩ := h.rqPop placed fun t ht => sub t (safe.head t ht)
  have hin := safe.pop.2
  have hkept := rqPop_current a
  unfold InMemory.scheduleOnTick.switch Scheduler.scheduleOnTick.switch
  generalize InMemory.rqPop s = p at hnext hpopped
  generalize Scheduler.rqPop a = q at hnext hin hpopped hkept
  obtain ⟨next, s⟩ := p
  obtain ⟨next', b⟩ := q
  dsimp only at hnext hin hpopped hkept ⊢
  subst hnext
  by_cases hnone : next = 0#64
  · rw [if_pos hnone, pointer_eq_none.mpr hnone]
    dsimp only
    by_cases hidle : s.current = 0#64
    · rw [if_pos hidle, ← hpopped.current, pointer_eq_none.mpr hidle]
      exact ⟨rfl, hpopped⟩
    · have hsome := hpopped.current.symm.trans (pointer_eq_some.mpr ⟨rfl, hidle⟩)
      rw [if_neg hidle, hsome]
      exact ⟨hpopped.context (hcurrent _ (hkept.symm.trans hsome)), hpopped⟩
  · have hsome : pointer next = some next := pointer_eq_some.mpr ⟨rfl, hnone⟩
    have ht := sub next (hin next hsome)
    have hrunning := hpopped.store_state placed ht running
    have hset : Simulates m₀ T
        { s with mem := store32 s.mem (stateOf next) running, current := next }
        { b.modify next ({ · with state := .running }) with current := some next } :=
      { hrunning with current := hsome }
    rw [if_neg hnone, hsome]
    exact ⟨hset.context ht, hset⟩

theorem Simulates.running_iff (h : Simulates m₀ T s a) (ht : t ∈ T) :
    load32 s.mem (stateOf t) = running ↔ (a.task t).state = .running := by
  have hstate : (a.task t).state = stateOfWord (load32 s.mem (stateOf t)) :=
    congrArg Task.state (h.tasks t ht).symm
  have hne : ready ≠ running := by decide
  rw [hstate, stateOfWord]
  split
  · simp [*]
  · split <;> simp [*]

theorem modify_congr (a : Sched Word Word) {f g : Task Word Word → Task Word Word}
    (h : f (a.task t) = g (a.task t)) : a.modify t f = a.modify t g := by
  rw [Sched.modify, Sched.modify, h]

theorem Simulates.expire (placed : Placed T sizeofTask) (h : Simulates m₀ T s a) (ht : t ∈ T) :
    Simulates m₀ T
      { s with mem := store32 (store32 s.mem (sliceLeftOf t) 10#32) (stateOf t) ready }
      (a.modify t ({ · with sliceLeft := rrSliceTicks, state := .ready })) := by
  have hready := (h.store_sliceLeft placed ht 10#32).store_state placed ht ready
  have hfields : a.modify t ({ · with sliceLeft := rrSliceTicks, state := .ready }) =
      (a.modify t ({ · with sliceLeft := 10#32 })).modify t
        ({ · with state := stateOfWord ready }) := by
    simp only [Sched.modify, Function.update_idem, Function.update_self]
    rfl
  rw [hfields]
  exact hready

theorem Simulates.spend (placed : Placed T sizeofTask) (h : Simulates m₀ T s a) (ht : t ∈ T)
    (tf : Word) :
    Simulates m₀ T
      { s with
        mem := store32 (store64 s.mem (contextOf t) tf) (sliceLeftOf t)
          (load32 (store64 s.mem (contextOf t) tf) (sliceLeftOf t) - 1#32) }
      ((a.modify t ({ · with context := tf })).modify t
        fun k => { k with sliceLeft := k.sliceLeft - 1#32 }) := by
  have hsaved := h.store_context placed ht tf
  have hslice : load32 (store64 s.mem (contextOf t) tf) (sliceLeftOf t) =
      ((a.modify t ({ · with context := tf })).task t).sliceLeft :=
    congrArg Task.sliceLeft (hsaved.tasks t ht)
  rw [hslice, modify_congr (a.modify t ({ · with context := tf }))
    (g := ({ · with sliceLeft :=
      ((a.modify t ({ · with context := tf })).task t).sliceLeft - 1#32 })) rfl]
  exact hsaved.store_sliceLeft placed ht _

theorem Simulates.left_iff (h : Simulates m₀ T s a) (ht : t ∈ T) :
    (0#32).slt (load32 s.mem (sliceLeftOf t)) = true ↔
      (0#32).slt (a.task t).sliceLeft = true := by
  have hslice : load32 s.mem (sliceLeftOf t) = (a.task t).sliceLeft :=
    congrArg Task.sliceLeft (h.tasks t ht)
  rw [hslice]

/-- Pointers lead to tasks of `S`, except for the link of the last while a task runs. -/
structure Safe (a : Sched Word Word) (S : List Word) : Prop where
  closed : Closed a S
  current : ∀ c, a.current = some c → c ∈ S
  phase : (∃ c, a.current = some c ∧ (a.task c).state = .running) ∨ Sealed a S

theorem Simulates.tick (placed : Placed T sizeofTask) (h : Simulates m₀ T s a) {S : List Word}
    (safe : Safe a S) (sub : ∀ t ∈ S, t ∈ T) (tf : Word) :
    (InMemory.scheduleOnTick s tf).1 = (Scheduler.scheduleOnTick a tf).1 ∧
      Simulates m₀ T (InMemory.scheduleOnTick s tf).2 (Scheduler.scheduleOnTick a tf).2 := by
  have hin (c : Word) (hc : a.current = some c) : c ∈ T := sub c (safe.current c hc)
  unfold InMemory.scheduleOnTick Scheduler.scheduleOnTick
  by_cases hidle : s.current = 0#64
  · have hnone := h.current.symm.trans (pointer_eq_none.mpr hidle)
    have hsealed : Sealed a S := safe.phase.resolve_left fun hrunning => by
      obtain ⟨c, hc, -⟩ := hrunning
      exact absurd (hnone.symm.trans hc) (Option.some_ne_none c).symm
    rw [if_neg fun hrun => hrun.1 hidle, hnone]
    exact h.switch placed hsealed hin sub tf
  · have hcurrent := h.current.symm.trans (pointer_eq_some.mpr ⟨rfl, hidle⟩)
    have ht := hin _ hcurrent
    rw [hcurrent]
    dsimp only
    by_cases hrunning : (a.task s.current).state = .running
    · have hspent := h.spend placed ht tf
      have hleft := hspent.left_iff ht
      rw [if_pos ⟨hidle, (h.running_iff ht).mpr hrunning⟩, if_pos hrunning]
      split
      · rename_i hpos
        rw [if_pos (hleft.mp hpos)]
        exact ⟨hspent.context ht, hspent⟩
      · rename_i hzero
        rw [if_neg fun hpos => hzero (hleft.mpr hpos)]
        have hfields : ((a.modify s.current ({ · with context := tf })).modify s.current
            fun k => { k with sliceLeft := k.sliceLeft - 1#32 }).modify s.current
              ({ · with sliceLeft := rrSliceTicks, state := .ready }) =
            expired a s.current tf := by
          rw [modify_modify, modify_modify, expired]
        have hexpired := hspent.expire placed ht
        rw [hfields] at hexpired ⊢
        have hclosed : Closed (expired a s.current tf) S :=
          safe.closed.congr rfl rfl (expired_next a _ tf)
        have hpushed := hexpired.rqPush placed (fun b hb => sub b (hclosed.tail b hb)) hidle
        refine hpushed.switch placed (hclosed.push (safe.current _ hcurrent)) (fun c hc => ?_)
          sub tf
        exact hin c ((rqPush_current (expired a s.current tf) s.current).symm.trans hc)
    · have hsealed : Sealed a S := safe.phase.resolve_left fun hrun => by
        obtain ⟨c, hc, hstate⟩ := hrun
        obtain rfl := Option.some.inj (hcurrent.symm.trans hc)
        exact hrunning hstate
      rw [if_neg fun hrun => hrunning ((h.running_iff ht).mp hrun.2), if_neg hrunning]
      exact h.switch placed hsealed hin sub tf

end

section
variable {a : Sched Word Word} {S : List Word} {t : Word}

theorem safe_of_sealed (h : Sealed a S) (current : ∀ c, a.current = some c → c ∈ S) : Safe a S :=
  ⟨h.toClosed, current, .inr h⟩

theorem Safe.enqueue (h : Safe a S) (ht : t ∈ S) : Safe (Scheduler.schedReadyEnqueue a t) S := by
  have hclosed : Closed (a.modify t ({ · with state := .ready, sliceLeft := rrSliceTicks })) S :=
    h.closed.congr rfl rfl (modify_next a t)
  refine safe_of_sealed (hclosed.push ht) fun c hc => ?_
  rw [Scheduler.schedReadyEnqueue, rqPush_current] at hc
  exact h.current c hc

theorem Safe.setCurrent (h : Safe a S) (ht : t ∈ S) : Safe (Scheduler.schedSetCurrent a t) S where
  closed := h.closed.congr rfl rfl (setCurrent_next a t)
  current _ hc := Option.some.inj hc ▸ ht
  phase := .inl ⟨t, rfl, setCurrent_running a t⟩

theorem Safe.switch (h : Sealed a S) (current : ∀ c, a.current = some c → c ∈ S) (tf : Word) :
    Safe (Scheduler.scheduleOnTick.switch a tf).2 S := by
  obtain ⟨hpopped, hin⟩ := h.pop
  have hkept : Safe (Scheduler.rqPop a).2 S := safe_of_sealed hpopped fun c hc =>
    current c ((rqPop_current a).symm.trans hc)
  cases hnext : (Scheduler.rqPop a).1 with
  | none =>
    rw [switch_none hnext]
    exact hkept
  | some d =>
    rw [switch_some hnext]
    exact hkept.setCurrent (hin d hnext)

theorem Safe.tick (h : Safe a S) (tf : Word) : Safe (Scheduler.scheduleOnTick a tf).2 S := by
  cases hcurrent : a.current with
  | none =>
    have hsealed := h.phase.resolve_left fun hrunning => by
      obtain ⟨c, hc, -⟩ := hrunning
      exact absurd (hcurrent.symm.trans hc) (Option.some_ne_none c).symm
    unfold Scheduler.scheduleOnTick
    rw [hcurrent]
    exact Safe.switch hsealed h.current tf
  | some c =>
    by_cases hrunning : (a.task c).state = .running
    · by_cases left : GoesOn (a.task c).sliceLeft
      · rw [scheduleOnTick_keep hcurrent hrunning left]
        have hstate := congrArg Prod.fst ((ticked_fields a c c tf).trans (if_pos rfl))
        exact {
          closed := h.closed.congr rfl rfl (ticked_next a c tf)
          current := h.current
          phase := .inl ⟨c, hcurrent, hstate.trans hrunning⟩ }
      · rw [scheduleOnTick_expire hcurrent hrunning left]
        have hclosed : Closed (expired a c tf) S := h.closed.congr rfl rfl (expired_next a c tf)
        refine Safe.switch (hclosed.push (h.current c hcurrent)) (fun d hd => ?_) tf
        exact h.current d ((rqPush_current (expired a c tf) c).symm.trans hd)
    · have hsealed := h.phase.resolve_left fun hrun => by
        obtain ⟨d, hd, hstate⟩ := hrun
        obtain rfl := Option.some.inj (hcurrent.symm.trans hd)
        exact hrunning hstate
      unfold Scheduler.scheduleOnTick
      rw [hcurrent]
      dsimp only
      rw [if_neg hrunning]
      exact Safe.switch hsealed h.current tf

end

inductive Call where
  | enqueue (t : Word)
  | setCurrent (t : Word)
  | tick (tf : Word)

/-- The tasks of a call are among those of `T`. -/
def Call.Of (T : List Word) : Call → Prop
  | .enqueue t => t ∈ T
  | .setCurrent t => t ∈ T
  | .tick _ => True

/-- A call on memory. A tick answers the context to return to. -/
def State.call (s : State) : Call → Option Word × State
  | .enqueue t => (none, schedReadyEnqueue s t)
  | .setCurrent t => (none, schedSetCurrent s t)
  | .tick tf => ((scheduleOnTick s tf).1, (scheduleOnTick s tf).2)

/-- The same call on the fields of tasks. -/
def callTasks (a : Sched Word Word) : Call → Option Word × Sched Word Word
  | .enqueue t => (none, Scheduler.schedReadyEnqueue a t)
  | .setCurrent t => (none, Scheduler.schedSetCurrent a t)
  | .tick tf => ((Scheduler.scheduleOnTick a tf).1, (Scheduler.scheduleOnTick a tf).2)

section
variable {m₀ : Memory} {T : List Word} {s : State} {a : Sched Word Word}

theorem Simulates.call (placed : Placed T sizeofTask) (nonnull : ∀ t ∈ T, t ≠ 0#64)
    (h : Simulates m₀ T s a) (safe : Safe a T) {call : Call} (known : call.Of T) :
    (s.call call).1 = (callTasks a call).1 ∧
      Simulates m₀ T (s.call call).2 (callTasks a call).2 ∧
      Safe (callTasks a call).2 T := by
  cases call with
  | enqueue t =>
    have hnext := h.enqueue placed known safe.closed.tail (nonnull t known)
    exact ⟨rfl, hnext, safe.enqueue known⟩
  | setCurrent t =>
    have hnext := h.setCurrent placed known (nonnull t known)
    exact ⟨rfl, hnext, safe.setCurrent known⟩
  | tick tf =>
    obtain ⟨hcontext, hnext⟩ := h.tick placed safe (fun _ ht => ht) tf
    exact ⟨congrArg some hcontext, hnext, safe.tick tf⟩

/-- No pointer of the scheduler or of a record of `T` leads out of `T`. -/
structure Linked (T : List Word) (s : State) : Prop where
  head : ∀ t, pointer s.rqHead = some t → t ∈ T
  tail : ∀ t, pointer s.rqTail = some t → t ∈ T
  current : ∀ t, pointer s.current = some t → t ∈ T
  next : ∀ t ∈ T, ∀ u, pointer (load64 s.mem (nextOf t)) = some u → u ∈ T

theorem simulates_schedAt (T : List Word) (s : State) : Simulates s.mem T s (schedAt s) where
  tasks _ _ := rfl
  head := rfl
  tail := rfl
  current := rfl
  elsewhere _ _ := rfl

theorem Simulates.closed (h : Simulates m₀ T s a) (closed : Closed a T) : Closed (schedAt s) T where
  head t ht := closed.head t (h.head.symm.trans ht)
  tail t ht := closed.tail t (h.tail.symm.trans ht)
  next t ht hlast u hu := closed.next t ht (fun heq => hlast (h.tail.trans heq)) u
    ((congrArg Task.next (h.tasks t ht)).symm.trans hu)

theorem Linked.safe (h : Linked T s) : Safe (schedAt s) T :=
  safe_of_sealed ⟨⟨h.head, h.tail, fun t ht _ => h.next t ht⟩, h.next⟩ h.current

/-- Whatever is enqueued, set current and ticked, the scheduler returns the contexts that the
fields of its tasks call for. The records hold those fields, and no other byte changes. -/
theorem records_hold_tasks (T : List Word) (placed : Placed T sizeofTask)
    (nonnull : ∀ t ∈ T, t ≠ 0#64) (s : State) (linked : Linked T s) (calls : List Call)
    (known : ∀ call ∈ calls, call.Of T) :
    answers State.call s calls = answers callTasks (schedAt s) calls ∧
      (∀ t ∈ T, taskAt (Run.run (next State.call) s calls).mem t =
        (Run.run (next callTasks) (schedAt s) calls).task t) ∧
      pointer (Run.run (next State.call) s calls).current =
        (Run.run (next callTasks) (schedAt s) calls).current ∧
      ∀ x, (∀ t ∈ T, ¬ Within t sizeofTask x) →
        (Run.run (next State.call) s calls).mem x = s.mem x := by
  have sim (s' : State) (a : Sched Word Word) (call : Call)
      (hrel : Simulates s.mem T s' a ∧ Safe a T) (hknown : call.Of T) :
      (s'.call call).1 = (callTasks a call).1 ∧
        Simulates s.mem T (s'.call call).2 (callTasks a call).2 ∧
        Safe (callTasks a call).2 T :=
    hrel.1.call placed nonnull hrel.2 hknown
  obtain ⟨hanswers, hlast, -⟩ := answers_eq sim ⟨simulates_schedAt T s, linked.safe⟩ known
  exact ⟨hanswers, hlast.tasks, hlast.current, hlast.elsewhere⟩

end

/-! Two records side by side in a zeroed heap. -/

def twoRecords : List Word := [0x80A00000, 0x80A00038]

def zeroed : State := ⟨fun _ => 0, 0, 0, 0⟩

theorem placed_twoRecords : Placed twoRecords sizeofTask := by
  have happart : Apart 0x80A00000#64 sizeofTask 0x80A00038#64 sizeofTask :=
    apart_of_le (by decide) (by decide)
  intro t ht u hu hne
  simp only [twoRecords, List.mem_cons, List.not_mem_nil, or_false] at ht hu
  rcases ht with rfl | rfl <;> rcases hu with rfl | rfl
  · exact absurd rfl hne
  · exact happart
  · exact happart.symm
  · exact absurd rfl hne

def twoCalls : List Call :=
  [.enqueue 0x80A00000, .enqueue 0x80A00038, .setCurrent 0x80A00000] ++
    (List.range 11).map fun i => .tick (BitVec.ofNat 64 i)

private theorem of_twoCalls : ∀ call ∈ twoCalls, call.Of twoRecords := by
  intro call hcall
  rcases List.mem_append.mp hcall with hstart | htick
  · simp only [List.mem_cons, List.not_mem_nil, or_false] at hstart
    rcases hstart with rfl | rfl | rfl
    · exact List.mem_cons_self
    · exact List.mem_cons_of_mem _ List.mem_cons_self
    · exact List.mem_cons_self
  · obtain ⟨i, -, rfl⟩ := List.mem_map.mp htick
    trivial

private theorem nonnull_twoRecords : ∀ t ∈ twoRecords, t ≠ 0#64 := by
  intro t ht
  simp only [twoRecords, List.mem_cons, List.not_mem_nil, or_false] at ht
  rcases ht with rfl | rfl <;> simp

private theorem linked_zeroed : Linked twoRecords zeroed where
  head := nofun
  tail := nofun
  current := nofun
  next t _ u hu := by
    have hzero : load64 zeroed.mem (nextOf t) = 0#64 := by
      unfold load64 zeroed
      dsimp only
      decide
    rw [hzero] at hu
    nomatch hu

theorem records_hold_tasks_two :
    answers State.call zeroed twoCalls = answers callTasks (schedAt zeroed) twoCalls ∧
      (∀ t ∈ twoRecords, taskAt (Run.run (next State.call) zeroed twoCalls).mem t =
        (Run.run (next callTasks) (schedAt zeroed) twoCalls).task t) ∧
      pointer (Run.run (next State.call) zeroed twoCalls).current =
        (Run.run (next callTasks) (schedAt zeroed) twoCalls).current ∧
      ∀ x, (∀ t ∈ twoRecords, ¬ Within t sizeofTask x) →
        (Run.run (next State.call) zeroed twoCalls).mem x = 0 :=
  records_hold_tasks twoRecords placed_twoRecords nonnull_twoRecords zeroed linked_zeroed
    twoCalls of_twoCalls

end KernelFuzzing.Scheduler.InMemory
