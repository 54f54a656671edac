import Mathlib.Data.List.Rotate
import Mathlib.Data.Nat.ModEq
import KernelFuzzing.Foundation.Run
import KernelFuzzing.Scheduler.Sched

/-! Round robin from the boot protocol on: the running task stays at the head of the
queue, and moves to its end when its slice is over. -/
namespace KernelFuzzing.Scheduler
open Foundation Chain

variable {ι C : Type*} [DecidableEq ι]

/-- The current task runs and heads the queue, with the tasks of `l` behind it. -/
structure Rotating (s : Sched ι C) (c : ι) (l : List ι) : Prop where
  queue : Queue s (c :: l)
  current : s.current = some c
  running : (s.task c).state = .running

section
variable {s : Sched ι C} {c d : ι} {l l' : List ι}

theorem Rotating.keep (h : Rotating s c l) (left : GoesOn (s.task c).sliceLeft) (tf : C) :
    Rotating (scheduleOnTick s tf).2 c l := by
  rw [scheduleOnTick_keep h.current h.running left]
  have hfields := ticked_fields s c c tf
  rw [if_pos rfl] at hfields
  exact ⟨h.queue.ticked c tf, h.current, (congrArg Prod.fst hfields).trans h.running⟩

theorem Rotating.expire (h : Rotating s c l) (spent : ¬ GoesOn (s.task c).sliceLeft)
    (turn : l ++ [c] = d :: l') (tf : C) :
    Rotating (scheduleOnTick s tf).2 d l' ∧
      (∀ t, (scheduleOnTick s tf).2.fields t =
        if t = d then (.running, ((expired s c tf).fields t).2)
        else (expired s c tf).fields t) ∧
      (scheduleOnTick s tf).1 = ((expired s c tf).task d).context := by
  obtain ⟨hfirst, hqueue⟩ := (h.queue.expired c tf).rotate
  rw [turn, List.head?_cons] at hfirst
  rw [turn] at hqueue
  have hfields : (rqPop (rqPush (expired s c tf) c)).2.fields = (expired s c tf).fields := by
    rw [rqPop_fields, rqPush_fields]
  have hcontext : ((rqPush (expired s c tf) c).task d).context =
      ((expired s c tf).task d).context :=
    congrArg (fun f => (f d).2.1) (rqPush_fields (expired s c tf) c)
  rw [scheduleOnTick_expire h.current h.running spent, switch_some hfirst]
  refine ⟨⟨hqueue.setCurrent d, rfl, setCurrent_running _ d⟩, fun t => ?_, hcontext⟩
  rw [setCurrent_fields, hfields]

theorem Rotating.tick_next (h : Rotating s c l) (tf : C) {u : ι} (hu : u ∉ c :: l) :
    (scheduleOnTick s tf).2.next u = s.next u := by
  by_cases left : GoesOn (s.task c).sliceLeft
  · rw [scheduleOnTick_keep h.current h.running left]
    exact congrFun (ticked_next s c tf) u
  · have hexpired := h.queue.expired c tf
    obtain ⟨d, l', turn⟩ := List.exists_cons_of_ne_nil (List.concat_ne_nil c l)
    have hfirst := hexpired.rotate.1
    rw [turn, List.head?_cons] at hfirst
    rw [scheduleOnTick_expire h.current h.running left, switch_some hfirst,
      setCurrent_next, hexpired.rotate_next hu, expired_next]

theorem Queue.enqueue (h : Queue s l) {t : ι} (fresh : t ∉ l) (null : s.next t = none) :
    Queue (schedReadyEnqueue s t) (l ++ [t]) := by
  refine (h.modify t).rqPush fresh ?_
  rw [modify_next s t]
  exact null

theorem Queue.enqueue_next (h : Queue s l) (t : ι) {u : ι} (hu : u ∉ l) :
    (schedReadyEnqueue s t).next u = s.next u := by
  have hmodify : (s.modify t ({ · with state := .ready, sliceLeft := rrSliceTicks })).next =
      s.next := modify_next s t
  rw [← hmodify, schedReadyEnqueue, Scheduler.rqPush, modify_rqTail, h.tail]
  cases hlast : l.getLast? with
  | none => rfl
  | some b =>
    have hne : u ≠ b := fun heq => hu (heq ▸ List.mem_of_getLast? hlast)
    change (Sched.modify _ b ({ · with next := some t })).next u = _
    rw [modify_next_set, Function.update_of_ne hne]

theorem waiting_enqueue
    (h : ∀ t ∈ l, ∃ context, s.fields t = (.ready, context, rrSliceTicks)) (t : ι) :
    ∀ u ∈ l ++ [t], ∃ context,
      (schedReadyEnqueue s t).fields u = (.ready, context, rrSliceTicks) := by
  intro u hu
  by_cases heq : u = t
  · rw [heq]
    exact ⟨_, enqueue_fields s t⟩
  · have hmem : u ∈ l := by simpa [heq] using hu
    obtain ⟨context, hfields⟩ := h u hmem
    exact ⟨context, (enqueue_fields_of_ne s heq).trans hfields⟩

theorem Rotating.enqueue (h : Rotating s c l) {t : ι} (fresh : t ∉ c :: l)
    (null : s.next t = none) : Rotating (schedReadyEnqueue s t) c (l ++ [t]) := by
  have hne : c ≠ t := fun heq => fresh (heq ▸ List.mem_cons_self)
  refine ⟨h.queue.enqueue fresh null, (enqueue_current s t).trans h.current, ?_⟩
  exact (congrArg Prod.fst (enqueue_fields_of_ne s hne)).trans h.running

end

structure System (ι C : Type*) where
  sched : Sched ι C
  enqueued : List ι

inductive Op (ι C : Type*) where
  | enqueue (t : ι)
  | tick (tf : C)

def step (s : System ι C) : Op ι C → System ι C
  | .enqueue t => ⟨schedReadyEnqueue s.sched t, s.enqueued ++ [t]⟩
  | .tick tf => ⟨(scheduleOnTick s.sched tf).2, s.enqueued⟩

/-- Only tasks that were not enqueued before are, and their `next` is null. -/
def Fresh (s : System ι C) : Op ι C → Prop
  | .enqueue t => t ∉ s.enqueued ∧ s.sched.next t = none
  | .tick _ => True

/-- The static pointers before boot, over tasks in memory. -/
def System.idle (task : ι → Task ι C) : System ι C := ⟨⟨task, none, none, none⟩, []⟩

def setCurrent (s : System ι C) (c : ι) : System ι C :=
  { s with sched := schedSetCurrent s.sched c }

/-- The boot protocol: the tasks are enqueued in order and the first is set current. -/
def boot (task : ι → Task ι C) (first : ι) (rest : List ι) : System ι C :=
  setCurrent (Run.run step (.idle task) ((first :: rest).map .enqueue)) first

/-- The list from `rqHead` is finite and acyclic and ends at `rqTail` with a null
`next`; it holds each enqueued task once; its head is current and the only task that
runs, the others being ready with a full slice. -/
structure InOrder (s : System ι C) (l : List ι) : Prop where
  linked : Linked s.sched.next s.sched.rqHead l
  nodup : l.Nodup
  tail : s.sched.rqTail = l.getLast?
  tailNext : ∀ t, s.sched.rqTail = some t → s.sched.next t = none
  all : l.Perm s.enqueued
  current : ∃ c, s.sched.current = some c ∧ l.head? = some c ∧
    (s.sched.task c).state = .running
  others : ∀ t ∈ s.enqueued, s.sched.current ≠ some t →
    (s.sched.task t).state = .ready ∧ (s.sched.task t).sliceLeft = rrSliceTicks

/-- The rotation that the system keeps: each waiting task is ready, its slice full. -/
structure Turning (s : System ι C) (c : ι) (l : List ι) : Prop where
  rotating : Rotating s.sched c l
  all : (c :: l).Perm s.enqueued
  waiting : ∀ t ∈ l, ∃ context, s.sched.fields t = (.ready, context, rrSliceTicks)

section
variable {s : System ι C} {c d : ι} {l l' : List ι}

omit [DecidableEq ι] in
theorem Turning.nodup (h : Turning s c l) : (c :: l).Nodup := h.rotating.queue.linked.nodup

omit [DecidableEq ι] in
theorem Turning.inOrder (h : Turning s c l) : InOrder s (c :: l) where
  linked := h.rotating.queue.linked
  nodup := h.nodup
  tail := h.rotating.queue.tail
  tailNext := by
    intro t ht
    exact h.rotating.queue.linked.last (h.rotating.queue.tail ▸ ht)
  all := h.all
  current := ⟨c, h.rotating.current, rfl, h.rotating.running⟩
  others := by
    intro t ht hcurrent
    have hmem : t ∈ c :: l := h.all.mem_iff.mpr ht
    have hne : t ≠ c := fun heq => hcurrent (heq ▸ h.rotating.current)
    obtain ⟨context, hfields⟩ := h.waiting t (List.mem_of_ne_of_mem hne hmem)
    exact ⟨congrArg Prod.fst hfields, congrArg (fun f => f.2.2) hfields⟩

theorem Turning.enqueue (h : Turning s c l) {t : ι} (fresh : Fresh s (.enqueue t : Op ι C)) :
    Turning (step s (.enqueue t)) c (l ++ [t]) := by
  have hnot : t ∉ c :: l := fun hmem => fresh.1 (h.all.mem_iff.mp hmem)
  exact ⟨h.rotating.enqueue hnot fresh.2, h.all.append_right [t], waiting_enqueue h.waiting t⟩

theorem Turning.keep (h : Turning s c l) (left : GoesOn (s.sched.task c).sliceLeft) (tf : C) :
    Turning (step s (.tick tf)) c l ∧ ((step s (.tick tf)).sched.task c).sliceLeft =
      (s.sched.task c).sliceLeft - 1#32 := by
  refine ⟨⟨h.rotating.keep left tf, h.all, fun t ht => ?_⟩, ?_⟩
  · have hne : t ≠ c := fun heq => (List.nodup_cons.mp h.nodup).1 (heq ▸ ht)
    rw [step, scheduleOnTick_keep h.rotating.current h.rotating.running left]
    dsimp only
    rw [ticked_fields, if_neg hne]
    exact h.waiting t ht
  · have hfields := ticked_fields s.sched c c tf
    rw [if_pos rfl] at hfields
    rw [step, scheduleOnTick_keep h.rotating.current h.rotating.running left]
    exact congrArg (fun f => f.2.2) hfields

theorem Turning.expire (h : Turning s c l) (spent : ¬ GoesOn (s.sched.task c).sliceLeft)
    (turn : l ++ [c] = d :: l') (tf : C) :
    Turning (step s (.tick tf)) d l' ∧
      ((step s (.tick tf)).sched.task d).sliceLeft = rrSliceTicks := by
  obtain ⟨hrotating, hfields, -⟩ := h.rotating.expire spent turn tf
  have hperm : (d :: l').Perm (c :: l) := turn ▸ List.perm_append_singleton c l
  have full (t : ι) (ht : t ∈ d :: l') :
      ∃ state context, (expired s.sched c tf).fields t = (state, context, rrSliceTicks) ∧
        state = .ready := by
    rw [expired_fields]
    split
    · exact ⟨_, _, rfl, rfl⟩
    · rename_i hne
      obtain ⟨context, hwait⟩ := h.waiting t
        (List.mem_of_ne_of_mem hne (hperm.mem_iff.mp ht))
      exact ⟨_, _, hwait, rfl⟩
  refine ⟨⟨hrotating, hperm.trans h.all, fun t ht => ?_⟩, ?_⟩
  · have hne : t ≠ d := fun heq =>
      (List.nodup_cons.mp hrotating.queue.linked.nodup).1 (heq ▸ ht)
    obtain ⟨state, context, hfull, rfl⟩ := full t (List.mem_cons_of_mem d ht)
    exact ⟨context, by rw [step, hfields, if_neg hne, hfull]⟩
  · obtain ⟨state, context, hfull, -⟩ := full d List.mem_cons_self
    have hd := hfields d
    rw [if_pos rfl, hfull] at hd
    exact congrArg (fun f => f.2.2) hd

end

/-- The tasks enqueued before one is set current: all ready, in order. -/
structure Ready (s : System ι C) (l : List ι) : Prop where
  queue : Queue s.sched l
  all : s.enqueued = l
  waiting : ∀ t ∈ l, ∃ context, s.sched.fields t = (.ready, context, rrSliceTicks)

private theorem Ready.enqueue {s : System ι C} {l : List ι} (h : Ready s l) {t : ι}
    (fresh : t ∉ l) (null : s.sched.next t = none) : Ready (step s (.enqueue t)) (l ++ [t]) := by
  exact ⟨h.queue.enqueue fresh null, by rw [step, h.all], waiting_enqueue h.waiting t⟩

private theorem Ready.enqueueAll {s : System ι C} {l : List ι} (h : Ready s l) (ts : List ι)
    (nodup : (l ++ ts).Nodup) (null : ∀ t ∈ ts, s.sched.next t = none) :
    Ready (Run.run step s (ts.map .enqueue)) (l ++ ts) := by
  induction ts generalizing s l with
  | nil => simpa using h
  | cons t ts ih =>
    have hsplit : l ++ t :: ts = l ++ [t] ++ ts := by simp
    rw [hsplit] at nodup ⊢
    have fresh : t ∉ l := fun hmem =>
      (List.nodup_append.mp (List.nodup_append.mp nodup).1).2.2 t hmem t
        (List.mem_singleton_self t) rfl
    refine ih (h.enqueue fresh (null t List.mem_cons_self)) nodup fun u hu => ?_
    have hnot : u ∉ l := fun hmem =>
      (List.nodup_append.mp nodup).2.2 u (List.mem_append_left _ hmem) u hu rfl
    exact (h.queue.enqueue_next t hnot).trans (null u (List.mem_cons_of_mem t hu))

omit [DecidableEq ι] in
private theorem ready_idle (task : ι → Task ι C) : Ready (.idle task) [] :=
  ⟨⟨rfl, rfl⟩, rfl, by simp⟩

theorem turning_boot {task : ι → Task ι C} {first : ι} {rest : List ι}
    (nodup : (first :: rest).Nodup) (null : ∀ t ∈ first :: rest, (task t).next = none) :
    Turning (boot task first rest) first rest ∧
      ((boot task first rest).sched.task first).sliceLeft = rrSliceTicks := by
  have hready := (ready_idle task).enqueueAll (first :: rest) nodup null
  rw [List.nil_append] at hready
  have hall : (boot task first rest).enqueued = first :: rest := hready.all
  refine ⟨⟨⟨hready.queue.setCurrent first, rfl, setCurrent_running _ first⟩, ?_, fun t ht => ?_⟩,
    ?_⟩
  · rw [hall]
  · have hne : t ≠ first := fun heq => (List.nodup_cons.mp nodup).1 (heq ▸ ht)
    obtain ⟨context, hfields⟩ := hready.waiting t (List.mem_cons_of_mem first ht)
    refine ⟨context, ?_⟩
    rw [boot, setCurrent, setCurrent_fields, if_neg hne, hfields]
  · obtain ⟨context, hfields⟩ := hready.waiting first List.mem_cons_self
    have hfirst := setCurrent_fields
      (Run.run step (.idle task) ((first :: rest).map .enqueue)).sched first first
    rw [if_pos rfl, hfields] at hfirst
    exact congrArg (fun f => f.2.2) hfirst

private theorem turning_step {s : System ι C} {op : Op ι C}
    (h : ∃ c l, Turning s c l) (fresh : Fresh s op) : ∃ c l, Turning (step s op) c l := by
  obtain ⟨c, l, hturning⟩ := h
  cases op with
  | enqueue t => exact ⟨c, l ++ [t], hturning.enqueue fresh⟩
  | tick tf =>
    by_cases left : GoesOn (s.sched.task c).sliceLeft
    · exact ⟨c, l, (hturning.keep left tf).1⟩
    · obtain ⟨d, l', turn⟩ := List.exists_cons_of_ne_nil (List.concat_ne_nil c l)
      exact ⟨d, l', (hturning.expire left turn tf).1⟩

/-- The first `m` ticks, with the frames they save. -/
def ticks (tf : Nat → C) (m : Nat) : List (Op ι C) := (List.range m).map fun i => .tick (tf i)

private theorem run_ticks_succ (s : System ι C) (tf : Nat → C) (m : Nat) :
    Run.run step s (ticks tf (m + 1)) = step (Run.run step s (ticks tf m)) (.tick (tf m)) := by
  rw [ticks, List.range_succ, List.map_append, Run.run_append]
  rfl

theorem turning_ticks {task : ι → Task ι C} {first : ι} {rest : List ι}
    (nodup : (first :: rest).Nodup) (null : ∀ t ∈ first :: rest, (task t).next = none)
    (tf : Nat → C) (m : Nat) :
    ∃ c l, Turning (Run.run step (boot task first rest) (ticks tf m)) c l ∧
      c :: l = (first :: rest).rotate (m / 10) ∧
      ((Run.run step (boot task first rest) (ticks tf m)).sched.task c).sliceLeft =
        BitVec.ofNat 32 (10 - m % 10) := by
  induction m with
  | zero =>
    obtain ⟨hturning, hslice⟩ := turning_boot nodup null
    exact ⟨first, rest, hturning, (List.rotate_zero _).symm, hslice⟩
  | succ m ih =>
    obtain ⟨c, l, hturning, hqueue, hslice⟩ := ih
    rw [run_ticks_succ]
    by_cases hlast : m % 10 = 9
    · obtain ⟨d, l', turn⟩ := List.exists_cons_of_ne_nil (List.concat_ne_nil c l)
      have spent : ¬ GoesOn (BitVec.ofNat 32 (10 - m % 10)) := by
        rw [hlast]
        decide
      rw [← hslice] at spent
      obtain ⟨hnext, hfull⟩ := hturning.expire spent turn (tf m)
      have hdiv : (m + 1) / 10 = m / 10 + 1 := by omega
      refine ⟨d, l', hnext, ?_, ?_⟩
      · rw [hdiv, ← List.rotate_rotate, ← hqueue, ← turn, List.rotate_cons_succ,
          List.rotate_zero]
      · have hfirst : (m + 1) % 10 = 0 := by omega
        rw [hfull, hfirst]
        rfl
    · have left : GoesOn (BitVec.ofNat 32 (10 - m % 10)) := by
        rw [goesOn_iff, BitVec.toNat_ofNat]
        omega
      rw [← hslice] at left
      obtain ⟨hnext, hleft⟩ := hturning.keep left (tf m)
      have hdiv : (m + 1) / 10 = m / 10 := by omega
      refine ⟨c, l, hnext, by rw [hdiv, hqueue], ?_⟩
      rw [hleft, hslice]
      bv_omega

/-- The task that is current after `m` ticks. -/
def currentAfter (task : ι → Task ι C) (first : ι) (rest : List ι) (tf : Nat → C) (m : Nat) :
    Option ι :=
  (Run.run step (boot task first rest) (ticks tf m)).sched.current

private theorem currentAfter_eq {task : ι → Task ι C} {first : ι} {rest : List ι}
    (nodup : (first :: rest).Nodup) (null : ∀ t ∈ first :: rest, (task t).next = none)
    (tf : Nat → C) (m : Nat) : currentAfter task first rest tf m =
      (first :: rest)[m / 10 % (first :: rest).length]? := by
  obtain ⟨c, l, hturning, hqueue, -⟩ := turning_ticks nodup null tf m
  have hhead : (c :: l)[0]? = ((first :: rest).rotate (m / 10))[0]? := by rw [hqueue]
  rw [List.getElem?_rotate (by simp), Nat.zero_add] at hhead
  exact hturning.rotating.current.trans hhead

/-- A task has the `k`-th slice when it is current during its ten ticks. -/
def HasSlice (current : Nat → Option ι) (t : ι) (k : Nat) : Prop :=
  ∀ r < 10, current (10 * k + r) = some t

omit [DecidableEq ι] in
private theorem hasSlice_iff {current : Nat → Option ι} {tasks : List ι}
    (h : ∀ m, current m = tasks[m / 10 % tasks.length]?) (t : ι) (k : Nat) :
    HasSlice current t k ↔ tasks[k % tasks.length]? = some t := by
  constructor
  · intro hslice
    have hfirst := hslice 0 (by decide)
    rwa [h, Nat.add_zero, Nat.mul_div_cancel_left k (by decide)] at hfirst
  · intro hturn r hr
    have hdiv : (10 * k + r) / 10 = k := by omega
    rw [h, hdiv, hturn]

private theorem exists_unique_turn {n q k : Nat} (hq : q < n) (hne : k % n ≠ q) :
    ∃ j, k < j ∧ j < k + n ∧ j % n = q ∧
      ∀ j', k < j' → j' < k + n → j' % n = q → j' = j := by
  have hk : k % n < n := Nat.mod_lt k (by omega)
  have hsplit := Nat.div_add_mod k n
  obtain ⟨a, ha, hpos, hmod⟩ : ∃ a, a < n ∧ 0 < a ∧ (k + a) % n = q := by
    by_cases hle : k % n ≤ q
    · refine ⟨q - k % n, by omega, by omega, ?_⟩
      have hsum : k + (q - k % n) = n * (k / n) + q := by omega
      rw [hsum, Nat.mul_add_mod, Nat.mod_eq_of_lt hq]
    · refine ⟨q + n - k % n, by omega, by omega, ?_⟩
      have hsum : k + (q + n - k % n) = n * (k / n) + (n + q) := by omega
      rw [hsum, Nat.mul_add_mod, Nat.add_mod_left, Nat.mod_eq_of_lt hq]
  refine ⟨k + a, by omega, by omega, hmod, fun j' hlow hhigh hj' => ?_⟩
  obtain ⟨b, rfl⟩ := Nat.exists_eq_add_of_le (Nat.le_of_lt hlow)
  have hcongr : Nat.ModEq n (k + b) (k + a) := hj'.trans hmod.symm
  have hab := (Nat.ModEq.add_left_cancel' k hcongr).eq_of_lt_of_lt (by omega) ha
  rw [hab]

/-- The boot protocol and every later interleaving keep the queue in order, and a
fixed set of tasks takes turns of ten ticks. -/
theorem round_robin (task : ι → Task ι C) (first : ι) (rest : List ι)
    (nodup : (first :: rest).Nodup) (null : ∀ t ∈ first :: rest, (task t).next = none) :
    (∀ ops, Run.Guarded step Fresh (boot task first rest) ops →
      Run.Always step (fun s => ∃ l, InOrder s l) (boot task first rest) ops) ∧
    ∀ tf : Nat → C,
      (∀ m, currentAfter task first rest tf m =
        (first :: rest)[m / 10 % (first :: rest).length]?) ∧
      ∀ k t, HasSlice (currentAfter task first rest tf) t k →
        HasSlice (currentAfter task first rest tf) t (k + (first :: rest).length) ∧
        ∀ u ∈ first :: rest, u ≠ t → ∃! j, k < j ∧ j < k + (first :: rest).length ∧
          HasSlice (currentAfter task first rest tf) u j := by
  refine ⟨fun ops fresh => ?_, fun tf => ⟨currentAfter_eq nodup null tf, fun k t hslice => ?_⟩⟩
  · have start : ∃ c l, Turning (boot task first rest) c l :=
      ⟨first, rest, (turning_boot nodup null).1⟩
    have always : Run.Always step (fun s => ∃ c l, Turning s c l) (boot task first rest) ops :=
      Run.always_of_guarded (fun _ _ => turning_step) start fresh
    refine always.mono ?_
    rintro s ⟨c, l, hturning⟩
    exact ⟨c :: l, hturning.inOrder⟩
  · have hturn := hasSlice_iff (currentAfter_eq nodup null tf)
    have hholder := (hturn t k).mp hslice
    refine ⟨(hturn t _).mpr (by rw [Nat.add_mod_right, hholder]), fun u hu hne => ?_⟩
    obtain ⟨q, hq, hget⟩ := List.getElem_of_mem hu
    have hother : k % (first :: rest).length ≠ q := by
      intro heq
      rw [heq, List.getElem?_eq_getElem hq, hget] at hholder
      exact hne (Option.some.inj hholder)
    obtain ⟨j, hlow, hhigh, hmod, hunique⟩ := exists_unique_turn hq hother
    have hu' : (first :: rest)[q]? = some u := by rw [List.getElem?_eq_getElem hq, hget]
    refine ⟨j, ⟨hlow, hhigh, (hturn u j).mpr (by rw [hmod, hu'])⟩, ?_⟩
    rintro j' ⟨hlow', hhigh', hslice'⟩
    refine hunique j' hlow' hhigh' ?_
    have hlt : j' % (first :: rest).length < (first :: rest).length :=
      Nat.mod_lt _ (by simp)
    have hget' := (hturn u j').mp hslice'
    rw [← hu'] at hget'
    exact (List.getElem?_inj hlt nodup).mp hget'

theorem round_robin_three_tasks :
    currentAfter (ι := Fin 3) (C := Nat) (fun _ => ⟨.ready, 0, 0, none⟩) 0 [1, 2] id 55 =
      some 2 :=
  ((round_robin (fun _ => ⟨.ready, 0, 0, none⟩) 0 [1, 2] (by decide)
    fun _ _ => rfl).2 id).1 55

end KernelFuzzing.Scheduler
