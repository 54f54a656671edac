import KernelFuzzing.Scheduler.RoundRobin

/-! Which tasks the scheduler keeps: `rqPop` cuts off the head of the queue and
returns the task behind it, so that the head is lost unless it is the current task. -/
namespace KernelFuzzing.Scheduler
open Foundation Chain

variable {ι C : Type*} [DecidableEq ι]

/-- The current task runs, and every task ever enqueued is current or met once along
the queue. -/
def Conserved (s : System ι C) : Prop :=
  ∃ c, s.sched.current = some c ∧ (s.sched.task c).state = .running ∧
    ∀ t ∈ s.enqueued, t = c ∨ MetOnce s.sched.next s.sched.rqHead t

/-- A tick with no current task finds the queue empty or headed by `c`. -/
def SparesOthers (c : ι) (s : System ι C) : Op ι C → Prop
  | .enqueue _ => True
  | .tick _ => s.sched.current = none → s.sched.rqHead = none ∨ s.sched.rqHead = some c

/-- Only fresh tasks other than the current one are enqueued. -/
def FreshBut (c : ι) (s : System ι C) (op : Op ι C) : Prop :=
  Fresh s op ∧ ∀ t, op = .enqueue t → t ≠ c

def tickCount (ops : List (Op ι C)) : Nat :=
  ops.countP fun op => match op with
    | .enqueue _ => false
    | .tick _ => true

/-- The ticks until a slice has run out. The least `int` wraps at the first of them. -/
def sliceTicks (v : BitVec 32) : Nat :=
  if v = BitVec.intMin 32 then 2 ^ 31 else max 1 v.toInt.toNat

theorem sliceTicks_pos (v : BitVec 32) : 0 < sliceTicks v := by
  unfold sliceTicks
  split
  · decide
  · omega

theorem sliceTicks_of_goesOn {v : BitVec 32} (h : GoesOn v) : sliceTicks v = v.toNat := by
  rw [goesOn_iff] at h
  have hmin : (BitVec.intMin 32).toNat = 2 ^ 31 := by decide
  unfold sliceTicks
  split
  · rename_i heq
    rw [heq, hmin]
  · rename_i hne
    have hlt : v.toNat ≠ 2 ^ 31 := fun heq => hne (BitVec.eq_of_toNat_eq (heq.trans hmin.symm))
    rw [BitVec.toInt_eq_toNat_cond, if_pos (by omega)]
    omega

theorem sliceTicks_of_not {v : BitVec 32} (h : ¬ GoesOn v) : sliceTicks v = 1 := by
  have hne : v ≠ BitVec.intMin 32 := by
    rintro rfl
    exact h (by decide)
  rw [goesOn_iff] at h
  unfold sliceTicks
  rw [if_neg hne, BitVec.toInt_eq_toNat_cond]
  split <;> omega

theorem sliceTicks_sub_one {v : BitVec 32} (h : GoesOn v) :
    sliceTicks v = sliceTicks (v - 1#32) + 1 := by
  rw [sliceTicks_of_goesOn h]
  rw [goesOn_iff] at h
  have hsub : (v - 1#32).toNat = v.toNat - 1 := by bv_omega
  by_cases more : GoesOn (v - 1#32)
  · rw [sliceTicks_of_goesOn more]
    omega
  · rw [sliceTicks_of_not more]
    rw [goesOn_iff] at more
    omega

/-- The queue before `setCurrent`: a list, headed by the current task if there is one,
with every other enqueued task cut off. -/
structure Shape (s : System ι C) (q : List ι) : Prop where
  queue : Queue s.sched q
  known : ∀ t ∈ q, t ∈ s.enqueued
  phase : s.sched.current = none ∨ ∃ d l, q = d :: l ∧ Rotating s.sched d l
  cut : ∀ t ∈ s.enqueued, t ∉ q → s.sched.next t = none

omit [DecidableEq ι] in
theorem shape_idle (task : ι → Task ι C) : Shape (.idle task) [] :=
  ⟨⟨rfl, rfl⟩, by simp, .inl rfl, by simp [System.idle]⟩

section
variable {s : System ι C} {q : List ι}

theorem Shape.enqueue (h : Shape s q) {t : ι} (fresh : Fresh s (.enqueue t : Op ι C)) :
    Shape (step s (.enqueue t)) (q ++ [t]) := by
  have hnot : t ∉ q := fun hmem => fresh.1 (h.known t hmem)
  refine ⟨h.queue.enqueue hnot fresh.2, fun u hu => ?_, ?_, fun u hu huq => ?_⟩
  · exact List.mem_append.mpr ((List.mem_append.mp hu).imp_left (h.known u))
  · rcases h.phase with hnone | ⟨d, l, rfl, hrotating⟩
    · exact .inl ((enqueue_current s.sched t).trans hnone)
    · exact .inr ⟨d, l ++ [t], rfl, hrotating.enqueue hnot fresh.2⟩
  · have hq : u ∉ q := fun hmem => huq (List.mem_append_left _ hmem)
    have ht : u ∉ [t] := fun hmem => huq (List.mem_append_right _ hmem)
    rw [step, h.queue.enqueue_next t hq]
    exact h.cut u ((List.mem_append.mp hu).resolve_right ht) hq

theorem Shape.tick_none (h : Shape s q) (hnone : s.sched.current = none) (tf : C) :
    Shape (step s (.tick tf)) q.tail := by
  have hswitch : scheduleOnTick s.sched tf = scheduleOnTick.switch s.sched tf := by
    rw [scheduleOnTick, hnone]
  cases q with
  | nil =>
    have hpop : rqPop s.sched = (none, s.sched) := by
      rw [rqPop, h.queue.linked.head]
      rfl
    have hstep : step s (.tick tf) = s := by
      rw [step, hswitch, switch_none (congrArg Prod.fst hpop), hpop]
    rw [hstep]
    exact h
  | cons a l =>
    obtain ⟨hfirst, hqueue⟩ := h.queue.rqPop
    have hnext : (rqPop s.sched).2.next = Function.update s.sched.next a none :=
      rqPop_next h.queue.linked.1
    have hcut (u : ι) (hu : u ∈ s.enqueued) (hul : u ∉ l) : (rqPop s.sched).2.next u = none := by
      rw [hnext]
      by_cases hua : u = a
      · rw [hua, Function.update_self]
      · rw [Function.update_of_ne hua]
        exact h.cut u hu fun hmem => hul (List.mem_of_ne_of_mem hua hmem)
    have hknown (u : ι) (hu : u ∈ l) : u ∈ s.enqueued := h.known u (List.mem_cons_of_mem a hu)
    cases l with
    | nil =>
      have hstep : (step s (.tick tf)).sched = (rqPop s.sched).2 := by
        rw [step, hswitch, switch_none hfirst]
      refine ⟨hstep ▸ hqueue, hknown, .inl ?_, fun u hu hul => ?_⟩
      · rw [hstep, rqPop_current, hnone]
      · rw [hstep]
        exact hcut u hu hul
    | cons b l =>
      have hstep : (step s (.tick tf)).sched = schedSetCurrent (rqPop s.sched).2 b := by
        rw [step, hswitch, switch_some hfirst]
      have hset : Queue (step s (.tick tf)).sched (b :: l) := by
        rw [hstep]
        exact hqueue.setCurrent b
      refine ⟨hset, hknown, .inr ⟨b, l, rfl, hset, ?_, ?_⟩, fun u hu hul => ?_⟩
      · rw [hstep]
        rfl
      · rw [hstep]
        exact setCurrent_running _ b
      · rw [hstep, setCurrent_next]
        exact hcut u hu hul

theorem Shape.tick_some (h : Shape s q) (hsome : s.sched.current ≠ none) (tf : C) :
    ∃ q', Shape (step s (.tick tf)) q' ∧ q'.Perm q := by
  obtain ⟨d, l, rfl, hrotating⟩ := h.phase.resolve_left hsome
  by_cases left : GoesOn (s.sched.task d).sliceLeft
  · have hkeep := hrotating.keep left tf
    refine ⟨d :: l, ⟨hkeep.queue, h.known, .inr ⟨d, l, rfl, hkeep⟩, fun u hu hul => ?_⟩, .refl _⟩
    rw [step, hrotating.tick_next tf hul]
    exact h.cut u hu hul
  · obtain ⟨e, l', turn⟩ := List.exists_cons_of_ne_nil (List.concat_ne_nil d l)
    have hperm : (e :: l').Perm (d :: l) := turn ▸ List.perm_append_singleton d l
    obtain ⟨hnext, -, -⟩ := hrotating.expire left turn tf
    refine ⟨e :: l', ⟨hnext.queue, fun u hu => h.known u (hperm.mem_iff.mp hu),
      .inr ⟨e, l', rfl, hnext⟩, fun u hu hul => ?_⟩, hperm⟩
    have hold : u ∉ d :: l := fun hmem => hul (hperm.mem_iff.mpr hmem)
    rw [step, hrotating.tick_next tf hold]
    exact h.cut u hu hold

end

def Held (c : ι) (s : System ι C) : Prop :=
  ∃ q, Shape s q ∧ ∀ t ∈ s.enqueued, t ∈ q ∨ t = c

def Lost (a : ι) (s : System ι C) : Prop := ∃ q, Shape s q ∧ a ∈ s.enqueued ∧ a ∉ q

section
variable {s : System ι C} {op : Op ι C} {a c : ι}

theorem lost_step (h : Lost a s) (fresh : Fresh s op) : Lost a (step s op) := by
  obtain ⟨q, hshape, ha, hq⟩ := h
  cases op with
  | enqueue t =>
    have hne : a ≠ t := fun heq => fresh.1 (heq ▸ ha)
    exact ⟨q ++ [t], hshape.enqueue fresh, List.mem_append_left _ ha, by simp [hq, hne]⟩
  | tick tf =>
    by_cases hcurrent : s.sched.current = none
    · exact ⟨q.tail, hshape.tick_none hcurrent tf, ha, fun hmem => hq (List.mem_of_mem_tail hmem)⟩
    · obtain ⟨q', hnext, hperm⟩ := hshape.tick_some hcurrent tf
      exact ⟨q', hnext, ha, fun hmem => hq (hperm.mem_iff.mp hmem)⟩

theorem held_step (h : Held c s) (fresh : Fresh s op) (spares : SparesOthers c s op) :
    Held c (step s op) := by
  obtain ⟨q, hshape, hall⟩ := h
  cases op with
  | enqueue t =>
    refine ⟨q ++ [t], hshape.enqueue fresh, fun u hu => ?_⟩
    rcases List.mem_append.mp hu with hold | hnew
    · exact (hall u hold).imp_left fun hmem => List.mem_append_left _ hmem
    · exact .inl (List.mem_append_right _ hnew)
  | tick tf =>
    by_cases hcurrent : s.sched.current = none
    · refine ⟨q.tail, hshape.tick_none hcurrent tf, fun u hu => ?_⟩
      have hhead : q.head? = none ∨ q.head? = some c :=
        hshape.queue.linked.head ▸ spares hcurrent
      rcases hall u hu with hmem | heq
      · cases q with
        | nil => exact .inl hmem
        | cons d l =>
          have hd : d = c := by simpa using hhead
          rcases List.mem_cons.mp hmem with hud | hul
          · exact .inr (hud.trans hd)
          · exact .inl hul
      · exact .inr heq
    · obtain ⟨q', hnext, hperm⟩ := hshape.tick_some hcurrent tf
      exact ⟨q', hnext, fun u hu => (hall u hu).imp_left fun hmem => hperm.mem_iff.mpr hmem⟩

theorem lost_of_held (h : Held c s) (not_spares : ¬ SparesOthers c s op) :
    ∃ a, a ≠ c ∧ Lost a (step s op) := by
  obtain ⟨q, hshape, -⟩ := h
  cases op with
  | enqueue t => exact absurd trivial not_spares
  | tick tf =>
    simp only [SparesOthers, Classical.not_imp, not_or] at not_spares
    obtain ⟨hcurrent, hne, hother⟩ := not_spares
    have hhead := hshape.queue.linked.head
    cases q with
    | nil => exact absurd hhead hne
    | cons d l =>
      refine ⟨d, fun heq => hother (heq ▸ hhead), l, hshape.tick_none hcurrent tf,
        hshape.known d List.mem_cons_self, ?_⟩
      exact (List.nodup_cons.mp hshape.queue.linked.nodup).1

theorem held_or_lost {pre : List (Op ι C)} (h : Held c s) (fresh : Run.Guarded step Fresh s pre) :
    Run.Guarded step (SparesOthers c) s pre ∧ Held c (Run.run step s pre) ∨
      ¬ Run.Guarded step (SparesOthers c) s pre ∧ ∃ a, a ≠ c ∧ Lost a (Run.run step s pre) := by
  induction pre generalizing s with
  | nil => exact .inl ⟨trivial, h⟩
  | cons op ops ih =>
    rw [Run.guarded_cons] at fresh ⊢
    by_cases spares : SparesOthers c s op
    · simpa [spares] using ih (held_step h fresh.1 spares) fresh.2
    · obtain ⟨a, hne, hlost⟩ := lost_of_held h spares
      have always : Run.Always step (Lost a) (step s op) ops :=
        Run.always_of_guarded (fun _ _ => lost_step) hlost fresh.2
      exact .inr ⟨fun hg => spares hg.1, a, hne, always.last⟩

end

def Whole (s : System ι C) : Prop :=
  ∃ d l, Rotating s.sched d l ∧ ∀ t, t ∈ s.enqueued ↔ t ∈ d :: l

theorem whole_step {s : System ι C} {op : Op ι C} (h : Whole s) (fresh : Fresh s op) :
    Whole (step s op) := by
  obtain ⟨d, l, hrotating, hall⟩ := h
  cases op with
  | enqueue t =>
    have hnot : t ∉ d :: l := fun hmem => fresh.1 ((hall t).mpr hmem)
    refine ⟨d, l ++ [t], hrotating.enqueue hnot fresh.2, fun u => ?_⟩
    rw [← List.cons_append, List.mem_append, ← hall u]
    exact List.mem_append
  | tick tf =>
    by_cases left : GoesOn (s.sched.task d).sliceLeft
    · exact ⟨d, l, hrotating.keep left tf, hall⟩
    · obtain ⟨e, l', turn⟩ := List.exists_cons_of_ne_nil (List.concat_ne_nil d l)
      have hperm : (e :: l').Perm (d :: l) := turn ▸ List.perm_append_singleton d l
      exact ⟨e, l', (hrotating.expire left turn tf).1,
        fun u => (hall u).trans hperm.mem_iff.symm⟩

omit [DecidableEq ι] in
theorem Whole.conserved {s : System ι C} (h : Whole s) : Conserved s := by
  obtain ⟨d, l, hrotating, hall⟩ := h
  exact ⟨d, hrotating.current, hrotating.running, fun t ht =>
    .inr (hrotating.queue.linked.metOnce_iff.mpr ((hall t).mp ht))⟩

/-- The current task is not at the head of the queue; every other task is queued. -/
structure Detached (c : ι) (s : System ι C) (q : List ι) : Prop where
  queue : Queue s.sched q
  current : s.sched.current = some c
  running : (s.sched.task c).state = .running
  head : q.head? ≠ some c
  known : ∀ t ∈ q, t ∈ s.enqueued
  kept : ∀ t ∈ s.enqueued, t ∈ q ∨ t = c
  cut : c ∉ q → s.sched.next c = none

section
variable {s : System ι C} {c : ι} {q : List ι}

omit [DecidableEq ι] in
theorem Detached.conserved (h : Detached c s q) : Conserved s :=
  ⟨c, h.current, h.running, fun t ht =>
    (h.kept t ht).symm.imp_right h.queue.linked.metOnce_iff.mpr⟩

theorem Detached.enqueue (h : Detached c s q) {t : ι}
    (fresh : FreshBut c s (.enqueue t : Op ι C)) :
    Detached c (step s (.enqueue t)) (q ++ [t]) := by
  have hnot : t ∉ q := fun hmem => fresh.1.1 (h.known t hmem)
  have hne : c ≠ t := fun heq => fresh.2 t rfl heq.symm
  refine ⟨h.queue.enqueue hnot fresh.1.2, (enqueue_current s.sched t).trans h.current, ?_, ?_,
    fun u hu => ?_, fun u hu => ?_, fun hc => ?_⟩
  · exact (congrArg Prod.fst (enqueue_fields_of_ne s.sched hne)).trans h.running
  · have hhead := h.head
    cases q with
    | nil => simpa using hne.symm
    | cons d l => exact hhead
  · exact List.mem_append.mpr ((List.mem_append.mp hu).imp_left (h.known u))
  · rcases List.mem_append.mp hu with hold | hnew
    · exact (h.kept u hold).imp_left fun hmem => List.mem_append_left _ hmem
    · exact .inl (List.mem_append_right _ hnew)
  · have hq : c ∉ q := fun hmem => hc (List.mem_append_left _ hmem)
    rw [step, h.queue.enqueue_next t hq]
    exact h.cut hq

theorem Detached.keep (h : Detached c s q) (left : GoesOn (s.sched.task c).sliceLeft) (tf : C) :
    Detached c (step s (.tick tf)) q ∧ ((step s (.tick tf)).sched.task c).sliceLeft =
      (s.sched.task c).sliceLeft - 1#32 := by
  have hfields := ticked_fields s.sched c c tf
  rw [if_pos rfl] at hfields
  rw [step, scheduleOnTick_keep h.current h.running left]
  refine ⟨⟨h.queue.ticked c tf, h.current, (congrArg Prod.fst hfields).trans h.running, h.head,
    h.known, h.kept, fun hc => ?_⟩, congrArg (fun f => f.2.2) hfields⟩
  exact (congrFun (ticked_next s.sched c tf) c).trans (h.cut hc)

private theorem Detached.pop_nil (h : Detached c s []) (tf : C) :
    (rqPop (rqPush (expired s.sched c tf) c)).1 = none := by
  have hqueue := h.queue.expired c tf
  have hpush : (rqPush (expired s.sched c tf) c).rqHead = some c ∧
      (rqPush (expired s.sched c tf) c).next = s.sched.next := by
    rw [rqPush, hqueue.tail]
    exact ⟨rfl, expired_next s.sched c tf⟩
  rw [rqPop_of_head hpush.1, hpush.2, h.cut List.not_mem_nil]

private theorem Detached.pop_cons {a : ι} {l : List ι} (h : Detached c s (a :: l)) (tf : C) :
    ∃ d, (rqPop (rqPush (expired s.sched c tf) c)).1 = some d ∧
      (rqPop (rqPush (expired s.sched c tf) c)).2.rqHead = some d ∧ (d ∈ l ∨ d = c) ∧
      ∀ t, t ∈ l ∨ t = c → ∀ u,
        (rqPop (rqPush (expired s.sched c tf) c)).2.next t = some u → u ∈ l ∨ u = c := by
  have hqueue := h.queue.expired c tf
  have hac : a ≠ c := fun heq => h.head (congrArg some heq)
  have hal : a ∉ l := (List.nodup_cons.mp h.queue.linked.nodup).1
  obtain ⟨b, hb, -, htail⟩ := hqueue.exists_last
  obtain ⟨hlink, hhead, -⟩ := rqPush_of_tail htail c
  rw [expired_next] at hlink
  have hhead' := hhead.trans hqueue.linked.1
  obtain ⟨d, hd, hmem⟩ : ∃ d, (rqPush (expired s.sched c tf) c).next a = some d ∧
      (d ∈ l ∨ d = c) := by
    rw [hlink]
    by_cases hab : a = b
    · exact ⟨c, by rw [hab, Function.update_self], .inr rfl⟩
    · obtain ⟨x, l', hl⟩ := List.exists_cons_of_length_pos
        (List.length_pos_of_mem (List.mem_of_ne_of_mem (Ne.symm hab) hb))
      refine ⟨x, ?_, .inl (hl ▸ List.mem_cons_self)⟩
      rw [Function.update_of_ne hab, h.queue.linked.2.head, hl]
      rfl
  refine ⟨d, by rw [rqPop_of_head hhead', hd], by rw [rqPop_of_head hhead', hd]; rfl, hmem,
    fun t ht u hu => ?_⟩
  have hta : t ≠ a := by
    rintro rfl
    exact ht.elim hal hac
  rw [rqPop_next hhead', Function.update_of_ne hta, hlink] at hu
  by_cases htb : t = b
  · rw [htb, Function.update_self] at hu
    exact .inr (Option.some.inj hu).symm
  · rw [Function.update_of_ne htb] at hu
    by_cases htl : t ∈ l
    · exact .inl (h.queue.linked.2.next_mem htl hu)
    · have htc : t = c := ht.resolve_left htl
      have hcut : s.sched.next c = none := h.cut fun hmem => by
        rcases List.mem_cons.mp hmem with hca | hcl
        · exact hac hca.symm
        · exact htl (htc ▸ hcl)
      rw [htc, hcut] at hu
      exact absurd hu (Option.some_ne_none u).symm

/-- When the slice of a detached task is over, nothing runs or the head of the queue
is lost. -/
theorem Detached.not_conserved (h : Detached c s q) (spent : ¬ GoesOn (s.sched.task c).sliceLeft)
    (tf : C) : ¬ Conserved (step s (.tick tf)) := by
  rintro ⟨d, hcurrent, hrunning, hall⟩
  rw [step, scheduleOnTick_expire h.current h.running spent] at hcurrent hrunning hall
  have hfields : (rqPop (rqPush (expired s.sched c tf) c)).2.fields =
      (expired s.sched c tf).fields := by
    rw [rqPop_fields, rqPush_fields]
  cases q with
  | nil =>
    rw [switch_none (h.pop_nil tf)] at hcurrent hrunning
    rw [rqPop_current, rqPush_current] at hcurrent
    have hdc : d = c := Option.some.inj (hcurrent.symm.trans h.current)
    have hready := congrArg Prod.fst ((congrFun hfields c).trans (expired_fields s.sched c c tf))
    rw [if_pos rfl] at hready
    rw [hdc] at hrunning
    have hstate : TaskState.running = .ready := hrunning.symm.trans hready
    exact absurd hstate (by decide)
  | cons a l =>
    obtain ⟨e, hfirst, hhead, hmem, hclosed⟩ := h.pop_cons tf
    rw [switch_some hfirst] at hcurrent hall
    have hal : ¬ (a ∈ l ∨ a = c) := by
      rintro (hmem | heq)
      · exact (List.nodup_cons.mp h.queue.linked.nodup).1 hmem
      · exact h.head (congrArg some heq)
    have hde : e = d := Option.some.inj hcurrent
    rcases hall a (h.known a List.mem_cons_self) with heq | ⟨n, hvisit, -⟩
    · exact hal (heq ▸ hde ▸ hmem)
    · refine hal (mem_of_visit (S := {t | t ∈ l ∨ t = c}) (fun t ht => ?_) ?_ hvisit)
      · exact Option.some.inj (hhead.symm.trans ht) ▸ hmem
      · rw [setCurrent_next]
        exact hclosed

/-- A tick that the slice of `c` outlasts. -/
def HasTime (c : ι) (s : System ι C) : Op ι C → Prop
  | .enqueue _ => True
  | .tick _ => GoesOn (s.sched.task c).sliceLeft

theorem Detached.step {op : Op ι C} (h : ∃ q, Detached c s q) (fresh : FreshBut c s op)
    (time : HasTime c s op) : ∃ q, Detached c (Scheduler.step s op) q := by
  obtain ⟨q, hq⟩ := h
  cases op with
  | enqueue t => exact ⟨q ++ [t], hq.enqueue fresh⟩
  | tick tf => exact ⟨q, (hq.keep time tf).1⟩

theorem hasTime_iff {ops : List (Op ι C)} (h : ∃ q, Detached c s q)
    (fresh : Run.Guarded step (FreshBut c) s ops) :
    Run.Guarded step (HasTime c) s ops ↔
      tickCount ops < sliceTicks (s.sched.task c).sliceLeft := by
  induction ops generalizing s with
  | nil => simpa [tickCount] using sliceTicks_pos (s.sched.task c).sliceLeft
  | cons op ops ih =>
    rw [Run.guarded_cons] at fresh ⊢
    cases op with
    | enqueue t =>
      have hne : c ≠ t := fun heq => fresh.1.2 t rfl heq.symm
      have hslice : ((step s (.enqueue t : Op ι C)).sched.task c).sliceLeft =
          (s.sched.task c).sliceLeft :=
        congrArg (fun f => f.2.2) (enqueue_fields_of_ne s.sched hne)
      rw [ih (Detached.step h fresh.1 trivial) fresh.2, hslice]
      simp [tickCount, HasTime]
    | tick tf =>
      have hcount : tickCount (.tick tf :: ops : List (Op ι C)) = tickCount ops + 1 := by
        simp [tickCount]
      rw [hcount]
      by_cases left : GoesOn (s.sched.task c).sliceLeft
      · obtain ⟨q, hq⟩ := h
        obtain ⟨hnext, hslice⟩ := hq.keep left tf
        rw [ih ⟨q, hnext⟩ fresh.2, hslice]
        rw [sliceTicks_sub_one left]
        simp only [HasTime, left, true_and]
        omega
      · rw [sliceTicks_of_not left]
        simp only [HasTime, left, false_and, false_iff]
        omega

theorem detached_conserved_iff {ops : List (Op ι C)} (h : ∃ q, Detached c s q)
    (fresh : Run.Guarded step (FreshBut c) s ops) :
    Run.Always step Conserved s ops ↔
      tickCount ops < sliceTicks (s.sched.task c).sliceLeft := by
  rw [← hasTime_iff h fresh]
  refine Run.always_iff_guarded (fun _ ⟨_, hq⟩ => hq.conserved)
    (fun _ _ => Detached.step) (fun s op hdetached hfresh hover => ?_) h fresh
  obtain ⟨q, hq⟩ := hdetached
  cases op with
  | enqueue t => exact absurd trivial hover
  | tick tf => exact hq.not_conserved hover tf

end

private theorem not_conserved_of_lost {s : System ι C} {a c : ι} (h : Lost a s) (hne : a ≠ c) :
    ¬ Conserved (setCurrent s c) := by
  obtain ⟨q, hshape, ha, hq⟩ := h
  rintro ⟨d, hcurrent, -, hall⟩
  have hqueue : Queue (setCurrent s c).sched q := hshape.queue.setCurrent c
  rcases hall a ha with had | hmet
  · exact hne (had.trans (Option.some.inj hcurrent).symm)
  · exact hq (hqueue.linked.metOnce_iff.mp hmet)

private theorem whole_setCurrent {s : System ι C} {c : ι} {q : List ι} (h : Shape s q)
    (hall : ∀ t ∈ s.enqueued, t ∈ q ∨ t = c) (hhead : s.sched.rqHead = some c) :
    Whole (setCurrent s c) := by
  have hq := h.queue.linked.head.symm.trans hhead
  obtain ⟨l, rfl⟩ := List.head?_eq_some_iff.mp hq
  refine ⟨c, l, ⟨h.queue.setCurrent c, rfl, setCurrent_running _ c⟩, fun t => ⟨fun ht => ?_,
    h.known t⟩⟩
  rcases hall t ht with hmem | rfl
  · exact hmem
  · exact List.mem_cons_self

private theorem detached_setCurrent {s : System ι C} {c : ι} {q : List ι} (h : Shape s q)
    (hall : ∀ t ∈ s.enqueued, t ∈ q ∨ t = c) (hhead : s.sched.rqHead ≠ some c)
    (null : c ∉ s.enqueued → s.sched.next c = none) : Detached c (setCurrent s c) q := by
  refine ⟨h.queue.setCurrent c, rfl, setCurrent_running _ c, fun hq => ?_, h.known, hall,
    fun hc => ?_⟩
  · exact hhead (h.queue.linked.head.trans hq)
  · rw [setCurrent, setCurrent_next]
    by_cases henqueued : c ∈ s.enqueued
    · exact h.cut c henqueued hc
    · exact null henqueued

private theorem conserved_iff_of_run {s : System ι C} {pre post : List (Op ι C)} {c : ι}
    (start : Held c s) (fresh : Run.Guarded step Fresh s pre)
    (null : c ∉ (Run.run step s pre).enqueued → (Run.run step s pre).sched.next c = none)
    (later : Run.Guarded step (FreshBut c) (setCurrent (Run.run step s pre) c) post) :
    Run.Always step Conserved (setCurrent (Run.run step s pre) c) post ↔
      Run.Guarded step (SparesOthers c) s pre ∧
        ((Run.run step s pre).sched.rqHead = some c ∨
          tickCount post < sliceTicks ((Run.run step s pre).sched.task c).sliceLeft) := by
  rcases held_or_lost start fresh with ⟨spares, q, hshape, hall⟩ | ⟨hover, a, hne, hlost⟩
  · rw [and_iff_right spares]
    by_cases hhead : (Run.run step s pre).sched.rqHead = some c
    · have always : Run.Always step Whole (setCurrent (Run.run step s pre) c) post :=
        Run.always_of_guarded (fun _ _ => whole_step) (whole_setCurrent hshape hall hhead)
          (later.mono fun _ _ h => h.1)
      exact iff_of_true (always.mono fun _ => Whole.conserved) (.inl hhead)
    · have hdetached := detached_setCurrent hshape hall hhead null
      have hslice : ((setCurrent (Run.run step s pre) c).sched.task c).sliceLeft =
          ((Run.run step s pre).sched.task c).sliceLeft := by
        have hfields := setCurrent_fields (Run.run step s pre).sched c c
        rw [if_pos rfl] at hfields
        exact congrArg (fun f => f.2.2) hfields
      rw [detached_conserved_iff ⟨q, hdetached⟩ later, hslice, or_iff_right hhead]
  · exact iff_of_false (fun always => not_conserved_of_lost hlost hne always.first)
      fun h => hover h.1

omit [DecidableEq ι] in
private theorem held_idle (task : ι → Task ι C) (c : ι) : Held c (.idle task) :=
  ⟨[], shape_idle task, by simp [System.idle]⟩

/-- No task is lost from `setCurrent` on exactly when the ticks without a current task
dropped `c` at most, and either `c` heads the queue or its slice outlasts the ticks. -/
theorem conserved_iff_head_or_slice (task : ι → Task ι C) (pre post : List (Op ι C)) (c : ι)
    (fresh : Run.Guarded step Fresh (.idle task) pre)
    (null : c ∉ (Run.run step (.idle task) pre).enqueued →
      (Run.run step (.idle task) pre).sched.next c = none)
    (later : Run.Guarded step (FreshBut c) (setCurrent (Run.run step (.idle task) pre) c) post) :
    Run.Always step Conserved (setCurrent (Run.run step (.idle task) pre) c) post ↔
      Run.Guarded step (SparesOthers c) (.idle task) pre ∧
        ((Run.run step (.idle task) pre).sched.rqHead = some c ∨
          tickCount post <
            sliceTicks ((Run.run step (.idle task) pre).sched.task c).sliceLeft) :=
  conserved_iff_of_run (held_idle task c) fresh null later

def twoTasks : List (Op Bool Nat) := [.enqueue false, .enqueue true]

def inMemory (_ : Bool) : Task Bool Nat := ⟨.ready, 0, 0, none⟩

private theorem fresh_twoTasks : Run.Guarded step Fresh (.idle inMemory) twoTasks :=
  ⟨⟨by decide, rfl⟩, ⟨by decide, rfl⟩, trivial⟩

private theorem spares_twoTasks (c : Bool) :
    Run.Guarded step (SparesOthers c) (.idle inMemory) twoTasks := ⟨trivial, trivial, trivial⟩

private theorem freshBut_ticks (c : ι) (s : System ι C) (tf : C) (n : Nat) :
    Run.Guarded step (FreshBut c) s (List.replicate n (.tick tf)) := by
  induction n generalizing s with
  | zero => trivial
  | succ n ih => exact ⟨⟨trivial, fun _ h => nomatch h⟩, ih _⟩

theorem not_conserved_second_current :
    Run.Guarded step Fresh (.idle inMemory) twoTasks ∧
      true ∈ (Run.run step (.idle inMemory) twoTasks).enqueued ∧
      Run.Guarded step (FreshBut true)
        (setCurrent (Run.run step (.idle inMemory) twoTasks) true) (List.replicate 10 (.tick 0)) ∧
      ¬ Run.Always step Conserved
        (setCurrent (Run.run step (.idle inMemory) twoTasks) true)
        (List.replicate 10 (.tick 0)) := by
  have later := freshBut_ticks true
    (setCurrent (Run.run step (.idle inMemory) twoTasks) true) 0 10
  refine ⟨fresh_twoTasks, by decide, later, fun always => ?_⟩
  have hexact := (conserved_iff_of_run (held_idle inMemory true) fresh_twoTasks
    (fun h => absurd (by decide) h) later).mp always
  exact absurd hexact.2 (by decide)

theorem conserved_first_current :
    Run.Always step Conserved
      (setCurrent (Run.run step (.idle inMemory) twoTasks) false)
      (List.replicate 10 (.tick 0)) :=
  (conserved_iff_head_or_slice inMemory twoTasks (List.replicate 10 (.tick 0)) false
    fresh_twoTasks (fun h => absurd (by decide) h) (freshBut_ticks false _ 0 10)).mpr
      ⟨spares_twoTasks false, .inl rfl⟩

end KernelFuzzing.Scheduler
