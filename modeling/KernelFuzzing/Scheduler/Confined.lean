import KernelFuzzing.Scheduler.Sched

/-! Ticks stay within the set of enqueued tasks, whatever the `next` field of a task
holds when it is enqueued, and keep every saved context pointer. -/
namespace KernelFuzzing.Scheduler

variable {ι C : Type*}

/-- Pointers lead from tasks of `S` to tasks of `S`, except for the link of the last. -/
structure Closed (s : Sched ι C) (S : List ι) : Prop where
  head : ∀ t, s.rqHead = some t → t ∈ S
  tail : ∀ t, s.rqTail = some t → t ∈ S
  next : ∀ t ∈ S, s.rqTail ≠ some t → ∀ u, s.next t = some u → u ∈ S

/-- Every link of a task of `S` leads to a task of `S`. -/
structure Sealed (s : Sched ι C) (S : List ι) : Prop extends Closed s S where
  links : ∀ t ∈ S, ∀ u, s.next t = some u → u ∈ S

theorem Closed.congr {s s' : Sched ι C} {S : List ι} (h : Closed s S)
    (head : s'.rqHead = s.rqHead) (tail : s'.rqTail = s.rqTail) (next : s'.next = s.next) :
    Closed s' S where
  head t ht := h.head t (head ▸ ht)
  tail t ht := h.tail t (tail ▸ ht)
  next t ht hlast u hu := h.next t ht (tail ▸ hlast) u (next ▸ hu)

theorem Sealed.congr {s s' : Sched ι C} {S : List ι} (h : Sealed s S)
    (head : s'.rqHead = s.rqHead) (tail : s'.rqTail = s.rqTail) (next : s'.next = s.next) :
    Sealed s' S where
  toClosed := h.toClosed.congr head tail next
  links t ht u hu := h.links t ht u (next ▸ hu)

variable [DecidableEq ι] {s : Sched ι C} {S : List ι} {c : ι}

theorem rqPush_of_none (h : s.rqTail = none) (t : ι) :
    rqPush s t = { s with rqHead := some t, rqTail := some t } := by
  unfold rqPush
  rw [h]

theorem Closed.enqueue (h : Closed s S) (t : ι) : Closed (schedReadyEnqueue s t) (S ++ [t]) := by
  have hmodify : Closed (s.modify t ({ · with state := .ready, sliceLeft := rrSliceTicks })) S :=
    h.congr rfl rfl (modify_next s t)
  rw [schedReadyEnqueue]
  generalize s.modify t _ = s' at hmodify
  have old {u : ι} (hu : u ∈ S ++ [t]) (hne : u ≠ t) : u ∈ S := by simpa [hne] using hu
  have this : t ∈ S ++ [t] := List.mem_append_right S (List.mem_singleton_self t)
  cases htail : s'.rqTail with
  | none =>
    rw [rqPush_of_none htail]
    constructor
    · intro u hu
      exact Option.some.inj hu ▸ this
    · intro u hu
      exact Option.some.inj hu ▸ this
    · intro u hu hlast v hv
      have hne : u ≠ t := fun heq => hlast (heq ▸ rfl)
      have hmem := hmodify.next u (old hu hne) (by simp [htail]) v hv
      exact List.mem_append_left _ hmem
  | some b =>
    have hpush := rqPush_of_tail htail t
    constructor
    · intro u hu
      exact List.mem_append_left _ (hmodify.head u (hpush.2.1 ▸ hu))
    · intro u hu
      rw [hpush.2.2] at hu
      exact Option.some.inj hu ▸ this
    · intro u hu hlast v hv
      rw [hpush.2.2] at hlast
      rw [hpush.1] at hv
      by_cases hub : u = b
      · rw [hub, Function.update_self] at hv
        exact Option.some.inj hv ▸ this
      · rw [Function.update_of_ne hub] at hv
        have hne : u ≠ t := fun heq => hlast (heq ▸ rfl)
        have hother : s'.rqTail ≠ some u := fun heq => hub (Option.some.inj (heq.symm.trans htail))
        exact List.mem_append_left _ (hmodify.next u (old hu hne) hother v hv)

theorem Closed.push (h : Closed s S) (hc : c ∈ S) : Sealed (rqPush s c) S := by
  cases htail : s.rqTail with
  | none =>
    have hlinks : ∀ t ∈ S, ∀ u, s.next t = some u → u ∈ S :=
      fun t ht => h.next t ht (by simp [htail])
    rw [rqPush_of_none htail]
    exact {
      head := fun t ht => Option.some.inj ht ▸ hc
      tail := fun t ht => Option.some.inj ht ▸ hc
      next := fun t ht _ => hlinks t ht
      links := hlinks }
  | some b =>
    have hpush := rqPush_of_tail htail c
    have hlinks : ∀ t ∈ S, ∀ u, (rqPush s c).next t = some u → u ∈ S := by
      intro t ht u hu
      rw [hpush.1] at hu
      by_cases htb : t = b
      · rw [htb, Function.update_self] at hu
        exact Option.some.inj hu ▸ hc
      · rw [Function.update_of_ne htb] at hu
        exact h.next t ht (fun heq => htb (Option.some.inj (heq.symm.trans htail))) u hu
    exact {
      head := fun t ht => h.head t (hpush.2.1 ▸ ht)
      tail := fun t ht => Option.some.inj (hpush.2.2.symm.trans ht) ▸ hc
      next := fun t ht _ => hlinks t ht
      links := hlinks }

theorem Sealed.pop (h : Sealed s S) :
    Sealed (rqPop s).2 S ∧ ∀ d, (rqPop s).1 = some d → d ∈ S := by
  cases hhead : s.rqHead with
  | none =>
    have hpop : rqPop s = (none, s) := by
      unfold rqPop
      rw [hhead]
    rw [hpop]
    exact ⟨h, nofun⟩
  | some a =>
    have hfirst : ∀ d, s.next a = some d → d ∈ S := h.links a (h.head a hhead)
    have hlinks : ∀ t ∈ S, ∀ u, (rqPop s).2.next t = some u → u ∈ S := by
      intro t ht u hu
      rw [rqPop_next hhead] at hu
      by_cases hta : t = a
      · rw [hta, Function.update_self] at hu
        cases hu
      · rw [Function.update_of_ne hta] at hu
        exact h.links t ht u hu
    have htail : ∀ t, (rqPop s).2.rqTail = some t → t ∈ S := by
      intro t ht
      rw [rqPop_of_head hhead, modify_rqTail] at ht
      split at ht
      · cases ht
      · exact h.tail t ht
    have hhead' : ∀ t, (rqPop s).2.rqHead = some t → t ∈ S := by
      intro t ht
      rw [rqPop_of_head hhead, modify_rqHead] at ht
      exact hfirst t ht
    refine ⟨⟨⟨hhead', htail, fun t ht _ => hlinks t ht⟩, hlinks⟩, fun d hd => ?_⟩
    rw [rqPop_of_head hhead] at hd
    exact hfirst d hd

/-- The current task is in `S`, and while the queue is not sealed it runs, so that the
next switch pushes it first. -/
structure Confined (s : Sched ι C) (S : List ι) (c : ι) : Prop where
  closed : Closed s S
  current : s.current = some c
  mem : c ∈ S
  phase : (s.task c).state = .running ∨ Sealed s S

/-- What a tick leaves: a task of `S` is current, its context is returned, and no
context pointer has changed. -/
structure Ticked (s : Sched ι C) (S : List ι) (result : C × Sched ι C) (d : ι) : Prop where
  confined : Confined result.2 S d
  returned : result.1 = (s.task d).context
  contexts : ∀ t, (result.2.task t).context = (s.task t).context

omit [DecidableEq ι] in
private theorem context_eq {s s' : Sched ι C} {t : ι} (h : s.fields t = s'.fields t) :
    (s.task t).context = (s'.task t).context := congrArg (fun f => f.2.1) h

theorem Sealed.switch (h : Sealed s S) (hcurrent : s.current = some c) (hc : c ∈ S) (tf : C) :
    ∃ d, Ticked s S (scheduleOnTick.switch s tf) d := by
  have hpopped := h.pop
  have hfields := rqPop_fields s
  cases hfirst : (rqPop s).1 with
  | none =>
    have hkeep : scheduleOnTick.switch s tf =
        (((rqPop s).2.task c).context, (rqPop s).2) := by
      have hsame := (rqPop_current s).trans hcurrent
      unfold scheduleOnTick.switch
      generalize rqPop s = popped at hfirst hsame
      cases popped with
      | mk first s' =>
        dsimp only at hfirst hsame
        subst hfirst
        simp only [hsame]
    rw [hkeep]
    exact ⟨c, {
      confined := ⟨hpopped.1.toClosed, (rqPop_current s).trans hcurrent, hc, .inr hpopped.1⟩
      returned := context_eq (congrFun hfields c)
      contexts := fun t => context_eq (congrFun hfields t) }⟩
  | some d =>
    have hset : Sealed (schedSetCurrent (rqPop s).2 d) S :=
      hpopped.1.congr rfl rfl (setCurrent_next _ d)
    rw [switch_some hfirst]
    refine ⟨d, ⟨hset.toClosed, rfl, hpopped.2 d hfirst, .inr hset⟩, rfl, fun t => ?_⟩
    have ht := setCurrent_fields (rqPop s).2 d t
    rw [hfields] at ht
    split at ht
    · exact congrArg (fun f => f.2.1) ht
    · exact context_eq ht

private theorem modify_context (s : Sched ι C) (c t : ι) (f : Task ι C → Task ι C)
    (h : ∀ k, (f k).context = (s.task c).context) :
    ((s.modify c f).task t).context = (s.task t).context := by
  by_cases ht : t = c
  · rw [ht, modify_task_self, h]
  · rw [modify_task_of_ne s f ht]

theorem Confined.tick (h : Confined s S c) : ∃ d, Ticked s S
    (scheduleOnTick s (s.task c).context) d := by
  by_cases hrunning : (s.task c).state = .running
  · by_cases left : GoesOn (s.task c).sliceLeft
    · rw [scheduleOnTick_keep h.current hrunning left]
      have hself := ticked_fields s c c (s.task c).context
      rw [if_pos rfl] at hself
      exact ⟨c, {
        confined := {
          closed := h.closed.congr rfl rfl (ticked_next s c _)
          current := h.current
          mem := h.mem
          phase := .inl ((congrArg Prod.fst hself).trans hrunning) }
        returned := rfl
        contexts := fun t => by
          dsimp only [ticked]
          exact modify_context s c t _ fun _ => rfl }⟩
    · rw [scheduleOnTick_expire h.current hrunning left]
      have hexpired : Closed (expired s c (s.task c).context) S :=
        h.closed.congr rfl rfl (expired_next s c _)
      have hcurrent : (rqPush (expired s c (s.task c).context) c).current = some c :=
        (rqPush_current _ c).trans h.current
      obtain ⟨d, hticked⟩ := (hexpired.push h.mem).switch hcurrent h.mem (s.task c).context
      have hcontext (t : ι) : ((rqPush (expired s c (s.task c).context) c).task t).context =
          (s.task t).context := by
        rw [context_eq (congrFun (rqPush_fields _ c) t)]
        exact modify_context s c t _ fun _ => rfl
      exact ⟨d, {
        confined := hticked.confined
        returned := hticked.returned.trans (hcontext d)
        contexts := fun t => (hticked.contexts t).trans (hcontext t) }⟩
  · have hswitch : scheduleOnTick s (s.task c).context =
        scheduleOnTick.switch s (s.task c).context := by
      simp [scheduleOnTick, h.current, hrunning]
    rw [hswitch]
    exact (h.phase.resolve_left hrunning).switch h.current h.mem _

end KernelFuzzing.Scheduler
