import KernelFuzzing.Scheduler.Conservation

/-! How long a task waits for its turn. New tasks go behind it in the queue, so a task
with `p` tasks in front runs after the rest of the current slice and `p - 1` full ones. -/
namespace KernelFuzzing.Scheduler
open Foundation

variable {ι C : Type*}

@[simp] theorem tickCount_nil : tickCount ([] : List (Op ι C)) = 0 := rfl

@[simp] theorem tickCount_enqueue (t : ι) (ops : List (Op ι C)) :
    tickCount (.enqueue t :: ops) = tickCount ops := rfl

@[simp] theorem tickCount_tick (tf : C) (ops : List (Op ι C)) :
    tickCount (.tick tf :: ops) = tickCount ops + 1 := by
  simp [tickCount]

variable [DecidableEq ι]

/-- The queue turns with `left` ticks to go for the current task. -/
structure Waiting (s : System ι C) (c : ι) (l : List ι) (left : Nat) : Prop where
  turning : Turning s c l
  slice : (s.sched.task c).sliceLeft = BitVec.ofNat 32 left
  pos : 0 < left
  full : left ≤ 10

section
variable {s : System ι C} {c : ι} {l : List ι} {left : Nat}

theorem Waiting.enqueue (h : Waiting s c l left) {t : ι}
    (fresh : Fresh s (.enqueue t : Op ι C)) :
    Waiting (step s (.enqueue t)) c (l ++ [t]) left where
  turning := h.turning.enqueue fresh
  slice := by
    have hne : c ≠ t := fun heq => fresh.1 (heq ▸ h.turning.all.mem_iff.mp List.mem_cons_self)
    have hfields := enqueue_fields_of_ne s.sched hne
    exact (congrArg (fun f => f.2.2) hfields).trans h.slice
  pos := h.pos
  full := h.full

theorem Waiting.keep (h : Waiting s c l (left + 1)) (more : 0 < left) (tf : C) :
    Waiting (step s (.tick tf)) c l left := by
  have hfull := h.full
  have hleft : GoesOn (s.sched.task c).sliceLeft := by
    rw [h.slice, goesOn_iff, BitVec.toNat_ofNat]
    omega
  obtain ⟨hturning, hslice⟩ := h.turning.keep hleft tf
  refine ⟨hturning, ?_, more, by omega⟩
  rw [hslice, h.slice]
  bv_omega

theorem Waiting.expire (h : Waiting s c l 1) {d : ι} {l' : List ι} (turn : l ++ [c] = d :: l')
    (tf : C) : Waiting (step s (.tick tf)) d l' 10 := by
  have hspent : ¬ GoesOn (s.sched.task c).sliceLeft := by
    rw [h.slice]
    decide
  obtain ⟨hturning, hslice⟩ := h.turning.expire hspent turn tf
  exact ⟨hturning, hslice, by decide, Nat.le_refl 10⟩

theorem Waiting.step (h : Waiting s c l left) {op : Op ι C} (fresh : Fresh s op) :
    ∃ d l' left', Waiting (step s op) d l' left' := by
  cases op with
  | enqueue t => exact ⟨c, l ++ [t], left, h.enqueue fresh⟩
  | tick tf =>
    obtain ⟨k, rfl⟩ := Nat.exists_eq_add_one.mpr h.pos
    by_cases more : 0 < k
    · exact ⟨c, l, k, h.keep more tf⟩
    · obtain ⟨d, l', turn⟩ := List.exists_cons_of_ne_nil (List.concat_ne_nil c l)
      obtain rfl : k = 0 := by omega
      exact ⟨d, l', 10, h.expire turn tf⟩

theorem Waiting.current_run (h : Waiting s c l left) {ops : List (Op ι C)}
    (fresh : Run.Guarded Scheduler.step Fresh s ops) {p : Nat}
    (hp : p = (tickCount ops + 10 - left) / 10) (early : p < (c :: l).length) :
    (Run.run Scheduler.step s ops).sched.current = (c :: l)[p]? := by
  induction ops generalizing s c l left p with
  | nil =>
    have hpos := h.pos
    rw [tickCount_nil] at hp
    obtain rfl : p = 0 := by omega
    exact h.turning.rotating.current
  | cons op ops ih =>
    have hpos := h.pos
    have hfull := h.full
    rw [Run.run_cons]
    cases op with
    | enqueue t =>
      have hlong : p < (c :: (l ++ [t])).length := by
        rw [List.length_cons] at early ⊢
        rw [List.length_append]
        omega
      rw [ih (h.enqueue fresh.1) fresh.2 hp hlong, ← List.cons_append,
        List.getElem?_append_left early]
    | tick tf =>
      rw [tickCount_tick] at hp
      obtain ⟨k, rfl⟩ := Nat.exists_eq_add_one.mpr hpos
      by_cases more : 0 < k
      · exact ih (h.keep more tf) fresh.2 (by omega) early
      · obtain ⟨d, l', turn⟩ := List.exists_cons_of_ne_nil (List.concat_ne_nil c l)
        obtain rfl : k = 0 := by omega
        obtain ⟨q, rfl⟩ : ∃ q, p = q + 1 := ⟨p - 1, by omega⟩
        have hq : q < l.length := by simpa using early
        have hlength : q < (d :: l').length := by
          rw [← turn, List.length_append]
          omega
        rw [ih (h.expire turn tf) fresh.2 (by omega) hlength, ← turn,
          List.getElem?_append_left hq, List.getElem?_cons_succ]

end

/-- After boot and any number of ticks and arrivals, each enqueued task has a time to wait of
less than ten ticks for each task there is. Then it runs for its slice, however many tasks
arrive in the meantime. -/
theorem waits_its_turn (task : ι → Task ι C) (first : ι) (rest : List ι)
    (nodup : (first :: rest).Nodup) (null : ∀ t ∈ first :: rest, (task t).next = none)
    (ops : List (Op ι C)) (fresh : Run.Guarded step Fresh (boot task first rest) ops) (t : ι)
    (ht : t ∈ (Run.run step (boot task first rest) ops).enqueued) :
    ∃ wait slice, wait + 10 ≤ 10 * (Run.run step (boot task first rest) ops).enqueued.length ∧
      0 < slice ∧
      ((Run.run step (boot task first rest) ops).sched.current ≠ some t → slice = 10) ∧
      ∀ more, Run.Guarded step Fresh (Run.run step (boot task first rest) ops) more →
        wait ≤ tickCount more → tickCount more < wait + slice →
        (Run.run step (boot task first rest) (ops ++ more)).sched.current = some t := by
  have start : ∃ c l left, Waiting (boot task first rest) c l left := by
    obtain ⟨hturning, hslice⟩ := turning_boot nodup null
    exact ⟨first, rest, 10, hturning, hslice, by decide, Nat.le_refl 10⟩
  have always : Run.Always step (fun s => ∃ c l left, Waiting s c l left)
      (boot task first rest) ops :=
    Run.always_of_guarded (fun s op h ok => by
      obtain ⟨c, l, left, h⟩ := h
      exact h.step ok) start fresh
  obtain ⟨c, l, left, h⟩ := always.last
  generalize hs : Run.run step (boot task first rest) ops = s at h ht
  obtain ⟨p, hp, hget⟩ := List.getElem_of_mem (h.turning.all.mem_iff.mpr ht)
  have hpos := h.pos
  have hfull := h.full
  have hlength : (c :: l).length = s.enqueued.length := h.turning.all.length_eq
  have hturn {more : List (Op ι C)} (hfresh : Run.Guarded step Fresh s more)
      (hticks : p = (tickCount more + 10 - left) / 10) :
      (Run.run step (boot task first rest) (ops ++ more)).sched.current = some t := by
    rw [Run.run_append, hs, h.current_run hfresh hticks hp, List.getElem?_eq_getElem hp, hget]
  cases p with
  | zero =>
    refine ⟨0, left, by rw [← hlength, List.length_cons]; omega, hpos, fun hother => ?_,
      fun more hfresh hlow hhigh => hturn hfresh (by omega)⟩
    exact absurd (h.turning.rotating.current.trans (congrArg some hget)) hother
  | succ p =>
    refine ⟨left + 10 * p, 10, by omega, by decide, fun _ => rfl,
      fun more hfresh hlow hhigh => hturn hfresh (by omega)⟩

theorem waits_its_turn_arrival :
    ∃ wait slice, wait + 10 ≤ 10 * 3 ∧ 0 < slice ∧ (some (0 : Fin 4) ≠ some 2 → slice = 10) ∧
      ∀ more : List (Op (Fin 4) Nat), Run.Guarded step Fresh
        (Run.run step (boot (fun _ => ⟨.ready, 0, 0, none⟩) 0 [1]) [.enqueue 2]) more →
        wait ≤ tickCount more → tickCount more < wait + slice →
        (Run.run step (boot (fun _ => ⟨.ready, 0, 0, none⟩) 0 [1])
          ([.enqueue 2] ++ more)).sched.current = some (2 : Fin 4) :=
  waits_its_turn (ι := Fin 4) (C := Nat) (fun _ => ⟨.ready, 0, 0, none⟩) 0 [1] (by decide)
    (fun _ _ => rfl) [.enqueue 2] ⟨⟨by decide, rfl⟩, trivial⟩ 2 (by decide)

end KernelFuzzing.Scheduler
