import Mathlib.Algebra.BigOperators.Ring.List
import KernelFuzzing.Foundation.Progress
import KernelFuzzing.Sync.Spinlock

/-! The spinlock cannot wedge. While it is free, a core that keeps going sees it taken, by
itself or by another; while a core holds it and keeps going, it becomes free. Only losses of
the core's own monitor put this off. -/
namespace KernelFuzzing.Sync
open Foundation Foundation.Exclusive

/-- The steps of a core up to its store of 1, while the word is 0: `LDAXR` comes first
again after a store without the monitor, or with a value loaded earlier that is not 0. -/
def Core.toAcquire (k : Core) (monitor : Bool) : Nat :=
  match k.place with
  | .inLock 0 => 4
  | .inLock 1 => if k.w0 ≠ 0 then 5 else if monitor then 3 else 8
  | .inLock 2 => if monitor then 2 else 7
  | .inLock 3 => if monitor then 1 else 6
  | .inUnlock 3 => 7
  | .inUnlock 4 => 6
  | _ => 5

def Core.toRelease (k : Core) (monitor : Bool) : Nat :=
  match k.place with
  | .inLock 4 => 6
  | .inLock _ => 5
  | .inUnlock 0 => 3
  | .inUnlock 1 => if monitor then 2 else 6
  | .inUnlock 2 => if monitor then 1 else 5
  | _ => 4

variable {ι : Type*} [DecidableEq ι]

def Event.stepOf (c : ι) : Event ι → Nat
  | .step d => if d = c then 1 else 0
  | .lose _ => 0

def Event.lossOf (c : ι) : Event ι → Nat
  | .step _ => 0
  | .lose d => if d = c then 1 else 0

theorem stepOf_self (c : ι) : (Event.step c).stepOf c = 1 := if_pos rfl

theorem lossOf_self (c : ι) : (Event.lose c).lossOf c = 1 := if_pos rfl

def steps (c : ι) (events : List (Event ι)) : Nat := (events.map (Event.stepOf c)).sum

def losses (c : ι) (events : List (Event ι)) : Nat := (events.map (Event.lossOf c)).sum

section
variable {k : Core} {monitor : Bool}

theorem toAcquire_pos : 0 < k.toAcquire monitor := by
  unfold Core.toAcquire
  split
  · decide
  · split
    · decide
    · split <;> decide
  · split <;> decide
  · split <;> decide
  all_goals decide

theorem toAcquire_le : k.toAcquire monitor ≤ 8 := by
  unfold Core.toAcquire
  split
  · decide
  · split
    · decide
    · split <;> decide
  · split <;> decide
  · split <;> decide
  all_goals decide

theorem toRelease_pos : 0 < k.toRelease monitor := by
  unfold Core.toRelease
  split
  · decide
  · decide
  · decide
  · split <;> decide
  · split <;> decide
  · decide

theorem toRelease_le : k.toRelease monitor ≤ 6 := by
  unfold Core.toRelease
  split
  · decide
  · decide
  · decide
  · split <;> decide
  · split <;> decide
  · decide

theorem toAcquire_lost (k : Core) (monitor : Bool) :
    k.toAcquire false ≤ k.toAcquire monitor + 5 := by
  unfold Core.toAcquire
  cases monitor with
  | false => exact Nat.le_add_right _ _
  | true =>
    split
    · decide
    · split <;> decide
    all_goals decide

theorem toRelease_lost (k : Core) (monitor : Bool) :
    k.toRelease false ≤ k.toRelease monitor + 4 := by
  unfold Core.toRelease
  cases monitor with
  | false => exact Nat.le_add_right _ _
  | true => split <;> decide

end

section
variable {c d : ι} {k : Core} {m : Shared ι}

theorem toAcquire_step (hlocal : k.Local (m.monitor c) m.word) (free : ¬ k.Holds)
    (word : m.word = 0) : (coreStep c k m).2.word = 1 ∨
      (coreStep c k m).1.toAcquire ((coreStep c k m).2.monitor c) + 1 ≤
        k.toAcquire (m.monitor c) := by
  obtain ⟨place, w0, w1⟩ := k
  match place with
  | .outside => exact .inr (Nat.le_refl 5)
  | .inLock 0 =>
    have hstep : coreStep c ⟨.inLock 0, w0, w1⟩ m = (⟨.inLock 1, m.word, w1⟩, (ldaxr c m).2) := rfl
    rw [hstep]
    simp [Core.toAcquire, ldaxr, word]
  | .inLock 1 =>
    by_cases hw : w0 = 0
    · have hstep : coreStep c ⟨.inLock 1, w0, w1⟩ m = (⟨.inLock 2, w0, w1⟩, m) :=
        exec_cbnz_zero c hw
      rw [hstep]
      cases m.monitor c <;> simp [Core.toAcquire, hw]
    · have hstep : coreStep c ⟨.inLock 1, w0, w1⟩ m = (⟨.inLock 0, w0, w1⟩, m) :=
        exec_cbnz_nonzero c hw
      rw [hstep]
      right
      change 4 + 1 ≤ if w0 ≠ 0 then 5 else _
      rw [if_pos hw]
  | .inLock 2 =>
    have hstep : coreStep c ⟨.inLock 2, w0, w1⟩ m = (⟨.inLock 3, 1, w1⟩, m) := rfl
    rw [hstep]
    cases m.monitor c <;> simp [Core.toAcquire]
  | .inLock 3 =>
    obtain ⟨hw, -⟩ := hlocal
    cases hset : m.monitor c with
    | true =>
      have hstep : coreStep c ⟨.inLock 3, w0, w1⟩ m =
          (⟨.inLock 4, w0, 0⟩, ⟨w0, fun _ => false⟩) := exec_stlxr_set c hset
      rw [hstep]
      exact .inl hw
    | false =>
      have hstep : coreStep c ⟨.inLock 3, w0, w1⟩ m = (⟨.inLock 4, w0, 1⟩, clear c m) :=
        exec_stlxr_lost c hset
      rw [hstep]
      exact .inr (Nat.le_refl 6)
  | .inLock 4 =>
    have hw : w1 ≠ 0 := fun hzero => free (by simp [hzero])
    have hstep : coreStep c ⟨.inLock 4, w0, w1⟩ m = (⟨.inLock 0, w0, w1⟩, m) :=
      exec_cbnz_nonzero c hw
    rw [hstep]
    exact .inr (Nat.le_refl 5)
  | .inLock 5 => exact absurd (by simp) free
  | .inLock (n + 6) => exact hlocal.elim
  | .critical => exact absurd (by simp) free
  | .inUnlock 0 => exact absurd (by simp) free
  | .inUnlock 1 => exact absurd (by simp) free
  | .inUnlock 2 => exact absurd (by simp) free
  | .inUnlock 3 =>
    have hw : w1 = 0 := by
      by_contra hne
      exact free ((holds_inUnlock 3 w0 w1).mpr (.inr ⟨rfl, hne⟩))
    have hstep : coreStep c ⟨.inUnlock 3, w0, w1⟩ m = (⟨.inUnlock 4, w0, w1⟩, m) :=
      exec_cbnz_zero c hw
    rw [hstep]
    exact .inr (Nat.le_refl 7)
  | .inUnlock 4 => exact .inr (Nat.le_refl 6)
  | .inUnlock (n + 5) => exact hlocal.elim

theorem toRelease_step (hlocal : k.Local (m.monitor c) m.word) (holds : k.Holds) :
    (coreStep c k m).2.word = 0 ∨
      (coreStep c k m).1.toRelease ((coreStep c k m).2.monitor c) + 1 ≤
        k.toRelease (m.monitor c) := by
  obtain ⟨place, w0, w1⟩ := k
  match place with
  | .outside => simp at holds
  | .inLock 0 => simp at holds
  | .inLock 1 => simp at holds
  | .inLock 2 => simp at holds
  | .inLock 3 => simp at holds
  | .inLock 4 =>
    have hw : w1 = 0 := by simpa using holds
    have hstep : coreStep c ⟨.inLock 4, w0, w1⟩ m = (⟨.inLock 5, w0, w1⟩, m) :=
      exec_cbnz_zero c hw
    rw [hstep]
    exact .inr (Nat.le_refl 6)
  | .inLock 5 => exact .inr (Nat.le_refl 5)
  | .inLock (n + 6) => exact hlocal.elim
  | .critical => exact .inr (Nat.le_refl 4)
  | .inUnlock 0 =>
    have hstep : coreStep c ⟨.inUnlock 0, w0, w1⟩ m =
        (⟨.inUnlock 1, m.word, w1⟩, (ldaxr c m).2) := rfl
    rw [hstep]
    simp [Core.toRelease, ldaxr]
  | .inUnlock 1 =>
    have hstep : coreStep c ⟨.inUnlock 1, w0, w1⟩ m = (⟨.inUnlock 2, 0, w1⟩, m) := rfl
    rw [hstep]
    cases m.monitor c <;> simp [Core.toRelease]
  | .inUnlock 2 =>
    have hw : w0 = 0 := hlocal
    cases hset : m.monitor c with
    | true =>
      have hstep : coreStep c ⟨.inUnlock 2, w0, w1⟩ m =
          (⟨.inUnlock 3, w0, 0⟩, ⟨w0, fun _ => false⟩) := exec_stlxr_set c hset
      rw [hstep]
      exact .inl hw
    | false =>
      have hstep : coreStep c ⟨.inUnlock 2, w0, w1⟩ m = (⟨.inUnlock 3, w0, 1⟩, clear c m) :=
        exec_stlxr_lost c hset
      rw [hstep]
      exact .inr (Nat.le_refl 5)
  | .inUnlock 3 =>
    have hw : w1 ≠ 0 := by simpa using holds
    have hstep : coreStep c ⟨.inUnlock 3, w0, w1⟩ m = (⟨.inUnlock 0, w0, w1⟩, m) :=
      exec_cbnz_nonzero c hw
    rw [hstep]
    exact .inr (Nat.le_refl 4)
  | .inUnlock 4 => simp at holds
  | .inUnlock (n + 5) => exact hlocal.elim

theorem stlxr_in_spinLock {pc : Nat} {rs rt : Reg} (h : spinLock[pc]? = some (.stlxr rs rt)) :
    pc = 3 ∧ rt = .w0 := by
  rcases pc with _ | _ | _ | _ | _ | pc <;> simp [spinLock] at h ⊢
  exact h.2.symm

theorem stlxr_in_spinUnlock {pc : Nat} {rs rt : Reg}
    (h : spinUnlock[pc]? = some (.stlxr rs rt)) : pc = 2 := by
  rcases pc with _ | _ | _ | _ | pc <;> simp [spinUnlock] at h ⊢

theorem exec_other (hne : d ≠ c) (at' : Nat → Place) (pc : Nat) (i : Instr) :
    (exec c at' pc k m i).2.word = m.word ∧ (exec c at' pc k m i).2.monitor d = m.monitor d ∨
      m.monitor c = true ∧ ∃ rs rt, i = .stlxr rs rt ∧
        (exec c at' pc k m i).2.word = k.get rt := by
  cases i with
  | ldaxr rt => exact .inl ⟨rfl, Function.update_of_ne hne _ _⟩
  | cbnz rt target => exact .inl ⟨rfl, rfl⟩
  | mov rd value => exact .inl ⟨rfl, rfl⟩
  | stlxr rs rt =>
    cases hset : m.monitor c with
    | true =>
      rw [exec_stlxr_set c hset]
      exact .inr ⟨rfl, rs, rt, rfl, rfl⟩
    | false =>
      rw [exec_stlxr_lost c hset]
      exact .inl ⟨rfl, Function.update_of_ne hne _ _⟩

theorem coreStep_other (hne : d ≠ c) :
    (coreStep c k m).2.word = m.word ∧ (coreStep c k m).2.monitor d = m.monitor d ∨
      m.monitor c = true ∧
        (k.place = .inLock 3 ∧ (coreStep c k m).2.word = k.w0 ∨ k.place = .inUnlock 2) := by
  unfold coreStep
  split
  · exact .inl ⟨rfl, rfl⟩
  · rename_i pc hplace
    split
    · rename_i i hi
      refine (exec_other hne .inLock pc i).imp_right ?_
      rintro ⟨hset, rs, rt, rfl, hword⟩
      obtain ⟨rfl, rfl⟩ := stlxr_in_spinLock hi
      exact ⟨hset, .inl ⟨hplace, hword⟩⟩
    · exact .inl ⟨rfl, rfl⟩
  · exact .inl ⟨rfl, rfl⟩
  · rename_i pc hplace
    split
    · rename_i i hi
      refine (exec_other hne .inUnlock pc i).imp_right ?_
      rintro ⟨hset, rs, rt, rfl, -⟩
      obtain rfl := stlxr_in_spinUnlock hi
      exact ⟨hset, .inr hplace⟩
    · exact .inl ⟨rfl, rfl⟩

end

section
variable {s : State ι} {c d : ι}

def acquireRank (c : ι) (s : State ι) : Nat := (s.cores c).toAcquire (s.shared.monitor c)

def releaseRank (c : ι) (s : State ι) : Nat := (s.cores c).toRelease (s.shared.monitor c)

theorem step_self (s : State ι) (c : ι) :
    (step s (.step c)).cores c = (coreStep c (s.cores c) s.shared).1 := Function.update_self ..

theorem step_other (s : State ι) (hne : d ≠ c) : (step s (.step c)).cores d = s.cores d :=
  Function.update_of_ne hne _ _

theorem acquireRank_step (s : State ι) (c : ι) : acquireRank c (step s (.step c)) =
    (coreStep c (s.cores c) s.shared).1.toAcquire
      ((coreStep c (s.cores c) s.shared).2.monitor c) := by
  rw [acquireRank, step_self]
  rfl

theorem releaseRank_step (s : State ι) (c : ι) : releaseRank c (step s (.step c)) =
    (coreStep c (s.cores c) s.shared).1.toRelease
      ((coreStep c (s.cores c) s.shared).2.monitor c) := by
  rw [releaseRank, step_self]
  rfl

theorem lose_monitor (s : State ι) (c : ι) : (step s (.lose c)).shared.monitor c = false :=
  Function.update_self ..

theorem lose_monitor_other (s : State ι) (hne : d ≠ c) :
    (step s (.lose c)).shared.monitor d = s.shared.monitor d := Function.update_of_ne hne _ _

theorem acquire_next (h : Inv s) (word : s.shared.word = 0) (c : ι) (e : Event ι) :
    (step s e).shared.word = 1 ∨ (step s e).shared.word = 0 ∧
      acquireRank c (step s e) + e.stepOf c ≤ acquireRank c s + 5 * e.lossOf c := by
  have free (d : ι) : ¬ (s.cores d).Holds := fun hd => by
    have hone := h.held ⟨d, hd⟩
    rw [word] at hone
    exact absurd hone (by decide)
  cases e with
  | step d =>
    by_cases hd : d = c
    · subst hd
      rcases toAcquire_step (h.positions d) (free d) word with hgoal | hless
      · exact .inl hgoal
      · have hword : (step s (.step d)).shared.word = 0 ∨ (step s (.step d)).shared.word = 1 := by
          obtain ⟨-, outcome⟩ := coreStep_local (h.positions d)
          cases outcome with
          | keep hkeep => exact .inl (hkeep.trans word)
          | acquire _ _ hone => exact .inr hone
          | release hholds => exact absurd hholds (free d)
        rcases hword with hzero | hone
        · refine .inr ⟨hzero, ?_⟩
          rw [acquireRank_step, stepOf_self]
          exact hless
        · exact .inl hone
    · rcases coreStep_other (k := s.cores d) (m := s.shared) (Ne.symm hd) with
        ⟨hword, hmonitor⟩ | ⟨hset, ⟨hplace, hword⟩ | hplace⟩
      · refine .inr ⟨hword.trans word, ?_⟩
        have hrank : acquireRank c (step s (.step d)) = acquireRank c s := by
          unfold acquireRank
          rw [step_other s (Ne.symm hd)]
          exact congrArg (s.cores c).toAcquire hmonitor
        simp [hrank, Event.stepOf, hd]
      · -- the store of another core takes the lock
        have hlocal := h.positions d
        unfold Core.Local at hlocal
        rw [hplace] at hlocal
        exact .inl (hword.trans hlocal.1)
      · exact absurd (.inr (.inr (.inr (.inl ⟨2, by decide, hplace⟩)))) (free d)
  | lose d =>
    refine .inr ⟨word, ?_⟩
    by_cases hd : d = c
    · subst hd
      have hlost := toAcquire_lost (s.cores d) (s.shared.monitor d)
      rw [acquireRank, lose_monitor, lossOf_self]
      exact hlost
    · unfold acquireRank
      rw [lose_monitor_other s (Ne.symm hd)]
      exact Nat.le_add_right _ _

theorem release_next (h : Inv s) (holds : (s.cores c).Holds) (e : Event ι) :
    (step s e).shared.word = 0 ∨ ((step s e).cores c).Holds ∧
      releaseRank c (step s e) + e.stepOf c ≤ releaseRank c s + 4 * e.lossOf c := by
  have hone := h.held ⟨c, holds⟩
  cases e with
  | step d =>
    by_cases hd : d = c
    · subst hd
      obtain ⟨-, outcome⟩ := coreStep_local (h.positions d)
      cases outcome with
      | keep hkeep hholds =>
        rcases toRelease_step (h.positions d) holds with hgoal | hless
        · exact .inl hgoal
        · refine .inr ⟨by rw [step_self]; exact hholds.mpr holds, ?_⟩
          rw [releaseRank_step, stepOf_self]
          exact hless
      | acquire hzero => exact absurd (hzero.symm.trans hone) (by decide)
      | release _ _ hzero => exact .inl hzero
    · have hlocal := h.positions d
      unfold Core.Local at hlocal
      rcases coreStep_other (k := s.cores d) (m := s.shared) (Ne.symm hd) with
        ⟨hword, hmonitor⟩ | ⟨hset, ⟨hplace, hword⟩ | hplace⟩
      · refine .inr ⟨by rwa [step_other s (Ne.symm hd)], ?_⟩
        have hrank : releaseRank c (step s (.step d)) = releaseRank c s := by
          unfold releaseRank
          rw [step_other s (Ne.symm hd)]
          exact congrArg (s.cores c).toRelease hmonitor
        simp [hrank, Event.stepOf, hd]
      · -- with the word 1, no other core has a monitor to take the lock with
        rw [hplace] at hlocal
        exact absurd ((hlocal.2 hset).symm.trans hone) (by decide)
      · have hheld : (s.cores d).Holds := .inr (.inr (.inr (.inl ⟨2, by decide, hplace⟩)))
        exact absurd (h.unique d c hheld holds) hd
  | lose d =>
    refine .inr ⟨holds, ?_⟩
    by_cases hd : d = c
    · subst hd
      have hlost := toRelease_lost (s.cores d) (s.shared.monitor d)
      rw [releaseRank, lose_monitor, lossOf_self]
      exact hlost
    · unfold releaseRank
      rw [lose_monitor_other s (Ne.symm hd)]
      exact Nat.le_add_right _ _

end

/-- From every state the cores can reach, over any interleaving of further steps and
losses: with the lock free, 8 steps of one core and 5 more for each loss of its monitor
see some core get it; with a core holding it, 6 of its steps and 4 more for each loss of
its monitor free it. -/
theorem spinlock_progress (k : ι → BitVec 32 × BitVec 32) (monitor : ι → Bool)
    (events more : List (Event ι)) (c : ι) :
    ((∀ d, ¬ ((Run.run step (start k monitor) events).cores d).Holds) →
      8 + 5 * losses c more ≤ steps c more →
      Progress.Reaches step (fun s => ∃ d, (s.cores d).Holds)
        (Run.run step (start k monitor) events) more) ∧
    (((Run.run step (start k monitor) events).cores c).Holds →
      6 + 4 * losses c more ≤ steps c more →
      Progress.Reaches step (fun s => ∀ d, ¬ (s.cores d).Holds)
        (Run.run step (start k monitor) events) more) := by
  have hinv := (always_inv k monitor events).last
  generalize Run.run step (start k monitor) events = s at hinv
  have keep {s : State ι} (h : Inv s) (e : Event ι) : Inv (step s e) := by
    cases e with
    | step d => exact inv_step h d
    | lose d => exact inv_lose h d
  constructor
  · intro free enough
    have hrank : acquireRank c s ≤ 8 := toAcquire_le
    refine Progress.reaches_of_rank (fun s => Inv s ∧ s.shared.word = 0) (acquireRank c)
      (Event.stepOf c) (fun e => 5 * e.lossOf c)
      (fun s _ => toAcquire_pos) (fun s e h => ?_) ⟨hinv, hinv.free free⟩ ?_
    · rcases acquire_next h.1 h.2 c e with hone | ⟨hzero, hless⟩
      · exact .inl ((keep h.1 e).mutualExclusion.word.mp hone)
      · exact .inr ⟨⟨keep h.1 e, hzero⟩, hless⟩
    · rw [List.sum_map_mul_left]
      unfold losses steps at enough
      omega
  · intro holds enough
    have hrank : releaseRank c s ≤ 6 := toRelease_le
    refine Progress.reaches_of_rank (fun s => Inv s ∧ (s.cores c).Holds) (releaseRank c)
      (Event.stepOf c) (fun e => 4 * e.lossOf c)
      (fun s _ => toRelease_pos) (fun s e h => ?_) ⟨hinv, holds⟩ ?_
    · rcases release_next h.1 h.2 e with hzero | ⟨hheld, hless⟩
      · refine .inl fun d hd => ?_
        have hone := (keep h.1 e).held ⟨d, hd⟩
        exact absurd (hzero.symm.trans hone) (by decide)
      · exact .inr ⟨⟨keep h.1 e, hheld⟩, hless⟩
    · rw [List.sum_map_mul_left]
      unfold losses steps at enough
      omega

theorem spinlock_progress_two_cores :
    Progress.Reaches step (fun s => ∃ d, (s.cores d).Holds)
        (start (fun _ : Bool => (0, 0)) fun _ => false)
        ((List.replicate 13 [.step true, .step false]).flatten ++ [.lose true]) ∧
      Progress.Reaches step (fun s => ∀ d, ¬ (s.cores d).Holds)
        (Run.run step (start (fun _ : Bool => (0, 0)) fun _ => false)
          (List.replicate 7 (.step true)))
        (List.replicate 6 (.step true)) :=
  ⟨(spinlock_progress (fun _ => (0, 0)) (fun _ => false) [] _ true).1
      (fun _ => holds_outside 0 0) (by decide),
    (spinlock_progress (fun _ => (0, 0)) (fun _ => false) (List.replicate 7 (.step true)) _
      true).2 (.inr (.inr (.inl rfl))) (by decide)⟩

end KernelFuzzing.Sync
