import KernelFuzzing.Foundation.Run
import KernelFuzzing.Foundation.Exclusive

/-! The spinlock of core/spinlock.c on any number of cores, one instruction of one core
at a time. -/
namespace KernelFuzzing.Sync
open Foundation Foundation.Exclusive

/-- `%w0` and `%w1`. -/
inductive Reg where
  | w0
  | w1
deriving DecidableEq

inductive Instr where
  | ldaxr (rt : Reg)
  | cbnz (rt : Reg) (target : Nat)
  | mov (rd : Reg) (value : BitVec 32)
  | stlxr (rs rt : Reg)

def spinLock : List Instr :=
  [.ldaxr .w0, .cbnz .w0 0, .mov .w0 1, .stlxr .w1 .w0, .cbnz .w1 0]

def spinUnlock : List Instr :=
  [.ldaxr .w0, .mov .w0 0, .stlxr .w1 .w0, .cbnz .w1 0]

/-- Between the calls, in `spin_lock`, between its return and the next call of
`spin_unlock`, or in `spin_unlock`; with the number of the next instruction. -/
inductive Place where
  | outside
  | inLock (pc : Nat)
  | critical
  | inUnlock (pc : Nat)
deriving DecidableEq

structure Core where
  place : Place
  w0 : BitVec 32
  w1 : BitVec 32

def Core.get (k : Core) : Reg → BitVec 32
  | .w0 => k.w0
  | .w1 => k.w1

def Core.set (k : Core) (value : BitVec 32) : Reg → Core
  | .w0 => { k with w0 := value }
  | .w1 => { k with w1 := value }

def Core.goto (k : Core) (place : Place) : Core := { k with place := place }

variable {ι : Type*} [DecidableEq ι]

/-- One instruction of the core `c`, at `pc` of the code whose positions are `at'`. -/
def exec (c : ι) (at' : Nat → Place) (pc : Nat) (k : Core) (m : Shared ι) :
    Instr → Core × Shared ι
  | .ldaxr rt => ((k.set (ldaxr c m).1 rt).goto (at' (pc + 1)), (ldaxr c m).2)
  | .cbnz rt target => (k.goto (at' (if k.get rt ≠ 0 then target else pc + 1)), m)
  | .mov rd value => ((k.set value rd).goto (at' (pc + 1)), m)
  | .stlxr rs rt =>
      ((k.set (stlxr c (k.get rt) m).1 rs).goto (at' (pc + 1)), (stlxr c (k.get rt) m).2)

/-- The core's next step: a call, with `temp` zero, an instruction or a return. -/
def coreStep (c : ι) (k : Core) (m : Shared ι) : Core × Shared ι :=
  match k.place with
  | .outside => (⟨.inLock 0, 0, k.w1⟩, m)
  | .inLock pc =>
      match spinLock[pc]? with
      | some i => exec c .inLock pc k m i
      | none => (k.goto .critical, m)
  | .critical => (⟨.inUnlock 0, 0, k.w1⟩, m)
  | .inUnlock pc =>
      match spinUnlock[pc]? with
      | some i => exec c .inUnlock pc k m i
      | none => (k.goto .outside, m)

structure State (ι : Type*) where
  cores : ι → Core
  shared : Shared ι

inductive Event (ι : Type*) where
  | step (c : ι)
  | lose (c : ι)

def step (s : State ι) : Event ι → State ι
  | .step c =>
      { cores := Function.update s.cores c (coreStep c (s.cores c) s.shared).1
        shared := (coreStep c (s.cores c) s.shared).2 }
  | .lose c => { s with shared := clear c s.shared }

/-- All cores outside, the lock word 0. -/
def start (k : ι → BitVec 32 × BitVec 32) (monitor : ι → Bool) : State ι :=
  ⟨fun c => ⟨.outside, (k c).1, (k c).2⟩, ⟨0, monitor⟩⟩

/-- From the return of `spin_lock` to the successful store of `spin_unlock`. -/
def Core.Critical (k : Core) : Prop :=
  k.place = .critical ∨ (∃ pc < 3, k.place = .inUnlock pc) ∨ k.place = .inUnlock 3 ∧ k.w1 ≠ 0

/-- From the successful store of `spin_lock` to that of `spin_unlock`. -/
def Core.Holds (k : Core) : Prop :=
  k.place = .inLock 4 ∧ k.w1 = 0 ∨ k.place = .inLock 5 ∨ k.Critical

/-- At most one core is in its critical section, and the lock word is 1 exactly while
some core holds the lock. -/
structure MutualExclusion (s : State ι) : Prop where
  exclusive : ∀ c d, (s.cores c).Critical → (s.cores d).Critical → c = d
  word : s.shared.word = 1 ↔ ∃ c, (s.cores c).Holds

section Positions
variable (pc : Nat) (w0 w1 : BitVec 32)

@[simp] theorem critical_outside : ¬ Core.Critical ⟨.outside, w0, w1⟩ := by
  simp [Core.Critical]

@[simp] theorem critical_inLock : ¬ Core.Critical ⟨.inLock pc, w0, w1⟩ := by
  simp [Core.Critical]

@[simp] theorem critical_critical : Core.Critical ⟨.critical, w0, w1⟩ := .inl rfl

@[simp] theorem critical_inUnlock :
    Core.Critical ⟨.inUnlock pc, w0, w1⟩ ↔ pc < 3 ∨ pc = 3 ∧ w1 ≠ 0 := by
  simp [Core.Critical]

@[simp] theorem holds_outside : ¬ Core.Holds ⟨.outside, w0, w1⟩ := by
  simp [Core.Holds]

@[simp] theorem holds_inLock :
    Core.Holds ⟨.inLock pc, w0, w1⟩ ↔ pc = 4 ∧ w1 = 0 ∨ pc = 5 := by
  simp [Core.Holds]

@[simp] theorem holds_critical : Core.Holds ⟨.critical, w0, w1⟩ := .inr (.inr (.inl rfl))

@[simp] theorem holds_inUnlock :
    Core.Holds ⟨.inUnlock pc, w0, w1⟩ ↔ pc < 3 ∨ pc = 3 ∧ w1 ≠ 0 := by
  simp [Core.Holds]

end Positions

/-- What a core's position says of its registers and of what its monitor vouches for. -/
def Core.Local (k : Core) (monitor : Bool) (word : BitVec 32) : Prop :=
  match k.place with
  | .inLock 1 => monitor = true → k.w0 = word
  | .inLock 2 => monitor = true → word = 0
  | .inLock 3 => k.w0 = 1 ∧ (monitor = true → word = 0)
  | .inLock (_ + 6) => False
  | .inUnlock 2 => k.w0 = 0
  | .inUnlock (_ + 5) => False
  | _ => True

omit [DecidableEq ι] in
theorem Core.Local.frame {k : Core} {c d : ι} {m m' : Shared ι}
    (h : k.Local (m.monitor d) m.word) (effect : Effect c m m') (hd : d ≠ c) :
    k.Local (m'.monitor d) m'.word := by
  unfold Core.Local at h ⊢
  split at h
  · exact effect.vouches (P := fun word => k.w0 = word) hd h
  · exact effect.vouches (P := fun word => word = 0) hd h
  · exact ⟨h.1, effect.vouches (P := fun word => word = 0) hd h.2⟩
  · exact h
  · exact h
  · exact h
  · trivial

theorem Core.Local.lost {k : Core} {monitor : Bool} {word : BitVec 32}
    (h : k.Local monitor word) : k.Local false word := by
  unfold Core.Local at h ⊢
  split at h
  · simp
  · simp
  · exact ⟨h.1, by simp⟩
  · exact h
  · exact h
  · exact h
  · trivial

inductive Outcome (k : Core) (m : Shared ι) (k' : Core) (m' : Shared ι) : Prop where
  | keep : m'.word = m.word → (k'.Holds ↔ k.Holds) → Outcome k m k' m'
  | acquire : m.word = 0 → k'.Holds → m'.word = 1 → Outcome k m k' m'
  | release : k.Holds → ¬ k'.Holds → m'.word = 0 → Outcome k m k' m'

section Instructions
variable (c : ι) {at' : Nat → Place} {pc target : Nat} {k : Core} {m : Shared ι} {rs rt : Reg}

theorem exec_cbnz_zero (h : k.get rt = 0) :
    exec c at' pc k m (.cbnz rt target) = (k.goto (at' (pc + 1)), m) := by
  simp [exec, h]

theorem exec_cbnz_nonzero (h : k.get rt ≠ 0) :
    exec c at' pc k m (.cbnz rt target) = (k.goto (at' target), m) := by
  simp only [exec, if_pos h]

theorem exec_stlxr_set (h : m.monitor c = true) :
    exec c at' pc k m (.stlxr rs rt) =
      ((k.set 0 rs).goto (at' (pc + 1)), ⟨k.get rt, fun _ => false⟩) := by
  simp [exec, stlxr, h]

theorem exec_stlxr_lost (h : m.monitor c = false) :
    exec c at' pc k m (.stlxr rs rt) = ((k.set 1 rs).goto (at' (pc + 1)), clear c m) := by
  simp [exec, stlxr, clear, h]

end Instructions

theorem coreStep_effect (c : ι) (k : Core) (m : Shared ι) : Effect c m (coreStep c k m).2 := by
  have hexec (at' : Nat → Place) (pc : Nat) (i : Instr) : Effect c m (exec c at' pc k m i).2 := by
    cases i with
    | ldaxr rt => exact ldaxr_effect c m
    | cbnz rt target => exact .refl c m
    | mov rd value => exact .refl c m
    | stlxr rs rt => exact stlxr_effect c _ m
  unfold coreStep
  split
  · exact .refl c m
  · split
    · exact hexec _ _ _
    · exact .refl c m
  · exact .refl c m
  · split
    · exact hexec _ _ _
    · exact .refl c m

theorem coreStep_local {c : ι} {k : Core} {m : Shared ι} (h : k.Local (m.monitor c) m.word) :
    (coreStep c k m).1.Local ((coreStep c k m).2.monitor c) (coreStep c k m).2.word ∧
      Outcome k m (coreStep c k m).1 (coreStep c k m).2 := by
  obtain ⟨place, w0, w1⟩ := k
  match place with
  | .outside => exact ⟨trivial, .keep rfl (by simp [coreStep])⟩
  | .inLock 0 =>
    have hstep : coreStep c ⟨.inLock 0, w0, w1⟩ m = (⟨.inLock 1, m.word, w1⟩, (ldaxr c m).2) := rfl
    rw [hstep]
    exact ⟨fun _ => rfl, .keep rfl (by simp)⟩
  | .inLock 1 =>
    by_cases hw : w0 = 0
    · have hstep : coreStep c ⟨.inLock 1, w0, w1⟩ m = (⟨.inLock 2, w0, w1⟩, m) :=
        exec_cbnz_zero c hw
      rw [hstep]
      exact ⟨fun hset => (h hset).symm.trans hw, .keep rfl (by simp)⟩
    · have hstep : coreStep c ⟨.inLock 1, w0, w1⟩ m = (⟨.inLock 0, w0, w1⟩, m) :=
        exec_cbnz_nonzero c hw
      rw [hstep]
      exact ⟨trivial, .keep rfl (by simp)⟩
  | .inLock 2 =>
    have hstep : coreStep c ⟨.inLock 2, w0, w1⟩ m = (⟨.inLock 3, 1, w1⟩, m) := rfl
    rw [hstep]
    exact ⟨⟨rfl, h⟩, .keep rfl (by simp)⟩
  | .inLock 3 =>
    obtain ⟨hw, hvouch⟩ := h
    cases hset : m.monitor c with
    | true =>
      have hstep : coreStep c ⟨.inLock 3, w0, w1⟩ m =
          (⟨.inLock 4, w0, 0⟩, ⟨w0, fun _ => false⟩) := exec_stlxr_set c hset
      rw [hstep]
      exact ⟨trivial, .acquire (hvouch hset) (by simp) hw⟩
    | false =>
      have hstep : coreStep c ⟨.inLock 3, w0, w1⟩ m = (⟨.inLock 4, w0, 1⟩, clear c m) :=
        exec_stlxr_lost c hset
      rw [hstep]
      exact ⟨trivial, .keep rfl (by simp)⟩
  | .inLock 4 =>
    by_cases hw : w1 = 0
    · have hstep : coreStep c ⟨.inLock 4, w0, w1⟩ m = (⟨.inLock 5, w0, w1⟩, m) :=
        exec_cbnz_zero c hw
      rw [hstep]
      exact ⟨trivial, .keep rfl (by simp [hw])⟩
    · have hstep : coreStep c ⟨.inLock 4, w0, w1⟩ m = (⟨.inLock 0, w0, w1⟩, m) :=
        exec_cbnz_nonzero c hw
      rw [hstep]
      exact ⟨trivial, .keep rfl (by simpa using hw)⟩
  | .inLock 5 =>
    have hstep : coreStep c ⟨.inLock 5, w0, w1⟩ m = (⟨.critical, w0, w1⟩, m) := rfl
    rw [hstep]
    exact ⟨trivial, .keep rfl (by simp)⟩
  | .inLock (n + 6) => exact h.elim
  | .critical => exact ⟨trivial, .keep rfl (by simp [coreStep])⟩
  | .inUnlock 0 =>
    have hstep : coreStep c ⟨.inUnlock 0, w0, w1⟩ m =
        (⟨.inUnlock 1, m.word, w1⟩, (ldaxr c m).2) := rfl
    rw [hstep]
    exact ⟨trivial, .keep rfl (by simp)⟩
  | .inUnlock 1 =>
    have hstep : coreStep c ⟨.inUnlock 1, w0, w1⟩ m = (⟨.inUnlock 2, 0, w1⟩, m) := rfl
    rw [hstep]
    exact ⟨rfl, .keep rfl (by simp)⟩
  | .inUnlock 2 =>
    have hw : w0 = 0 := h
    cases hset : m.monitor c with
    | true =>
      have hstep : coreStep c ⟨.inUnlock 2, w0, w1⟩ m =
          (⟨.inUnlock 3, w0, 0⟩, ⟨w0, fun _ => false⟩) := exec_stlxr_set c hset
      rw [hstep]
      exact ⟨trivial, .release (by simp) (by simp) hw⟩
    | false =>
      have hstep : coreStep c ⟨.inUnlock 2, w0, w1⟩ m = (⟨.inUnlock 3, w0, 1⟩, clear c m) :=
        exec_stlxr_lost c hset
      rw [hstep]
      exact ⟨trivial, .keep rfl (by simp)⟩
  | .inUnlock 3 =>
    by_cases hw : w1 = 0
    · have hstep : coreStep c ⟨.inUnlock 3, w0, w1⟩ m = (⟨.inUnlock 4, w0, w1⟩, m) :=
        exec_cbnz_zero c hw
      rw [hstep]
      exact ⟨trivial, .keep rfl (by simp [hw])⟩
    · have hstep : coreStep c ⟨.inUnlock 3, w0, w1⟩ m = (⟨.inUnlock 0, w0, w1⟩, m) :=
        exec_cbnz_nonzero c hw
      rw [hstep]
      exact ⟨trivial, .keep rfl (by simpa using hw)⟩
  | .inUnlock 4 =>
    have hstep : coreStep c ⟨.inUnlock 4, w0, w1⟩ m = (⟨.outside, w0, w1⟩, m) := rfl
    rw [hstep]
    exact ⟨trivial, .keep rfl (by simp)⟩
  | .inUnlock (n + 5) => exact h.elim

/-- The word is 0 or 1 and says whether some core holds the lock, at most one does. -/
structure Inv (s : State ι) : Prop where
  positions : ∀ c, (s.cores c).Local (s.shared.monitor c) s.shared.word
  unique : ∀ c d, (s.cores c).Holds → (s.cores d).Holds → c = d
  held : (∃ c, (s.cores c).Holds) → s.shared.word = 1
  free : (∀ c, ¬ (s.cores c).Holds) → s.shared.word = 0

omit [DecidableEq ι] in
theorem Inv.mutualExclusion {s : State ι} (h : Inv s) : MutualExclusion s where
  exclusive c d hc hd := h.unique c d (.inr (.inr hc)) (.inr (.inr hd))
  word := by
    constructor
    · intro hword
      by_contra hnone
      have hzero := h.free (not_exists.mp hnone)
      simp [hzero] at hword
    · exact h.held

omit [DecidableEq ι] in
theorem inv_start (k : ι → BitVec 32 × BitVec 32) (monitor : ι → Bool) :
    Inv (start k monitor) where
  positions _ := trivial
  unique c d hc _ := absurd hc (by simp [start])
  held h := by simp [start] at h
  free _ := rfl

theorem inv_step {s : State ι} (h : Inv s) (c : ι) : Inv (step s (.step c)) := by
  have hother (d : ι) (hd : d ≠ c) : (step s (.step c)).cores d = s.cores d := by
    simp [step, hd]
  have hself : (step s (.step c)).cores c = (coreStep c (s.cores c) s.shared).1 := by
    simp [step]
  obtain ⟨hlocal, outcome⟩ := coreStep_local (h.positions c)
  have hpositions (d : ι) : ((step s (.step c)).cores d).Local
      ((step s (.step c)).shared.monitor d) (step s (.step c)).shared.word := by
    by_cases hd : d = c
    · rw [hd, hself]
      exact hlocal
    · rw [hother d hd]
      exact (h.positions d).frame (coreStep_effect c (s.cores c) s.shared) hd
  cases outcome with
  | keep hword hholds =>
    have hsame (d : ι) : ((step s (.step c)).cores d).Holds ↔ (s.cores d).Holds := by
      by_cases hd : d = c
      · rw [hd, hself]
        exact hholds
      · rw [hother d hd]
    constructor
    · exact hpositions
    · intro d e hd he
      exact h.unique d e ((hsame d).mp hd) ((hsame e).mp he)
    · rintro ⟨d, hd⟩
      exact hword.trans (h.held ⟨d, (hsame d).mp hd⟩)
    · intro hnone
      exact hword.trans (h.free fun d hd => hnone d ((hsame d).mpr hd))
  | acquire hzero hholds hword =>
    have honly (d : ι) (hd : ((step s (.step c)).cores d).Holds) : d = c := by
      by_contra hne
      rw [hother d hne] at hd
      have hone := h.held ⟨d, hd⟩
      simp [hzero] at hone
    constructor
    · exact hpositions
    · intro d e hd he
      rw [honly d hd, honly e he]
    · intro _
      exact hword
    · intro hnone
      exact absurd (hself ▸ hholds) (hnone c)
  | release hheld hfree hword =>
    have hnone (d : ι) : ¬ ((step s (.step c)).cores d).Holds := by
      intro hd
      by_cases hne : d = c
      · rw [hne, hself] at hd
        exact hfree hd
      · rw [hother d hne] at hd
        exact hne (h.unique d c hd hheld)
    constructor
    · exact hpositions
    · intro d e hd
      exact absurd hd (hnone d)
    · rintro ⟨d, hd⟩
      exact absurd hd (hnone d)
    · intro _
      exact hword

theorem inv_lose {s : State ι} (h : Inv s) (c : ι) : Inv (step s (.lose c)) where
  positions d := by
    by_cases hd : d = c
    · have hlost : (step s (.lose c)).shared.monitor d = false := by
        simp [step, clear, hd]
      rw [hlost]
      exact (h.positions d).lost
    · exact (h.positions d).frame (clear_effect c s.shared) hd
  unique := h.unique
  held := h.held
  free := h.free

theorem always_inv (k : ι → BitVec 32 × BitVec 32) (monitor : ι → Bool)
    (events : List (Event ι)) : Run.Always step Inv (start k monitor) events := by
  have hkeep (s : State ι) (e : Event ι) (h : Inv s) : Inv (step s e) := by
    cases e with
    | step c => exact inv_step h c
    | lose c => exact inv_lose h c
  exact Run.always_of_keep hkeep (inv_start k monitor)

/-- Over any interleaving of the instructions of any number of cores and any losses of a
monitor. -/
theorem spinlock_mutual_exclusion (k : ι → BitVec 32 × BitVec 32) (monitor : ι → Bool)
    (events : List (Event ι)) :
    Run.Always step MutualExclusion (start k monitor) events :=
  (always_inv k monitor events).mono fun _ => Inv.mutualExclusion

end KernelFuzzing.Sync
