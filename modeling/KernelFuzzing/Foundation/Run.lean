import Mathlib.Algebra.Ring.Nat
import Mathlib.Data.List.Infix

/-! Runs of a deterministic step function over a list of events. A property of
every state a run reaches is proved from one step, and where a guard decides
exactly which steps keep it, so does the guard along the run. -/
namespace KernelFuzzing.Foundation.Run

variable {σ ε : Type*}

/-- The state after all events, taken from left to right. -/
def run (step : σ → ε → σ) (s : σ) (events : List ε) : σ := events.foldl step s

/-- `ok` holds of every step of the run, at the state that step starts from. -/
def Guarded (step : σ → ε → σ) (ok : σ → ε → Prop) : σ → List ε → Prop
  | _, [] => True
  | s, e :: es => ok s e ∧ Guarded step ok (step s e) es

/-- `P` holds in every state the run reaches, the first and the last included. -/
def Always (step : σ → ε → σ) (P : σ → Prop) (s : σ) (events : List ε) : Prop :=
  ∀ pre, pre <+: events → P (run step s pre)

/-- The first `n` events of a source that sees the state. -/
def drive (step : σ → ε → σ) (source : σ → ε) (s : σ) : Nat → List ε
  | 0 => []
  | n + 1 => drive step source s n ++ [source (run step s (drive step source s n))]

variable {step : σ → ε → σ} {ok legal : σ → ε → Prop} {P Q inv : σ → Prop}

@[simp] theorem run_nil (s : σ) : run step s [] = s := rfl

@[simp] theorem run_cons (s : σ) (e : ε) (es : List ε) :
    run step s (e :: es) = run step (step s e) es := rfl

@[simp] theorem run_append (s : σ) (es fs : List ε) :
    run step s (es ++ fs) = run step (run step s es) fs := by
  simp [run]

@[simp] theorem guarded_nil (s : σ) : Guarded step ok s [] ↔ True := Iff.rfl

@[simp] theorem guarded_cons (s : σ) (e : ε) (es : List ε) :
    Guarded step ok s (e :: es) ↔ ok s e ∧ Guarded step ok (step s e) es := Iff.rfl

theorem guarded_iff_forall {ok : ε → Prop} (s : σ) (es : List ε) :
    Guarded step (fun _ => ok) s es ↔ ∀ e ∈ es, ok e := by
  induction es generalizing s with
  | nil => simp
  | cons e es ih => simp [ih]

theorem guarded_append (s : σ) (es fs : List ε) :
    Guarded step ok s (es ++ fs) ↔
      Guarded step ok s es ∧ Guarded step ok (run step s es) fs := by
  induction es generalizing s with
  | nil => simp
  | cons e es ih => simp [ih, and_assoc]

@[simp] theorem always_nil (s : σ) : Always step P s [] ↔ P s := by
  simp [Always]

@[simp] theorem always_cons (s : σ) (e : ε) (es : List ε) :
    Always step P s (e :: es) ↔ P s ∧ Always step P (step s e) es := by
  constructor
  · intro h
    exact ⟨h [] List.nil_prefix,
      fun pre hpre => h (e :: pre) (List.cons_prefix_cons.mpr ⟨rfl, hpre⟩)⟩
  · rintro ⟨first, rest⟩ pre hpre
    rcases List.prefix_cons_iff.mp hpre with rfl | ⟨tail, rfl, htail⟩
    · exact first
    · exact rest tail htail

theorem Always.first (h : Always step P s es) : P s := h [] List.nil_prefix

theorem always_append (s : σ) (es fs : List ε) :
    Always step P s (es ++ fs) ↔ Always step P s es ∧ Always step P (run step s es) fs := by
  induction es generalizing s with
  | nil => simpa using fun h => h.first
  | cons e es ih => simp [ih, and_assoc]

theorem Always.mono (h : Always step P s es) (imp : ∀ s, P s → Q s) :
    Always step Q s es :=
  fun pre hpre => imp _ (h pre hpre)

theorem Always.last (h : Always step P s es) : P (run step s es) :=
  h es List.prefix_rfl

theorem Guarded.mono (h : Guarded step legal s es) (imp : ∀ s e, legal s e → ok s e) :
    Guarded step ok s es := by
  induction es generalizing s with
  | nil => trivial
  | cons e es ih => exact ⟨imp s e h.1, ih h.2⟩

theorem guarded_iff_total {cost : ε → Nat} {limit : Nat} (at' : Nat → σ → Prop)
    (guard : ∀ n s, at' n s → n ≤ limit → ∀ e ∈ es, (ok s e ↔ n + cost e ≤ limit))
    (next : ∀ n s, at' n s → ∀ e ∈ es, n + cost e ≤ limit → at' (n + cost e) (step s e))
    {n : Nat} (start : at' n s) (room : n ≤ limit) :
    Guarded step ok s es ↔ n + (es.map cost).sum ≤ limit := by
  induction es generalizing s n with
  | nil => simpa using room
  | cons e es ih =>
    rw [guarded_cons, guard n s start room e List.mem_cons_self, List.map_cons, List.sum_cons]
    by_cases hnext : n + cost e ≤ limit
    · have rest := ih
        (fun n s h hn e he => guard n s h hn e (List.mem_cons_of_mem _ he))
        (fun n s h e he => next n s h e (List.mem_cons_of_mem _ he))
        (next n s start e List.mem_cons_self hnext) hnext
      rw [rest, Nat.add_assoc]
      exact and_iff_right hnext
    · exact iff_of_false (fun h => hnext h.1) (by omega)

theorem run_map {τ : Type*} {step' : τ → ε → τ} (f : σ → τ)
    (comm : ∀ s e, f (step s e) = step' (f s) e) (s : σ) (es : List ε) :
    f (run step s es) = run step' (f s) es := by
  induction es generalizing s with
  | nil => rfl
  | cons e es ih => rw [run_cons, run_cons, ih, comm]

theorem always_map {τ : Type*} {step' : τ → ε → τ} {P : τ → Prop} (f : σ → τ)
    (comm : ∀ s e, f (step s e) = step' (f s) e) (s : σ) (es : List ε) :
    Always step (fun s => P (f s)) s es ↔ Always step' P (f s) es := by
  simp only [Always, run_map f comm]

theorem guarded_drive {source : σ → ε} (h : ∀ s, ok s (source s)) (s : σ) (n : Nat) :
    Guarded step ok s (drive step source s n) := by
  induction n with
  | zero => trivial
  | succ n ih => exact (guarded_append s _ _).mpr ⟨ih, h _, trivial⟩

theorem run_drive_succ (source : σ → ε) (s : σ) (n : Nat) :
    run step s (drive step source s (n + 1)) =
      step (run step s (drive step source s n)) (source (run step s (drive step source s n))) :=
  run_append s _ _

theorem guarded_congr {ok ok' : σ → ε → Prop} (h : ∀ s e, ok s e ↔ ok' s e) :
    Guarded step ok s es ↔ Guarded step ok' s es :=
  ⟨fun guard => guard.mono fun s e => (h s e).mp, fun guard => guard.mono fun s e => (h s e).mpr⟩

theorem guarded_iff_guarded (same : ∀ s e, inv s → (legal s e ↔ ok s e))
    (keep : ∀ s e, inv s → ok s e → inv (step s e)) (start : inv s) :
    Guarded step legal s es ↔ Guarded step ok s es := by
  induction es generalizing s with
  | nil => exact Iff.rfl
  | cons e es ih =>
    rw [guarded_cons, guarded_cons, same s e start]
    exact and_congr_right fun hok => ih (keep s e start hok)

theorem Guarded.and (h : Guarded step legal s es) (h' : Guarded step ok s es) :
    Guarded step (fun s e => legal s e ∧ ok s e) s es := by
  induction es generalizing s with
  | nil => trivial
  | cons e es ih => exact ⟨⟨h.1, h'.1⟩, ih h.2 h'.2⟩

/-- The invariant rule: what every guarded step keeps holds along the run. -/
theorem always_of_guarded (keep : ∀ s e, inv s → ok s e → inv (step s e))
    (start : inv s) (guard : Guarded step ok s es) : Always step inv s es := by
  induction es generalizing s with
  | nil => simpa using start
  | cons e es ih =>
    rw [guarded_cons] at guard
    rw [always_cons]
    exact ⟨start, ih (keep s e start guard.1) guard.2⟩

theorem always_of_keep (keep : ∀ s e, inv s → inv (step s e)) (start : inv s) :
    Always step inv s es := by
  induction es generalizing s with
  | nil => simpa using start
  | cons e es ih =>
    rw [always_cons]
    exact ⟨start, ih (keep s e start)⟩

/-- The exactness rule: if a guarded step keeps the invariant and an unguarded
one ends where `P` fails, then `P` holds along exactly the guarded runs. -/
theorem always_iff_guarded (holds : ∀ s, inv s → P s)
    (keep : ∀ s e, inv s → legal s e → ok s e → inv (step s e))
    (fails : ∀ s e, inv s → legal s e → ¬ ok s e → ¬ P (step s e))
    (start : inv s) (allowed : Guarded step legal s es) :
    Always step P s es ↔ Guarded step ok s es := by
  induction es generalizing s with
  | nil => simpa using holds s start
  | cons e es ih =>
    rw [guarded_cons] at allowed
    rw [always_cons, guarded_cons]
    by_cases hok : ok s e
    · have next := keep s e start allowed.1 hok
      simp [holds s start, hok, ih next allowed.2]
    · have broken : ¬ P (step s e) := fails s e start allowed.1 hok
      have bad : ¬ Always step P (step s e) es := fun h =>
        broken h.first
      simp [hok, bad]

theorem always_iff_guarded_of_total (holds : ∀ s, inv s → P s)
    (keep : ∀ s e, inv s → ok s e → inv (step s e))
    (fails : ∀ s e, inv s → ¬ ok s e → ¬ P (step s e)) (start : inv s) :
    Always step P s es ↔ Guarded step ok s es := by
  have allowed : Guarded step (fun _ _ => True) s es := by
    rw [guarded_iff_forall]
    exact fun _ _ => trivial
  exact always_iff_guarded holds (fun s e h _ => keep s e h) (fun s e h _ => fails s e h) start
    allowed

end KernelFuzzing.Foundation.Run
