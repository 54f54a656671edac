import KernelFuzzing.Foundation.Run

/-! Runs that must reach a goal: a rank that is positive away from the goal, that some
events lower and others raise by a bounded amount. -/
namespace KernelFuzzing.Foundation.Progress
open Run

variable {σ ε : Type*} {step : σ → ε → σ} {goal : σ → Prop}

def Reaches (step : σ → ε → σ) (goal : σ → Prop) (s : σ) (es : List ε) : Prop :=
  ∃ pre, pre <+: es ∧ goal (run step s pre)

theorem Reaches.cons {s : σ} {e : ε} {es : List ε} (h : Reaches step goal (step s e) es) :
    Reaches step goal s (e :: es) := by
  obtain ⟨pre, hpre, hgoal⟩ := h
  exact ⟨e :: pre, List.cons_prefix_cons.mpr ⟨rfl, hpre⟩, hgoal⟩

theorem reaches_of_goal {s : σ} {es : List ε} (h : goal s) : Reaches step goal s es :=
  ⟨[], List.nil_prefix, h⟩

/-- Enough gains reach the goal, whatever comes between them: each delay is made up for. -/
theorem reaches_of_rank (inv : σ → Prop) (rank : σ → Nat) (gain delay : ε → Nat)
    (pos : ∀ s, inv s → 0 < rank s)
    (next : ∀ s e, inv s →
      goal (step s e) ∨ inv (step s e) ∧ rank (step s e) + gain e ≤ rank s + delay e)
    {s : σ} {es : List ε} (start : inv s)
    (enough : rank s + (es.map delay).sum ≤ (es.map gain).sum) : Reaches step goal s es := by
  induction es generalizing s with
  | nil =>
    have hpos := pos s start
    simp only [List.map_nil, List.sum_nil] at enough
    omega
  | cons e es ih =>
    apply Reaches.cons
    rcases next s e start with hgoal | ⟨hinv, hrank⟩
    · exact reaches_of_goal hgoal
    · apply ih hinv
      simp only [List.map_cons, List.sum_cons] at enough
      omega

end KernelFuzzing.Foundation.Progress
