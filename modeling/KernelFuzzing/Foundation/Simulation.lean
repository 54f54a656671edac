import KernelFuzzing.Foundation.Run

/-! Systems that answer each call, and simulation between two of them. -/
namespace KernelFuzzing.Foundation.Simulation
open Run

variable {σ τ ε α : Type*}

/-- The answers to the calls of a run, in order. -/
def answers (step : σ → ε → α × σ) : σ → List ε → List α
  | _, [] => []
  | s, e :: es => (step s e).1 :: answers step (step s e).2 es

/-- The state after one call. -/
def next (step : σ → ε → α × σ) (s : σ) (e : ε) : σ := (step s e).2

variable {step : σ → ε → α × σ} {step' : τ → ε → α × τ} {R : σ → τ → Prop} {ok : ε → Prop}

/-- The simulation rule: related states that give the same answer to every allowed call and
stay related give the same answers to every run of such calls. -/
theorem answers_eq (sim : ∀ s t e, R s t → ok e →
      (step s e).1 = (step' t e).1 ∧ R (step s e).2 (step' t e).2)
    {s : σ} {t : τ} (start : R s t) {es : List ε} (allowed : ∀ e ∈ es, ok e) :
    answers step s es = answers step' t es ∧
      R (run (next step) s es) (run (next step') t es) := by
  induction es generalizing s t with
  | nil => exact ⟨rfl, start⟩
  | cons e es ih =>
    obtain ⟨hanswer, hnext⟩ := sim s t e start (allowed e List.mem_cons_self)
    obtain ⟨hrest, hlast⟩ := ih hnext fun f hf => allowed f (List.mem_cons_of_mem e hf)
    exact ⟨List.cons_eq_cons.mpr ⟨hanswer, hrest⟩, hlast⟩

end KernelFuzzing.Foundation.Simulation
