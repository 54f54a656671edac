import Mathlib.Data.List.Basic

/-! Sequences of brackets over a type of labels and the stack of labels they leave open. -/
namespace KernelFuzzing.Foundation.Nesting

inductive Bracket (α : Type*) where
  | opening (a : α)
  | closing (a : α)

variable {α : Type*} [DecidableEq α]

/-- The labels left open, the innermost first. An open label is not opened again, and
only the innermost one is closed. -/
def opened : List α → List (Bracket α) → Option (List α)
  | stack, [] => some stack
  | stack, .opening a :: es => if a ∈ stack then none else opened (a :: stack) es
  | [], .closing _ :: _ => none
  | b :: stack, .closing a :: es => if a = b then opened stack es else none

def WellNested (es : List (Bracket α)) : Prop := opened [] es = some []

instance (es : List (Bracket α)) : Decidable (WellNested es) :=
  inferInstanceAs (Decidable (opened [] es = some []))

/-- Pairs one after the other, none inside another. -/
inductive Pairs : List (Bracket α) → Prop where
  | nil : Pairs []
  | cons (a : α) {es : List (Bracket α)} : Pairs es → Pairs (.opening a :: .closing a :: es)

variable {a : α} {stack rest : List α} {es : List (Bracket α)}

theorem opened_opening_eq_some :
    opened stack (.opening a :: es) = some rest ↔
      a ∉ stack ∧ opened (a :: stack) es = some rest := by
  simp [opened]

theorem opened_closing_eq_some :
    opened stack (.closing a :: es) = some rest ↔
      ∃ inner, stack = a :: inner ∧ opened inner es = some rest := by
  cases stack with
  | nil => simp [opened]
  | cons b inner => grind [opened]

@[simp] theorem wellNested_nil : WellNested ([] : List (Bracket α)) := rfl

@[simp] theorem wellNested_pair :
    WellNested (.opening a :: .closing a :: es) ↔ WellNested es := by
  simp [WellNested, opened]

@[simp] theorem not_wellNested_opening : ¬ WellNested [Bracket.opening a] := by
  simp [WellNested, opened]

omit [DecidableEq α] in
theorem Pairs.prefix_cases {pre : List (Bracket α)}
    (hpre : pre <+: .opening a :: .closing a :: es) :
    pre = [] ∨ pre = [.opening a] ∨
      ∃ tail, pre = .opening a :: .closing a :: tail ∧ tail <+: es := by
  rcases List.prefix_cons_iff.mp hpre with rfl | ⟨tail, rfl, htail⟩
  · exact .inl rfl
  · rcases List.prefix_cons_iff.mp htail with rfl | ⟨tail', rfl, htail'⟩
    · exact .inr (.inl rfl)
    · exact .inr (.inr ⟨tail', rfl, htail'⟩)

end KernelFuzzing.Foundation.Nesting
