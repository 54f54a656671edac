import Mathlib.Data.List.Nodup
import Mathlib.Data.Set.Basic
import Mathlib.Logic.Function.Basic

/-! Chains of pointers: what following a `next` field from a pointer meets, and the
null-terminated lists among them. -/
namespace KernelFuzzing.Foundation.Chain

variable {α : Type*} {next next' : α → Option α} {p : Option α} {l : List α} {a b : α}

/-- The element met after `n` steps along `next`. -/
def visit (next : α → Option α) (p : Option α) : Nat → Option α
  | 0 => p
  | n + 1 => (visit next p n).bind next

def MetOnce (next : α → Option α) (p : Option α) (a : α) : Prop := ∃! n, visit next p n = some a

/-- The elements met from `p` on are those of the list, and then null. -/
def Linked (next : α → Option α) : Option α → List α → Prop
  | p, [] => p = none
  | p, a :: l => p = some a ∧ Linked next (next a) l

@[simp] theorem linked_nil : Linked next p [] ↔ p = none := Iff.rfl

@[simp] theorem linked_cons : Linked next p (a :: l) ↔ p = some a ∧ Linked next (next a) l :=
  Iff.rfl

theorem Linked.head (h : Linked next p l) : p = l.head? := by
  cases l with
  | nil => exact h
  | cons a l => exact h.1

theorem visit_succ (next : α → Option α) (p : Option α) (n : Nat) :
    visit next p (n + 1) = visit next (p.bind next) n := by
  induction n with
  | zero => rfl
  | succ n ih => rw [visit, ih, visit]

theorem Linked.visit (h : Linked next p l) (n : Nat) : visit next p n = l[n]? := by
  induction l generalizing p n with
  | nil =>
    rw [linked_nil.mp h]
    induction n with
    | zero => rfl
    | succ n ih => rw [Chain.visit, ih]; rfl
  | cons a l ih =>
    obtain ⟨rfl, htail⟩ := h
    cases n with
    | zero => rfl
    | succ n => rw [visit_succ, Option.bind_some, ih htail, List.getElem?_cons_succ]

private theorem visit_add {i j : Nat} (h : Chain.visit next p i = Chain.visit next p j) (k : Nat) :
    Chain.visit next p (i + k) = Chain.visit next p (j + k) := by
  induction k with
  | zero => exact h
  | succ k ih => rw [← Nat.add_assoc, ← Nat.add_assoc, Chain.visit, Chain.visit, ih]

theorem Linked.nodup (h : Linked next p l) : l.Nodup := by
  rw [List.nodup_iff_getElem?_ne_getElem?]
  intro i j hij hj heq
  rw [← h.visit, ← h.visit] at heq
  have hend := visit_add heq (l.length - j)
  rw [h.visit, h.visit, List.getElem?_eq_none (by omega : l.length ≤ j + (l.length - j)),
    List.getElem?_eq_none_iff] at hend
  omega

theorem Linked.metOnce_iff (h : Linked next p l) : MetOnce next p a ↔ a ∈ l := by
  constructor
  · rintro ⟨n, hn, -⟩
    rw [h.visit] at hn
    exact List.mem_of_getElem? hn
  · intro ha
    obtain ⟨n, hn, rfl⟩ := List.getElem_of_mem ha
    refine ⟨n, (h.visit n).trans (List.getElem?_eq_getElem hn), fun m hm => ?_⟩
    obtain ⟨hlt, heq⟩ := List.getElem?_eq_some_iff.mp ((h.visit m).symm.trans hm)
    exact (h.nodup.getElem_inj_iff).mp heq

theorem Linked.congr (h : Linked next p l) (heq : ∀ a ∈ l, next a = next' a) :
    Linked next' p l := by
  induction l generalizing p with
  | nil => exact h
  | cons a l ih =>
    refine ⟨h.1, ?_⟩
    rw [← heq a List.mem_cons_self]
    exact ih h.2 fun b hb => heq b (List.mem_cons_of_mem a hb)

theorem Linked.last (h : Linked next p l) (last : l.getLast? = some b) : next b = none := by
  induction l generalizing p with
  | nil => simp at last
  | cons a l ih =>
    cases l with
    | nil =>
      have hab : a = b := by simpa using last
      exact hab ▸ h.2
    | cons c l => exact ih h.2 (by simpa using last)

theorem Linked.next_mem (h : Linked next p l) (ha : a ∈ l) (hb : next a = some b) : b ∈ l := by
  obtain ⟨n, hn, rfl⟩ := List.getElem_of_mem ha
  have hvisit : Chain.visit next p (n + 1) = some b := by
    rw [Chain.visit, h.visit, List.getElem?_eq_getElem hn, Option.bind_some, hb]
  rw [h.visit] at hvisit
  exact List.mem_of_getElem? hvisit

theorem mem_of_visit {S : Set α} (start : ∀ a, p = some a → a ∈ S)
    (closed : ∀ a ∈ S, ∀ b, next a = some b → b ∈ S) {n : Nat}
    (h : Chain.visit next p n = some a) : a ∈ S := by
  induction n generalizing a with
  | zero => exact start a h
  | succ n ih =>
    rw [Chain.visit] at h
    obtain ⟨b, hb, hnext⟩ := Option.bind_eq_some_iff.mp h
    exact closed b (ih hb) a hnext

section Update
variable [DecidableEq α]

theorem Linked.append (h : Linked next p l) (last : l.getLast? = some b) (fresh : a ∉ l)
    (end' : next a = none) : Linked (Function.update next b (some a)) p (l ++ [a]) := by
  induction l generalizing p with
  | nil => simp at last
  | cons c l ih =>
    refine ⟨h.1, ?_⟩
    have hca : c ≠ a := fun heq => fresh (heq ▸ List.mem_cons_self)
    cases l with
    | nil =>
      have hcb : c = b := by simpa using last
      have hba : a ≠ b := fun heq => hca (hcb.trans heq.symm)
      rw [hcb, Function.update_self]
      exact ⟨rfl, (Function.update_of_ne hba _ _).trans end'⟩
    | cons d l =>
      have hlast : (d :: l).getLast? = some b := by simpa using last
      have hne : c ≠ b := fun heq =>
        (List.nodup_cons.mp h.nodup).1 (heq ▸ List.mem_of_getLast? hlast)
      rw [Function.update_of_ne hne]
      exact ih h.2 hlast fun hmem => fresh (List.mem_cons_of_mem c hmem)

theorem Linked.rotate (h : Linked next p (a :: l)) (last : (a :: l).getLast? = some b) :
    Linked (Function.update (Function.update next b (some a)) a none)
      (Function.update next b (some a) a) (l ++ [a]) := by
  have fresh : a ∉ l := (List.nodup_cons.mp h.nodup).1
  cases l with
  | nil =>
    have hab : a = b := by simpa using last
    rw [← hab, Function.update_self]
    exact ⟨rfl, Function.update_self _ _ _⟩
  | cons c l =>
    have hlast : (c :: l).getLast? = some b := by simpa using last
    have hne : a ≠ b := fun heq => fresh (heq ▸ List.mem_of_getLast? hlast)
    have hcut : Linked (Function.update next a none) (next a) (c :: l) :=
      h.2.congr fun d hd => (Function.update_of_ne (fun heq : d = a => fresh (heq ▸ hd)) _ _).symm
    rw [Function.update_of_ne hne, Function.update_comm hne.symm]
    exact hcut.append hlast fresh (Function.update_self _ _ _)

end Update

end KernelFuzzing.Foundation.Chain
