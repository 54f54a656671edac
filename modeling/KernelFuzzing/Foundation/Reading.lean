import Mathlib.Data.Set.Basic
import Mathlib.Logic.Relation
import KernelFuzzing.Foundation.Memory

/-! Programs that only read memory. A program runs under a bound on the rounds of each
of its loops, and what it does is what it does under every bound that is large enough. -/
namespace KernelFuzzing.Foundation

/-- From the bound and the memory: the result, unless a loop used up its rounds, and the
addresses read, oldest first. -/
def Reading (α : Type) := Nat → Memory → Option α × List Word

namespace Reading

variable {α β σ ρ : Type}

instance : Monad Reading where
  pure a := fun _ _ => (some a, [])
  bind x f := fun rounds m =>
    match x rounds m with
    | (none, as) => (none, as)
    | (some a, as) => ((f a rounds m).1, as ++ (f a rounds m).2)

def read (a : Word) : Reading Byte := fun _ m => (some (m a), [a])

/-- At most `n` rounds of a loop body that goes on with a state or ends with a result. -/
def loopN (body : σ → Reading (σ ⊕ ρ)) : Nat → σ → Reading ρ
  | 0, _ => fun _ _ => (none, [])
  | n + 1, s => do
    match ← body s with
    | .inl s' => loopN body n s'
    | .inr r => pure r

def loop (body : σ → Reading (σ ⊕ ρ)) (s : σ) : Reading ρ :=
  fun rounds m => loopN body rounds s rounds m

def headsN (body : σ → Reading (σ ⊕ ρ)) (rounds : Nat) (m : Memory) : Nat → σ → List σ
  | 0, _ => []
  | n + 1, s => s ::
    match (body s rounds m).1 with
    | some (.inl s') => headsN body rounds m n s'
    | _ => []

def heads (body : σ → Reading (σ ⊕ ρ)) (s : σ) (rounds : Nat) (m : Memory) : List σ :=
  headsN body rounds m rounds s

/-- `while (more(p)) p++` -/
def scan (more : Word → Reading Bool) (p : Word) : Reading Word :=
  loop (fun p => do if ← more p then return .inl (p + 1) else return .inr p) p

/-- The program gives `a` and reads only in `S`. -/
def Gives (m : Memory) (S : Set Word) (x : Reading α) (a : α) : Prop :=
  ∃ n, ∀ rounds, n ≤ rounds → (x rounds m).1 = some a ∧ ∀ r ∈ (x rounds m).2, r ∈ S

variable {m : Memory} {S T : Set Word} {x : Reading α} {a b : α}

theorem Gives.pure (a : α) : Gives m S (pure a) a :=
  ⟨0, fun _ _ => ⟨rfl, by simp [Pure.pure]⟩⟩

theorem Gives.read (h : p ∈ S) : Gives m S (read p) (m p) :=
  ⟨0, fun _ _ => ⟨rfl, by simpa [Reading.read] using h⟩⟩

private theorem bind_of_some {f : α → Reading β} {rounds : Nat}
    (h : (x rounds m).1 = some a) :
    (x >>= f) rounds m = ((f a rounds m).1, (x rounds m).2 ++ (f a rounds m).2) := by
  change (match x rounds m with
    | (none, as) => (none, as)
    | (some a, as) => ((f a rounds m).1, as ++ (f a rounds m).2)) = _
  rw [← Prod.mk.eta (p := x rounds m), h]

theorem Gives.bind {f : α → Reading β} {c : β} (hx : Gives m S x a) (hf : Gives m S (f a) c) :
    Gives m S (x >>= f) c := by
  obtain ⟨n, hx⟩ := hx
  obtain ⟨k, hf⟩ := hf
  refine ⟨max n k, fun rounds hrounds => ?_⟩
  obtain ⟨hvalue, hreads⟩ := hx rounds (by omega)
  obtain ⟨hvalue', hreads'⟩ := hf rounds (by omega)
  rw [bind_of_some hvalue]
  refine ⟨hvalue', fun r hr => ?_⟩
  rcases List.mem_append.mp hr with hr | hr
  · exact hreads r hr
  · exact hreads' r hr

theorem Gives.ite {c : Prop} [Decidable c] {y : Reading α} (hx : c → Gives m S x a)
    (hy : ¬ c → Gives m S y a) : Gives m S (if c then x else y) a := by
  by_cases h : c
  · rw [if_pos h]
    exact hx h
  · rw [if_neg h]
    exact hy h

theorem Gives.mono (h : Gives m S x a) (hST : S ⊆ T) : Gives m T x a := by
  obtain ⟨n, h⟩ := h
  exact ⟨n, fun rounds hrounds =>
    ⟨(h rounds hrounds).1, fun r hr => hST ((h rounds hrounds).2 r hr)⟩⟩

theorem Gives.unique (ha : Gives m S x a) (hb : Gives m T x b) : a = b := by
  obtain ⟨n, ha⟩ := ha
  obtain ⟨k, hb⟩ := hb
  have hvalue := (ha (max n k) (by omega)).1
  rw [(hb (max n k) (by omega)).1] at hvalue
  exact (Option.some.inj hvalue).symm

inductive Rounds (m : Memory) (S : Set Word) (body : σ → Reading (σ ⊕ ρ)) :
    σ → List σ → ρ → Prop where
  | done {s : σ} {r : ρ} : Gives m S (body s) (.inr r) → Rounds m S body s [s] r
  | next {s s' : σ} {ss : List σ} {r : ρ} : Gives m S (body s) (.inl s') →
      Rounds m S body s' ss r → Rounds m S body s (s :: ss) r

variable {body : σ → Reading (σ ⊕ ρ)} {s : σ} {ss : List σ} {r : ρ}

private theorem loopN_succ (body : σ → Reading (σ ⊕ ρ)) (n : Nat) (s : σ) :
    loopN body (n + 1) s = body s >>= fun next =>
      match next with
      | .inl s' => loopN body n s'
      | .inr r => pure r := rfl

private theorem loopN_of_done {n rounds : Nat} (h : (body s rounds m).1 = some (.inr r)) :
    loopN body (n + 1) s rounds m = (some r, (body s rounds m).2) := by
  rw [loopN_succ, bind_of_some h]
  simp [Pure.pure]

private theorem loopN_of_next {n rounds : Nat} (h : (body s rounds m).1 = some (.inl s')) :
    loopN body (n + 1) s rounds m =
      ((loopN body n s' rounds m).1, (body s rounds m).2 ++ (loopN body n s' rounds m).2) := by
  rw [loopN_succ, bind_of_some h]

private theorem Rounds.loopN (h : Rounds m S body s ss r) :
    ∃ k, ∀ n rounds, k ≤ n → k ≤ rounds →
      (loopN body n s rounds m).1 = some r ∧ ∀ a ∈ (loopN body n s rounds m).2, a ∈ S := by
  induction h with
  | done hdone =>
    obtain ⟨k, hdone⟩ := hdone
    refine ⟨k + 1, fun n rounds hn hrounds => ?_⟩
    obtain ⟨n, rfl⟩ := Nat.exists_eq_add_one_of_ne_zero (show n ≠ 0 by omega)
    obtain ⟨hvalue, hreads⟩ := hdone rounds (by omega)
    rw [loopN_of_done hvalue]
    exact ⟨rfl, hreads⟩
  | next hnext _ ih =>
    obtain ⟨k, hnext⟩ := hnext
    obtain ⟨k', ih⟩ := ih
    refine ⟨max k k' + 1, fun n rounds hn hrounds => ?_⟩
    obtain ⟨n, rfl⟩ := Nat.exists_eq_add_one_of_ne_zero (show n ≠ 0 by omega)
    obtain ⟨hvalue, hreads⟩ := hnext rounds (by omega)
    obtain ⟨hvalue', hreads'⟩ := ih n rounds (by omega) (by omega)
    rw [loopN_of_next hvalue]
    refine ⟨hvalue', fun a ha => ?_⟩
    rcases List.mem_append.mp ha with ha | ha
    · exact hreads a ha
    · exact hreads' a ha

/-- The loop rule: the rounds of a loop make up its run. -/
theorem Rounds.gives (h : Rounds m S body s ss r) : Gives m S (loop body s) r := by
  obtain ⟨k, h⟩ := h.loopN
  exact ⟨k, fun rounds hrounds => h rounds rounds hrounds hrounds⟩

theorem Rounds.heads_eq (h : Rounds m S body s ss r) :
    ∃ k, ∀ rounds, k ≤ rounds → heads body s rounds m = ss := by
  have hN : ∃ k, ∀ n rounds, k ≤ n → k ≤ rounds → headsN body rounds m n s = ss := by
    induction h with
    | done hdone =>
      obtain ⟨k, hdone⟩ := hdone
      refine ⟨k + 1, fun n rounds hn hrounds => ?_⟩
      obtain ⟨n, rfl⟩ := Nat.exists_eq_add_one_of_ne_zero (show n ≠ 0 by omega)
      rw [headsN, (hdone rounds (by omega)).1]
    | next hnext _ ih =>
      obtain ⟨k, hnext⟩ := hnext
      obtain ⟨k', ih⟩ := ih
      refine ⟨max k k' + 1, fun n rounds hn hrounds => ?_⟩
      obtain ⟨n, rfl⟩ := Nat.exists_eq_add_one_of_ne_zero (show n ≠ 0 by omega)
      rw [headsN, (hnext rounds (by omega)).1]
      dsimp only
      rw [ih n rounds (by omega) (by omega)]
  obtain ⟨k, hN⟩ := hN
  exact ⟨k, fun rounds hrounds => hN rounds rounds hrounds hrounds⟩

theorem Gives.scan {more : Word → Reading Bool} {p : Word} {n : Nat}
    (hmore : ∀ i < n, Gives m S (more (p + BitVec.ofNat 64 i)) true)
    (hend : Gives m S (more (p + BitVec.ofNat 64 n)) false) :
    Gives m S (scan more p) (p + BitVec.ofNat 64 n) := by
  suffices h : ∃ ss, Rounds m S
      (fun p => do if ← more p then return .inl (p + 1) else return .inr p) p ss
      (p + BitVec.ofNat 64 n) from h.choose_spec.gives
  induction n generalizing p with
  | zero =>
    rw [BitVec.add_zero] at hend ⊢
    exact ⟨[p], .done (.bind hend (.pure _))⟩
  | succ n ih =>
    have hstep (i : Nat) : p + 1 + BitVec.ofNat 64 i = p + BitVec.ofNat 64 (i + 1) := by
      rw [BitVec.ofNat_add, BitVec.add_assoc, BitVec.add_comm 1]
      rfl
    have hfirst := hmore 0 (by omega)
    rw [BitVec.add_zero] at hfirst
    have hrest := ih (p := p + 1) (fun i hi => by rw [hstep]; exact hmore (i + 1) (by omega))
      (by rw [hstep]; exact hend)
    rw [hstep] at hrest
    obtain ⟨ss, hrounds⟩ := hrest
    exact ⟨p :: ss, .next (.bind hfirst (.pure _)) hrounds⟩

/-- The program reads `a`, whether it gives a result or not. -/
def Reads (m : Memory) (x : Reading α) (a : Word) : Prop :=
  ∃ n, ∀ rounds, n ≤ rounds → a ∈ (x rounds m).2

theorem Gives.mem_of_reads {p : Word} (h : Gives m S x a) (hread : Reads m x p) : p ∈ S := by
  obtain ⟨n, h⟩ := h
  obtain ⟨k, hread⟩ := hread
  exact (h (max n k) (by omega)).2 p (hread (max n k) (by omega))

theorem Reads.read (a : Word) : Reads m (read a) a :=
  ⟨0, fun _ _ => by simp [Reading.read]⟩

private theorem mem_bind {f : α → Reading β} {rounds : Nat} {p : Word}
    (h : p ∈ (x rounds m).2) : p ∈ ((x >>= f) rounds m).2 := by
  cases hvalue : (x rounds m).1 with
  | none =>
    change p ∈ (match x rounds m with
      | (none, as) => (none, as)
      | (some a, as) => ((f a rounds m).1, as ++ (f a rounds m).2)).2
    rw [← Prod.mk.eta (p := x rounds m), hvalue]
    exact h
  | some a =>
    rw [bind_of_some hvalue]
    exact List.mem_append_left _ h

theorem Reads.bind {f : α → Reading β} {p : Word} (h : Reads m x p) : Reads m (x >>= f) p := by
  obtain ⟨n, h⟩ := h
  exact ⟨n, fun rounds hrounds => mem_bind (h rounds hrounds)⟩

theorem Reads.after {f : α → Reading β} {p : Word} (hx : Gives m S x a)
    (h : Reads m (f a) p) : Reads m (x >>= f) p := by
  obtain ⟨n, hx⟩ := hx
  obtain ⟨k, h⟩ := h
  refine ⟨max n k, fun rounds hrounds => ?_⟩
  rw [bind_of_some (hx rounds (by omega)).1]
  exact List.mem_append_right _ (h rounds (by omega))

theorem Reads.loop (s' : σ) {p : Word}
    (hcomes : Relation.ReflTransGen (fun s s' => Gives m Set.univ (body s) (.inl s')) s s')
    (h : Reads m (body s') p) : Reads m (loop body s) p := by
  have hN : ∃ k, ∀ n rounds, k ≤ n → k ≤ rounds → p ∈ (loopN body n s rounds m).2 := by
    induction hcomes using Relation.ReflTransGen.head_induction_on with
    | refl =>
      obtain ⟨k, h⟩ := h
      refine ⟨k + 1, fun n rounds hn hrounds => ?_⟩
      obtain ⟨n, rfl⟩ := Nat.exists_eq_add_one_of_ne_zero (show n ≠ 0 by omega)
      rw [loopN_succ]
      exact mem_bind (h rounds (by omega))
    | head hnext _ ih =>
      obtain ⟨k, hnext⟩ := hnext
      obtain ⟨k', ih⟩ := ih
      refine ⟨max k k' + 1, fun n rounds hn hrounds => ?_⟩
      obtain ⟨n, rfl⟩ := Nat.exists_eq_add_one_of_ne_zero (show n ≠ 0 by omega)
      rw [loopN_of_next (hnext rounds (by omega)).1]
      exact List.mem_append_right _ (ih n rounds (by omega) (by omega))
  obtain ⟨k, hN⟩ := hN
  exact ⟨k, fun rounds hrounds => hN rounds rounds hrounds hrounds⟩

def Spans (S : Set Word) (a : Word) (n : Nat) : Prop := ∀ i < n, a + BitVec.ofNat 64 i ∈ S

/-- A zero byte at or behind `a`, up to which everything may be read. -/
def Terminated (m : Memory) (S : Set Word) (a : Word) : Prop :=
  ∃ n, m (a + BitVec.ofNat 64 n) = 0 ∧ Spans S a (n + 1)

theorem Spans.mono {a : Word} {n k : Nat} (h : Spans S a n) (hk : k ≤ n) : Spans S a k :=
  fun i hi => h i (by omega)

theorem Spans.drop {a : Word} {n : Nat} (h : Spans S a n) (k : Nat) :
    Spans S (a + BitVec.ofNat 64 k) (n - k) := by
  intro i hi
  rw [Memory.add_ofNat_add]
  exact h (k + i) (by omega)

theorem spans_univ (a : Word) (n : Nat) : Spans Set.univ a n := fun _ _ => Set.mem_univ _

theorem Terminated.mem {a : Word} (h : Terminated m S a) : a ∈ S := by
  obtain ⟨n, -, hspans⟩ := h
  have := hspans 0 (by omega)
  rwa [BitVec.add_zero] at this

theorem Terminated.univ {a : Word} (h : Terminated m S a) (b : Word) :
    Terminated m Set.univ b := by
  obtain ⟨n, hzero, -⟩ := h
  refine ⟨(a + BitVec.ofNat 64 n - b).toNat, ?_, spans_univ _ _⟩
  rwa [BitVec.ofNat_toNat, BitVec.setWidth_eq, BitVec.add_comm b, BitVec.sub_add_cancel]

theorem Terminated.tail {a : Word} (h : Terminated m S a) (hne : m a ≠ 0) :
    Terminated m S (a + 1) := by
  obtain ⟨n, hzero, hspans⟩ := h
  cases n with
  | zero =>
    rw [BitVec.add_zero] at hzero
    exact absurd hzero hne
  | succ n =>
    refine ⟨n, ?_, hspans.drop 1⟩
    have hstep := Memory.add_ofNat_add a 1 n
    rw [Nat.add_comm] at hstep
    rw [← hstep] at hzero
    exact hzero

theorem Terminated.back {a : Word} {k : Nat} (h : Terminated m S (a + BitVec.ofNat 64 k))
    (hspans : Spans S a k) : Terminated m S a := by
  obtain ⟨n, hzero, hrest⟩ := h
  rw [Memory.add_ofNat_add] at hzero
  refine ⟨k + n, hzero, fun i hi => ?_⟩
  by_cases hlt : i < k
  · exact hspans i hlt
  · have hmem := hrest (i - k) (by omega)
    rwa [Memory.add_ofNat_add, Nat.add_sub_cancel' (Nat.le_of_not_lt hlt)] at hmem

end Reading

end KernelFuzzing.Foundation
