import Mathlib.Algebra.Order.Group.Nat
import Mathlib.Data.Nat.Find
import KernelFuzzing.Foundation.Memory

/-! The transmit side of drivers/char/uart.c: `uart_putc` and `uart_puts`, and what a
piece of code sends. -/
namespace KernelFuzzing.Uart
open Foundation

/-- What the successive reads of the flag register give. The transmitter drains, so
that it does not stay full for ever. -/
structure FlagRegister where
  read : Nat → BitVec 32
  drains : ∀ n, ∃ m, n ≤ m ∧ read m &&& (1#32 <<< 5) = 0

/-- The reads of the flag register so far, and the values written to the data register. -/
structure Port where
  polls : Nat
  sent : List (BitVec 32)
deriving DecidableEq

abbrev Code := StateT Port Option

/-- The polling loop of `uart_putc`: the number of reads after the first that finds room. -/
def FlagRegister.wait (fr : FlagRegister) (polls : Nat) : Nat :=
  if hbusy : fr.read polls &&& (1#32 <<< 5) ≠ 0 then fr.wait (polls + 1) else polls + 1
termination_by Nat.find (fr.drains polls) - polls
decreasing_by
  have hnow := Nat.find_spec (fr.drains polls)
  have hnext : Nat.find (fr.drains (polls + 1)) ≤ Nat.find (fr.drains polls) := by
    refine Nat.find_min' _ ⟨?_, hnow.2⟩
    rcases Nat.eq_or_lt_of_le hnow.1 with heq | hlt
    · rw [← heq] at hnow
      exact absurd hnow.2 hbusy
    · exact hlt
  have hpast := (Nat.find_spec (fr.drains (polls + 1))).1
  omega

def writeData (value : BitVec 32) : Code Unit := fun port =>
  some ((), { port with sent := port.sent ++ [value] })

def uartPutc (fr : FlagRegister) (c : Byte) : Code Unit := do
  modify fun port => { port with polls := fr.wait port.polls }
  writeData (c.setWidth 32)

def uartPuts (fr : FlagRegister) : List Byte → Code Unit
  | [] => failure
  | c :: s => do
    if c ≠ 0 then
      uartPutc fr c
      uartPuts fr s

/-- From any state of the port the code returns `a` and has sent `text`. -/
def Sends {α : Type} (x : Code α) (text : List Byte) (a : α) : Prop :=
  ∀ port, ∃ polls, x.run port = some (a, ⟨polls, port.sent ++ text.map (·.setWidth 32)⟩)

section
variable {fr : FlagRegister} {α β : Type} {x : Code α} {text rest : List Byte} {a : α} {b : β}

theorem Sends.pure (a : α) : Sends (pure a) [] a :=
  fun port => ⟨port.polls, by simp⟩

theorem Sends.bind {f : α → Code β} (hx : Sends x text a) (hf : Sends (f a) rest b) :
    Sends (x >>= f) (text ++ rest) b := by
  intro port
  obtain ⟨polls, hrun⟩ := hx port
  obtain ⟨polls', hrest⟩ := hf ⟨polls, port.sent ++ text.map (·.setWidth 32)⟩
  refine ⟨polls', ?_⟩
  rw [StateT.run_bind, hrun]
  simp only [Option.bind_eq_bind, Option.bind_some]
  rw [hrest, List.map_append, List.append_assoc]

theorem Sends.lift {o : Option α} {f : α → Code β} (h : o = some a) (hf : Sends (f a) text b) :
    Sends (liftM o >>= f) text b := by
  subst h
  exact hf

theorem Sends.unique (hx : Sends x text a) {text' : List Byte} {a' : α}
    (hx' : Sends x text' a') : text = text' ∧ a = a' := by
  obtain ⟨polls, hrun⟩ := hx ⟨0, []⟩
  obtain ⟨polls', hrun'⟩ := hx' ⟨0, []⟩
  rw [hrun, Option.some.injEq, Prod.mk.injEq, Port.mk.injEq] at hrun'
  have hwide : Function.Injective fun c : Byte => c.setWidth 32 := fun c d h => by
    simpa using congrArg (BitVec.setWidth 8) h
  exact ⟨List.map_injective_iff.mpr hwide (by simpa using hrun'.2.2), hrun'.1⟩

theorem sends_uartPutc (fr : FlagRegister) (c : Byte) : Sends (uartPutc fr c) [c] () :=
  fun port => ⟨fr.wait port.polls, rfl⟩

theorem sends_uartPuts (fr : FlagRegister) {s : List Byte} (hs : ∀ c ∈ s, c ≠ 0)
    (behind : List Byte) : Sends (uartPuts fr (s ++ 0 :: behind)) s () := by
  induction s with
  | nil =>
    rw [List.nil_append, uartPuts, if_neg (by simp)]
    exact Sends.pure ()
  | cons c s ih =>
    rw [List.cons_append, uartPuts, if_pos (hs c List.mem_cons_self)]
    exact (sends_uartPutc fr c).bind (ih fun d hd => hs d (List.mem_cons_of_mem _ hd))

end

end KernelFuzzing.Uart
