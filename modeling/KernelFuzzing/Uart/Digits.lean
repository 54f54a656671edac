import Mathlib.Data.Vector.Basic
import KernelFuzzing.Foundation.Decimal
import KernelFuzzing.Uart.Output

/-! `uint2str` and `int2str` of drivers/char/uart.c: the digits go into a buffer, the
lowest first, and are sent back to front. -/
namespace KernelFuzzing.Uart
open Foundation

/-- `char buf[2048]`, with whatever the stack held before. -/
abbrev DigitBuffer := Vector Byte 2048

def DigitBuffer.store (buf : DigitBuffer) (i : Nat) (c : Byte) : Option DigitBuffer :=
  if h : i < 2048 then some (buf.set i c) else none

def DigitBuffer.load (buf : DigitBuffer) (i : Nat) : Option Byte := buf[i]?

/-- The first loop of both functions. It only makes `d` smaller, so the width of `d`
does not matter to it. -/
def extractDigits (buf : DigitBuffer) (i : Nat) (d : Int) : Option (DigitBuffer × Nat) := do
  if 0 < d ∧ i < 2048 then
    let digit := d.tmod 10
    let buf ← buf.store i (0x30#8 + BitVec.ofInt 8 digit)
    extractDigits buf (i + 1) (d.tdiv 10)
  else
    return (buf, i)
termination_by d.toNat
decreasing_by
  rename_i h
  rw [Int.tdiv_eq_ediv_of_nonneg (by omega)]
  omega

/-- `while (--i >= 0) uart_putc(buf[i]);` -/
def printDigits (fr : FlagRegister) (buf : DigitBuffer) (i : Int) : Code Unit := do
  let i := i - 1
  if 0 ≤ i then
    let c ← buf.load i.toNat
    uartPutc fr c
    printDigits fr buf i
termination_by i.toNat

def uint2str (fr : FlagRegister) (buf : DigitBuffer) (d : Word) : Code Unit := do
  if d = 0 then
    uartPutc fr 0x30#8
  else
    let (buf, i) ← extractDigits buf 0 d.toNat
    printDigits fr buf i

def int2str (fr : FlagRegister) (buf : DigitBuffer) (d : BitVec 32) : Code Unit := do
  if d = 0 then
    uartPutc fr 0x30#8
  else if d.toInt < 0 then
    uartPutc fr 0x2D#8
    -- the smallest `int` is its own negation
    let d := -d
    let (buf, i) ← extractDigits buf 0 d.toInt
    printDigits fr buf i
  else
    let (buf, i) ← extractDigits buf 0 d.toInt
    printDigits fr buf i

theorem digit_eq (n : Nat) :
    0x30#8 + BitVec.ofInt 8 ((n : Int).tmod 10) = digitChar (n % 10) := by
  have hmod : (n : Int).tmod 10 = ((n % 10 : Nat) : Int) := rfl
  rw [hmod, BitVec.ofInt_natCast, digitChar, BitVec.ofNat_add]

theorem take_store (buf : DigitBuffer) {i : Nat} (h : i < 2048) (c : Byte) :
    ∃ buf', buf.store i c = some buf' ∧ buf'.toList.take (i + 1) = buf.toList.take i ++ [c] := by
  refine ⟨_, dif_pos h, ?_⟩
  rw [Vector.toList_set, List.take_succ_eq_append_getElem (by simpa using h),
    List.take_set_of_le (Nat.le_refl i), List.getElem_set_self]

theorem extractDigits_eq (buf : DigitBuffer) (i n : Nat)
    (h : i + (Nat.digits 10 n).length ≤ 2048) :
    ∃ buf', extractDigits buf i n = some (buf', i + (Nat.digits 10 n).length) ∧
      buf'.toList.take (i + (Nat.digits 10 n).length) =
        buf.toList.take i ++ (Nat.digits 10 n).map digitChar := by
  induction n using Nat.strong_induction_on generalizing buf i with
  | h n ih =>
    by_cases hzero : n = 0
    · refine ⟨buf, ?_, by simp [hzero]⟩
      rw [extractDigits, if_neg (by omega)]
      simp [hzero]
    · have hdigits : Nat.digits 10 n = n % 10 :: Nat.digits 10 (n / 10) :=
        Nat.digits_def' (by decide) (Nat.pos_of_ne_zero hzero)
      rw [hdigits, List.length_cons] at h ⊢
      have hroom : i < 2048 := by omega
      obtain ⟨next, hstore, htake⟩ := take_store buf hroom (digitChar (n % 10))
      obtain ⟨buf', hrest, hall⟩ := ih (n / 10) (by omega) next (i + 1) (by omega)
      have hlength : i + 1 + (Nat.digits 10 (n / 10)).length =
          i + ((Nat.digits 10 (n / 10)).length + 1) := by omega
      rw [hlength] at hrest hall
      refine ⟨buf', ?_, ?_⟩
      · rw [extractDigits, if_pos (by omega)]
        dsimp only
        rw [digit_eq, hstore]
        exact hrest
      · rw [hall, htake, List.append_assoc, List.map_cons, List.singleton_append]

theorem sends_printDigits (fr : FlagRegister) (buf : DigitBuffer) (i : Nat) (h : i ≤ 2048) :
    Sends (printDigits fr buf i) (buf.toList.take i).reverse () := by
  induction i with
  | zero =>
    rw [printDigits]
    exact Sends.pure ()
  | succ i ih =>
    have hlt : i < buf.toList.length := by simpa using h
    have hload : buf.load i = some buf.toList[i] := by
      simp [DigitBuffer.load, Nat.lt_of_succ_le h]
    have hindex : ((i + 1 : Nat) : Int) - 1 = (i : Int) := by omega
    rw [printDigits, List.take_succ_eq_append_getElem hlt, List.reverse_append,
      List.reverse_singleton, hindex]
    rw [if_pos (Int.natCast_nonneg i), Int.toNat_natCast]
    exact Sends.lift hload ((sends_uartPutc fr _).bind (ih (by omega)))

theorem sends_digits (fr : FlagRegister) (buf : DigitBuffer) {n : Nat} (hpos : n ≠ 0)
    (hsize : (Nat.digits 10 n).length ≤ 2048) :
    Sends (do let (buf, i) ← liftM (extractDigits buf 0 n); printDigits fr buf i) (decimal n)
      () := by
  obtain ⟨buf', hextract, htake⟩ := extractDigits_eq buf 0 n (by omega)
  rw [Nat.zero_add] at hextract htake
  rw [List.take_zero, List.nil_append] at htake
  have hprint := sends_printDigits fr buf' _ hsize
  rw [htake] at hprint
  rw [decimal, if_neg hpos]
  exact Sends.lift hextract hprint

theorem sends_uint2str (fr : FlagRegister) (buf : DigitBuffer) (d : Word) :
    Sends (uint2str fr buf d) (decimal d.toNat) () := by
  unfold uint2str
  by_cases hzero : d = 0
  · rw [if_pos hzero, hzero]
    exact sends_uartPutc fr _
  · rw [if_neg hzero]
    have hpos : d.toNat ≠ 0 := fun h => hzero (BitVec.eq_of_toNat_eq h)
    have hlength : (Nat.digits 10 d.toNat).length ≤ 20 :=
      Decimal.length_digits_le (d.isLt.trans (by decide))
    exact sends_digits fr buf hpos (by omega)

/-- `uint2str` stays in its buffer and sends the one canonical numeral of its argument. -/
theorem uint2str_canonical (fr : FlagRegister) (buf : DigitBuffer) (d : Word) :
    ∃ text, Sends (uint2str fr buf d) text () ∧ Decimal.Canonical text d.toNat ∧
      ∀ other, Decimal.Canonical other d.toNat → other = text :=
  ⟨decimal d.toNat, sends_uint2str fr buf d, Decimal.canonical_decimal _,
    fun _ h => h.eq_decimal⟩

/-- What `int2str` sends: nothing but the sign for the one value without a negation. -/
def int2str.text (d : BitVec 32) : List Byte :=
  if d = BitVec.intMin 32 then [0x2D#8] else signedDecimal d.toInt

theorem length_digits_int (d : BitVec 32) : (Nat.digits 10 d.toInt.natAbs).length ≤ 20 :=
  Decimal.length_digits_le (by
    have hlt := d.toInt_lt
    have hle := d.le_toInt
    omega)

theorem sends_int2str (fr : FlagRegister) (buf : DigitBuffer) (d : BitVec 32) :
    Sends (int2str fr buf d) (int2str.text d) () := by
  have hlength := length_digits_int d
  unfold int2str int2str.text
  by_cases hzero : d = 0
  · rw [if_pos hzero, hzero]
    exact sends_uartPutc fr _
  rw [if_neg hzero]
  have hne : d.toInt ≠ 0 := fun h => hzero (BitVec.eq_of_toInt_eq h)
  by_cases hneg : d.toInt < 0
  · rw [if_pos hneg]
    by_cases hmin : d = BitVec.intMin 32
    · rw [if_pos hmin, hmin]
      -- the loop finds no digits in a negative number
      have hnone : extractDigits buf 0 (-BitVec.intMin 32).toInt = some (buf, 0) := by
        rw [extractDigits, if_neg (by decide)]
        rfl
      exact (sends_uartPutc fr _).bind
        (Sends.lift hnone (sends_printDigits fr buf 0 (by decide)))
    · rw [if_neg hmin, signedDecimal, if_pos hneg]
      have hnat : (-d).toInt = (d.toInt.natAbs : Int) := by
        rw [BitVec.toInt_neg_of_ne_intMin hmin]
        omega
      refine (sends_uartPutc fr _).bind ?_
      dsimp only
      rw [hnat]
      exact sends_digits fr buf (by omega) (by omega)
  · have hmin : d ≠ BitVec.intMin 32 := by
      rintro rfl
      exact hneg (by decide)
    have hnat : d.toInt = (d.toInt.natAbs : Int) := by omega
    rw [if_neg hneg, if_neg hmin, signedDecimal, if_neg hneg]
    rw [hnat, Int.natAbs_natCast]
    exact sends_digits fr buf (by omega) (by omega)

end KernelFuzzing.Uart
