import Mathlib.Data.Nat.Digits.Lemmas
import KernelFuzzing.Foundation.Memory

/-! Decimal numerals in ASCII. Every number has exactly one numeral without a leading
zero. -/
namespace KernelFuzzing.Foundation

def digitChar (d : Nat) : Byte := BitVec.ofNat 8 (0x30 + d)

def decimal (n : Nat) : List Byte :=
  if n = 0 then [digitChar 0] else ((Nat.digits 10 n).map digitChar).reverse

def signedDecimal (z : Int) : List Byte :=
  if z < 0 then 0x2D#8 :: decimal z.natAbs else decimal z.natAbs

namespace Decimal

def value (s : List Byte) : Nat := s.foldl (fun v c => 10 * v + (c.toNat - 0x30)) 0

/-- `s` is the canonical numeral of `n`. -/
structure Canonical (s : List Byte) (n : Nat) : Prop where
  nonempty : s ≠ []
  digits : ∀ c ∈ s, 0x30 ≤ c.toNat ∧ c.toNat ≤ 0x39
  leading : s.head? = some 0x30#8 → s = [0x30#8]
  value : value s = n

theorem toNat_digitChar {d : Nat} (h : d < 10) : (digitChar d).toNat = 0x30 + d := by
  rw [digitChar, BitVec.toNat_ofNat]
  omega

theorem value_append_singleton (s : List Byte) (c : Byte) :
    value (s ++ [c]) = 10 * value s + (c.toNat - 0x30) := by
  simp [value]

theorem value_reverse_map {ds : List Nat} (h : ∀ d ∈ ds, d < 10) :
    value (ds.map digitChar).reverse = Nat.ofDigits 10 ds := by
  induction ds with
  | nil => rfl
  | cons d ds ih =>
    have hd := toNat_digitChar (h d List.mem_cons_self)
    rw [List.map_cons, List.reverse_cons, value_append_singleton, hd, Nat.ofDigits_cons,
      ih fun d hd => h d (List.mem_cons_of_mem _ hd)]
    omega

theorem digits_lt (n : Nat) : ∀ d ∈ Nat.digits 10 n, d < 10 :=
  fun _ => Nat.digits_lt_base (by decide)

theorem canonical_zero : Canonical (decimal 0) 0 where
  nonempty := by simp [decimal]
  digits := by decide
  leading := fun _ => rfl
  value := rfl

theorem canonical_decimal (n : Nat) : Canonical (decimal n) n := by
  by_cases hzero : n = 0
  · rw [hzero]
    exact canonical_zero
  rw [decimal, if_neg hzero]
  have hdigits : Nat.digits 10 n ≠ [] := Nat.digits_ne_nil_iff_ne_zero.mpr hzero
  refine ⟨by simpa using hdigits, fun c hc => ?_, fun hhead => ?_, ?_⟩
  · rw [List.mem_reverse, List.mem_map] at hc
    obtain ⟨d, hd, rfl⟩ := hc
    have hlt := digits_lt n d hd
    rw [toNat_digitChar hlt]
    omega
  · -- the last digit in the list is the leading one of the numeral
    have hlast := Nat.getLast_digit_ne_zero 10 hzero
    have hlt := digits_lt n _ (List.getLast_mem hdigits)
    rw [List.head?_reverse, List.getLast?_map, List.getLast?_eq_some_getLast hdigits,
      Option.map_some, Option.some.injEq] at hhead
    have hvalue := toNat_digitChar hlt
    rw [hhead] at hvalue
    exact absurd (by simpa using hvalue) hlast
  · rw [value_reverse_map (digits_lt n), Nat.ofDigits_digits]

theorem digitChar_digit {c : Byte} (h : 0x30 ≤ c.toNat) : digitChar (c.toNat - 0x30) = c := by
  apply BitVec.eq_of_toNat_eq
  have hc := c.isLt
  rw [digitChar, BitVec.toNat_ofNat]
  omega

def digitsOf (s : List Byte) : List Nat := (s.map fun c => c.toNat - 0x30).reverse

theorem map_digitsOf {s : List Byte} (h : ∀ c ∈ s, 0x30 ≤ c.toNat) :
    ((digitsOf s).map digitChar).reverse = s := by
  rw [digitsOf, List.map_reverse, List.reverse_reverse, List.map_map]
  conv_rhs => rw [← List.map_id s]
  exact List.map_congr_left fun c hc => digitChar_digit (h c hc)

theorem Canonical.eq_decimal {s : List Byte} {n : Nat} (h : Canonical s n) : s = decimal n := by
  have hmap := map_digitsOf fun c hc => (h.digits c hc).1
  have hlt : ∀ d ∈ digitsOf s, d < 10 := by
    intro d hd
    rw [digitsOf, List.mem_reverse, List.mem_map] at hd
    obtain ⟨c, hc, rfl⟩ := hd
    have hdigit := h.digits c hc
    omega
  have hn : Nat.ofDigits 10 (digitsOf s) = n := by
    rw [← value_reverse_map hlt, hmap, h.value]
  by_cases hzero : s.head? = some 0x30#8
  · have hs := h.leading hzero
    have hn := h.value
    rw [hs] at hn ⊢
    rw [← hn]
    rfl
  · have hne : digitsOf s ≠ [] := by simpa [digitsOf] using h.nonempty
    have hdigits : Nat.digits 10 n = digitsOf s := by
      rw [← hn]
      refine Nat.digits_ofDigits 10 (by decide) _ hlt fun hne hlast => hzero ?_
      have hhead : ((digitsOf s).map digitChar).reverse.head? = some (digitChar 0) := by
        rw [List.head?_reverse, List.getLast?_map, List.getLast?_eq_some_getLast hne, hlast,
          Option.map_some]
      rw [hmap] at hhead
      exact hhead
    have hpos : n ≠ 0 := by
      rw [← Nat.digits_ne_nil_iff_ne_zero (b := 10), hdigits]
      exact hne
    rw [decimal, if_neg hpos, hdigits, hmap]

theorem length_digits_le {n k : Nat} (h : n < 10 ^ k) : (Nat.digits 10 n).length ≤ k :=
  (Nat.digits_length_le_iff (by decide) n).mpr h

theorem decimal_ne_nil (n : Nat) : decimal n ≠ [] := (canonical_decimal n).nonempty

end Decimal

end KernelFuzzing.Foundation
