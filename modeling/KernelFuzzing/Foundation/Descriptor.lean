import Mathlib.Data.BitVec
import KernelFuzzing.Foundation.PageWalk

/-! The fields of the page and block descriptors of the ARMv8 4 KiB granule. -/
namespace KernelFuzzing.Foundation.Descriptor

def lower (desc : Word) : BitVec 12 := desc.extractLsb' 0 12

/-- Bits 63:48, of which 51:48 are reserved, 52 is the contiguous hint, 53 is PXN and 54
is UXN. -/
def upper (desc : Word) : BitVec 16 := desc.extractLsb' 48 16

/-- Bits 20:12 of a level 2 block descriptor, which lie below its address. -/
def belowBlock (desc : Word) : BitVec 9 := desc.extractLsb' 12 9

def reserved (desc : Word) : BitVec 4 := desc.extractLsb' 48 4

def contiguous (desc : Word) : Bool := desc.getLsbD 52

def pxn (desc : Word) : Bool := desc.getLsbD 53

def uxn (desc : Word) : Bool := desc.getLsbD 54

structure ClearAbove (desc : Word) : Prop where
  upper : upper desc = 0#16
  reserved : reserved desc = 0#4
  contiguous : contiguous desc = false
  pxn : pxn desc = false
  uxn : uxn desc = false

structure PageFor (desc a : Word) (attributes : BitVec 12) : Prop where
  address : PageWalk.address desc = PageWalk.address a
  attributes : lower desc = attributes
  clear : ClearAbove desc

structure BlockFor (desc a : Word) (attributes : BitVec 12) : Prop where
  address : desc.extractLsb' 21 27 = a.extractLsb' 21 27
  below : belowBlock desc = 0#9
  attributes : lower desc = attributes
  clear : ClearAbove desc

theorem toNat_upper (desc : Word) : (upper desc).toNat = desc.toNat / 2 ^ 48 % 2 ^ 16 := by
  rw [upper, BitVec.extractLsb'_toNat, Nat.shiftRight_eq_div_pow]

theorem toNat_lower (desc : Word) : (lower desc).toNat = desc.toNat % 2 ^ 12 := by
  rw [lower, BitVec.extractLsb'_toNat, Nat.shiftRight_zero]

theorem toNat_belowBlock (desc : Word) :
    (belowBlock desc).toNat = desc.toNat / 2 ^ 12 % 2 ^ 9 := by
  rw [belowBlock, BitVec.extractLsb'_toNat, Nat.shiftRight_eq_div_pow]

theorem clearAbove_iff (desc : Word) : ClearAbove desc ↔ desc.toNat < 2 ^ 48 := by
  have hdesc := desc.isLt
  constructor
  · intro h
    have hupper := toNat_upper desc
    rw [h.upper, BitVec.toNat_ofNat] at hupper
    omega
  · intro h
    have hbit (i : Nat) (hi : 48 ≤ i) : desc.getLsbD i = false :=
      Nat.testBit_lt_two_pow (Nat.lt_of_lt_of_le h (Nat.pow_le_pow_right (by decide) hi))
    refine ⟨?_, ?_, hbit 52 (by decide), hbit 53 (by decide), hbit 54 (by decide)⟩
    · apply BitVec.eq_of_toNat_eq
      rw [toNat_upper, BitVec.toNat_ofNat]
      omega
    · apply BitVec.eq_of_toNat_eq
      rw [reserved, BitVec.extractLsb'_toNat, Nat.shiftRight_eq_div_pow, BitVec.toNat_ofNat]
      omega

theorem pageFor_iff (desc a : Word) (attributes : BitVec 12) :
    PageFor desc a attributes ↔
      desc.toNat = a.toNat % 2 ^ 48 / 4096 * 4096 + attributes.toNat := by
  have hattributes := attributes.isLt
  have hlower := toNat_lower desc
  have haddress := PageWalk.toNat_address desc
  have haddress' := PageWalk.toNat_address a
  constructor
  · intro h
    have hsmall := (clearAbove_iff desc).mp h.clear
    rw [h.address] at haddress
    rw [h.attributes] at hlower
    omega
  · intro h
    refine ⟨?_, ?_, (clearAbove_iff desc).mpr (by omega)⟩
    · apply BitVec.eq_of_toNat_eq
      omega
    · apply BitVec.eq_of_toNat_eq
      omega

theorem blockFor_iff (desc a : Word) (attributes : BitVec 12) :
    BlockFor desc a attributes ↔
      desc.toNat = a.toNat % 2 ^ 48 / 2 ^ 21 * 2 ^ 21 + attributes.toNat := by
  have hattributes := attributes.isLt
  have hlower := toNat_lower desc
  have hbelow := toNat_belowBlock desc
  have haddress (x : Word) : (x.extractLsb' 21 27).toNat = x.toNat / 2 ^ 21 % 2 ^ 27 := by
    rw [BitVec.extractLsb'_toNat, Nat.shiftRight_eq_div_pow]
  have hdesc := haddress desc
  have ha := haddress a
  constructor
  · intro h
    have hsmall := (clearAbove_iff desc).mp h.clear
    rw [h.address] at hdesc
    rw [h.attributes] at hlower
    rw [h.below, BitVec.toNat_ofNat] at hbelow
    omega
  · intro h
    refine ⟨?_, ?_, ?_, (clearAbove_iff desc).mpr (by omega)⟩
    · apply BitVec.eq_of_toNat_eq
      omega
    · apply BitVec.eq_of_toNat_eq
      rw [hbelow, BitVec.toNat_ofNat]
      omega
    · apply BitVec.eq_of_toNat_eq
      omega

end KernelFuzzing.Foundation.Descriptor
