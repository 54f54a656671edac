import KernelFuzzing.Mmu.Exhaustion

/-! The array `BitIndex res[64]` on the stack of `kmalloc`, which syscall 5 calls with
the user's first argument as it is: the entries that `setBitmap` stores in it. -/
namespace KernelFuzzing.Mmu
open Foundation

/-- The number of pages that `allocateMem` asks `setBitmap` for. -/
def allocateMem.pages (size : Word) : Word :=
  if size < 4096#64 then 1#64
  else
    let val := size / 4096#64
    let rem := size % 4096#64
    if val > 0#64 ∧ rem > 0#64 then val + 1#64 else val

/-- Round `i` of `setBitmap` finds a page and stores `res[i]`. -/
def setBitmap.Stores (mem : AllocateMem) (size : Word) (res : BitIndexArray) (i : Nat) : Prop :=
  i < size.toNat ∧
    (findFree ((List.range i).foldl setBitmap.body ⟨mem, res, 0⟩).mem).valid = true

/-- `kmalloc(size)` stores `res[i]`. -/
def kmalloc.Stores (k : Kernel) (size : Word) (res : BitIndexArray) (i : Nat) : Prop :=
  setBitmap.Stores k.bitmap (allocateMem.pages size) res i

def resLength : Nat := 64

theorem allocateMem_eq_setBitmap (mem : AllocateMem) (size : Word) (res : BitIndexArray) :
    allocateMem mem size res =
      (if (setBitmap mem (allocateMem.pages size) res).1 then allocateMem.pages size else 0#64,
        (setBitmap mem (allocateMem.pages size) res).2) := by
  unfold allocateMem allocateMem.pages
  split <;> rfl

theorem toNat_pages (size : Word) : (allocateMem.pages size).toNat = pageCount size := by
  have hsize := size.isLt
  have hdiv : (size / 4096#64).toNat = size.toNat / 4096 := by simp
  have hmod : (size % 4096#64).toNat = size.toNat % 4096 := by simp
  unfold allocateMem.pages pageCount
  simp only [gt_iff_lt, BitVec.lt_def, hdiv, hmod, BitVec.toNat_ofNat, Nat.zero_mod,
    Nat.reduceMod, Nat.reducePow]
  split
  · simp only [BitVec.toNat_ofNat]
    omega
  · split
    · rw [BitVec.toNat_add, hdiv, BitVec.toNat_ofNat]
      omega
    · rw [hdiv]
      omega

theorem setBitmap_stores_iff (mem : AllocateMem) (size : Word) (res : BitIndexArray) (i : Nat) :
    setBitmap.Stores mem size res i ↔ i < size.toNat ∧ i < mem.available.length := by
  have hvalid (m : AllocateMem) : (findFree m).valid = true ↔ m.available ≠ [] := by
    rw [findFree_eq]
    cases m.available <;> simp [BitIndex.first, BitIndex.ofPosition]
  unfold setBitmap.Stores
  rw [mem_after_rounds, hvalid, available_markAll_take, ne_eq,
    List.drop_eq_nil_iff, Nat.not_le]

/-- Every entry that `kmalloc` stores lies in its array exactly when the request or the
number of free pages is at most 64. -/
theorem stores_in_array_iff (k : Kernel) (size : Word) (res : BitIndexArray) :
    (∀ i, kmalloc.Stores k size res i → i < resLength) ↔
      pageCount size ≤ 64 ∨ k.bitmap.available.length ≤ 64 := by
  simp only [kmalloc.Stores, setBitmap_stores_iff, toNat_pages, resLength]
  constructor
  · intro h
    have hlast := h 64
    omega
  · intro h i hi
    omega

theorem stores_not_in_array_65_pages :
    ¬ ∀ i, kmalloc.Stores Exhaustion.boot 266240#64 (fun _ => ⟨0#64, 0#8, false⟩) i →
      i < resLength := by
  have hcount : pageCount 266240#64 = 65 := by simp [pageCount]
  have hfree : Exhaustion.boot.bitmap.available.length = 131088 := by
    change AllocateMem.empty.available.length = 131088
    rw [available_empty, scanned_eq, List.length_range]
  have hstores : kmalloc.Stores Exhaustion.boot 266240#64 (fun _ => ⟨0#64, 0#8, false⟩) 64 := by
    rw [kmalloc.Stores, setBitmap_stores_iff, toNat_pages, hcount, hfree]
    decide
  intro h
  exact absurd (h 64 hstores) (by decide)

end KernelFuzzing.Mmu
