import KernelFuzzing.Mmu.BumpAllocator
import KernelFuzzing.Mmu.Exhaustion
import KernelFuzzing.Mmu.ResultArray
import KernelFuzzing.Mmu.Translation

/-! The bitmap that `init_allocation_map` sizes from the RAM against the bytes that
`kmalloc` reads and writes in it. -/
namespace KernelFuzzing.Mmu
open Foundation

def memBlock (blockMemoryStart size : Word) : Word :=
  if size ≥ 524288#64 then 0#64 else blockMemoryStart

/-- The `bitmap_size` of `init_allocation_map`. -/
def bitmapSize (totalPhysicalRam : Word) : Word := totalPhysicalRam / 4096#64 / 8#64

def initAllocationMap (blockMemoryStart totalPhysicalRam : Word) : Word :=
  memBlock blockMemoryStart (bitmapSize totalPhysicalRam)

/-- The indices of the bytes that the scan of `findFree` reads, from an index and a bit. -/
def findFree.readsFrom (mem : AllocateMem) (index : Word) (bit : Byte) : List Nat :=
  if h : index ≤ 16385#64 then
    index.toNat ::
      if checkFree mem index bit then []
      else if hb : bit + 1 = 8#8 then findFree.readsFrom mem (index + 1) 0
      else findFree.readsFrom mem index (bit + 1)
  else []
termination_by (16386 - index.toNat, (7 - bit).toNat)
decreasing_by
  · exact Prod.Lex.left _ _ (by bv_omega)
  · exact Prod.Lex.right _ (by bv_omega)

def findFree.reads (mem : AllocateMem) : List Nat := findFree.readsFrom mem 0 0

/-- The bytes that one round of `setBitmap` reads or writes. -/
def setBitmap.bodyAccesses (st : SetBitmap) : List Nat :=
  let val := findFree st.mem
  findFree.reads st.mem ++ if val.valid then [val.index.toNat] else []

def setBitmap.accesses (mem : AllocateMem) (size : Word) (res : BitIndexArray) : List Nat :=
  (List.range size.toNat).flatMap fun i =>
    setBitmap.bodyAccesses ((List.range i).foldl setBitmap.body ⟨mem, res, 0⟩)

def kmalloc.accesses (k : Kernel) (size : Word) (res : BitIndexArray) : List Nat :=
  setBitmap.accesses k.bitmap (allocateMem.pages size) res

namespace BitmapSize
open Translation (Request)

/-- A RAM size for which `init_allocation_map` gets its bitmap. -/
structure Ram where
  total : Word
  blockMemoryStart : Word
  accepted : initAllocationMap blockMemoryStart total ≠ 0#64

def Ram.bitmapBytes (ram : Ram) : Nat := (bitmapSize ram.total).toNat

def step (link : Symbols) (k : Kernel) (r : Request) : Kernel := (kmalloc link k r.size r.res).2

/-- A call keeps to the bitmap and to the RAM, and reports a full bitmap. -/
structure KeepsTo (link : Symbols) (ram : Ram) (k : Kernel) (r : Request) : Prop where
  accesses : ∀ j ∈ kmalloc.accesses k r.size r.res, j < ram.bitmapBytes
  pages : ∀ p, k.bitmap.used p = false → (step link k r).bitmap.used p = true →
    p < ram.total.toNat / 4096
  exhausted : (∀ p < 8 * ram.bitmapBytes, k.bitmap.used p = true) →
    (kmalloc link k r.size r.res).1 = 0#64

/-- A bit of the bitmap is free, and where the scan goes on past its end, as many as the
request takes. -/
def Enough (ram : Ram) (k : Kernel) (r : Request) : Prop :=
  (∃ p < 8 * ram.bitmapBytes, k.bitmap.used p = false) ∧
    (16386 ≤ ram.bitmapBytes ∨
      pageCount r.size ≤ k.bitmap.available.countP (· < 8 * ram.bitmapBytes))

private theorem mem_readsFrom (mem : AllocateMem) (k p j : Nat) (h : p + k = scanned) :
    j ∈ findFree.readsFrom mem (BitVec.ofNat 64 (p / 8)) (BitVec.ofNat 8 (p % 8)) ↔
      ∃ q, p ≤ q ∧ q < scanned ∧ q / 8 = j ∧ ∀ r, p ≤ r → r < q → mem.used r = true := by
  induction k generalizing p with
  | zero =>
    have hend : p = 131088 := h.trans scanned_eq
    subst hend
    rw [findFree.readsFrom]
    constructor
    · intro hj
      exact absurd hj List.not_mem_nil
    · rintro ⟨q, hq, hlt, -⟩
      rw [scanned_eq] at hlt
      omega
  | succ k ih =>
    have hp : p < scanned := by omega
    have hindex : (BitVec.ofNat 64 (p / 8)).toNat = p / 8 := by
      have hscanned := scanned_eq
      rw [BitVec.toNat_ofNat]
      omega
    have next := ih (p + 1) (by omega)
    rw [findFree.readsFrom, dif_pos (index_le hp), checkFree_position mem hp, List.mem_cons,
      hindex]
    cases hused : mem.used p with
    | false =>
      simp only [Bool.not_false, if_true, List.not_mem_nil, or_false]
      constructor
      · rintro rfl
        exact ⟨p, Nat.le_refl p, hp, rfl, by omega⟩
      · rintro ⟨q, hq, -, rfl, hall⟩
        rcases Nat.eq_or_lt_of_le hq with rfl | hlt
        · rfl
        · rw [hall p (Nat.le_refl p) hlt] at hused
          exact absurd hused (by decide)
    | true =>
      have hrest : (if _ : BitVec.ofNat 8 (p % 8) + 1 = 8#8
            then findFree.readsFrom mem (BitVec.ofNat 64 (p / 8) + 1) 0
            else findFree.readsFrom mem (BitVec.ofNat 64 (p / 8)) (BitVec.ofNat 8 (p % 8) + 1)) =
          findFree.readsFrom mem (BitVec.ofNat 64 ((p + 1) / 8))
            (BitVec.ofNat 8 ((p + 1) % 8)) := by
        rcases next_position hp with ⟨hcarry, hindex', hbit⟩ | ⟨hcarry, hindex', hbit⟩
        · rw [dif_pos hcarry, hindex', hbit]
        · rw [dif_neg hcarry, hindex', hbit]
      simp only [Bool.not_true, Bool.false_eq_true, if_false]
      rw [hrest, next]
      constructor
      · rintro (rfl | ⟨q, hq, hlt, hj, hall⟩)
        · exact ⟨p, Nat.le_refl p, hp, rfl, by omega⟩
        · refine ⟨q, by omega, hlt, hj, fun r hr hrq => ?_⟩
          rcases Nat.eq_or_lt_of_le hr with rfl | hlt'
          · exact hused
          · exact hall r hlt' hrq
      · rintro ⟨q, hq, hlt, hj, hall⟩
        rcases Nat.eq_or_lt_of_le hq with rfl | hlt'
        · exact .inl hj.symm
        · exact .inr ⟨q, hlt', hlt, hj, fun r hr hrq => hall r (by omega) hrq⟩

theorem mem_reads_iff (mem : AllocateMem) (j : Nat) :
    j ∈ findFree.reads mem ↔
      ∃ q < scanned, q / 8 = j ∧ ∀ r < q, mem.used r = true := by
  have h := mem_readsFrom mem scanned 0 j (Nat.zero_add _)
  unfold findFree.reads
  simpa using h

theorem mem_bodyAccesses_iff (st : SetBitmap) (j : Nat) :
    j ∈ setBitmap.bodyAccesses st ↔ j ∈ findFree.reads st.mem := by
  unfold setBitmap.bodyAccesses
  dsimp only
  rw [List.mem_append, or_iff_left_iff_imp, findFree_eq]
  cases hfree : st.mem.available with
  | nil => exact fun hj => absurd hj List.not_mem_nil
  | cons p rest =>
    intro hj
    have hp := mem_available.mp (hfree ▸ List.mem_cons_self : p ∈ st.mem.available)
    have hscanned := scanned_eq
    have hat : j = p / 8 := by
      have hindex : (BitVec.ofNat 64 (p / 8)).toNat = p / 8 := by
        rw [BitVec.toNat_ofNat]
        omega
      simpa [BitIndex.first, BitIndex.ofPosition, hindex] using hj
    refine (mem_reads_iff _ _).mpr ⟨p, hp.1, hat.symm, fun r hr => ?_⟩
    -- a free page before the lowest one would be listed before it
    by_contra hnot
    have hmem : r ∈ st.mem.available :=
      mem_available.mpr ⟨Nat.lt_trans hr hp.1, by simpa using hnot⟩
    have hsorted := available_pairwise st.mem
    rw [hfree, List.pairwise_cons] at hsorted
    rw [hfree, List.mem_cons] at hmem
    rcases hmem with rfl | hmem
    · exact Nat.lt_irrefl r hr
    · exact absurd (hsorted.1 r hmem) (Nat.not_lt.mpr (Nat.le_of_lt hr))

theorem mem_accesses_iff (k : Kernel) (size : Word) (res : BitIndexArray) (j : Nat) :
    j ∈ kmalloc.accesses k size res ↔ ∃ i < pageCount size,
      j ∈ findFree.reads (k.bitmap.markAll (k.bitmap.available.take i)) := by
  unfold kmalloc.accesses setBitmap.accesses
  simp only [List.mem_flatMap, List.mem_range, toNat_pages, mem_bodyAccesses_iff,
    mem_after_rounds]

section
variable {ram : Ram} {k : Kernel} {r : Request}

theorem bitmapBytes_le (ram : Ram) : 8 * ram.bitmapBytes ≤ ram.total.toNat / 4096 := by
  have hbytes : ram.bitmapBytes = ram.total.toNat / 4096 / 8 := by
    simp [Ram.bitmapBytes, bitmapSize]
  omega

theorem accesses_lt_iff :
    (∀ j ∈ kmalloc.accesses k r.size r.res, j < ram.bitmapBytes) ↔
      16386 ≤ ram.bitmapBytes ∨
        pageCount r.size ≤ k.bitmap.available.countP (· < 8 * ram.bitmapBytes) := by
  have hscanned := scanned_eq
  have below := below_subset_take_iff (available_pairwise k.bitmap) (8 * ram.bitmapBytes)
  constructor
  · intro h
    by_contra hnot
    rw [not_or, Nat.not_le, Nat.not_le] at hnot
    -- the round that finds all below the end taken reads the byte behind it
    have hall := (below (k.bitmap.available.countP (· < 8 * ram.bitmapBytes))).mpr le_rfl
    have hread := h ram.bitmapBytes <| (mem_accesses_iff _ _ _ _).mpr ⟨_, hnot.2,
      (mem_reads_iff _ _).mpr ⟨8 * ram.bitmapBytes, by omega, by omega, fun p hp => ?_⟩⟩
    · exact Nat.lt_irrefl _ hread
    · rw [used_markAll]
      cases hused : k.bitmap.used p with
      | true => rfl
      | false =>
        have hmem := hall p (mem_available.mpr ⟨by omega, hused⟩) hp
        simp [hmem]
  · intro h j hj
    obtain ⟨i, hi, hread⟩ := (mem_accesses_iff _ _ _ _).mp hj
    obtain ⟨q, hq, hat, hall⟩ := (mem_reads_iff _ _).mp hread
    rcases h with large | few
    · omega
    · by_contra hpast
      have htaken := (below i).mp fun p hp hlt => by
        have hused := hall p (by omega)
        rw [used_markAll, (mem_available.mp hp).2, Bool.false_or, decide_eq_true_eq] at hused
        exact hused
      omega

theorem pages_lt_of_accesses (link : Symbols)
    (h : ∀ j ∈ kmalloc.accesses k r.size r.res, j < ram.bitmapBytes) (p : Nat)
    (hfree : k.bitmap.used p = false) (hused : (step link k r).bitmap.used p = true) :
    p < ram.total.toNat / 4096 := by
  have hbytes := bitmapBytes_le ram
  have hscanned := scanned_eq
  rw [step, kmalloc_bitmap, used_markAll, hfree, Bool.false_or, decide_eq_true_eq] at hused
  rcases accesses_lt_iff.mp h with large | few
  · have hp := (mem_available.mp (List.mem_of_mem_take hused)).1
    omega
  · have hmem := (List.take_prefix_take_left few).subset hused
    rw [← filter_lt_eq_take (available_pairwise k.bitmap), List.mem_filter,
      decide_eq_true_eq] at hmem
    omega

theorem keepsTo_iff_enough (link : Symbols) : KeepsTo link ram k r ↔ Enough ram k r := by
  constructor
  · intro h
    refine ⟨?_, accesses_lt_iff.mp h.accesses⟩
    by_contra hfull
    refine Exhaustion.kmalloc_ne_zero link k r.size r.res (h.exhausted fun p hp => ?_)
    by_contra hfree
    exact hfull ⟨p, hp, by simpa using hfree⟩
  · rintro ⟨⟨p, hp, hfree⟩, henough⟩
    have haccesses := accesses_lt_iff.mpr henough
    refine ⟨haccesses, pages_lt_of_accesses link haccesses, fun hfull => ?_⟩
    rw [hfull p hp] at hfree
    exact absurd hfree (by decide)

end

/-- `kmalloc` keeps to the bitmap along exactly the runs whose calls all find enough of
it free. -/
theorem keeps_to_bitmap_iff_enough (link : Symbols) (ram : Ram) (k : Kernel)
    (requests : List Request) :
    Run.Guarded (step link) (KeepsTo link ram) k requests ↔
      Run.Guarded (step link) (Enough ram) k requests :=
  Run.guarded_congr fun _ _ => keepsTo_iff_enough link

private theorem countP_of_usedBelow {mem : AllocateMem} {next c : Nat}
    (h : BumpAllocator.UsedBelow mem next) (hnext : next ≤ c) (hc : c ≤ scanned) :
    mem.available.countP (· < c) = c - next := by
  have hfilter := filter_lt_eq_take (available_pairwise mem) c
  rw [BumpAllocator.available_of_usedBelow h (by omega)]
  have hsplit : List.range' next (scanned - next) =
      List.range' next (c - next) ++ List.range' c (scanned - c) := by
    have happend := List.range'_append_1 (s := next) (m := c - next) (n := scanned - c)
    rw [Nat.add_sub_cancel' hnext] at happend
    rw [happend]
    congr 1
    omega
  rw [hsplit, List.countP_append, List.countP_eq_length.mpr, List.countP_eq_zero.mpr,
    List.length_range', Nat.add_zero]
  · intro p hp
    rw [List.mem_range'_1] at hp
    simp [hp.1]
  · intro p hp
    rw [List.mem_range'_1] at hp
    simp only [decide_eq_true_eq]
    omega

theorem enough_iff_total {link : Symbols} {ram : Ram} {k : Kernel} {next : Nat}
    (short : ram.bitmapBytes < 16386) (h : BumpAllocator.UsedBelow k.bitmap next)
    (hnext : next ≤ 8 * ram.bitmapBytes) (requests : List Request) :
    Run.Guarded (step link) (Enough ram) k requests ↔
      next + Translation.total requests ≤ 8 * ram.bitmapBytes := by
  have hscanned := scanned_eq
  have guard (n : Nat) (k : Kernel) (h : BumpAllocator.UsedBelow k.bitmap n)
      (hn : n ≤ 8 * ram.bitmapBytes) (r : Translation.Request) (_ : r ∈ requests) :
      Enough ram k r ↔ n + pageCount r.size ≤ 8 * ram.bitmapBytes := by
    have hpos := pageCount_pos r.size
    have hcount := countP_of_usedBelow h hn (by omega)
    rw [Enough, hcount]
    constructor
    · rintro ⟨-, large | few⟩
      · omega
      · omega
    · intro hroom
      exact ⟨⟨n, by omega, by simp [h n]⟩, .inr (by omega)⟩
  have keep (n : Nat) (k : Kernel) (h : BumpAllocator.UsedBelow k.bitmap n)
      (r : Translation.Request) (_ : r ∈ requests)
      (hroom : n + pageCount r.size ≤ 8 * ram.bitmapBytes) :
      BumpAllocator.UsedBelow (step link k r).bitmap (n + pageCount r.size) :=
    BumpAllocator.usedBelow_kmalloc h r.size r.res (by omega)
  exact Run.guarded_iff_total (fun n (k : Kernel) => BumpAllocator.UsedBelow k.bitmap n) guard
    keep h hnext

def smallRam : Ram := ⟨0x8000000#64, 0x8000E000#64, by decide⟩

def fillingRequests : List Request :=
  List.replicate 513 ⟨262144#64, fun _ => ⟨0#64, 0#8, false⟩⟩

theorem not_keeps_to_bitmap_small_ram :
    ¬ Run.Guarded (step imageLink) (KeepsTo imageLink smallRam) Exhaustion.boot
      fillingRequests := by
  have hbytes : smallRam.bitmapBytes = 4096 := rfl
  have hcount : pageCount 262144#64 = 64 := by simp [pageCount]
  have htotal : Translation.total fillingRequests = 513 * 64 := by
    simp only [Translation.total, fillingRequests, List.map_replicate, List.sum_replicate, hcount]
    rfl
  rw [Run.guarded_congr fun _ _ => keepsTo_iff_enough imageLink,
    enough_iff_total (by omega) BumpAllocator.usedBelow_empty (Nat.zero_le _), htotal, hbytes]
  decide

end BitmapSize

end KernelFuzzing.Mmu
