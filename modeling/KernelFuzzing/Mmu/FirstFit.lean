import KernelFuzzing.Foundation.Lowest
import KernelFuzzing.Mmu.Bitmap

/-! `allocateMem` as a first-fit allocator: which pages it takes, and what a request
that it refuses leaves behind. -/
namespace KernelFuzzing.Mmu.FirstFit
open Foundation

/-- The free pages of the range that `findFree` scans. -/
def free (mem : AllocateMem) : Set Nat := {p | p < scanned ∧ mem.used p = false}

/-- The positions in the first `n` entries of a result array. -/
def positions (res : BitIndexArray) (n : Nat) : List Nat :=
  (List.range n).map fun i => (res i).position

/-- First fit for `n` pages: from the bitmap and the array before to those after. -/
structure Fit (n : Nat) (mem : AllocateMem) (res : BitIndexArray) (mem' : AllocateMem)
    (res' : BitIndexArray) : Prop where
  entries : ∀ i < n, (res' i).valid = true ∧ (res' i).index ≤ 16385#64 ∧ (res' i).bit < 8#8
  lowest : Lowest (free mem) (positions res' n)
  marked : ∀ p, mem'.used p = (mem.used p || decide (p ∈ positions res' n))
  others : ∀ i, n ≤ i → res' i = res i

/-- A request that is refused changes no byte of the bitmap. -/
def Atomic (mem : AllocateMem) (size : Word) (res : BitIndexArray) : Prop :=
  (allocateMem mem size res).1 = 0 → (allocateMem mem size res).2.1 = mem

theorem mem_free_iff (mem : AllocateMem) (p : Nat) : p ∈ free mem ↔ p ∈ mem.available :=
  mem_available.symm

theorem storeAll_of_length_le (res : BitIndexArray) (ps : List Nat) {k i : Nat}
    (h : k + ps.length ≤ i) : res.storeAll k ps i = res i := by
  induction ps generalizing res k with
  | nil => rfl
  | cons p ps ih =>
    rw [List.length_cons] at h
    rw [storeAll_cons, ih _ (by omega), Function.update_of_ne (by omega)]

section
variable {mem : AllocateMem} {size : Word}

theorem result_getElem (enough : pageCount size ≤ mem.available.length) (res : BitIndexArray)
    {i : Nat} (hi : i < pageCount size) :
    (allocateMem mem size res).2.2 i = .ofPosition (mem.available.get ⟨i, by omega⟩) := by
  have hlen : i < (mem.available.take (pageCount size)).length := by
    rw [List.length_take]
    omega
  have hstored := storeAll_getElem res _ 0 i hlen
  rw [Nat.zero_add, List.getElem_take] at hstored
  rw [allocateMem_eq, List.get_eq_getElem]
  exact hstored

theorem positions_eq (enough : pageCount size ≤ mem.available.length) (res : BitIndexArray) :
    positions (allocateMem mem size res).2.2 (pageCount size) =
      mem.available.take (pageCount size) := by
  apply List.ext_getElem
  · simpa [positions] using enough
  · intro i hi hi'
    have hlt : i < pageCount size := by simpa [positions] using hi
    have hp := (mem_available.mp (List.getElem_mem (show i < mem.available.length by omega))).1
    rw [scanned_eq] at hp
    simp only [positions, List.getElem_map, List.getElem_range, List.getElem_take,
      result_getElem enough res hlt, List.get_eq_getElem]
    exact position_ofPosition (by omega)

/-- With enough pages free, `allocateMem` returns their number and takes the lowest ones,
in increasing order. -/
theorem allocate_first_fit (enough : pageCount size ≤ mem.available.length)
    (res : BitIndexArray) :
    (allocateMem mem size res).1 = BitVec.ofNat 64 (pageCount size) ∧
      Fit (pageCount size) mem res (allocateMem mem size res).2.1
        (allocateMem mem size res).2.2 := by
  have hpositions := positions_eq enough res
  have hlength : (mem.available.take (pageCount size)).length = pageCount size :=
    List.length_take_of_le enough
  constructor
  · rw [allocateMem_eq, if_pos enough]
  · constructor
    · intro i hi
      have hp := (mem_available.mp (List.getElem_mem (show i < mem.available.length by omega))).1
      rw [scanned_eq] at hp
      rw [result_getElem enough res hi, List.get_eq_getElem]
      refine ⟨rfl, ?_, ?_⟩
      · simp only [BitIndex.ofPosition, BitVec.le_def, BitVec.toNat_ofNat]
        omega
      · simp only [BitIndex.ofPosition, BitVec.lt_def, BitVec.toNat_ofNat]
        omega
    · rw [hpositions]
      exact lowest_take (available_pairwise mem) (mem_free_iff mem) _
    · intro p
      rw [hpositions, allocateMem_eq, used_markAll]
    · intro i hi
      rw [allocateMem_eq]
      exact storeAll_of_length_le res _ (by omega)

theorem allocate_eq_zero_iff (res : BitIndexArray) :
    (allocateMem mem size res).1 = 0 ↔ mem.available.length < pageCount size := by
  have hcount := toNat_pageCount size
  have hpos := pageCount_pos size
  rw [allocateMem_eq]
  by_cases enough : pageCount size ≤ mem.available.length
  · rw [if_pos enough, ← BitVec.toNat_inj, hcount]
    simp only [BitVec.ofNat_eq_ofNat, BitVec.toNat_ofNat, Nat.zero_mod]
    omega
  · rw [if_neg enough]
    simpa using enough

theorem markAll_ne {ps : List Nat} {p : Nat} (hp : p ∈ ps) (hfree : mem.used p = false) :
    mem.markAll ps ≠ mem := by
  intro h
  have hused := used_markAll mem ps p
  rw [h, hfree, decide_eq_true hp] at hused
  exact absurd hused (by decide)

/-- `allocateMem` leaves the bitmap alone on failure exactly when it does not fail or
when no page was free. -/
theorem allocate_atomic_iff (mem : AllocateMem) (size : Word) (res : BitIndexArray) :
    Atomic mem size res ↔ pageCount size ≤ mem.available.length ∨ mem.available = [] := by
  unfold Atomic
  rw [allocate_eq_zero_iff]
  constructor
  · intro h
    by_cases enough : pageCount size ≤ mem.available.length
    · exact .inl enough
    · right
      have hsame := h (Nat.not_le.mp enough)
      rw [allocateMem_eq] at hsame
      have hall : mem.available.take (pageCount size) = mem.available :=
        List.take_of_length_le (Nat.le_of_not_le enough)
      rw [hall] at hsame
      cases hfree : mem.available with
      | nil => rfl
      | cons p rest =>
        have hp : p ∈ mem.available := hfree ▸ List.mem_cons_self
        exact absurd hsame (markAll_ne hp (mem_available.mp hp).2)
  · rintro (enough | hnone) hshort
    · omega
    · rw [allocateMem_eq, hnone, List.take_nil]
      rfl

end

def onePageLeft : AllocateMem := ⟨fun i => if i = 0 then 0xFE#8 else 0xFF#8⟩

theorem used_onePageLeft (p : Nat) : onePageLeft.used p = decide (p ≠ 0) := by
  have first : ∀ k < 8, (0xFE#8).getLsbD k = decide (k ≠ 0) := by decide
  have other : ∀ k < 8, (0xFF#8).getLsbD k = true := by decide
  have hbit : p % 8 < 8 := Nat.mod_lt p (by decide)
  simp only [AllocateMem.used, onePageLeft]
  by_cases hbyte : p / 8 = 0
  · have hp : p % 8 = p := by omega
    rw [if_pos hbyte, first _ hbit, hp]
  · have hp : p ≠ 0 := by omega
    rw [if_neg hbyte, other _ hbit, decide_eq_true hp]

theorem available_onePageLeft : onePageLeft.available = [0] := by
  have hzero : ∀ p ∈ List.range' 1 131087, (!onePageLeft.used p) = false := by
    intro p hp
    have hpos : p ≠ 0 := by
      rw [List.mem_range'_1] at hp
      omega
    simp [used_onePageLeft, hpos]
  rw [AllocateMem.available, scanned_eq, List.range_eq_range', List.range'_succ,
    List.filter_cons_of_pos (by simp [used_onePageLeft]), List.filter_eq_nil_iff.mpr]
  intro p hp
  simp [hzero p hp]

theorem allocate_not_atomic_one_page_left :
    ¬ Atomic onePageLeft 8192#64 fun _ => ⟨0#64, 0#8, false⟩ := by
  intro h
  have hcount : pageCount 8192#64 = 2 := by simp [pageCount]
  have hzero : (allocateMem onePageLeft 8192#64 fun _ => ⟨0#64, 0#8, false⟩).1 = 0 := by
    rw [allocate_eq_zero_iff, available_onePageLeft, hcount]
    decide
  have hsame := h hzero
  rw [allocateMem_eq, available_onePageLeft, hcount] at hsame
  exact markAll_ne (List.mem_singleton.mpr rfl) (by rw [used_onePageLeft]; rfl) hsame

def everyOtherByte : AllocateMem := ⟨fun i => if i % 2 = 0 then 0xFF#8 else 0#8⟩

theorem used_everyOtherByte (p : Nat) : everyOtherByte.used p = decide (p / 8 % 2 = 0) := by
  have full : ∀ k < 8, (0xFF#8).getLsbD k = true := by decide
  simp only [AllocateMem.used, everyOtherByte]
  by_cases hbyte : p / 8 % 2 = 0
  · rw [if_pos hbyte, full _ (Nat.mod_lt p (by decide)), decide_eq_true hbyte]
  · rw [if_neg hbyte, decide_eq_false hbyte, BitVec.getLsbD_zero]

theorem allocate_first_fit_every_other_byte :
    (allocateMem everyOtherByte 81920#64 fun _ => ⟨0#64, 0#8, false⟩).1 = BitVec.ofNat 64 20 ∧
      Fit 20 everyOtherByte (fun _ => ⟨0#64, 0#8, false⟩)
        (allocateMem everyOtherByte 81920#64 fun _ => ⟨0#64, 0#8, false⟩).2.1
        (allocateMem everyOtherByte 81920#64 fun _ => ⟨0#64, 0#8, false⟩).2.2 := by
  have hcount : pageCount 81920#64 = 20 := by simp [pageCount]
  have hmem : ∀ p ∈ List.range' 8 8 ++ List.range' 24 8 ++ List.range' 40 8,
      p ∈ everyOtherByte.available := by
    intro p hp
    rw [mem_available, scanned_eq, used_everyOtherByte]
    revert p
    decide
  have enough : pageCount 81920#64 ≤ everyOtherByte.available.length := by
    have hlength := (List.subperm_of_subset (by decide) hmem).length_le
    rw [hcount]
    exact le_trans (by decide) hlength
  have h := allocate_first_fit enough fun _ => ⟨0#64, 0#8, false⟩
  rwa [hcount] at h

end KernelFuzzing.Mmu.FirstFit
