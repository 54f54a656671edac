import KernelFuzzing.Foundation.Bump
import KernelFuzzing.Foundation.Run
import KernelFuzzing.Mmu.FirstFit
import KernelFuzzing.Mmu.Kmalloc

/-! `kmalloc` without frees, from a zeroed bitmap, as a bump allocator of pages. -/
namespace KernelFuzzing.Mmu.BumpAllocator
open Foundation Memory

/-- `kmalloc(size)` for pages that fit in its array, with what the array held before. -/
structure Request where
  size : Word
  res : BitIndexArray
  fits : pageCount size ≤ 64

def step (link : Symbols) (k : Kernel) (r : Request) : Kernel := (kmalloc link k r.size r.res).2

def pageCounts (requests : List Request) : List Nat := requests.map fun r => pageCount r.size

/-- The kernel that the `j`-th request meets. -/
def before (link : Symbols) (k : Kernel) (requests : List Request) (j : Nat) : Kernel :=
  Run.run (step link) k (requests.take j)

/-- The used pages are the first `next`. -/
def UsedBelow (mem : AllocateMem) (next : Nat) : Prop := ∀ p, mem.used p = decide (p < next)

/-- The request is served with the pages from `next` on. -/
structure Serves (link : Symbols) (k : Kernel) (next : Nat) (r : Request) : Prop where
  address : (kmalloc link k r.size r.res).1 =
    highMask ||| BitVec.ofNat 64 (0xC0000000 + 4096 * next)
  count : (allocateMem k.bitmap r.size r.res).1 = BitVec.ofNat 64 (pageCount r.size)
  entries : ∀ i < pageCount r.size,
    (allocateMem k.bitmap r.size r.res).2.2 i = .ofPosition (next + i)

/-- Along the requests, `kmalloc` does what a bump allocator does. -/
structure Refines (link : Symbols) (k : Kernel) (requests : List Request) : Prop where
  used : ∀ j ≤ requests.length,
    UsedBelow (before link k requests j).bitmap (Bump.start (pageCounts requests) j)
  serves : ∀ j (h : j < requests.length),
    Serves link (before link k requests j) (Bump.start (pageCounts requests) j) requests[j]
  disjoint : ∀ i j (hi : i < requests.length) (hj : j < requests.length), i < j →
    Apart (kmalloc link (before link k requests i) requests[i].size requests[i].res).1
      (4096 * pageCount requests[i].size)
      (kmalloc link (before link k requests j) requests[j].size requests[j].res).1
      (4096 * pageCount requests[j].size)

section
variable {link : Symbols} {k : Kernel} {next : Nat}

theorem available_of_usedBelow {mem : AllocateMem} (h : UsedBelow mem next)
    (hnext : next ≤ scanned) : mem.available = List.range' next (scanned - next) := by
  have hsplit : List.range scanned = List.range next ++ List.range' next (scanned - next) := by
    have happend := List.range'_append_1 (s := 0) (m := next) (n := scanned - next)
    rw [Nat.zero_add, Nat.add_sub_cancel' hnext] at happend
    rw [List.range_eq_range', List.range_eq_range', happend]
  have hbelow : ∀ p ∈ List.range next, (!mem.used p) = false := by
    intro p hp
    simp [h p, List.mem_range.mp hp]
  have habove : ∀ p ∈ List.range' next (scanned - next), (!mem.used p) = true := by
    intro p hp
    have hle := (List.mem_range'_1.mp hp).1
    simp [h p, hle]
  rw [AllocateMem.available, hsplit, List.filter_append, List.filter_eq_self.mpr habove,
    List.filter_eq_nil_iff.mpr fun p hp => by simp [hbelow p hp], List.nil_append]

theorem take_of_usedBelow {mem : AllocateMem} (h : UsedBelow mem next) {n : Nat}
    (room : next + n ≤ scanned) : mem.available.take n = List.range' next n := by
  rw [available_of_usedBelow h (by omega), List.take_range'_of_length_ge (by omega)]

theorem usedBelow_kmalloc (h : UsedBelow k.bitmap next) (size : Word) (res : BitIndexArray)
    (room : next + pageCount size ≤ scanned) :
    UsedBelow (kmalloc link k size res).2.bitmap (next + pageCount size) := by
  intro p
  rw [kmalloc_bitmap, used_markAll, take_of_usedBelow h room, h p]
  simp only [List.mem_range'_1, ← Bool.decide_or]
  apply decide_eq_decide.mpr
  omega

theorem serves_of_usedBelow (h : UsedBelow k.bitmap next) (r : Request)
    (room : next + pageCount r.size ≤ scanned) : Serves link k next r := by
  have hpos := pageCount_pos r.size
  have hscanned := scanned_eq
  have havailable := available_of_usedBelow h (by omega)
  have enough : pageCount r.size ≤ k.bitmap.available.length := by
    rw [havailable, List.length_range']
    omega
  have hcons : k.bitmap.available =
      next :: List.range' (next + 1) (scanned - next - 1) := by
    obtain ⟨m, hm⟩ := Nat.exists_eq_succ_of_ne_zero (show scanned - next ≠ 0 by omega)
    rw [havailable, hm, List.range'_succ]
    rfl
  have hp : next < 2 ^ 18 := by omega
  constructor
  · rw [(kmalloc_of_available hcons link r.size r.res).1, ← frame_or_highMask hp, BitVec.or_comm]
    rfl
  · rw [allocateMem_eq, if_pos enough]
  · intro i hi
    rw [FirstFit.result_getElem enough r.res hi]
    simp only [List.get_eq_getElem, havailable, List.getElem_range', Nat.one_mul]

theorem usedBelow_before (h : UsedBelow k.bitmap 0) (requests : List Request)
    (room : (pageCounts requests).sum ≤ scanned) {j : Nat} (hj : j ≤ requests.length) :
    UsedBelow (before link k requests j).bitmap (Bump.start (pageCounts requests) j) := by
  induction j with
  | zero => exact h
  | succ j ih =>
    have hlt : j < requests.length := hj
    have hcounts : j < (pageCounts requests).length := by simpa [pageCounts] using hlt
    have hcount : (pageCounts requests)[j] = pageCount requests[j].size := by simp [pageCounts]
    have hnext : before link k requests (j + 1) =
        step link (before link k requests j) requests[j] := by
      simp only [before, List.take_succ_eq_append_getElem hlt, Run.run_append, Run.run_cons,
        Run.run_nil]
    have hroom := Bump.end_le_sum hcounts
    rw [hcount] at hroom
    rw [hnext, Bump.start_succ hcounts, hcount]
    exact usedBelow_kmalloc (ih (by omega)) _ _ (by omega)

end

theorem toNat_served {next : Nat} (hnext : next < scanned) :
    (highMask ||| BitVec.ofNat 64 (0xC0000000 + 4096 * next)).toNat =
      0xFFFF0000C0000000 + 4096 * next := by
  rw [scanned_eq] at hnext
  rw [toNat_highMask (by rw [BitVec.toNat_ofNat]; omega), BitVec.toNat_ofNat]
  omega

theorem usedBelow_empty : UsedBelow .empty 0 := by
  intro p
  simp [AllocateMem.used, AllocateMem.empty]

/-- From a zeroed bitmap, requests for no more pages than the scan covers are served as a
bump allocator serves them, and so in disjoint ranges. -/
theorem kmalloc_refines_bump (link : Symbols) (t : Tables) (requests : List Request)
    (room : (pageCounts requests).sum ≤ scanned) :
    Refines link ⟨.empty, t⟩ requests := by
  have hlength : (pageCounts requests).length = requests.length := by simp [pageCounts]
  have fits (j : Nat) (hj : j < requests.length) :
      Bump.start (pageCounts requests) j + pageCount requests[j].size ≤ scanned := by
    have hend := Bump.end_le_sum (hlength.symm ▸ hj)
    simp only [pageCounts, List.getElem_map] at hend
    exact hend.trans room
  have used (j : Nat) (hj : j ≤ requests.length) :
      UsedBelow (before link ⟨.empty, t⟩ requests j).bitmap
        (Bump.start (pageCounts requests) j) :=
    usedBelow_before usedBelow_empty requests room hj
  have serves (j : Nat) (hj : j < requests.length) :
      Serves link (before link ⟨.empty, t⟩ requests j) (Bump.start (pageCounts requests) j)
        requests[j] :=
    serves_of_usedBelow (used j (Nat.le_of_lt hj)) requests[j] (fits j hj)
  refine ⟨used, serves, ?_⟩
  intro i j hi hj hij
  have hi' := fits i hi
  have hj' := fits j hj
  have hpi := pageCount_pos requests[i].size
  have hpj := pageCount_pos requests[j].size
  have horder := Bump.end_le_start (hlength.symm ▸ hi) hij
  simp only [pageCounts, List.getElem_map] at horder
  rw [(serves i hi).address, (serves j hj).address]
  have hscanned := scanned_eq
  apply apart_of_le
  · rw [toNat_served (by omega), toNat_served (by omega)]
    simp only [pageCounts] at hi' hj' ⊢
    omega
  · rw [toNat_served (by omega)]
    omega

/-- The first two requests of `kmain`. -/
def firstRequests : List Request :=
  [⟨16000#64, fun _ => ⟨0#64, 0#8, false⟩, by simp [pageCount]⟩,
    ⟨48#64, fun _ => ⟨0#64, 0#8, false⟩, by simp [pageCount]⟩]

theorem kmalloc_refines_bump_first_requests :
    Refines imageLink ⟨.empty, mmuInit imageLink ⟨fun _ => 0#8, 0#64, []⟩⟩ firstRequests :=
  kmalloc_refines_bump _ _ _ (by simp [pageCounts, firstRequests, pageCount, scanned_eq])

end KernelFuzzing.Mmu.BumpAllocator
