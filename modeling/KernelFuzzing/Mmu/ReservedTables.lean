import KernelFuzzing.Mmu.BumpAllocator
import KernelFuzzing.Mmu.Contiguous
import KernelFuzzing.Mmu.Translation

/-! The memory that linker.ld sets aside for the level 3 tables of the heap, against the
level 3 descriptors that `map_pagetable_entry` stores for the calls of `kmalloc`. -/
namespace KernelFuzzing.Mmu.ReservedTables
open Foundation
open Translation (Request)

def step (link : Symbols) (k : Kernel) (r : Request) : Kernel := (kmalloc link k r.size r.res).2

/-- The arguments that `kmalloc` has for `map_pagetable_entry`. -/
structure Mapping where
  va : Word
  pa : Word
  total : Word

def mapping (k : Kernel) (r : Request) : Mapping :=
  let (totalAllocated, _, res) := allocateMem k.bitmap r.size r.res
  let pa := bitindexToPhys (res 0)
  ⟨pa ||| highMask, pa, totalAllocated⟩

/-- Eight bytes of the `512 * 10` between `__block_l2_memory_start` and
`__block_l2_memory_end`. -/
def Reserved (link : Symbols) (a : Word) : Prop :=
  link.start ≤ a.toNat ∧ a.toNat + 8 ≤ link.start + 512 * 10

def l3Store (link : Symbols) (va : Word) (i : Nat) : Word :=
  let currentVa := va + 4096#64 * BitVec.ofNat 64 i
  let l3TableAddress := (link.blockL2MemoryStart &&& lowMask) + 512#64 * calcIndexL2 currentVa
  entryAddress (highMask ||| l3TableAddress) (calcIndexL3 currentVa)

structure Keeps (link : Symbols) (k : Kernel) (r : Request) : Prop where
  reserved : ∀ new, (step link k r).tables.stored = k.tables.stored ++ new →
    ∀ e ∈ new, ∀ pa, e.2 = makeL3BlockDesc pa → Reserved link e.1
  refused : (∃ i < (mapping k r).total.toNat, ¬ Reserved link (l3Store link (mapping k r).va i)) →
    mapPagetableEntry link k.tables (mapping k r).va (mapping k r).pa (mapping k r).total =
      (false, k.tables)

def reservedPages : Nat := 3 * 512 + 448

theorem tables_step (link : Symbols) (k : Kernel) (r : Request) :
    (step link k r).tables = (mapPagetableEntry link k.tables (mapping k r).va (mapping k r).pa
      (mapping k r).total).2 := rfl

section
variable {link : Link} {k : Kernel} {next : Nat} {r : Request}

theorem fits_of_lt (link : Link) {p : Nat} (hp : p < 2048) : Fits link p := by
  have hfits : link.start + 512 * 10 ≤ 2 ^ 48 := link.fits
  have haligned : link.start % 4096 = 0 := link.aligned
  exact ⟨by omega, by omega⟩

theorem reserved_l3Slot_iff (link : Link) {p : Nat} (hp : p < 2048) :
    Reserved link (l3Slot link p) ↔ p < reservedPages := by
  have hslot := toNat_l3Slot (fits_of_lt link hp)
  rw [Reserved, reservedPages, hslot]
  omega

theorem mapping_eq (h : BumpAllocator.UsedBelow k.bitmap next) (small : pageCount r.size ≤ 20)
    (room : next + pageCount r.size ≤ scanned) :
    mapping k r = ⟨pageAddress next, frame next, BitVec.ofNat 64 (pageCount r.size)⟩ := by
  have hscanned := scanned_eq
  have hpos := pageCount_pos r.size
  have hnext : next < 2 ^ 18 := by omega
  -- what `allocate_mem` gives does not depend on the symbols
  have hserves : BumpAllocator.Serves imageLink k next ⟨r.size, r.res, by omega⟩ :=
    BumpAllocator.serves_of_usedBelow h _ room
  have hfirst := hserves.entries 0 hpos
  have hcount := hserves.count
  dsimp only at hfirst hcount
  simp only [mapping, hfirst, hcount, Nat.add_zero, bitindexToPhys_ofPosition hnext,
    frame_or_highMask hnext]

theorem l3Store_pageAddress {i : Nat} (h : Fits link (next + i)) :
    l3Store link (pageAddress next) i = l3Slot link (next + i) := by
  simp only [l3Store, pageAddress_add, l3TableAddress_eq h, l3Entry_eq h]

theorem keeps_iff_pages (h : BumpAllocator.UsedBelow k.bitmap next) (hnext : next ≤ reservedPages)
    (small : pageCount r.size ≤ 20) :
    Keeps link k r ↔ next + pageCount r.size ≤ reservedPages := by
  have hscanned := scanned_eq
  have hpages : reservedPages = 1984 := rfl
  have hmapping := mapping_eq h small (by omega)
  have hcount := toNat_pageCount r.size
  obtain ⟨first, hfirst, heap⟩ := prepared_stored link k.tables
  have hrun : mapPagetableEntry link k.tables (mapping k r).va (mapping k r).pa
      (mapping k r).total =
        (true, (prepared link k.tables).store (rangeEntries link next (pageCount r.size))) := by
    rw [hmapping]
    dsimp only
    rw [mapPagetableEntry_eq (by omega) fun i hi => fits_of_lt link (by omega), hcount]
  have hstored : (step link k r).tables.stored =
      k.tables.stored ++ (first ++ rangeEntries link next (pageCount r.size)) := by
    rw [tables_step, hrun, Tables.store, hfirst, List.append_assoc]
  constructor
  · intro hkeeps
    by_contra hmany
    obtain ⟨i, hi⟩ := Nat.exists_eq_add_of_le hnext
    -- the page behind the last one with room
    have hentry : (l3Slot link (next + i), makeL3BlockDesc (frame (next + i))) ∈
        first ++ rangeEntries link next (pageCount r.size) :=
      List.mem_append_right _ (mem_rangeEntries.mpr ⟨i, by omega, .inr rfl⟩)
    have hreserved := hkeeps.reserved _ hstored _ hentry _ rfl
    rw [reserved_l3Slot_iff link (by omega)] at hreserved
    omega
  · intro hroom
    refine ⟨fun new hnew e he pa hpa => ?_, ?_⟩
    · rw [hstored, List.append_cancel_left_eq] at hnew
      rw [← hnew] at he
      rcases List.mem_append.mp he with hheap | hrange
      · rw [heap e hheap] at hpa
        exact absurd hpa.symm (Contiguous.makeL3BlockDesc_ne_makeTableDesc _ _)
      · obtain ⟨i, hi, rfl | rfl⟩ := mem_rangeEntries.mp hrange
        · exact absurd hpa.symm (Contiguous.makeL3BlockDesc_ne_makeTableDesc _ _)
        · exact (reserved_l3Slot_iff link (by omega)).mpr (by omega)
    · rintro ⟨i, hi, hout⟩
      rw [hmapping] at hi hout
      dsimp only at hi hout
      rw [hcount] at hi
      rw [l3Store_pageAddress (fits_of_lt link (by omega))] at hout
      exact absurd ((reserved_l3Slot_iff link (by omega)).mpr (by omega)) hout

end

def boot (link : Symbols) (m : Memory) : Kernel := ⟨.empty, mmuInit link ⟨m, 0#64, []⟩⟩

private theorem guarded_iff (link : Link) (m : Memory) {requests : List Request}
    (small : ∀ r ∈ requests, pageCount r.size ≤ 20) :
    Run.Guarded (step link) (Keeps link) (boot link m) requests ↔
      0 + Translation.total requests ≤ reservedPages := by
  have hscanned := scanned_eq
  have hpages : reservedPages = 1984 := rfl
  have guard (n : Nat) (k : Kernel) (h : BumpAllocator.UsedBelow k.bitmap n)
      (hn : n ≤ reservedPages) (r : Request) (hr : r ∈ requests) :
      Keeps link k r ↔ n + pageCount r.size ≤ reservedPages :=
    keeps_iff_pages h hn (small r hr)
  have keep (n : Nat) (k : Kernel) (h : BumpAllocator.UsedBelow k.bitmap n) (r : Request)
      (_ : r ∈ requests) (hroom : n + pageCount r.size ≤ reservedPages) :
      BumpAllocator.UsedBelow (step link k r).bitmap (n + pageCount r.size) :=
    BumpAllocator.usedBelow_kmalloc h r.size r.res (by omega)
  have start : BumpAllocator.UsedBelow (boot link m).bitmap 0 := BumpAllocator.usedBelow_empty
  exact Run.guarded_iff_total (fun n (k : Kernel) => BumpAllocator.UsedBelow k.bitmap n) guard
    keep start (Nat.zero_le _)

/-- The level 3 descriptors of all calls stay in the reserved memory exactly when the calls
request no more pages than have room there. -/
theorem keeps_reserved_iff_total (link : Link) (m : Memory) (requests : List Request)
    (small : ∀ r ∈ requests, pageCount r.size ≤ 20) :
    Run.Guarded (step link) (Keeps link) (boot link m) requests ↔
      Translation.total requests ≤ 1984 := by
  rw [guarded_iff link m small, Nat.zero_add]
  rfl

def requestOf (size : Word) : Request := ⟨size, fun _ => ⟨0#64, 0#8, false⟩⟩

private theorem small_replicate (n : Nat) :
    ∀ r ∈ List.replicate n (requestOf 81920#64), pageCount r.size ≤ 20 := by
  intro r hr
  rw [List.eq_of_mem_replicate hr]
  simp [requestOf, pageCount]

private theorem total_replicate (n : Nat) :
    Translation.total (List.replicate n (requestOf 81920#64)) = 20 * n := by
  have hcount : pageCount (requestOf 81920#64).size = 20 := by simp [requestOf, pageCount]
  rw [Translation.total, List.map_replicate, hcount, List.sum_replicate_nat, Nat.mul_comm]

def mostRequests : List Request := List.replicate 99 (requestOf 81920#64)

theorem keeps_reserved_most_requests :
    Run.Guarded (step imageLink) (Keeps imageLink) (boot imageLink fun _ => 0#8)
      mostRequests :=
  (keeps_reserved_iff_total imageLink _ _ (small_replicate 99)).mpr
    ((total_replicate 99).trans_le (by decide))

def tooMany : List Request := List.replicate 100 (requestOf 81920#64)

theorem not_keeps_reserved_too_many :
    (∀ r ∈ tooMany, pageCount r.size ≤ 20) ∧
      ¬ Run.Guarded (step imageLink) (Keeps imageLink) (boot imageLink fun _ => 0#8) tooMany := by
  refine ⟨small_replicate 100, fun kept => ?_⟩
  have hle := (guarded_iff imageLink _ (small_replicate 100)).mp kept
  rw [total_replicate] at hle
  exact absurd hle (by decide)

end KernelFuzzing.Mmu.ReservedTables
