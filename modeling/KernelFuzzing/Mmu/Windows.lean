import KernelFuzzing.Mmu.Translation

/-! The 2 MiB windows that `mmuInit` maps, along any run of `kmalloc` calls. -/
namespace KernelFuzzing.Mmu.Windows
open Foundation Memory
open Translation (Request)

/-- The symbol is aligned to 4 KiB and lies behind the last table of the kernel, in the
first window. -/
structure InFirstWindow (link : Symbols) : Prop where
  aligned : link.start % 4096 = 0
  low : 0x80081000 ≤ link.start
  high : link.start ≤ 0x801C0000

def step (link : Symbols) (k : Kernel) (r : Request) : Kernel :=
  (kmalloc link k r.size r.res).2

def boot (link : Symbols) (bitmap : AllocateMem) (m : Memory) : Kernel :=
  ⟨bitmap, mmuInit link ⟨m, 0#64, []⟩⟩

/-- The first address of each window and the address it leads to. -/
def windows : List (Nat × Nat) :=
  [(0x80000000, 0x80000000), (0x80A00000, 0x80A00000), (0x81400000, 0x08000000),
    (0x82400000, 0x09000000), (0x85400000, 0x40000000)]

/-- Where the windows lead the low 48 bits of an address. -/
def window (va : Word) : Option Word :=
  (windows.find? fun w => w.1 ≤ va.toNat % 2 ^ 48 ∧ va.toNat % 2 ^ 48 < w.1 + 2 ^ 21).map
    fun w => BitVec.ofNat 64 (w.2 + (va.toNat % 2 ^ 48 - w.1))

def Kept (x : Word) : Prop := x.toNat < 0x80080000 ∧ ¬ Within heapEntry.1 8 x

section
variable {link : Symbols}

theorem not_within_of_le {a x : Word} {n : Nat} (h : x.toNat < a.toNat)
    (hsmall : a.toNat + n ≤ 2 ^ 64) : ¬ Within a n x := fun hx => by
  have hat := (within_iff hsmall).mp hx
  omega

theorem prepared_kept (near : InFirstWindow link) (t : Tables) {x : Word} (hx : Kept x) :
    (prepared link t).mem x = t.mem x := by
  have hbelow := hx.1
  have hentry : ¬ Within (l1BasePhys + 24#64) 8 x := hx.2
  have hlow := near.low
  have hhigh := near.high
  have hstart : (BitVec.ofNat 64 link.start).toNat = link.start := by
    rw [BitVec.toNat_ofNat]
    omega
  unfold prepared
  split
  · have hfill : mapPagetableEntry.zeroFill link t.mem x = t.mem x := by
      apply zeroFill_of_not_within
      · omega
      · exact not_within_of_le (by omega) (by omega)
    rw [first_mem, store64_of_not_within hentry, clearTable_of_not_within]
    · dsimp only
      rw [hfill]
    · decide
    · exact not_within_of_le (Nat.lt_trans hbelow (by decide)) (by decide)
  · rfl

theorem fits_of_lt (near : InFirstWindow link) {p : Nat} (hp : p < 131200) : Fits link p := by
  have hhigh := near.high
  exact ⟨by omega, by omega⟩

theorem rangeEntries_kept (near : InFirstWindow link) {f n : Nat} (hn : f + n ≤ 131200)
    (m : Memory) {x : Word} (hx : Kept x) : storeAll m (rangeEntries link f n) x = m x := by
  have hlow := near.low
  have hhigh := near.high
  have hbelow := hx.1
  apply storeAll_of_not_within
  intro w hw
  obtain ⟨i, hi, rfl | rfl⟩ := mem_rangeEntries.mp hw
  · have hslot := toNat_l2Slot (p := f + i) (by omega)
    exact not_within_of_le (by dsimp only; omega) (by dsimp only; omega)
  · have hslot := toNat_l3Slot (fits_of_lt near (p := f + i) (by omega))
    exact not_within_of_le (by dsimp only; omega) (by dsimp only; omega)

theorem kmalloc_kept (near : InFirstWindow link) (k : Kernel) (size : Word)
    (res : BitIndexArray) {x : Word} (hx : Kept x) :
    (kmalloc link k size res).2.tables.mem x = k.tables.mem x := by
  by_cases enough : pageCount size ≤ k.bitmap.available.length
  · obtain ⟨f, rest, hfree⟩ := List.exists_cons_of_length_pos
      (Nat.lt_of_lt_of_le (pageCount_pos size) enough)
    have hf := lt_of_mem_available (hfree ▸ List.mem_cons_self : f ∈ k.bitmap.available)
    by_cases small : pageCount size ≤ 20
    · rw [kmalloc_mapped hfree enough small fun i hi => fits_of_lt near (by omega)]
      exact (rangeEntries_kept near (by omega) _ hx).trans (prepared_kept near _ hx)
    · rw [kmalloc_refused hfree enough (Nat.not_le.mp small)]
  · rw [kmalloc_short (Nat.not_le.mp enough)]
    exact prepared_kept near _ hx

theorem run_kept (near : InFirstWindow link) (k : Kernel) (requests : List Request) {x : Word}
    (hx : Kept x) :
    (Run.run (step link) k requests).tables.mem x = k.tables.mem x := by
  have hrun : Run.Always (step link) (fun k' => k'.tables.mem x = k.tables.mem x) k requests :=
    Run.always_of_keep (fun k' r h => (kmalloc_kept near k' r.size r.res hx).trans h) rfl
  exact hrun.last

end

def tables : Nat → Word
  | 3 => l0BasePhys
  | 2 => l1BasePhys
  | 1 => l2BasePhys
  | _ => 0#64

theorem tables_le (below : Nat) : (tables below).toNat ≤ 0x80060000 := by
  unfold tables
  split <;> decide

theorem tables_aligned {below : Nat} (hbelow : below < 3) :
    (tables (below + 1)).toNat % 8 = 0 := by
  match below, hbelow with
  | 0, _ | 1, _ | 2, _ => rfl

theorem toNat_slot (below : Nat) (va : Word) :
    (PageWalk.slot below va (tables below)).toNat =
      (tables below).toNat + 8 * PageWalk.index below va := by
  have htable := tables_le below
  exact PageWalk.slot_toNat (by omega)

theorem slot_inj {b c : Nat} {va va' : Word} (hb : b < 3) (hc : c < 3)
    (h : PageWalk.slot (b + 1) va (tables (b + 1)) = PageWalk.slot (c + 1) va' (tables (c + 1))) :
    b = c ∧ PageWalk.index (b + 1) va = PageWalk.index (c + 1) va' := by
  have hnat := congrArg BitVec.toNat h
  have hi := PageWalk.index_lt (b + 1) va
  have hj := PageWalk.index_lt (c + 1) va'
  rw [toNat_slot, toNat_slot] at hnat
  have hbase (d : Nat) (hd : d < 3) : (tables (d + 1)).toNat = 0x80060000 - 0x20000 * d := by
    match d, hd with
    | 0, _ | 1, _ | 2, _ => rfl
  rw [hbase b hb, hbase c hc] at hnat
  omega

def blocks (link : Symbols) : List (Word × Word) :=
  let l3TableAddress := (link.blockL2MemoryStart &&& lowMask) + 512#64 * 0#64
  [(virtKernelBase, physKernelBase), (physKernelBase, physKernelBase),
    (virtRegion2Base, physRegion2Base), (userProcess1TableStartWritable, userProcess1TableStart),
    (virtualGicdBase, gicdBase), (virtDtbBase, dtbBase), (stackTop, stackTop),
    (highMask ||| l3TableAddress, l3TableAddress)]

/-- The entries of `mmuInit`: the number of levels below, an address and a descriptor. -/
def descriptors (link : Symbols) : List (Nat × Word × Word) :=
  [(3, virtKernelBase, makeTableDesc l1BasePhys), (3, physKernelBase, makeTableDesc l1BasePhys),
    (2, virtKernelBase, makeTableDesc l2BasePhys), (2, physKernelBase, makeTableDesc l2BasePhys)] ++
    (blocks link).map fun b => (1, b.1, makeBlockDesc b.2)

def entry (d : Nat × Word × Word) : Word × Word :=
  (PageWalk.slot d.1 d.2.1 (tables d.1), d.2.2)

def cleared (t : Tables) : Tables :=
  clearTable (clearTable (clearTable (clearTable (clearTable t l0BasePhys) l1BasePhys) l2BasePhys)
    l2Index3BasePhys) l3Index0BasePhys

theorem mmuInit_eq (link : Symbols) (t : Tables) :
    mmuInit link t = (cleared t).store ((descriptors link).map entry) := by
  have e3 (va : Word) : entryAddress l0BasePhys (calcIndexL0 va) = PageWalk.slot 3 va l0BasePhys :=
    entryAddress_eq_slot (by decide) (by decide) 3 va
  have e2 (va : Word) : entryAddress l1BasePhys (calcIndexL1 va) = PageWalk.slot 2 va l1BasePhys :=
    entryAddress_eq_slot (by decide) (by decide) 2 va
  have e1 (va : Word) : entryAddress l2BasePhys (calcIndexL2 va) = PageWalk.slot 1 va l2BasePhys :=
    entryAddress_eq_slot (by decide) (by decide) 1 va
  simp only [mmuInit, setTableEntry_eq, Tables.store_store, e3, e2, e1]
  rfl

theorem descAt_cleared (t : Tables) {below : Nat} (hbelow : below < 3) (va : Word) :
    PageWalk.descAt (cleared t).mem tables va (below + 1) = 0#64 := by
  have hindex := PageWalk.index_lt (below + 1) va
  have hslot := toNat_slot (below + 1) va
  have hsmall := tables_le (below + 1)
  have hother (t : Tables) (table : Word) (room : table.toNat + 4096 ≤ 2 ^ 48)
      (h : (tables (below + 1)).toNat + 4096 ≤ table.toNat ∨
        table.toNat + 4096 ≤ (tables (below + 1)).toNat) :
      PageWalk.descAt (clearTable t table).mem tables va (below + 1) =
        PageWalk.descAt t.mem tables va (below + 1) := by
    have htable : BitVec.ofNat 64 (table.toNat % 2 ^ 48) = table := by
      apply BitVec.eq_of_toNat_eq
      rw [BitVec.toNat_ofNat]
      omega
    apply load64_clearTable t (by omega)
    rw [htable]
    rcases h with hafter | hbefore
    · exact (apart_of_le (by omega) (by omega)).symm
    · exact apart_of_le (by omega) (by omega)
  have hself (t : Tables) : PageWalk.descAt (clearTable t (tables (below + 1))).mem tables va
      (below + 1) = 0#64 := by
    have hroom : (tables (below + 1)).toNat + 4096 ≤ 2 ^ 48 := by omega
    exact load64_clearTable_slot t (tables_aligned hbelow) hroom (below + 1) va
  unfold cleared
  rw [hother _ l3Index0BasePhys (by decide), hother _ l2Index3BasePhys (by decide)]
  · obtain rfl | rfl | rfl : below = 2 ∨ below = 1 ∨ below = 0 := by omega
    · rw [hother _ l2BasePhys (by decide) (.inl (by decide)),
        hother _ l1BasePhys (by decide) (.inl (by decide))]
      exact hself t
    · rw [hother _ l2BasePhys (by decide) (.inl (by decide))]
      exact hself _
    · exact hself _
  · exact .inl (Nat.le_trans (Nat.add_le_add_right (tables_le _) 4096) (by decide))
  · exact .inl (Nat.le_trans (Nat.add_le_add_right (tables_le _) 4096) (by decide))

theorem level_of_mem_descriptors {link : Symbols} {d : Nat × Word × Word}
    (h : d ∈ descriptors link) : ∃ b < 3, d.1 = b + 1 := by
  rcases List.mem_append.mp h with hupper | hblock
  · simp only [List.mem_cons, List.not_mem_nil, or_false] at hupper
    rcases hupper with rfl | rfl | rfl | rfl
    · exact ⟨2, by decide, rfl⟩
    · exact ⟨2, by decide, rfl⟩
    · exact ⟨1, by decide, rfl⟩
    · exact ⟨1, by decide, rfl⟩
  · obtain ⟨b, -, rfl⟩ := List.mem_map.mp hblock
    exact ⟨0, by decide, rfl⟩

theorem slot_aligned {below : Nat} (hbelow : below < 3) (va : Word) :
    (PageWalk.slot (below + 1) va (tables (below + 1))).toNat % 8 = 0 := by
  have htable := tables_aligned hbelow
  rw [toNat_slot]
  omega

theorem descAt_boot_cases (link : Symbols) (bitmap : AllocateMem) (m : Memory) (below : Nat)
    (hbelow : below < 3) (va : Word) :
    (∃ d ∈ descriptors link, d.1 = below + 1 ∧
        PageWalk.index (below + 1) d.2.1 = PageWalk.index (below + 1) va ∧
        PageWalk.descAt (boot link bitmap m).tables.mem tables va (below + 1) = d.2.2) ∨
      (∀ d ∈ descriptors link, d.1 = below + 1 →
        PageWalk.index (below + 1) d.2.1 ≠ PageWalk.index (below + 1) va) ∧
        PageWalk.descAt (boot link bitmap m).tables.mem tables va (below + 1) = 0#64 := by
  have happart : ∀ w ∈ (descriptors link).map entry,
      w.1 = PageWalk.slot (below + 1) va (tables (below + 1)) ∨
        Apart w.1 8 (PageWalk.slot (below + 1) va (tables (below + 1))) 8 := by
    intro w hw
    obtain ⟨d, hd, rfl⟩ := List.mem_map.mp hw
    obtain ⟨b, hb, hlevel⟩ := level_of_mem_descriptors hd
    rw [or_iff_not_imp_left]
    apply apart_of_aligned _ (slot_aligned hbelow va)
    rw [entry, hlevel]
    exact slot_aligned hb d.2.1
  have hmem : (boot link bitmap m).tables.mem =
      storeAll (cleared ⟨m, 0#64, []⟩).mem ((descriptors link).map entry) := by
    rw [boot, mmuInit_eq]
    rfl
  have hzero := descAt_cleared ⟨m, 0#64, []⟩ hbelow va
  unfold PageWalk.descAt at hzero ⊢
  rw [hmem]
  rcases load64_storeAll_cases (m := (cleared ⟨m, 0#64, []⟩).mem) happart with
    ⟨v, hentry, hload⟩ | ⟨hnone, hload⟩
  · left
    obtain ⟨d, hd, heq⟩ := List.mem_map.mp hentry
    obtain ⟨b, hb, hlevel⟩ := level_of_mem_descriptors hd
    obtain ⟨hslot, rfl⟩ := Prod.mk.inj heq
    rw [hlevel] at hslot
    obtain ⟨rfl, hindex⟩ := slot_inj hb hbelow hslot
    exact ⟨d, hd, hlevel, hindex, hload⟩
  · right
    refine ⟨fun d hd hlevel hindex => ?_, hload.trans hzero⟩
    apply hnone d.2.2
    rw [← PageWalk.slot_congr hindex]
    exact List.mem_map.mpr ⟨d, hd, by rw [entry, hlevel]⟩

theorem mem_descriptors {link : Symbols} {d : Nat × Word × Word} (h : d ∈ descriptors link) :
    (d.1 = 3 ∧ PageWalk.index 3 d.2.1 = 0 ∧ d.2.2 = makeTableDesc l1BasePhys) ∨
      (d.1 = 2 ∧ PageWalk.index 2 d.2.1 = 2 ∧ d.2.2 = makeTableDesc l2BasePhys) ∨
      ∃ b ∈ blocks link, d = (1, b.1, makeBlockDesc b.2) := by
  rcases List.mem_append.mp h with hupper | hblock
  · simp only [List.mem_cons, List.not_mem_nil, or_false] at hupper
    rcases hupper with rfl | rfl | rfl | rfl
    · exact .inl ⟨rfl, by decide, rfl⟩
    · exact .inl ⟨rfl, by decide, rfl⟩
    · exact .inr (.inl ⟨rfl, by decide, rfl⟩)
    · exact .inr (.inl ⟨rfl, by decide, rfl⟩)
  · obtain ⟨b, hb, rfl⟩ := List.mem_map.mp hblock
    exact .inr (.inr ⟨b, hb, rfl⟩)

section
variable (link : Symbols) (bitmap : AllocateMem) (m : Memory) (va : Word)

theorem descAt_boot_three :
    PageWalk.index 3 va = 0 ∧
        PageWalk.descAt (boot link bitmap m).tables.mem tables va 3 = makeTableDesc l1BasePhys ∨
      PageWalk.index 3 va ≠ 0 ∧
        PageWalk.descAt (boot link bitmap m).tables.mem tables va 3 = 0#64 := by
  rcases descAt_boot_cases link bitmap m 2 (by decide) va with
    ⟨d, hd, hlevel, hindex, hdesc⟩ | ⟨hnone, hdesc⟩
  · rcases mem_descriptors hd with ⟨-, hzero, htable⟩ | ⟨htwo, -⟩ | ⟨b, -, rfl⟩
    · exact .inl ⟨hindex.symm.trans hzero, hdesc.trans htable⟩
    · omega
    · dsimp only at hlevel
      omega
  · refine .inr ⟨fun hzero => ?_, hdesc⟩
    have hkernel : PageWalk.index 3 virtKernelBase = 0 := by decide
    exact hnone (3, virtKernelBase, makeTableDesc l1BasePhys) (by simp [descriptors]) rfl
      (hkernel.trans hzero.symm)

theorem descAt_boot_two :
    PageWalk.index 2 va = 2 ∧
        PageWalk.descAt (boot link bitmap m).tables.mem tables va 2 = makeTableDesc l2BasePhys ∨
      PageWalk.index 2 va ≠ 2 ∧
        PageWalk.descAt (boot link bitmap m).tables.mem tables va 2 = 0#64 := by
  rcases descAt_boot_cases link bitmap m 1 (by decide) va with
    ⟨d, hd, hlevel, hindex, hdesc⟩ | ⟨hnone, hdesc⟩
  · rcases mem_descriptors hd with ⟨hthree, -⟩ | ⟨-, htwo, htable⟩ | ⟨b, -, rfl⟩
    · omega
    · exact .inl ⟨hindex.symm.trans htwo, hdesc.trans htable⟩
    · dsimp only at hlevel
      omega
  · refine .inr ⟨fun htwo => ?_, hdesc⟩
    have hkernel : PageWalk.index 2 virtKernelBase = 2 := by decide
    exact hnone (2, virtKernelBase, makeTableDesc l2BasePhys) (by simp [descriptors]) rfl
      (hkernel.trans htwo.symm)

theorem descAt_boot_one :
    (∃ b ∈ blocks link, PageWalk.index 1 b.1 = PageWalk.index 1 va ∧
        PageWalk.descAt (boot link bitmap m).tables.mem tables va 1 = makeBlockDesc b.2) ∨
      (∀ b ∈ blocks link, PageWalk.index 1 b.1 ≠ PageWalk.index 1 va) ∧
        PageWalk.descAt (boot link bitmap m).tables.mem tables va 1 = 0#64 := by
  rcases descAt_boot_cases link bitmap m 0 (by decide) va with
    ⟨d, hd, hlevel, hindex, hdesc⟩ | ⟨hnone, hdesc⟩
  · rcases mem_descriptors hd with ⟨hthree, -⟩ | ⟨htwo, -⟩ | ⟨b, hb, rfl⟩
    · omega
    · omega
    · exact .inl ⟨b, hb, hindex, hdesc⟩
  · refine .inr ⟨fun b hb => ?_, hdesc⟩
    exact hnone (1, b.1, makeBlockDesc b.2)
      (List.mem_append_right _ (List.mem_map.mpr ⟨b, hb, rfl⟩)) rfl

theorem chained_boot : PageWalk.Chained (boot link bitmap m).tables.mem tables va := by
  have hl1 : PageWalk.address (makeTableDesc l1BasePhys) = l1BasePhys := by decide
  have hl2 : PageWalk.address (makeTableDesc l2BasePhys) = l2BasePhys := by decide
  have hzero : (0#64).getLsbD 0 ≠ true := by decide
  intro below hbelow hvalid htable
  obtain rfl | rfl | rfl : below = 2 ∨ below = 1 ∨ below = 0 := by omega
  · rcases descAt_boot_three link bitmap m va with ⟨-, hdesc⟩ | ⟨-, hdesc⟩
    · exact (congrArg PageWalk.address hdesc).trans hl1
    · exact absurd (hdesc ▸ hvalid) hzero
  · rcases descAt_boot_two link bitmap m va with ⟨-, hdesc⟩ | ⟨-, hdesc⟩
    · exact (congrArg PageWalk.address hdesc).trans hl2
    · exact absurd (hdesc ▸ hvalid) hzero
  · rcases descAt_boot_one link bitmap m va with ⟨b, -, -, hdesc⟩ | ⟨-, hdesc⟩
    · have hblock := (getLsbD_makeBlockDesc b.2).2
      rw [← hdesc] at hblock
      exact absurd htable (by rw [hblock]; exact Bool.false_ne_true)
    · exact absurd (hdesc ▸ hvalid) hzero

end

theorem kept_of_within_slot {va : Word} (hva : PageWalk.index 2 va ≠ 3) {below : Nat}
    (hbelow : below ≤ 3) {x : Word}
    (hx : Within (PageWalk.slot below va (tables below)) 8 x) : Kept x := by
  have hslot := toNat_slot below va
  have htable := tables_le below
  have hindex := PageWalk.index_lt below va
  have hat := (within_iff (by omega)).mp hx
  have hheap : heapEntry.1.toNat = 0x80040018 := rfl
  refine ⟨by omega, fun hin => ?_⟩
  have hin := (within_iff (by omega)).mp hin
  match below, hbelow with
  | 3, _ =>
    have hl0 : (tables 3).toNat = 0x80020000 := rfl
    omega
  | 2, _ =>
    have hl1 : (tables 2).toNat = 0x80040000 := rfl
    omega
  | 1, _ =>
    have hl2 : (tables 1).toNat = 0x80060000 := rfl
    omega
  | 0, _ =>
    have hnone : (tables 0).toNat = 0 := rfl
    omega

theorem descAt_run {link : Symbols} (near : InFirstWindow link) (bitmap : AllocateMem)
    (m : Memory) (requests : List Request) {va : Word} (hva : PageWalk.index 2 va ≠ 3)
    (below : Nat) (hbelow : below ≤ 3) :
    PageWalk.descAt (boot link bitmap m).tables.mem tables va below =
      PageWalk.descAt (Run.run (step link) (boot link bitmap m) requests).tables.mem tables va
        below := by
  apply load64_congr
  intro x hx
  exact (run_kept near _ requests (kept_of_within_slot hva hbelow hx)).symm

theorem walk_run {link : Symbols} (near : InFirstWindow link) (bitmap : AllocateMem) (m : Memory)
    (requests : List Request) {va : Word} (hva : PageWalk.index 2 va ≠ 3) :
    PageWalk.walk (Run.run (step link) (boot link bitmap m) requests).tables.mem l0BasePhys va =
      PageWalk.walk (boot link bitmap m).tables.mem l0BasePhys va := by
  have hwalk := PageWalk.walkFrom_congr (chained_boot link bitmap m va)
    (descAt_run near bitmap m requests hva) (le_refl 3)
  exact hwalk.symm

theorem window_of_block {link : Symbols} (near : InFirstWindow link) {b : Word × Word}
    (hb : b ∈ blocks link) : ∃ w ∈ windows, PageWalk.index 1 b.1 = w.1 / 2 ^ 21 % 512 ∧
      b.2.toNat < 2 ^ 48 ∧ b.2.toNat / 2 ^ 21 * 2 ^ 21 = w.2 := by
  have hlow := near.low
  have hhigh := near.high
  simp only [blocks, List.mem_cons, List.not_mem_nil, or_false] at hb
  rcases hb with rfl | rfl | rfl | rfl | rfl | rfl | rfl | rfl
  · exact ⟨(0x80000000, 0x80000000), by simp [windows], by decide⟩
  · exact ⟨(0x80000000, 0x80000000), by simp [windows], by decide⟩
  · exact ⟨(0x82400000, 0x09000000), by simp [windows], by decide⟩
  · exact ⟨(0x80A00000, 0x80A00000), by simp [windows], by decide⟩
  · exact ⟨(0x81400000, 0x08000000), by simp [windows], by decide⟩
  · exact ⟨(0x85400000, 0x40000000), by simp [windows], by decide⟩
  · exact ⟨(0x80000000, 0x80000000), by simp [windows], by decide⟩
  · have hstart : ((link.blockL2MemoryStart &&& lowMask) + 512#64 * 0#64).toNat = link.start := by
      rw [BitVec.mul_zero, BitVec.add_zero]
      rfl
    refine ⟨(0x80000000, 0x80000000), by simp [windows], ?_, by dsimp only; omega,
      by dsimp only; omega⟩
    rw [PageWalk.index, toNat_highMask (by omega), hstart]
    dsimp only
    omega

theorem block_of_window {w : Nat × Nat} (hw : w ∈ windows) (link : Symbols) :
    ∃ b ∈ blocks link, PageWalk.index 1 b.1 = w.1 / 2 ^ 21 % 512 := by
  simp only [windows, List.mem_cons, List.not_mem_nil, or_false] at hw
  rcases hw with rfl | rfl | rfl | rfl | rfl
  · exact ⟨(physKernelBase, physKernelBase), by simp [blocks], by decide⟩
  · exact ⟨(userProcess1TableStartWritable, userProcess1TableStart), by simp [blocks], by decide⟩
  · exact ⟨(virtualGicdBase, gicdBase), by simp [blocks], by decide⟩
  · exact ⟨(virtRegion2Base, physRegion2Base), by simp [blocks], by decide⟩
  · exact ⟨(virtDtbBase, dtbBase), by simp [blocks], by decide⟩

theorem windows_range : ∀ w ∈ windows,
    w.1 / 2 ^ 21 / 512 = 2 ∧ w.1 % 2 ^ 21 = 0 ∧ w.2 < 2 ^ 48 := by decide

theorem windows_unique : ∀ w ∈ windows, ∀ v ∈ windows,
    w.1 / 2 ^ 21 = v.1 / 2 ^ 21 → w = v := by decide

theorem within_window_iff {w : Nat × Nat} (hw : w ∈ windows) (va : Word) :
    w.1 ≤ va.toNat % 2 ^ 48 ∧ va.toNat % 2 ^ 48 < w.1 + 2 ^ 21 ↔
      PageWalk.index 3 va = 0 ∧ PageWalk.index 2 va = 2 ∧
        PageWalk.index 1 va = w.1 / 2 ^ 21 % 512 := by
  obtain ⟨hgib, haligned, -⟩ := windows_range w hw
  unfold PageWalk.index
  omega

theorem window_eq_some {w : Nat × Nat} (hw : w ∈ windows) {va : Word}
    (h : w.1 ≤ va.toNat % 2 ^ 48 ∧ va.toNat % 2 ^ 48 < w.1 + 2 ^ 21) :
    window va = some (BitVec.ofNat 64 (w.2 + (va.toNat % 2 ^ 48 - w.1))) := by
  unfold window
  cases hfind : windows.find? fun w =>
      w.1 ≤ va.toNat % 2 ^ 48 ∧ va.toNat % 2 ^ 48 < w.1 + 2 ^ 21 with
  | none => exact absurd h (by simpa using List.find?_eq_none.mp hfind w hw)
  | some v =>
    have hv := List.mem_of_find?_eq_some hfind
    have hin : v.1 ≤ va.toNat % 2 ^ 48 ∧ va.toNat % 2 ^ 48 < v.1 + 2 ^ 21 := by
      simpa using List.find?_some hfind
    obtain ⟨-, hwa, -⟩ := windows_range w hw
    obtain ⟨-, hva, -⟩ := windows_range v hv
    rw [windows_unique w hw v hv (by omega)]
    rfl

theorem window_eq_none {va : Word} (h : ∀ w ∈ windows,
      ¬ (w.1 ≤ va.toNat % 2 ^ 48 ∧ va.toNat % 2 ^ 48 < w.1 + 2 ^ 21)) : window va = none := by
  unfold window
  rw [List.find?_eq_none.mpr fun w hw => by simpa using h w hw]
  rfl

section
variable (link : Symbols) (bitmap : AllocateMem) (m : Memory) {va : Word}

theorem walk_boot_l1 (h3 : PageWalk.index 3 va = 0) :
    PageWalk.walk (boot link bitmap m).tables.mem l0BasePhys va =
      PageWalk.walkFrom (boot link bitmap m).tables.mem va 2 l1BasePhys := by
  have hl1 : PageWalk.address (makeTableDesc l1BasePhys) = l1BasePhys := by decide
  rcases descAt_boot_three link bitmap m va with ⟨-, hdesc⟩ | ⟨hne, -⟩
  · have hstep := PageWalk.walkFrom_table hdesc (getLsbD_makeTableDesc _ (by decide))
      (getLsbD_makeTableDesc _ (by decide))
    rw [hl1] at hstep
    exact hstep
  · exact absurd h3 hne

theorem walk_boot_l2 (h3 : PageWalk.index 3 va = 0) (h2 : PageWalk.index 2 va = 2) :
    PageWalk.walk (boot link bitmap m).tables.mem l0BasePhys va =
      PageWalk.walkFrom (boot link bitmap m).tables.mem va 1 l2BasePhys := by
  have hl2 : PageWalk.address (makeTableDesc l2BasePhys) = l2BasePhys := by decide
  rcases descAt_boot_two link bitmap m va with ⟨-, hdesc⟩ | ⟨hne, -⟩
  · have hstep := PageWalk.walkFrom_table hdesc (getLsbD_makeTableDesc _ (by decide))
      (getLsbD_makeTableDesc _ (by decide))
    rw [hl2] at hstep
    exact (walk_boot_l1 link bitmap m h3).trans hstep
  · exact absurd h2 hne

end

theorem walk_boot_window {link : Symbols} (near : InFirstWindow link) (bitmap : AllocateMem)
    (m : Memory) {w : Nat × Nat} (hw : w ∈ windows) {va : Word}
    (h : w.1 ≤ va.toNat % 2 ^ 48 ∧ va.toNat % 2 ^ 48 < w.1 + 2 ^ 21) :
    ∃ pa : Word, pa.toNat < 2 ^ 48 ∧ pa.toNat / 2 ^ 21 * 2 ^ 21 = w.2 ∧
      PageWalk.walk (boot link bitmap m).tables.mem l0BasePhys va =
        some ⟨2, PageWalk.slot 1 va l2BasePhys, makeBlockDesc pa⟩ := by
  obtain ⟨h3, h2, h1⟩ := (within_window_iff hw va).mp h
  rcases descAt_boot_one link bitmap m va with ⟨b, hb, hindex, hdesc⟩ | ⟨hnone, -⟩
  · obtain ⟨v, hv, hv1, hsmall, hpa⟩ := window_of_block near hb
    obtain ⟨hw2, -, -⟩ := windows_range w hw
    obtain ⟨hv2, -, -⟩ := windows_range v hv
    obtain rfl := windows_unique w hw v hv (by omega)
    obtain ⟨hvalid, hblock⟩ := getLsbD_makeBlockDesc b.2
    refine ⟨b.2, hsmall, hpa, ?_⟩
    rw [walk_boot_l2 link bitmap m h3 h2]
    exact PageWalk.walkFrom_block hdesc hvalid hblock (by decide)
  · obtain ⟨b, hb, hindex⟩ := block_of_window hw link
    exact absurd (hindex.trans h1.symm) (hnone b hb)

theorem walk_boot_none {link : Symbols} (near : InFirstWindow link) (bitmap : AllocateMem)
    (m : Memory) {va : Word} (h : ∀ w ∈ windows,
      ¬ (w.1 ≤ va.toNat % 2 ^ 48 ∧ va.toNat % 2 ^ 48 < w.1 + 2 ^ 21)) :
    PageWalk.walk (boot link bitmap m).tables.mem l0BasePhys va = none := by
  have hzero : (0#64).getLsbD 0 ≠ true := by decide
  rcases descAt_boot_three link bitmap m va with ⟨h3, -⟩ | ⟨-, hdesc⟩
  · rcases descAt_boot_two link bitmap m va with ⟨h2, -⟩ | ⟨-, hdesc⟩
    · rw [walk_boot_l2 link bitmap m h3 h2]
      apply PageWalk.walkFrom_invalid tables 0
      rcases descAt_boot_one link bitmap m va with ⟨b, hb, hindex, -⟩ | ⟨-, hdesc⟩
      · obtain ⟨w, hw, hw1, -⟩ := window_of_block near hb
        exact absurd ((within_window_iff hw va).mpr ⟨h3, h2, hindex.symm.trans hw1⟩) (h w hw)
      · exact hdesc ▸ hzero
    · rw [walk_boot_l1 link bitmap m h3]
      exact PageWalk.walkFrom_invalid tables 1 (hdesc ▸ hzero)
  · exact PageWalk.walkFrom_invalid tables 2 (hdesc ▸ hzero)

theorem block_base {pa : Word} (h : pa.toNat < 2 ^ 48) :
    (makeBlockDesc pa).toNat % 2 ^ 48 / 2 ^ 21 = pa.toNat / 2 ^ 21 := by
  have hdesc := toNat_makeBlockDesc pa
  have hpage : (makeBlockDesc pa).toNat / 4096 = pa.toNat / 4096 := by omega
  have hsplit : 2 ^ 21 = 4096 * 512 := rfl
  rw [Nat.mod_eq_of_lt (by omega), hsplit, ← Nat.div_div_eq_div_mul, hpage,
    Nat.div_div_eq_div_mul]

theorem translate_boot {link : Symbols} (near : InFirstWindow link) (bitmap : AllocateMem)
    (m : Memory) (va : Word) :
    PageWalk.translate (boot link bitmap m).tables.mem l0BasePhys va = window va := by
  unfold PageWalk.translate
  by_cases hin : ∃ w ∈ windows, w.1 ≤ va.toNat % 2 ^ 48 ∧ va.toNat % 2 ^ 48 < w.1 + 2 ^ 21
  · obtain ⟨w, hw, h⟩ := hin
    obtain ⟨-, haligned, -⟩ := windows_range w hw
    obtain ⟨pa, hsmall, hpa, hwalk⟩ := walk_boot_window near bitmap m hw h
    have hoffset : va.toNat % 2 ^ 21 = va.toNat % 2 ^ 48 - w.1 := by omega
    rw [hwalk, window_eq_some hw h, Option.map_some, PageWalk.Leaf.output_two, block_base hsmall,
      hpa, hoffset]
  · have hnone : ∀ w ∈ windows,
        ¬ (w.1 ≤ va.toNat % 2 ^ 48 ∧ va.toNat % 2 ^ 48 < w.1 + 2 ^ 21) :=
      fun w hw h => hin ⟨w, hw, h⟩
    rw [walk_boot_none near bitmap m hnone, window_eq_none hnone, Option.map_none]

/-- Outside the heap's 1 GiB every walk ends as right after `mmuInit`: in the windows. -/
theorem kernel_windows_survive {link : Symbols} (near : InFirstWindow link)
    (bitmap : AllocateMem) (m : Memory) (requests : List Request) {va : Word}
    (hva : PageWalk.index 2 va ≠ 3) :
    PageWalk.walk (Run.run (step link) (boot link bitmap m) requests).tables.mem l0BasePhys va =
        PageWalk.walk (boot link bitmap m).tables.mem l0BasePhys va ∧
      PageWalk.translate (Run.run (step link) (boot link bitmap m) requests).tables.mem
        l0BasePhys va = window va := by
  have hwalk := walk_run near bitmap m requests hva
  refine ⟨hwalk, ?_⟩
  rw [PageWalk.translate, hwalk]
  exact translate_boot near bitmap m va

theorem inFirstWindow_imageLink : InFirstWindow imageLink :=
  ⟨by decide, by decide, by decide⟩

def manyRequests : List Request :=
  List.replicate 40 ⟨81920#64, fun _ => ⟨0#64, 0#8, false⟩⟩

theorem kernel_windows_survive_many_requests :
    PageWalk.walk (Run.run (step imageLink) (boot imageLink .empty fun _ => 0#8)
        manyRequests).tables.mem l0BasePhys virtRegion2Base =
        PageWalk.walk (boot imageLink .empty fun _ => 0#8).tables.mem l0BasePhys
          virtRegion2Base ∧
      PageWalk.translate (Run.run (step imageLink) (boot imageLink .empty fun _ => 0#8)
        manyRequests).tables.mem l0BasePhys virtRegion2Base = window virtRegion2Base :=
  kernel_windows_survive inFirstWindow_imageLink .empty _ _ (by decide)

end KernelFuzzing.Mmu.Windows
