import KernelFuzzing.Mmu.Bitmap
import KernelFuzzing.Mmu.PageTable

/-! `kmalloc` of core/mmu.c: pages from the bitmap, mapped one after another from
the address of the first. Pages are named by their bitmap position. -/
namespace KernelFuzzing.Mmu
open Foundation Memory

structure Kernel where
  bitmap : AllocateMem
  tables : Tables

def physBaseAddr : Word := 0xC0000000#64
def physBasePage : Word := physBaseAddr >>> 12

def bitindexToPhys (bi : BitIndex) : Word :=
  let bitmapPage := bi.index * 8#64 + bi.bit.setWidth 64
  let physPage := physBasePage + bitmapPage
  physPage <<< 12

/-- The address `kmalloc` returns and the kernel after it, from what the array `res`
on its stack held. -/
def kmalloc (link : Symbols) (k : Kernel) (size : Word) (res : BitIndexArray) : Word × Kernel :=
  let (totalAllocated, bitmap, res) := allocateMem k.bitmap size res
  let current := res 0
  let pa := bitindexToPhys current
  let va := pa ||| highMask
  let (_, tables) := mapPagetableEntry link k.tables va pa totalAllocated
  (va, ⟨bitmap, tables⟩)

def frame (p : Nat) : Word := BitVec.ofNat 64 (0xC0000000 + 4096 * p)

def pageAddress (p : Nat) : Word := BitVec.ofNat 64 (0xFFFF0000C0000000 + 4096 * p)

theorem toNat_frame {p : Nat} (hp : p < 2 ^ 18) : (frame p).toNat = 0xC0000000 + 4096 * p := by
  rw [frame, BitVec.toNat_ofNat]
  omega

theorem toNat_pageAddress {p : Nat} (hp : p < 2 ^ 18) :
    (pageAddress p).toNat = 0xFFFF0000C0000000 + 4096 * p := by
  rw [pageAddress, BitVec.toNat_ofNat]
  omega

theorem frame_inj {p q : Nat} (hp : p < 2 ^ 18) (hq : q < 2 ^ 18) (h : frame p = frame q) :
    p = q := by
  have heq := congrArg BitVec.toNat h
  rw [toNat_frame hp, toNat_frame hq] at heq
  omega

theorem pageAddress_inj {p q : Nat} (hp : p < 2 ^ 18) (hq : q < 2 ^ 18)
    (h : pageAddress p = pageAddress q) : p = q := by
  have heq := congrArg BitVec.toNat h
  rw [toNat_pageAddress hp, toNat_pageAddress hq] at heq
  omega

theorem bitindexToPhys_ofPosition {p : Nat} (hp : p < 2 ^ 18) :
    bitindexToPhys (.ofPosition p) = frame p := by
  have hbase : physBasePage = 0xC0000#64 := rfl
  apply BitVec.eq_of_toNat_eq
  rw [toNat_frame hp, bitindexToPhys, BitIndex.ofPosition, hbase]
  simp only [BitVec.toNat_shiftLeft, BitVec.toNat_add, BitVec.toNat_mul, BitVec.toNat_ofNat,
    BitVec.toNat_setWidth, Nat.shiftLeft_eq]
  omega

theorem frame_or_highMask {p : Nat} (hp : p < 2 ^ 18) : frame p ||| highMask = pageAddress p := by
  have hframe := toNat_frame hp
  apply BitVec.eq_of_toNat_eq
  rw [BitVec.or_comm, toNat_highMask (by omega), toNat_pageAddress hp, hframe]
  omega

theorem pageAddress_and_lowMask {p : Nat} (hp : p < 2 ^ 18) :
    pageAddress p &&& lowMask = frame p := by
  apply BitVec.eq_of_toNat_eq
  rw [toNat_lowMask, toNat_pageAddress hp, toNat_frame hp]
  omega

theorem pageAddress_add (p i : Nat) :
    pageAddress p + 4096#64 * BitVec.ofNat 64 i = pageAddress (p + i) := by
  apply BitVec.eq_of_toNat_eq
  simp only [pageAddress, BitVec.toNat_add, BitVec.toNat_mul, BitVec.toNat_ofNat]
  omega

theorem frame_add (p i : Nat) :
    frame p + 4096#64 * BitVec.ofNat 64 i = frame (p + i) := by
  apply BitVec.eq_of_toNat_eq
  simp only [frame, BitVec.toNat_add, BitVec.toNat_mul, BitVec.toNat_ofNat]
  omega

def l2Slot (p : Nat) : Word := BitVec.ofNat 64 (0x80080000 + 8 * (p / 512))

/-- The level 3 table as `mapPagetableEntry` addresses it. -/
def l3Table (link : Symbols) (p : Nat) : Word :=
  BitVec.ofNat 64 (link.start + 512 * (p / 512))

/-- Where `mapPagetableEntry` stores the page's descriptor. -/
def l3Slot (link : Symbols) (p : Nat) : Word :=
  BitVec.ofNat 64 (link.start + 512 * (p / 512) + 8 * (p % 512))

def walkSlot (link : Symbols) (p : Nat) : Word :=
  BitVec.ofNat 64 (link.start + 512 * (p / 512) / 4096 * 4096 + 8 * (p % 512))

theorem l2Slot_congr {p q : Nat} (h : p / 512 = q / 512) : l2Slot p = l2Slot q := by
  rw [l2Slot, l2Slot, h]

theorem l3Table_congr {link : Symbols} {p q : Nat} (h : p / 512 = q / 512) :
    l3Table link p = l3Table link q := by
  rw [l3Table, l3Table, h]

def pageEntries (link : Symbols) (p : Nat) : List (Word × Word) :=
  [(l2Slot p, makeTableDesc (l3Table link p)), (l3Slot link p, makeL3BlockDesc (frame p))]

def Fits (link : Symbols) (p : Nat) : Prop :=
  p < 2 ^ 18 ∧ link.start + 512 * (p / 512) + 4096 ≤ 2 ^ 48

theorem toNat_l3Table {link : Symbols} {p : Nat} (h : Fits link p) :
    (l3Table link p).toNat = link.start + 512 * (p / 512) := by
  have := h.2
  rw [l3Table, BitVec.toNat_ofNat]
  omega

theorem toNat_l3Slot {link : Symbols} {p : Nat} (h : Fits link p) :
    (l3Slot link p).toNat = link.start + 512 * (p / 512) + 8 * (p % 512) := by
  have := h.2
  rw [l3Slot, BitVec.toNat_ofNat]
  omega

theorem toNat_walkSlot {link : Symbols} {p : Nat} (h : Fits link p) :
    (walkSlot link p).toNat =
      link.start + 512 * (p / 512) / 4096 * 4096 + 8 * (p % 512) := by
  have := h.2
  rw [walkSlot, BitVec.toNat_ofNat]
  omega

theorem toNat_l2Slot {p : Nat} (h : p < 2 ^ 18) :
    (l2Slot p).toNat = 0x80080000 + 8 * (p / 512) := by
  rw [l2Slot, BitVec.toNat_ofNat]
  omega

private theorem calcIndexL2_pageAddress {p : Nat} (hp : p < 2 ^ 18) :
    (calcIndexL2 (pageAddress p)).toNat = p / 512 := by
  rw [calcIndexL2, toNat_calcIndex, toNat_pageAddress hp]
  omega

private theorem calcIndexL3_pageAddress {p : Nat} (hp : p < 2 ^ 18) :
    (calcIndexL3 (pageAddress p)).toNat = p % 512 := by
  rw [calcIndexL3, toNat_calcIndex, toNat_pageAddress hp]
  omega

theorem l3TableAddress_eq {link : Symbols} {p : Nat} (h : Fits link p) :
    (link.blockL2MemoryStart &&& lowMask) + 512#64 * calcIndexL2 (pageAddress p) =
      l3Table link p := by
  have hstart : (link.blockL2MemoryStart &&& lowMask).toNat = link.start := rfl
  have hroom := h.2
  apply BitVec.eq_of_toNat_eq
  rw [toNat_l3Table h, BitVec.toNat_add, BitVec.toNat_mul, calcIndexL2_pageAddress h.1, hstart,
    BitVec.toNat_ofNat]
  omega

private theorem l2Entry_eq {p : Nat} (hp : p < 2 ^ 18) :
    entryAddress (highMask ||| l2Index3BasePhys) (calcIndexL2 (pageAddress p)) = l2Slot p := by
  have htable : (highMask ||| l2Index3BasePhys).toNat % 2 ^ 48 = 0x80080000 := rfl
  have hidx := calcIndexL2_pageAddress hp
  apply BitVec.eq_of_toNat_eq
  rw [toNat_entryAddress (by omega) (by omega), htable, hidx, toNat_l2Slot hp]

theorem l3Entry_eq {link : Symbols} {p : Nat} (h : Fits link p) :
    entryAddress (highMask ||| l3Table link p) (calcIndexL3 (pageAddress p)) =
      l3Slot link p := by
  have htable := toNat_l3Table h
  have hroom := h.2
  have hhigh : (highMask ||| l3Table link p).toNat % 2 ^ 48 = (l3Table link p).toNat := by
    rw [toNat_highMask (by omega)]
    omega
  have hidx := calcIndexL3_pageAddress h.1
  apply BitVec.eq_of_toNat_eq
  rw [toNat_entryAddress (by omega) (by omega), hhigh, hidx, htable, toNat_l3Slot h]

theorem mapPagetableEntry_body_eq {link : Symbols} {f i : Nat} (h : Fits link (f + i))
    (t : Tables) :
    mapPagetableEntry.body link (pageAddress f) (frame f) t i =
      t.store (pageEntries link (f + i)) := by
  simp only [mapPagetableEntry.body, pageAddress_add, frame_add, l3TableAddress_eq h,
    setTableEntry_eq, l2Entry_eq h.1, l3Entry_eq h, Tables.store_store, pageEntries,
    List.singleton_append]

/-- The entries of `n` pages from `f` on, in the order they are stored. -/
def rangeEntries (link : Symbols) (f n : Nat) : List (Word × Word) :=
  (List.range n).flatMap fun i => pageEntries link (f + i)

def prepared (link : Symbols) (t : Tables) : Tables :=
  if t.allocated = 0#64 then mapPagetableEntry.first link t 3#64 else t

theorem mapPagetableEntry_eq {link : Symbols} {f : Nat} {total : Word} (hsmall : total.toNat ≤ 20)
    (h : ∀ i < total.toNat, Fits link (f + i)) (t : Tables) :
    mapPagetableEntry link t (pageAddress f) (frame f) total =
      (true, (prepared link t).store (rangeEntries link f total.toNat)) := by
  have hle : ¬ total > 20#64 := by
    rw [gt_iff_lt, BitVec.lt_def]
    exact Nat.not_lt.mpr hsmall
  have hidx : calcIndexL1 0xFFFF0000C0000000#64 = 3#64 := by decide
  have hloop : (List.range total.toNat).foldl
      (mapPagetableEntry.body link (pageAddress f) (frame f)) (prepared link t) =
      (prepared link t).store (rangeEntries link f total.toNat) := by
    rw [rangeEntries, ← Tables.foldl_store]
    exact List.foldl_ext _ _ _ fun t i hi =>
      mapPagetableEntry_body_eq (h i (List.mem_range.mp hi)) t
  rw [mapPagetableEntry, if_neg hle, hidx]
  simp only [ne_eq, not_true_eq_false, if_false]
  rw [← hloop]
  rfl

/-- A page whose descriptor is stored clear of the tables that lead to it. -/
structure Enterable (link : Link) (p : Nat) : Prop where
  fits : Fits link p
  offRoot : OffRoot (l3Slot link p)
  offL2 : ∀ q < 2 ^ 18, l3Slot link p ≠ l2Slot q

private theorem l2Slot_aligned {p : Nat} (hp : p < 2 ^ 18) : (l2Slot p).toNat % 8 = 0 := by
  rw [toNat_l2Slot hp]
  omega

theorem l3Slot_aligned {link : Link} {p : Nat} (h : Fits link p) :
    (l3Slot link p).toNat % 8 = 0 := by
  have haligned : link.start % 4096 = 0 := link.aligned
  rw [toNat_l3Slot h]
  omega

theorem mem_rangeEntries {link : Symbols} {f n : Nat} {e : Word × Word} :
    e ∈ rangeEntries link f n ↔ ∃ i < n,
      e = (l2Slot (f + i), makeTableDesc (l3Table link (f + i))) ∨
        e = (l3Slot link (f + i), makeL3BlockDesc (frame (f + i))) := by
  simp [rangeEntries, pageEntries]

theorem load_l2Slot {link : Link} {f n i : Nat} (h : ∀ i < n, Enterable link (f + i))
    (hi : i < n) (m : Memory) :
    load64 (storeAll m (rangeEntries link f n)) (l2Slot (f + i)) =
      makeTableDesc (l3Table link (f + i)) := by
  have hp := (h i hi).fits.1
  refine load64_storeAll_of_mem (mem_rangeEntries.mpr ⟨i, hi, .inl rfl⟩) fun w hw => ?_
  obtain ⟨j, hj, rfl | rfl⟩ := mem_rangeEntries.mp hw
  · have hq := (h j hj).fits.1
    by_cases hsame : (f + j) / 512 = (f + i) / 512
    · left
      rw [l2Slot_congr hsame, l3Table_congr hsame]
    · right
      refine apart_of_aligned (l2Slot_aligned hq) (l2Slot_aligned hp) fun heq => hsame ?_
      have hnat := congrArg BitVec.toNat heq
      dsimp only at hnat
      rw [toNat_l2Slot hq, toNat_l2Slot hp] at hnat
      omega
  · exact .inr (apart_of_aligned (l3Slot_aligned (h j hj).fits) (l2Slot_aligned hp)
      ((h j hj).offL2 _ hp))

theorem l3Slot_inj {link : Link} {p q : Nat} (hp : Fits link p) (hq : Fits link q)
    (hpq : p < q + 64) (hqp : q < p + 64) (h : l3Slot link p = l3Slot link q) : p = q := by
  have hnat := congrArg BitVec.toNat h
  rw [toNat_l3Slot hp, toNat_l3Slot hq] at hnat
  omega

theorem load_l3Slot {link : Link} {f n i : Nat} (h : ∀ i < n, Enterable link (f + i))
    (hn : n ≤ 20) (hi : i < n) (m : Memory) :
    load64 (storeAll m (rangeEntries link f n)) (l3Slot link (f + i)) =
      makeL3BlockDesc (frame (f + i)) := by
  have hp := (h i hi).fits
  refine load64_storeAll_of_mem (mem_rangeEntries.mpr ⟨i, hi, .inr rfl⟩) fun w hw => ?_
  obtain ⟨j, hj, rfl | rfl⟩ := mem_rangeEntries.mp hw
  · exact .inr (apart_of_aligned (l2Slot_aligned (h j hj).fits.1) (l3Slot_aligned hp)
      ((h i hi).offL2 _ (h j hj).fits.1).symm)
  · by_cases hsame : j = i
    · left
      rw [hsame]
    · right
      refine apart_of_aligned (l3Slot_aligned (h j hj).fits) (l3Slot_aligned hp) fun heq => ?_
      have := l3Slot_inj (h j hj).fits hp (by omega) (by omega) heq
      omega

theorem load_l3Slot_of_ne {link : Link} {f n q : Nat} (h : ∀ i < n, Enterable link (f + i))
    (hq : Enterable link q) (hne : ∀ i < n, l3Slot link (f + i) ≠ l3Slot link q)
    (m : Memory) :
    load64 (storeAll m (rangeEntries link f n)) (l3Slot link q) =
      load64 m (l3Slot link q) := by
  refine load64_storeAll_apart fun w hw => ?_
  obtain ⟨j, hj, rfl | rfl⟩ := mem_rangeEntries.mp hw
  · exact apart_of_aligned (l2Slot_aligned (h j hj).fits.1) (l3Slot_aligned hq.fits)
      (hq.offL2 _ (h j hj).fits.1).symm
  · exact apart_of_aligned (l3Slot_aligned (h j hj).fits) (l3Slot_aligned hq.fits) (hne j hj)

theorem Rooted.rangeEntries {link : Link} {t : Tables} (ht : Rooted t) {f n : Nat}
    (h : ∀ i < n, Enterable link (f + i)) : Rooted (t.store (rangeEntries link f n)) := by
  refine ht.store fun e he => ?_
  obtain ⟨i, hi, rfl | rfl⟩ := mem_rangeEntries.mp he
  · have hslot := toNat_l2Slot (h i hi).fits.1
    exact offRoot_of_le (by dsimp only; omega) (by dsimp only; omega)
  · exact (h i hi).offRoot

private theorem index_pageAddress {p : Nat} (hp : p < 2 ^ 18) :
    PageWalk.index 3 (pageAddress p) = 0 ∧ PageWalk.index 2 (pageAddress p) = 3 ∧
      PageWalk.index 1 (pageAddress p) = p / 512 ∧
      PageWalk.index 0 (pageAddress p) = p % 512 := by
  simp only [PageWalk.index, toNat_pageAddress hp, Nat.reduceMul, Nat.reduceAdd, Nat.reducePow]
  omega

theorem walk_pageAddress {link : Link} {t : Tables} (ht : Rooted t)
    (ha : t.allocated ≠ 0#64) {p : Nat} (hp : Fits link p)
    (hl2 : load64 t.mem (l2Slot p) = makeTableDesc (l3Table link p)) :
    PageWalk.walk t.mem l0BasePhys (pageAddress p) =
      if (load64 t.mem (walkSlot link p)).getLsbD 0 ∧
          (load64 t.mem (walkSlot link p)).getLsbD 1
      then some ⟨3, walkSlot link p, load64 t.mem (walkSlot link p)⟩ else none := by
  obtain ⟨hi3, hi2, hi1, hi0⟩ := index_pageAddress hp.1
  have hroom := hp.2
  have htable := toNat_l3Table hp
  have h0 : l0BasePhys.toNat = 0x80020000 := rfl
  have h1 : l1BasePhys.toNat = 0x80040000 := rfl
  have h1' : (l1BasePhys + 24#64).toNat = 0x80040018 := rfl
  have h2 : l2Index3BasePhys.toNat = 0x80080000 := rfl
  have slot (below : Nat) (table at' : Word) (hsmall : table.toNat + 4096 ≤ 2 ^ 64)
      (heq : table.toNat + 8 * PageWalk.index below (pageAddress p) = at'.toNat) :
      PageWalk.slot below (pageAddress p) table = at' :=
    BitVec.eq_of_toNat_eq ((PageWalk.slot_toNat hsmall).trans heq)
  have hs3 := slot 3 l0BasePhys l0BasePhys (by omega) (by omega)
  have hs2 := slot 2 l1BasePhys (l1BasePhys + 24#64) (by omega) (by omega)
  have hs1 := slot 1 l2Index3BasePhys (l2Slot p) (by omega)
    (by rw [hi1, h2, toNat_l2Slot hp.1])
  have ha2 : PageWalk.address (makeTableDesc l2Index3BasePhys) = l2Index3BasePhys := by decide
  have ha1 : PageWalk.address (makeTableDesc l1BasePhys) = l1BasePhys := by decide
  have haligned : link.start % 4096 = 0 := link.aligned
  have aligned : (link.start + 512 * (p / 512)) / 4096 * 4096 =
      link.start + 512 * (p / 512) / 4096 * 4096 := by omega
  have ha3 := toNat_address_makeTableDesc (x := l3Table link p) (by omega)
  have hs0 := slot 0 (PageWalk.address (makeTableDesc (l3Table link p))) (walkSlot link p)
    (by omega) (by rw [hi0, ha3, htable, toNat_walkSlot hp, aligned])
  rw [PageWalk.walk,
    PageWalk.walkFrom_table (hs3.symm ▸ ht.l0) (getLsbD_makeTableDesc _ (by decide))
      (getLsbD_makeTableDesc _ (by decide)), ha1,
    PageWalk.walkFrom_table (hs2.symm ▸ ht.l1 ha) (getLsbD_makeTableDesc _ (by decide))
      (getLsbD_makeTableDesc _ (by decide)), ha2,
    PageWalk.walkFrom_table (hs1.symm ▸ hl2) (getLsbD_makeTableDesc _ (by decide))
      (getLsbD_makeTableDesc _ (by decide)), PageWalk.walkFrom, hs0]

theorem walk_of_load {link : Link} {t : Tables} (ht : Rooted t) (ha : t.allocated ≠ 0#64)
    {p q : Nat} (hp : Fits link p)
    (hl2 : load64 t.mem (l2Slot p) = makeTableDesc (l3Table link p))
    (hl3 : load64 t.mem (walkSlot link p) = makeL3BlockDesc (frame q)) :
    PageWalk.walk t.mem l0BasePhys (pageAddress p) =
      some ⟨3, walkSlot link p, makeL3BlockDesc (frame q)⟩ := by
  rw [walk_pageAddress ht ha hp hl2, hl3, if_pos
    ⟨getLsbD_makeL3BlockDesc _ (by decide), getLsbD_makeL3BlockDesc _ (by decide)⟩]

theorem address_frame {p : Nat} (hp : p < 2 ^ 18) :
    PageWalk.address (makeL3BlockDesc (frame p)) = frame p := by
  have hframe := toNat_frame hp
  exact address_makeL3BlockDesc (by omega) (by omega)

/-- The walk looks where the page is entered for one level 2 index in eight. -/
theorem walkSlot_eq_l3Slot_iff {link : Link} {p : Nat} (hp : Fits link p) :
    walkSlot link p = l3Slot link p ↔ p / 512 % 8 = 0 := by
  rw [← BitVec.toNat_inj, toNat_walkSlot hp, toNat_l3Slot hp]
  omega

theorem kmalloc_bitmap (link : Symbols) (k : Kernel) (size : Word) (res : BitIndexArray) :
    (kmalloc link k size res).2.bitmap =
      k.bitmap.markAll (k.bitmap.available.take (pageCount size)) := by
  rw [kmalloc, allocateMem_eq]

theorem lt_of_mem_available {mem : AllocateMem} {p : Nat} (h : p ∈ mem.available) :
    p < 131088 := by
  have := (mem_available.mp h).1
  rwa [scanned_eq] at this

theorem kmalloc_of_available {k : Kernel} {f : Nat} {rest : List Nat}
    (h : k.bitmap.available = f :: rest) (link : Symbols) (size : Word) (res : BitIndexArray) :
    (kmalloc link k size res).1 = pageAddress f ∧
      (kmalloc link k size res).2.tables =
        (mapPagetableEntry link k.tables (pageAddress f) (frame f)
          (if pageCount size ≤ k.bitmap.available.length
            then BitVec.ofNat 64 (pageCount size) else 0#64)).2 := by
  have hf : f < 2 ^ 18 :=
    Nat.lt_trans (lt_of_mem_available (h ▸ List.mem_cons_self)) (by decide)
  obtain ⟨n, hn⟩ := Nat.exists_eq_succ_of_ne_zero (Nat.ne_of_gt (pageCount_pos size))
  have hfirst : res.storeAll 0 (k.bitmap.available.take (pageCount size)) 0 = .ofPosition f := by
    rw [h, hn, List.take_succ_cons, storeAll_cons, storeAll_of_lt _ _ (by decide),
      Function.update_self]
  simp only [kmalloc, allocateMem_eq, hfirst, bitindexToPhys_ofPosition hf,
    frame_or_highMask hf, and_self]

theorem prepared_allocated (link : Symbols) (t : Tables) : (prepared link t).allocated ≠ 0#64 := by
  unfold prepared
  split
  · exact (by decide : (1#64 : Word) ≠ 0#64)
  · assumption

theorem prepared_of_allocated {link : Symbols} {t : Tables} (h : t.allocated ≠ 0#64) :
    prepared link t = t := if_neg h

theorem Rooted.prepared {t : Tables} (h : Rooted t) (link : Link) :
    Rooted (prepared link t) := by
  unfold Mmu.prepared
  split
  · exact h.first link
  · exact h

theorem prepared_stored (link : Symbols) (t : Tables) :
    ∃ new, (prepared link t).stored = t.stored ++ new ∧ ∀ e ∈ new, e = heapEntry := by
  unfold prepared
  split
  · exact ⟨[heapEntry], first_stored link t, fun e he => List.mem_singleton.mp he⟩
  · exact ⟨[], by simp, by simp⟩

section
variable {k : Kernel} {f : Nat} {rest : List Nat} {link : Symbols} {size : Word}
  {res : BitIndexArray}

theorem kmalloc_mapped (h : k.bitmap.available = f :: rest)
    (enough : pageCount size ≤ k.bitmap.available.length) (small : pageCount size ≤ 20)
    (fits : ∀ i < pageCount size, Fits link (f + i)) :
    (kmalloc link k size res).2.tables =
      (prepared link k.tables).store (rangeEntries link f (pageCount size)) := by
  have hcount := toNat_pageCount size
  rw [(kmalloc_of_available h link size res).2, if_pos enough,
    mapPagetableEntry_eq (by rwa [hcount]) (by rwa [hcount]), hcount]

theorem kmalloc_refused (h : k.bitmap.available = f :: rest)
    (enough : pageCount size ≤ k.bitmap.available.length) (large : 20 < pageCount size) :
    (kmalloc link k size res).2.tables = k.tables := by
  have hgt : BitVec.ofNat 64 (pageCount size) > 20#64 := by
    rw [gt_iff_lt, BitVec.lt_def, toNat_pageCount]
    exact large
  rw [(kmalloc_of_available h link size res).2, if_pos enough, mapPagetableEntry, if_pos hgt]

theorem kmalloc_short (short : k.bitmap.available.length < pageCount size) :
    (kmalloc link k size res).2.tables = prepared link k.tables := by
  have hidx : calcIndexL1 0xFFFF0000C0000000#64 = 3#64 := by decide
  have hnone : ¬ (0#64 : Word) > 20#64 := by decide
  simp only [kmalloc, allocateMem_eq, if_neg (Nat.not_le.mpr short), mapPagetableEntry, hidx,
    ne_eq, not_true_eq_false, if_false, hnone]
  rfl

end

end KernelFuzzing.Mmu
