import KernelFuzzing.Mmu.Exhaustion

/-! The frames that `kmalloc` maps against the pages that `allocateMem` marked for it. -/
namespace KernelFuzzing.Mmu.Contiguous
open Foundation

def MapsFrame (t t' : Tables) (pa : Word) : Prop :=
  ∃ new at', t'.stored = t.stored ++ new ∧ (at', makeL3BlockDesc pa) ∈ new ∧ pa &&& 0xFFF#64 = 0#64

/-- The frames mapped by the call are those of the pages whose bits it set. -/
def MapsReserved (k k' : Kernel) : Prop :=
  ∀ pa, MapsFrame k.tables k'.tables pa ↔
    ∃ p, k.bitmap.used p = false ∧ k'.bitmap.used p = true ∧ pa = frame p

/-- The `n` lowest free pages follow one another. -/
def Consecutive (bitmap : AllocateMem) (n : Nat) : Prop :=
  ∃ f, bitmap.available.take n = List.range' f n

/-- The two entries that the mapping loop stores for its `i`-th page. -/
def bodyEntries (link : Symbols) (va pa : Word) (i : Nat) : List (Word × Word) :=
  let currentVa := va + 4096#64 * BitVec.ofNat 64 i
  let l3 := (link.blockL2MemoryStart &&& lowMask) + 512#64 * calcIndexL2 currentVa
  [(entryAddress (highMask ||| l2Index3BasePhys) (calcIndexL2 currentVa), makeTableDesc l3),
    (entryAddress (highMask ||| l3) (calcIndexL3 currentVa),
      makeL3BlockDesc (pa + 4096#64 * BitVec.ofNat 64 i))]

theorem mapPagetableEntry_stored (link : Symbols) (t : Tables) (va pa : Word) {total : Word}
    (hsmall : total.toNat ≤ 20) :
    (mapPagetableEntry link t va pa total).2.stored =
      (prepared link t).stored ++ (List.range total.toNat).flatMap (bodyEntries link va pa) := by
  have hle : ¬ total > 20#64 := by
    rw [gt_iff_lt, BitVec.lt_def]
    exact Nat.not_lt.mpr hsmall
  have hidx : calcIndexL1 0xFFFF0000C0000000#64 = 3#64 := by decide
  have hbody : mapPagetableEntry.body link va pa =
      fun t i => t.store (bodyEntries link va pa i) := by
    funext t i
    simp only [mapPagetableEntry.body, setTableEntry_eq, Tables.store_store]
    rfl
  rw [mapPagetableEntry, if_neg hle, hidx]
  simp only [ne_eq, not_true_eq_false, if_false]
  rw [hbody, Tables.foldl_store]
  rfl

theorem makeL3BlockDesc_ne_makeTableDesc (x y : Word) : makeL3BlockDesc x ≠ makeTableDesc y := by
  intro h
  have hnat := congrArg BitVec.toNat h
  rw [toNat_makeL3BlockDesc, toNat_makeTableDesc] at hnat
  omega

theorem makeL3BlockDesc_inj {x y : Word} (hx : x &&& 0xFFF#64 = 0#64) (hy : y &&& 0xFFF#64 = 0#64)
    (h : makeL3BlockDesc x = makeL3BlockDesc y) : x = y := by
  have low (z : Word) : (z &&& 0xFFF#64).toNat = z.toNat % 4096 := by
    rw [BitVec.toNat_and]
    exact Nat.and_two_pow_sub_one_eq_mod _ 12
  have hx' := low x
  have hy' := low y
  have hnat := congrArg BitVec.toNat h
  rw [toNat_makeL3BlockDesc, toNat_makeL3BlockDesc] at hnat
  rw [hx] at hx'
  rw [hy] at hy'
  apply BitVec.eq_of_toNat_eq
  simp only [BitVec.toNat_ofNat, Nat.zero_mod] at hx' hy'
  omega

theorem frame_aligned {p : Nat} (hp : p < 2 ^ 18) : frame p &&& 0xFFF#64 = 0#64 := by
  apply BitVec.eq_of_toNat_eq
  rw [BitVec.toNat_and, toNat_frame hp]
  change (3221225472 + 4096 * p) &&& (2 ^ 12 - 1) = 0
  rw [Nat.and_two_pow_sub_one_eq_mod]
  omega

section
variable {k : Kernel} {size : Word} {f : Nat} {rest : List Nat}

theorem mapsFrame_kmalloc (link : Symbols) (res : BitIndexArray)
    (hfree : k.bitmap.available = f :: rest)
    (enough : pageCount size ≤ k.bitmap.available.length) (small : pageCount size ≤ 20)
    (pa : Word) :
    MapsFrame k.tables (kmalloc link k size res).2.tables pa ↔
      ∃ i < pageCount size, pa = frame (f + i) := by
  have hf := lt_of_mem_available (hfree ▸ List.mem_cons_self : f ∈ k.bitmap.available)
  have hcount := toNat_pageCount size
  obtain ⟨first, hfirst, heap⟩ := prepared_stored link k.tables
  have hstored : (kmalloc link k size res).2.tables.stored = k.tables.stored ++
      (first ++ (List.range (pageCount size)).flatMap
        (bodyEntries link (pageAddress f) (frame f))) := by
    rw [(kmalloc_of_available hfree link size res).2, if_pos enough,
      mapPagetableEntry_stored _ _ _ _ (by rwa [hcount]), hcount, hfirst, List.append_assoc]
  constructor
  · rintro ⟨new, at', hnew, hmem, haligned⟩
    rw [hstored, List.append_cancel_left_eq] at hnew
    rw [← hnew] at hmem
    rcases List.mem_append.mp hmem with hheap | hrange
    · exact absurd (congrArg Prod.snd (heap _ hheap)) (makeL3BlockDesc_ne_makeTableDesc _ _)
    · obtain ⟨i, hi, hentry⟩ := List.mem_flatMap.mp hrange
      rw [List.mem_range] at hi
      simp only [bodyEntries, List.mem_cons, Prod.mk.injEq, List.not_mem_nil, or_false,
        frame_add] at hentry
      rcases hentry with htable | hpage
      · exact absurd htable.2 (makeL3BlockDesc_ne_makeTableDesc _ _)
      · exact ⟨i, hi, makeL3BlockDesc_inj haligned (frame_aligned (by omega)) hpage.2⟩
  · rintro ⟨i, hi, rfl⟩
    have hentry : ∃ at', (at', makeL3BlockDesc (frame (f + i))) ∈
        bodyEntries link (pageAddress f) (frame f) i := by
      rw [← frame_add]
      exact ⟨_, List.mem_cons_of_mem _ List.mem_cons_self⟩
    obtain ⟨at', hentry⟩ := hentry
    have hrange : (at', makeL3BlockDesc (frame (f + i))) ∈
        (List.range (pageCount size)).flatMap (bodyEntries link (pageAddress f) (frame f)) :=
      List.mem_flatMap.mpr ⟨i, List.mem_range.mpr hi, hentry⟩
    exact ⟨_, at', hstored, List.mem_append_right _ hrange, frame_aligned (by omega)⟩

theorem newly_used_iff (link : Symbols) (res : BitIndexArray) (p : Nat) :
    (k.bitmap.used p = false ∧ (kmalloc link k size res).2.bitmap.used p = true) ↔
      p ∈ k.bitmap.available.take (pageCount size) := by
  rw [kmalloc_bitmap, used_markAll]
  constructor
  · rintro ⟨hfree, hused⟩
    rw [hfree] at hused
    simpa using hused
  · intro hp
    exact ⟨(mem_available.mp (List.mem_of_mem_take hp)).2, by simp [hp]⟩

theorem enough_of_succeeds {mem : AllocateMem} {res : BitIndexArray}
    (succeeds : (allocateMem mem size res).1 ≠ 0) : pageCount size ≤ mem.available.length := by
  rw [allocateMem_eq] at succeeds
  exact Nat.le_of_not_lt fun hshort => succeeds (if_neg (Nat.not_le.mpr hshort))

private theorem lt_of_mem_take {mem : AllocateMem} {n p : Nat} (hp : p ∈ mem.available.take n) :
    p < 2 ^ 18 :=
  Nat.lt_trans (lt_of_mem_available (List.mem_of_mem_take hp)) (by decide)

theorem consecutive_of_maps_reserved (link : Symbols) (res : BitIndexArray)
    (hfree : k.bitmap.available = f :: rest)
    (enough : pageCount size ≤ k.bitmap.available.length) (small : pageCount size ≤ 20)
    (h : MapsReserved k (kmalloc link k size res).2) : Consecutive k.bitmap (pageCount size) := by
  have hf := lt_of_mem_available (hfree ▸ List.mem_cons_self : f ∈ k.bitmap.available)
  refine ⟨f, take_eq_range (available_pairwise k.bitmap) fun i hi => ?_⟩
  have hmapped := (mapsFrame_kmalloc link res hfree enough small _).mpr ⟨i, hi, rfl⟩
  obtain ⟨p, hold, hnew, heq⟩ := (h _).mp hmapped
  have hp := (newly_used_iff link res p).mp ⟨hold, hnew⟩
  have hlow := lt_of_mem_take hp
  rwa [frame_inj (by omega) hlow heq]

theorem maps_reserved_of_consecutive (link : Symbols) (res : BitIndexArray)
    (hfree : k.bitmap.available = f :: rest)
    (enough : pageCount size ≤ k.bitmap.available.length) (small : pageCount size ≤ 20)
    (h : Consecutive k.bitmap (pageCount size)) :
    MapsReserved k (kmalloc link k size res).2 := by
  obtain ⟨g, htake⟩ := h
  have hg : g = f := by
    obtain ⟨n, hn⟩ := Nat.exists_eq_succ_of_ne_zero (Nat.ne_of_gt (pageCount_pos size))
    rw [hfree, hn, List.take_succ_cons, List.range'_succ] at htake
    exact (List.cons.inj htake).1.symm
  subst hg
  have taken (p : Nat) : p ∈ k.bitmap.available.take (pageCount size) ↔
      g ≤ p ∧ p < g + pageCount size := by
    rw [htake, List.mem_range'_1]
  intro pa
  rw [mapsFrame_kmalloc link res hfree enough small pa]
  constructor
  · rintro ⟨i, hi, rfl⟩
    obtain ⟨hold, hnew⟩ := (newly_used_iff link res (g + i)).mpr ((taken _).mpr (by omega))
    exact ⟨g + i, hold, hnew, rfl⟩
  · rintro ⟨p, hold, hnew, rfl⟩
    have hp := (taken p).mp ((newly_used_iff link res p).mp ⟨hold, hnew⟩)
    exact ⟨p - g, by omega, by rw [Nat.add_sub_cancel' hp.1]⟩

end

/-- `kmalloc` maps what it reserved exactly when the lowest free pages are consecutive. -/
theorem maps_reserved_iff_consecutive (link : Symbols) (k : Kernel) (size : Word)
    (res : BitIndexArray) (small : pageCount size ≤ 20)
    (succeeds : (allocateMem k.bitmap size res).1 ≠ 0) :
    MapsReserved k (kmalloc link k size res).2 ↔ Consecutive k.bitmap (pageCount size) := by
  have enough := enough_of_succeeds succeeds
  obtain ⟨f, rest, hfree⟩ := List.exists_cons_of_length_pos
    (Nat.lt_of_lt_of_le (pageCount_pos size) enough)
  exact ⟨consecutive_of_maps_reserved link res hfree enough small,
    maps_reserved_of_consecutive link res hfree enough small⟩

theorem maps_reserved_ten_pages :
    MapsReserved Exhaustion.running
      (kmalloc imageLink Exhaustion.running 40960#64 fun _ => ⟨0#64, 0#8, false⟩).2 := by
  have hcount : pageCount 40960#64 = 10 := by simp [pageCount]
  have hfree := Exhaustion.available_running
  refine (maps_reserved_iff_consecutive imageLink _ _ _ (by omega) ?_).mpr ⟨20, ?_⟩
  · rw [allocateMem_eq, hfree, hcount, List.length_range', if_pos (by decide)]
    decide
  · rw [hfree, hcount, List.take_range'_of_length_ge (by decide)]

/-- What is left after pages 0 to 7 and 8 to 15 were allocated and the first eight freed. -/
def fragmented : AllocateMem := ⟨fun i => if i = 1 then 0xFF#8 else 0#8⟩

theorem used_fragmented (p : Nat) : fragmented.used p = decide (p / 8 = 1) := by
  have full : ∀ k < 8, (0xFF#8).getLsbD k = true := by decide
  simp only [AllocateMem.used, fragmented]
  by_cases hbyte : p / 8 = 1
  · rw [if_pos hbyte, full _ (Nat.mod_lt p (by decide)), decide_eq_true hbyte]
  · rw [if_neg hbyte, decide_eq_false hbyte, BitVec.getLsbD_zero]

theorem kmalloc_not_maps_reserved_fragmented :
    pageCount 36864#64 ≤ 20 ∧
      (allocateMem fragmented 36864#64 fun _ => ⟨0#64, 0#8, false⟩).1 ≠ 0 ∧
      ¬ MapsReserved ⟨fragmented, Exhaustion.boot.tables⟩
        (kmalloc imageLink ⟨fragmented, Exhaustion.boot.tables⟩ 36864#64
          fun _ => ⟨0#64, 0#8, false⟩).2 := by
  have hcount : pageCount 36864#64 = 9 := by simp [pageCount]
  have hmem : ∀ p ∈ [0, 1, 2, 3, 4, 5, 6, 7, 16], p ∈ fragmented.available := by
    intro p hp
    rw [mem_available, scanned_eq, used_fragmented]
    revert p
    decide
  have enough : pageCount 36864#64 ≤ fragmented.available.length := by
    rw [hcount]
    exact (List.subperm_of_subset (by decide) hmem).length_le
  obtain ⟨rest, hfree⟩ : ∃ rest, fragmented.available = 0 :: rest := by
    rw [AllocateMem.available, scanned_eq, List.range_eq_range', List.range'_succ,
      List.filter_cons_of_pos (by simp [used_fragmented])]
    exact ⟨_, rfl⟩
  refine ⟨by omega, ?_, fun h => ?_⟩
  · rw [allocateMem_eq, if_pos enough, hcount]
    decide
  · obtain ⟨f, htake⟩ := consecutive_of_maps_reserved (k := ⟨fragmented, Exhaustion.boot.tables⟩)
      imageLink _ hfree enough (by omega) h
    dsimp only at htake
    have hf : f = 0 := by
      rw [hfree, hcount, List.take_succ_cons, List.range'_succ] at htake
      exact (List.cons.inj htake).1.symm
    have height : 8 ∈ fragmented.available := by
      refine List.mem_of_mem_take (i := pageCount 36864#64) ?_
      rw [htake, hf, hcount]
      decide
    have hused := (mem_available.mp height).2
    rw [used_fragmented] at hused
    exact absurd hused (by decide)

end KernelFuzzing.Mmu.Contiguous
