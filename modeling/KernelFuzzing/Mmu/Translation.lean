import KernelFuzzing.Foundation.Run
import KernelFuzzing.Mmu.Kmalloc

/-! The translations of the kernel heap along a run of `kmalloc` calls from boot. -/
namespace KernelFuzzing.Mmu.Translation
open Foundation Memory

/-- The kernel and the ranges returned so far, oldest first: each an address and a
number of pages. -/
structure Heap where
  kernel : Kernel
  returned : List (Word × Nat)

/-- `kmalloc(size)` with what its array `res` held before. -/
structure Request where
  size : Word
  res : BitIndexArray

def Heap.pages (s : Heap) : Nat := (s.returned.map Prod.snd).sum

def step (link : Link) (s : Heap) (r : Request) : Heap :=
  ⟨(kmalloc link s.kernel r.size r.res).2,
    s.returned ++ [((kmalloc link s.kernel r.size r.res).1, pageCount r.size)]⟩

/-- An all-zero bitmap and the tables `mmuInit` leaves in a given memory. -/
def boot (link : Link) (m : Memory) : Heap := ⟨⟨.empty, mmuInit link ⟨m, 0#64, []⟩⟩, []⟩

/-- The walk to each page of each returned range ends at a valid level 3 descriptor
for the address without its high bits. -/
def Translated (s : Heap) : Prop :=
  ∀ range ∈ s.returned, ∀ i < range.2,
    PageWalk.MapsPage s.kernel.tables.mem l0BasePhys
      (range.1 + 4096#64 * BitVec.ofNat 64 i) ((range.1 + 4096#64 * BitVec.ofNat 64 i) &&& lowMask)

/-- At most 20 pages, and not more in all than the bitmap scan covers. -/
def Legal (s : Heap) (r : Request) : Prop :=
  pageCount r.size ≤ 20 ∧ s.pages + pageCount r.size ≤ scanned

def InFirstTable (s : Heap) (r : Request) : Prop := s.pages + pageCount r.size ≤ 512

/-- Every page so far is one of the first 512, entered in the one level 3 table. -/
structure Inv (link : Link) (s : Heap) : Prop where
  rooted : Rooted s.kernel.tables
  few : s.pages ≤ 512
  available : s.kernel.bitmap.available = List.range' s.pages (scanned - s.pages)
  ranges : ∀ range ∈ s.returned, ∃ f, range.1 = pageAddress f ∧ f + range.2 ≤ s.pages
  table : 0 < s.pages → s.kernel.tables.allocated ≠ 0#64 ∧
    load64 s.kernel.tables.mem (l2Slot 0) = makeTableDesc (l3Table link 0)
  entries : ∀ p < s.pages,
    load64 s.kernel.tables.mem (l3Slot link p) = makeL3BlockDesc (frame p)

private theorem fits_of_lt (link : Link) {p : Nat} (hp : p < 576) : Fits link p := by
  have hfits : link.start + 512 * 10 ≤ 2 ^ 48 := link.fits
  exact ⟨by omega, by omega⟩

private theorem outside_table (link : Link) (table : Word) (htable : table ∈ hardCodedTables)
    {p : Nat} (hp : p < 576) :
    (l3Slot link p).toNat + 8 ≤ table.toNat ∨ table.toNat + 4096 ≤ (l3Slot link p).toNat := by
  have hslot := toNat_l3Slot (fits_of_lt link hp)
  have hapart : link.start + 512 * 10 ≤ table.toNat ∨ table.toNat + 4096 ≤ link.start :=
    link.apart table htable
  omega

private theorem apart_table (link : Link) (table : Word) (htable : table ∈ hardCodedTables)
    {p : Nat} (hp : p < 576) (off : Nat) (hoff : off + 8 ≤ 4096)
    (hlow : table.toNat + 4096 ≤ 2 ^ 63) :
    Apart (l3Slot link p) 8 (table + BitVec.ofNat 64 off) 8 := by
  have hroom := (fits_of_lt link hp).2
  have hslot := toNat_l3Slot (fits_of_lt link hp)
  have haddr : (table + BitVec.ofNat 64 off).toNat = table.toNat + off := by
    rw [BitVec.toNat_add, BitVec.toNat_ofNat]
    omega
  rcases outside_table link table htable hp with below | above
  · exact apart_of_le (by omega) (by omega)
  · exact (apart_of_le (by omega) (by omega)).symm

theorem enterable_of_lt (link : Link) {p : Nat} (hp : p < 576) : Enterable link p where
  fits := fits_of_lt link hp
  offRoot := by
    have hroot := apart_table link l0BasePhys (by simp [hardCodedTables]) hp 0 (by decide)
      (by decide)
    have hheap := apart_table link l1BasePhys (by simp [hardCodedTables]) hp 24 (by decide)
      (by decide)
    exact ⟨by simpa using hroot, hheap⟩
  offL2 := by
    intro q hq heq
    have htable : l2Index3BasePhys.toNat = 0x80080000 := rfl
    have hslot := toNat_l2Slot hq
    have houtside := outside_table link l2Index3BasePhys (by simp [hardCodedTables]) hp
    rw [heq] at houtside
    omega

private theorem available_after {s : Heap} {link : Link} (h : Inv link s) (r : Request) :
    (step link s r).kernel.bitmap.available =
      List.range' (s.pages + pageCount r.size) (scanned - (s.pages + pageCount r.size)) := by
  change (kmalloc link s.kernel r.size r.res).2.bitmap.available = _
  rw [kmalloc_bitmap, available_markAll_take, h.available, List.drop_range']
  rw [Nat.mul_one, Nat.sub_sub]

theorem pages_step (link : Link) (s : Heap) (r : Request) :
    (step link s r).pages = s.pages + pageCount r.size := by
  simp [step, Heap.pages]

theorem step_eq {s : Heap} {link : Link} (h : Inv link s) {r : Request}
    (legal : Legal s r) :
    (kmalloc link s.kernel r.size r.res).1 = pageAddress s.pages ∧
      (step link s r).kernel.tables = (prepared link s.kernel.tables).store
        (rangeEntries link s.pages (pageCount r.size)) := by
  have hcount := pageCount_pos r.size
  obtain ⟨hsmall, hroom⟩ := legal
  have hfew := h.few
  obtain ⟨n, hn⟩ : ∃ n, scanned - s.pages = n + 1 :=
    ⟨scanned - s.pages - 1, by omega⟩
  have hfree : s.kernel.bitmap.available = s.pages :: List.range' (s.pages + 1) n := by
    rw [h.available, hn, List.range'_succ]
  have henough : pageCount r.size ≤ s.kernel.bitmap.available.length := by
    rw [h.available, List.length_range']
    omega
  exact ⟨(kmalloc_of_available hfree link r.size r.res).1,
    kmalloc_mapped hfree henough hsmall fun i hi => (enterable_of_lt link (by omega)).fits⟩

theorem inv_step {s : Heap} {link : Link} (h : Inv link s) {r : Request} (legal : Legal s r)
    (few : InFirstTable s r) : Inv link (step link s r) := by
  obtain ⟨hva, htables⟩ := step_eq h legal
  unfold InFirstTable at few
  have hcount := pageCount_pos r.size
  have enterable (i : Nat) (hi : i < pageCount r.size) : Enterable link (s.pages + i) :=
    enterable_of_lt link (by omega)
  have hprepared := h.rooted.prepared link
  exact {
    rooted := htables ▸ hprepared.rangeEntries enterable
    few := by rw [pages_step]; exact few
    available := by rw [pages_step, available_after h]
    ranges := by
      intro range hrange
      rw [pages_step]
      rcases List.mem_append.mp hrange with hold | hnew
      · obtain ⟨f, hf, hle⟩ := h.ranges range hold
        exact ⟨f, hf, by omega⟩
      · rw [List.mem_singleton.mp hnew]
        exact ⟨s.pages, hva, Nat.le_refl _⟩
    table := by
      intro _
      rw [htables]
      refine ⟨prepared_allocated link _, ?_⟩
      have hfirst : (s.pages + 0) / 512 = 0 / 512 := by omega
      have hl2 := load_l2Slot enterable hcount (prepared link s.kernel.tables).mem
      rwa [l2Slot_congr hfirst, l3Table_congr hfirst] at hl2
    entries := by
      intro p hp
      rw [pages_step] at hp
      rw [htables]
      by_cases hold : p < s.pages
      · have hother (i : Nat) (hi : i < pageCount r.size) :
            l3Slot link (s.pages + i) ≠ l3Slot link p := fun heq => by
          have hfirst := congrArg BitVec.toNat heq
          rw [toNat_l3Slot (enterable i hi).fits, toNat_l3Slot (fits_of_lt link (by omega))]
            at hfirst
          omega
        have ha := (h.table (by omega)).1
        rw [prepared_of_allocated ha]
        exact (load_l3Slot_of_ne enterable (enterable_of_lt link (by omega)) hother _).trans
          (h.entries p hold)
      · obtain ⟨i, rfl⟩ := Nat.exists_eq_add_of_le (Nat.le_of_not_lt hold)
        exact load_l3Slot enterable legal.1 (by omega) _ }

theorem translated_of_inv {s : Heap} {link : Link} (h : Inv link s) : Translated s := by
  intro range hrange i hi
  obtain ⟨f, hf, hle⟩ := h.ranges range hrange
  have hfew := h.few
  obtain ⟨ha, hl2⟩ := h.table (by omega)
  have hfits : Fits link (f + i) := fits_of_lt link (by omega)
  have hfirst : (f + i) / 512 = 0 / 512 := by omega
  rw [← l2Slot_congr hfirst, ← l3Table_congr hfirst] at hl2
  have hslot : walkSlot link (f + i) = l3Slot link (f + i) :=
    (walkSlot_eq_l3Slot_iff hfits).mpr (by omega)
  have hl3 := h.entries (f + i) (by omega)
  rw [hf, pageAddress_add, pageAddress_and_lowMask hfits.1]
  exact ⟨_, walk_of_load h.rooted ha hfits hl2 (hslot ▸ hl3), rfl, address_frame hfits.1⟩

/-- The call that reaches page 512 leaves its walk at the descriptor of page 0. -/
theorem not_translated_step {s : Heap} {link : Link} (h : Inv link s) {r : Request}
    (legal : Legal s r) (many : ¬ InFirstTable s r) : ¬ Translated (step link s r) := by
  obtain ⟨hva, htables⟩ := step_eq h legal
  obtain ⟨hsmall, -⟩ := legal
  unfold InFirstTable at many
  have hfew := h.few
  have enterable (i : Nat) (hi : i < pageCount r.size) : Enterable link (s.pages + i) :=
    enterable_of_lt link (by omega)
  obtain ⟨i, hi⟩ := Nat.exists_eq_add_of_le hfew
  have hin : i < pageCount r.size := by omega
  have hfits : Fits link 512 := fits_of_lt link (by decide)
  have hl2 := load_l2Slot enterable hin (prepared link s.kernel.tables).mem
  rw [← hi] at hl2
  have hslot : walkSlot link 512 = l3Slot link 0 := by
    rw [walkSlot, l3Slot]
  have hother (i : Nat) (hi : i < pageCount r.size) :
      l3Slot link (s.pages + i) ≠ l3Slot link 0 := fun heq => by
    have hzero := congrArg BitVec.toNat heq
    rw [toNat_l3Slot (enterable i hi).fits, toNat_l3Slot (fits_of_lt link (by decide))] at hzero
    omega
  have ha := (h.table (by omega)).1
  have hl3 := (load_l3Slot_of_ne enterable (enterable_of_lt link (by decide)) hother
    s.kernel.tables.mem).trans (h.entries 0 (by omega))
  intro translated
  obtain ⟨leaf, hwalk, -, haddress⟩ := translated _
    (List.mem_append_right _ (List.mem_singleton_self _)) i hin
  rw [hva, pageAddress_add, ← hi, htables, walk_of_load ((h.rooted.prepared link).rangeEntries
    enterable) (prepared_allocated link _) hfits hl2
    (hslot ▸ (prepared_of_allocated ha ▸ hl3))] at hwalk
  rw [hva, pageAddress_add, ← hi, pageAddress_and_lowMask hfits.1, ← Option.some.inj hwalk,
    address_frame (by decide)] at haddress
  exact absurd (frame_inj (by decide) (by decide) haddress) (by decide)

theorem inv_boot (link : Link) (m : Memory) : Inv link (boot link m) where
  rooted := rooted_mmuInit link _ rfl
  few := Nat.zero_le _
  available := by
    change AllocateMem.empty.available = List.range' 0 (scanned - 0)
    rw [available_empty, Nat.sub_zero, List.range_eq_range']
  ranges := by simp [boot]
  table := by simp [boot, Heap.pages]
  entries := by simp [boot, Heap.pages]

def total (requests : List Request) : Nat := (requests.map fun r => pageCount r.size).sum

private theorem total_cons (r : Request) (rs : List Request) :
    total (r :: rs) = pageCount r.size + total rs := by
  simp [total]

private theorem legal_of_total {link : Link} {s : Heap} {requests : List Request}
    (small : ∀ r ∈ requests, pageCount r.size ≤ 20)
    (room : s.pages + total requests ≤ scanned) :
    Run.Guarded (step link) Legal s requests := by
  induction requests generalizing s with
  | nil => trivial
  | cons r rs ih =>
    rw [total_cons] at room
    refine ⟨⟨small r List.mem_cons_self, by omega⟩,
      ih (fun q hq => small q (List.mem_cons_of_mem r hq)) ?_⟩
    rw [pages_step]
    omega

private theorem inFirstTable_iff_total {link : Link} {s : Heap} {requests : List Request}
    (few : s.pages ≤ 512) :
    Run.Guarded (step link) InFirstTable s requests ↔ s.pages + total requests ≤ 512 := by
  have guard (n : Nat) (s : Heap) (h : s.pages = n) (_ : n ≤ 512) (r : Request)
      (_ : r ∈ requests) : InFirstTable s r ↔ n + pageCount r.size ≤ 512 := by
    rw [InFirstTable, h]
  have next (n : Nat) (s : Heap) (h : s.pages = n) (r : Request) (_ : r ∈ requests)
      (_ : n + pageCount r.size ≤ 512) : (step link s r).pages = n + pageCount r.size := by
    rw [pages_step, h]
  exact Run.guarded_iff_total (fun n (s : Heap) => s.pages = n) guard next rfl few

private theorem always_iff_inFirstTable (link : Link) (m : Memory) {requests : List Request}
    (legal : Run.Guarded (step link) Legal (boot link m) requests) :
    Run.Always (step link) Translated (boot link m) requests ↔
      Run.Guarded (step link) InFirstTable (boot link m) requests :=
  Run.always_iff_guarded (fun _ => translated_of_inv) (fun _ _ h => inv_step h)
    (fun _ _ h => not_translated_step h) (inv_boot link m) legal

private theorem pages_boot (link : Link) (m : Memory) : (boot link m).pages = 0 := rfl

/-- The heap is translated after every call exactly when the calls request no more
than the 512 pages of the first level 3 table. -/
theorem kmalloc_translated_iff_total (link : Link) (m : Memory) (requests : List Request)
    (small : ∀ r ∈ requests, pageCount r.size ≤ 20) (room : total requests ≤ scanned) :
    Run.Always (step link) Translated (boot link m) requests ↔ total requests ≤ 512 := by
  have legal : Run.Guarded (step link) Legal (boot link m) requests :=
    legal_of_total small (by rwa [pages_boot, Nat.zero_add])
  rw [always_iff_inFirstTable link m legal,
    inFirstTable_iff_total (pages_boot link m ▸ Nat.zero_le _), pages_boot, Nat.zero_add]

def requestOf (size : Word) : Request := ⟨size, fun _ => ⟨0#64, 0#8, false⟩⟩

def tooMany : List Request := List.replicate 26 (requestOf 81920#64)

theorem kmalloc_not_translated_past_table :
    (∀ r ∈ tooMany, pageCount r.size ≤ 20) ∧ total tooMany ≤ scanned ∧
      ¬ Run.Always (step imageLink) Translated (boot imageLink fun _ => 0#8) tooMany := by
  let s := boot imageLink fun _ => 0#8
  have hcount : pageCount (requestOf 81920#64).size = 20 := by simp [requestOf, pageCount]
  have htotal : total tooMany = 520 := by
    rw [total, tooMany, List.map_replicate, hcount, List.sum_replicate_nat]
  have hsmall : ∀ r ∈ tooMany, pageCount r.size ≤ 20 := by
    intro r hr
    rw [List.eq_of_mem_replicate hr, hcount]
  have hroom : total tooMany ≤ scanned := by
    rw [htotal, scanned_eq]
    decide
  have legal : Run.Guarded (step imageLink) Legal s tooMany :=
    legal_of_total hsmall (by rwa [pages_boot, Nat.zero_add])
  have few : s.pages ≤ 512 := Nat.zero_le _
  refine ⟨hsmall, hroom, fun always => ?_⟩
  have hle := (inFirstTable_iff_total few).mp
    ((always_iff_inFirstTable imageLink _ legal).mp always)
  rw [pages_boot, htotal] at hle
  exact absurd hle (by decide)

/-- 25 requests of 20 pages and one of 12: the 512 pages of the table. -/
def wholeTable : List Request :=
  List.replicate 25 (requestOf 81920#64) ++ [requestOf 49152#64]

theorem kmalloc_translated_whole_table :
    Run.Always (step imageLink) Translated (boot imageLink fun _ => 0#8) wholeTable := by
  have hcount : pageCount (requestOf 81920#64).size = 20 := by simp [requestOf, pageCount]
  have hlast : pageCount (requestOf 49152#64).size = 12 := by simp [requestOf, pageCount]
  have htotal : total wholeTable = 512 := by
    rw [total, wholeTable, List.map_append, List.map_replicate, hcount, List.map_singleton, hlast,
      List.sum_append_nat, List.sum_replicate_nat, List.sum_singleton]
  refine (kmalloc_translated_iff_total imageLink _ _ (fun r hr => ?_) ?_).mpr htotal.le
  · rcases List.mem_append.mp hr with hmany | hone
    · rw [List.eq_of_mem_replicate hmany, hcount]
    · rw [List.mem_singleton.mp hone, hlast]
      decide
  · rw [htotal, scanned_eq]
    decide

end KernelFuzzing.Mmu.Translation
