import KernelFuzzing.Foundation.Lowest
import KernelFuzzing.Mmu.Kmalloc

/-! When `kmalloc` hands out what it reserved and mapped: exactly the requests for
which the bitmap and the level 3 tables both serve consecutive pages. -/
namespace KernelFuzzing.Mmu.Exhaustion
open Foundation Memory

/-- What the linker script adds: the image at `0x80000000`, `0x7000` bytes of .bss and
512 KiB lie before the level 3 tables, which end within the 48-bit address space. -/
structure Placed (link : Link) : Prop where
  low : 0x80087000 ≤ link.start
  high : link.start + 0x40000 ≤ 2 ^ 48

/-- The tables that calls into core/mmu.c lead to from boot, `kmalloc` at any bitmap, with
stores elsewhere between them. -/
inductive Reachable (link : Link) : Tables → Prop where
  | mmuInit (m : Memory) : Reachable link (mmuInit link ⟨m, 0#64, []⟩)
  | kmalloc {t : Tables} (bitmap : AllocateMem) (size : Word) (res : BitIndexArray) :
      Reachable link t → Reachable link (kmalloc link ⟨bitmap, t⟩ size res).2.tables
  | addVirtioPage {t : Tables} (reg : Word) :
      Reachable link t → Reachable link (addVirtioPage t reg)
  | mapUserToPhysical {t : Tables} (id address : Word) :
      Reachable link t → Reachable link (mapUserToPhysical t id address)
  | mapUserToPhysicalTest {t : Tables} (id address : Word) :
      Reachable link t → Reachable link (mapUserToPhysicalTest t id address)
  | store {t : Tables} (a : Word) (v : BitVec 8) :
      (∀ table ∈ hardCodedTables, ¬ Within table 4096 a) →
      Reachable link t → Reachable link { t with mem := store8 t.mem a v }

def MappedBetween (t t' : Tables) (p : Nat) : Prop :=
  ∃ leaf new, PageWalk.walk t'.mem l0BasePhys (pageAddress p) = some leaf ∧ leaf.level = 3 ∧
    PageWalk.address leaf.desc = frame p ∧ t'.stored = t.stored ++ new ∧
    (leaf.slot, leaf.desc) ∈ new

/-- The `n` pages from an address on were free, are marked used and are mapped. -/
def Reserved (k k' : Kernel) (va : Word) (n : Nat) : Prop :=
  ∃ p, va = pageAddress p ∧ ∀ i < n, p + i ∈ k.bitmap.available ∧
    k'.bitmap.used (p + i) = true ∧ MappedBetween k.tables k'.tables (p + i)

/-- The call reserves and maps what it returns, or returns 0 and changes nothing. -/
def Reports (link : Link) (k : Kernel) (size : Word) (res : BitIndexArray) : Prop :=
  Reserved k (kmalloc link k size res).2 (kmalloc link k size res).1 (pageCount size) ∨
    (kmalloc link k size res).1 = 0#64 ∧ (kmalloc link k size res).2.bitmap = k.bitmap ∧
      (kmalloc link k size res).2.tables.mem = k.tables.mem

/-- At most 20 pages, the lowest free ones consecutive, each with a level 2 index
divisible by eight. -/
def Serviceable (bitmap : AllocateMem) (n : Nat) : Prop :=
  n ≤ 20 ∧ ∃ f, bitmap.available.take n = List.range' f n ∧ ∀ i < n, (f + i) / 512 % 8 = 0

section
variable {link : Link}

theorem enterable_of_placed (placed : Placed link) {p : Nat} (hp : p < 131200) :
    Enterable link p := by
  have hlow := placed.low
  have hhigh := placed.high
  have hfits : Fits link p := ⟨by omega, by omega⟩
  have hslot := toNat_l3Slot hfits
  refine ⟨hfits, offRoot_of_le (by omega) (by omega), fun q hq heq => ?_⟩
  rw [heq, toNat_l2Slot hq] at hslot
  omega

theorem enterable_of_available (placed : Placed link) {mem : AllocateMem} {f n i : Nat}
    (hf : f ∈ mem.available) (hn : n ≤ 20) (hi : i < n) : Enterable link (f + i) := by
  have := lt_of_mem_available hf
  exact enterable_of_placed placed (by omega)

theorem Reachable.rooted (placed : Placed link) {t : Tables} (h : Reachable link t) :
    Rooted t := by
  induction h with
  | mmuInit m => exact rooted_mmuInit link _ rfl
  | @kmalloc t bitmap size res _ ih =>
    by_cases enough : pageCount size ≤ bitmap.available.length
    · obtain ⟨f, rest, hfree⟩ := List.exists_cons_of_length_pos
        (Nat.lt_of_lt_of_le (pageCount_pos size) enough)
      have hf : f ∈ bitmap.available := hfree ▸ List.mem_cons_self
      by_cases small : pageCount size ≤ 20
      · have enterable (i : Nat) (hi : i < pageCount size) : Enterable link (f + i) :=
          enterable_of_available placed hf small hi
        rw [kmalloc_mapped (k := ⟨bitmap, t⟩) hfree enough small fun i hi => (enterable i hi).fits]
        exact (ih.prepared link).rangeEntries enterable
      · rw [kmalloc_refused (k := ⟨bitmap, t⟩) hfree enough (Nat.not_le.mp small)]
        exact ih
    · rw [kmalloc_short (k := ⟨bitmap, t⟩) (Nat.not_le.mp enough)]
      exact ih.prepared link
  | addVirtioPage reg _ ih => exact ih.addVirtioPage reg
  | mapUserToPhysical id address _ ih => exact ih.mapUserToPhysical id address
  | mapUserToPhysicalTest id address _ ih => exact ih.mapUserToPhysicalTest id address
  | @store t a v off _ ih =>
    have hload (table slot : Word) (htable : table ∈ hardCodedTables)
        (hslot : ∀ x, Within slot 8 x → Within table 4096 x) :
        load64 (store8 t.mem a v) slot = load64 t.mem slot :=
      load64_congr fun x hx => store8_of_ne fun heq => off table htable (heq ▸ hslot x hx)
    have hl0 := hload l0BasePhys l0BasePhys (by simp [hardCodedTables])
      fun x hx => Nat.lt_of_lt_of_le hx (by decide)
    have hl1 := hload l1BasePhys (l1BasePhys + 24#64)
      (by simp [hardCodedTables]) fun x hx => by
        unfold Within at hx ⊢
        bv_omega
    exact ⟨hl0.trans ih.l0, fun ha => hl1.trans (ih.l1 ha)⟩

private theorem take_of_used {k : Kernel} {size : Word} {res : BitIndexArray} {p : Nat}
    (free : p ∈ k.bitmap.available)
    (used : (kmalloc link k size res).2.bitmap.used p = true) :
    p ∈ k.bitmap.available.take (pageCount size) := by
  rw [kmalloc_bitmap, used_markAll, (mem_available.mp free).2] at used
  simpa using used

theorem mappedBetween_iff (placed : Placed link) {t : Tables} (rooted : Rooted t)
    {f n i : Nat} (enterable : ∀ i < n, Enterable link (f + i)) (small : n ≤ 20) (hi : i < n) :
    MappedBetween t ((prepared link t).store (rangeEntries link f n)) (f + i) ↔
      (f + i) / 512 % 8 = 0 := by
  have hfits := (enterable i hi).fits
  have hlow := placed.low
  have hrooted := (rooted.prepared link).rangeEntries enterable
  have ha : ((prepared link t).store (rangeEntries link f n)).allocated ≠ 0#64 :=
    prepared_allocated link t
  have hl2 := load_l2Slot enterable hi (prepared link t).mem
  have hl3 := load_l3Slot enterable small hi (prepared link t).mem
  obtain ⟨first, hfirst, heap⟩ := prepared_stored link t
  have hstored : ((prepared link t).store (rangeEntries link f n)).stored =
      t.stored ++ (first ++ rangeEntries link f n) := by
    rw [← List.append_assoc, ← hfirst]
    rfl
  have hwalkSlot := toNat_walkSlot hfits
  constructor
  · rintro ⟨leaf, new, hwalk, -, haddress, hnew, hmem⟩
    rw [walk_pageAddress hrooted ha hfits hl2] at hwalk
    obtain ⟨-, hleaf⟩ := Option.ite_none_right_eq_some.mp hwalk
    have hslot : leaf.slot = walkSlot link (f + i) := by rw [← Option.some.inj hleaf]
    rw [hstored, List.append_cancel_left_eq] at hnew
    rw [← hnew, hslot] at hmem
    rcases List.mem_append.mp hmem with hheap | hrange
    · have hat := congrArg (fun e : Word × Word => e.1.toNat) (heap _ hheap)
      change (walkSlot link (f + i)).toNat = 0x80040018 at hat
      omega
    · obtain ⟨j, hj, heq | heq⟩ := mem_rangeEntries.mp hrange
      · have hat := congrArg (fun e : Word × Word => e.1.toNat) heq
        dsimp only at hat
        rw [toNat_l2Slot (enterable j hj).fits.1] at hat
        have := (enterable j hj).fits.1
        omega
      · obtain ⟨hat, hdesc⟩ := Prod.mk.inj heq
        rw [hdesc, address_frame (enterable j hj).fits.1] at haddress
        have hsame := frame_inj (enterable j hj).fits.1 hfits.1 haddress
        rw [hsame] at hat
        exact (walkSlot_eq_l3Slot_iff hfits).mp hat
  · intro hindex
    have hslot := (walkSlot_eq_l3Slot_iff hfits).mpr hindex
    refine ⟨_, _, walk_of_load hrooted ha hfits hl2 (hslot ▸ hl3), rfl,
      address_frame hfits.1, hstored, List.mem_append_right _ ?_⟩
    exact mem_rangeEntries.mpr ⟨i, hi, .inr (by rw [hslot])⟩

theorem reserved_of_serviceable (placed : Placed link) {k : Kernel}
    (reachable : Reachable link k.tables) {size : Word} (res : BitIndexArray)
    (h : Serviceable k.bitmap (pageCount size)) :
    Reserved k (kmalloc link k size res).2 (kmalloc link k size res).1 (pageCount size) := by
  obtain ⟨small, f, htake, hindex⟩ := h
  obtain ⟨m, hm⟩ := Nat.exists_eq_succ_of_ne_zero (Nat.ne_of_gt (pageCount_pos size))
  have hmem (i : Nat) (hi : i < pageCount size) :
      f + i ∈ k.bitmap.available.take (pageCount size) := by
    rw [htake, List.mem_range']
    exact ⟨i, hi, by omega⟩
  have enough : pageCount size ≤ k.bitmap.available.length := by
    have hlength := congrArg List.length htake
    rw [List.length_take, List.length_range'] at hlength
    omega
  obtain ⟨g, rest, hfree⟩ := List.exists_cons_of_length_pos
    (Nat.lt_of_lt_of_le (pageCount_pos size) enough)
  have hg : g = f := by
    rw [hfree, hm, List.take_succ_cons, List.range'_succ] at htake
    exact (List.cons.inj htake).1
  subst hg
  have hf : g ∈ k.bitmap.available := hfree ▸ List.mem_cons_self
  have enterable (i : Nat) (hi : i < pageCount size) : Enterable link (g + i) :=
    enterable_of_available placed hf small hi
  refine ⟨g, (kmalloc_of_available hfree link size res).1, fun i hi => ⟨?_, ?_, ?_⟩⟩
  · exact List.mem_of_mem_take (hmem i hi)
  · rw [kmalloc_bitmap, used_markAll, decide_eq_true (hmem i hi), Bool.or_true]
  · rw [kmalloc_mapped hfree enough small fun i hi => (enterable i hi).fits]
    exact (mappedBetween_iff placed (reachable.rooted placed) enterable small hi).mpr
      (hindex i hi)

theorem serviceable_of_reserved (placed : Placed link) {k : Kernel}
    (reachable : Reachable link k.tables) {size : Word} {res : BitIndexArray}
    (h : Reserved k (kmalloc link k size res).2 (kmalloc link k size res).1 (pageCount size)) :
    Serviceable k.bitmap (pageCount size) := by
  obtain ⟨p, hva, hpages⟩ := h
  have hcount := pageCount_pos size
  obtain ⟨g, rest, hfree⟩ := List.exists_cons_of_length_pos
    (List.length_pos_of_mem (hpages 0 hcount).1)
  have hg : g ∈ k.bitmap.available := hfree ▸ List.mem_cons_self
  have hp : p = g := by
    have hlow := lt_of_mem_available (hpages 0 hcount).1
    have hlow' := lt_of_mem_available hg
    rw [(kmalloc_of_available hfree link size res).1] at hva
    exact (pageAddress_inj (by omega) (by omega) hva).symm
  subst hp
  have htake := take_eq_range (available_pairwise k.bitmap) (n := pageCount size) (f := p)
    fun i hi => take_of_used (hpages i hi).1 (hpages i hi).2.1
  have enough : pageCount size ≤ k.bitmap.available.length := by
    have hlength := congrArg List.length htake
    rw [List.length_take, List.length_range'] at hlength
    omega
  have small : pageCount size ≤ 20 := by
    refine Nat.le_of_not_lt fun large => ?_
    obtain ⟨leaf, new, -, -, -, hnew, hmem⟩ := (hpages 0 hcount).2.2
    rw [kmalloc_refused hfree enough large] at hnew
    rw [List.self_eq_append_right.mp hnew] at hmem
    exact absurd hmem List.not_mem_nil
  have enterable (i : Nat) (hi : i < pageCount size) : Enterable link (p + i) :=
    enterable_of_available placed hg small hi
  refine ⟨small, p, htake, fun i hi => ?_⟩
  have hmapped := (hpages i hi).2.2
  rw [kmalloc_mapped hfree enough small fun i hi => (enterable i hi).fits] at hmapped
  exact (mappedBetween_iff placed (reachable.rooted placed) enterable small hi).mp hmapped

theorem kmalloc_ne_zero (link : Symbols) (k : Kernel) (size : Word) (res : BitIndexArray) :
    (kmalloc link k size res).1 ≠ 0#64 := by
  have hva : ∃ pa, (kmalloc link k size res).1 = pa ||| highMask := ⟨_, rfl⟩
  obtain ⟨pa, hva⟩ := hva
  rw [hva, ne_eq, BitVec.or_eq_zero_iff]
  exact fun h => absurd h.2 (by decide)

private theorem reports_iff_reserved (link : Link) (k : Kernel) (size : Word)
    (res : BitIndexArray) :
    Reports link k size res ↔
      Reserved k (kmalloc link k size res).2 (kmalloc link k size res).1 (pageCount size) :=
  or_iff_left fun h => kmalloc_ne_zero link k size res h.1

/-- `kmalloc` reserves and maps what it returns, or reports failure, exactly for the
serviceable requests. -/
theorem kmalloc_reports_iff_serviceable (placed : Placed link) (k : Kernel)
    (reachable : Reachable link k.tables) (size : Word) (res : BitIndexArray) :
    Reports link k size res ↔ Serviceable k.bitmap (pageCount size) := by
  rw [reports_iff_reserved]
  exact ⟨serviceable_of_reserved placed reachable, reserved_of_serviceable placed reachable res⟩

end

theorem placedImage : Placed imageLink := ⟨by decide, by decide⟩

def boot : Kernel := ⟨.empty, mmuInit imageLink ⟨fun _ => 0#8, 0#64, []⟩⟩

theorem kmalloc_not_reports_past_20_pages :
    Reachable imageLink boot.tables ∧
      ¬ Reports imageLink boot 86016#64 fun _ => ⟨0#64, 0#8, false⟩ := by
  have reachable : Reachable imageLink boot.tables := .mmuInit _
  refine ⟨reachable, fun reports => ?_⟩
  have small := (serviceable_of_reserved placedImage reachable
    ((reports_iff_reserved _ _ _ _).mp reports)).1
  have hcount : pageCount 86016#64 = 21 := by simp [pageCount]
  omega

def running : Kernel :=
  ⟨(kmalloc imageLink boot 81920#64 fun _ => ⟨0#64, 0#8, false⟩).2.bitmap,
    mapUserToPhysicalTest (addVirtioPage
      (kmalloc imageLink boot 81920#64 fun _ => ⟨0#64, 0#8, false⟩).2.tables 0xA000000#64)
      2#64 0xC0001000#64⟩

theorem available_running : running.bitmap.available = List.range' 20 131068 := by
  have htwenty : pageCount 81920#64 = 20 := by simp [pageCount]
  rw [running, kmalloc_bitmap, available_markAll_take, htwenty,
    show boot.bitmap = .empty from rfl, available_empty, scanned_eq, List.range_eq_range',
    List.drop_range']

theorem kmalloc_reports_ten_pages :
    Reports imageLink running 40960#64 fun _ => ⟨0#64, 0#8, false⟩ := by
  have reachable : Reachable imageLink running.tables :=
    .mapUserToPhysicalTest _ _ (.addVirtioPage _ (.kmalloc .empty _ _ (.mmuInit _)))
  refine (kmalloc_reports_iff_serviceable placedImage running reachable _ _).mpr ?_
  have hten : pageCount 40960#64 = 10 := by simp [pageCount]
  rw [hten, Serviceable, available_running, List.take_range'_of_length_ge (by decide)]
  refine ⟨by decide, 20, rfl, fun i hi => ?_⟩
  omega

end KernelFuzzing.Mmu.Exhaustion
