import KernelFuzzing.Mmu.HeapMemory
import KernelFuzzing.Mmu.Isolation
import KernelFuzzing.Mmu.UserMapping

/-! What a program reaches at EL0: through the upper half of the addresses by way of the
kernel's tables, through the lower half by way of its own. -/
namespace KernelFuzzing.Mmu.UserAccess
open Foundation Memory HeapMemory UserTables
open Translation (Heap Request)

def rootOf (p : Process) (va : Word) : Option Word :=
  if va.toNat / 2 ^ 48 = 0xFFFF then some l0BasePhys
  else if va.toNat / 2 ^ 48 = 0 then some (p.table 3)
  else none

/-- The physical address of an access that the process makes, `none` where it faults. -/
def reach (t : State) (p : Process) (va : Word) : Option Word :=
  (rootOf p va).bind fun root => PageWalk.userTranslate t.heap.kernel.tables.mem root va

/-- In the upper half every process reaches the ranges that `kmalloc` returned, whoever
they were for, and nothing else; in the lower half, pages asked for in its own name. -/
structure Exposed (t : State) (p : Process) : Prop where
  upper : ∀ va pa, va.toNat / 2 ^ 48 = 0xFFFF →
    (reach t p va = some pa ↔ Allocated t.heap va ∧ pa = va &&& lowMask)
  lower : ∀ va pa, va.toNat / 2 ^ 48 ≠ 0xFFFF → reach t p va = some pa →
    ∃ c ∈ t.calls, c.process = p ∧ ∃ a ∈ c.pages, pageOf pa = pageOf a

theorem permits_makeTableDesc {x : Word} (h : x.toNat < 2 ^ 48) :
    (makeTableDesc x).getLsbD 61 = false := by
  have hdesc := toNat_makeTableDesc x
  exact Nat.testBit_lt_two_pow (Nat.lt_of_lt_of_le (by omega) (by decide : 2 ^ 49 ≤ 2 ^ 61))

theorem permits_makeL3BlockDesc (x : Word) : (makeL3BlockDesc x).getLsbD 6 = true := by
  have hdesc := toNat_makeL3BlockDesc x
  rw [BitVec.getLsbD, Nat.testBit_eq_decide_div_mod_eq, decide_eq_true_eq]
  omega

theorem permits_makeBlockDesc (x : Word) : (makeBlockDesc x).getLsbD 6 = false := by
  have hdesc := toNat_makeBlockDesc x
  rw [BitVec.getLsbD, Nat.testBit_eq_decide_div_mod_eq, decide_eq_false_iff_not]
  omega

structure Bare (link : Link) (s : Heap) : Prop where
  allocated : s.pages = 0 → s.kernel.tables.allocated = 0#64
  l1 : s.pages = 0 → load64 s.kernel.tables.mem heapEntry.1 = 0#64
  l2 : ∀ i, 0 < i → i < 512 → load64 s.kernel.tables.mem (l2Slot (512 * i)) = 0#64
  l3 : 0 < s.pages → ∀ q, s.pages ≤ q → q < 512 →
    load64 s.kernel.tables.mem (l3Slot link q) = 0#64

section
variable {link : Link} {s : Heap}

theorem zeroFill_of_within (link : Link) (m : Memory) {x : Word}
    (h : Within (BitVec.ofNat 64 link.start) (512 * 10) x) :
    mapPagetableEntry.zeroFill link m x = 0#8 := by
  have hfits : link.start + 512 * 10 ≤ 2 ^ 48 := link.fits
  have hstart : link.start = link.blockL2MemoryStart.toNat % 2 ^ 48 := toNat_lowMask _
  have hx := (within_iff (by rw [BitVec.toNat_ofNat]; omega)).mp h
  rw [BitVec.toNat_ofNat, Nat.mod_eq_of_lt (by omega)] at hx
  have hat (i : Nat) (hi : i < 512 * 10) :
      ((link.blockL2MemoryStart + BitVec.ofNat 64 i) &&& lowMask).toNat = link.start + i := by
    rw [toNat_lowMask, BitVec.toNat_add, BitVec.toNat_ofNat]
    omega
  have filled (n : Nat) (hn : n ≤ 512 * 10) (hlt : x.toNat < link.start + n) :
      (List.range n).foldl (fun mem i =>
        store8 mem ((link.blockL2MemoryStart + BitVec.ofNat 64 i) &&& lowMask) 0#8) m x = 0#8 := by
    induction n with
    | zero => omega
    | succ n ih =>
      rw [List.range_succ, List.foldl_append, List.foldl_cons, List.foldl_nil, store8]
      split
      · rfl
      · rename_i hne
        apply ih (by omega)
        have hn := hat n (by omega)
        have hnat : x.toNat ≠ link.start + n := fun heq =>
          hne (BitVec.eq_of_toNat_eq (heq.trans hn.symm))
        omega
  exact filled (512 * 10) (Nat.le_refl _) (by omega)

private theorem apart_hardCoded (link : Link) {table : Word} (htable : table ∈ hardCodedTables)
    (high : table.toNat + 4096 ≤ 2 ^ 48) :
    Apart (BitVec.ofNat 64 link.start) (512 * 10) table 4096 := by
  have hfits : link.start + 512 * 10 ≤ 2 ^ 48 := link.fits
  have hstart : (BitVec.ofNat 64 link.start).toNat = link.start := by
    rw [BitVec.toNat_ofNat]
    omega
  have hapart : link.start + 512 * 10 ≤ table.toNat ∨ table.toNat + 4096 ≤ link.start :=
    link.apart table htable
  rcases hapart with below | above
  · exact apart_of_le (by omega) (by omega)
  · exact (apart_of_le (by omega) (by omega)).symm

private theorem within_l3Slot (link : Link) {q : Nat} (hq : q < 512) {x : Word}
    (hx : Within (l3Slot link q) 8 x) : Within (BitVec.ofNat 64 link.start) (512 * 10) x := by
  have hfits : link.start + 512 * 10 ≤ 2 ^ 48 := link.fits
  have hstart : (BitVec.ofNat 64 link.start).toNat = link.start := by
    rw [BitVec.toNat_ofNat]
    omega
  have hslot := toNat_l3Slot (Translation.enterable_of_lt link (p := q) (by omega)).fits
  rw [within_iff (by omega)] at hx ⊢
  omega

private theorem within_l2Slot {q : Nat} (hq : q < 2 ^ 18) {x : Word} (hx : Within (l2Slot q) 8 x) :
    Within l2Index3BasePhys 4096 x := by
  have hslot := toNat_l2Slot hq
  have htable : l2Index3BasePhys.toNat = 0x80080000 := rfl
  rw [within_iff (by omega)] at hx ⊢
  omega

private theorem l3Index0_pointer :
    BitVec.ofNat 64 (l3Index0BasePhys.toNat % 2 ^ 48) = l3Index0BasePhys := by decide

theorem load_l3Slot_prepared (link : Link) {t : Tables} (first : t.allocated = 0#64) {q : Nat}
    (hq : q < 512) : load64 (prepared link t).mem (l3Slot link q) = 0#64 := by
  have hoff := (Translation.enterable_of_lt link (p := q) (by omega)).offRoot.2
  have hclear : Apart (BitVec.ofNat 64 (l3Index0BasePhys.toNat % 2 ^ 48)) 4096
      (l3Slot link q) 8 := by
    rw [l3Index0_pointer]
    exact fun x hx hin => apart_hardCoded link (by simp [hardCodedTables]) (by decide) x
      (within_l3Slot link hq hin) hx
  have hzero : load64 (mapPagetableEntry.zeroFill link t.mem) (l3Slot link q) =
      load64 (fun _ => 0#8) (l3Slot link q) :=
    load64_congr fun x hx => zeroFill_of_within link t.mem (within_l3Slot link hq hx)
  rw [prepared, if_pos first, first_mem, load64_store64_apart hoff.symm,
    load64_clearTable _ (by decide) hclear, hzero]
  simp only [load64]
  decide

theorem load_l2Slot_prepared (link : Link) (t : Tables) {q : Nat} (hq : q < 2 ^ 18) :
    load64 (prepared link t).mem (l2Slot q) = load64 t.mem (l2Slot q) := by
  have hslot := toNat_l2Slot hq
  unfold prepared
  split
  · have hentry : Apart (l1BasePhys + 24#64) 8 (l2Slot q) 8 := by
      have haddr : (l1BasePhys + 24#64).toNat = 0x80040018 := rfl
      exact apart_of_le (by omega) (by omega)
    have hclear : Apart (BitVec.ofNat 64 (l3Index0BasePhys.toNat % 2 ^ 48)) 4096
        (l2Slot q) 8 := by
      have haddr : l3Index0BasePhys.toNat = 0x800C0000 := rfl
      rw [l3Index0_pointer]
      exact (apart_of_le (by omega) (by omega)).symm
    have hfill : Apart (BitVec.ofNat 64 link.start) (512 * 10) (l2Slot q) 8 := fun x hx hin =>
      apart_hardCoded link (by simp [hardCodedTables]) (by decide) x hx (within_l2Slot hq hin)
    have hfits : link.start + 512 * 10 ≤ 2 ^ 48 := link.fits
    rw [first_mem, load64_store64_apart hentry, load64_clearTable _ (by decide) hclear,
      load64_zeroFill hfits _ hfill]
  · rfl

theorem bare_kmalloc (inv : Translation.Inv link s) (h : Bare link s) {r : Request}
    (small : pageCount r.size ≤ 20) (few : s.pages + pageCount r.size ≤ 512) :
    Bare link (Translation.step link s r) := by
  have hscanned := scanned_eq
  have hcount := pageCount_pos r.size
  have hpages := Translation.pages_step link s r
  obtain ⟨-, htables⟩ := Translation.step_eq inv (r := r) ⟨small, by omega⟩
  have enterable (i : Nat) (hi : i < pageCount r.size) : Enterable link (s.pages + i) :=
    Translation.enterable_of_lt link (by omega)
  constructor
  · omega
  · omega
  · intro i hpos hi
    have hslot := toNat_l2Slot (p := 512 * i) (by omega)
    rw [htables]
    refine (load64_storeAll_apart fun w hw => ?_).trans
      ((load_l2Slot_prepared link _ (by omega)).trans (h.l2 i hpos hi))
    obtain ⟨j, hj, rfl | rfl⟩ := mem_rangeEntries.mp hw
    · have hfirst := toNat_l2Slot (p := s.pages + j) (by omega)
      exact apart_of_le (by dsimp only; omega) (by omega)
    · exact apart_of_aligned (l3Slot_aligned (enterable j hj).fits) (by omega)
        ((enterable j hj).offL2 (512 * i) (by omega))
  · intro _ q hle hq
    rw [hpages] at hle
    have hother (i : Nat) (hi : i < pageCount r.size) :
        l3Slot link (s.pages + i) ≠ l3Slot link q := fun heq => by
      have hnat := congrArg BitVec.toNat heq
      rw [toNat_l3Slot (enterable i hi).fits,
        toNat_l3Slot (Translation.enterable_of_lt link (p := q) (by omega)).fits] at hnat
      omega
    rw [htables]
    refine (load_l3Slot_of_ne enterable (Translation.enterable_of_lt link (by omega)) hother
      _).trans ?_
    by_cases hnone : s.pages = 0
    · exact load_l3Slot_prepared link (h.allocated hnone) hq
    · rw [prepared_of_allocated (inv.table (by omega)).1]
      exact h.l3 (by omega) q (by omega) hq

theorem bare_boot (link : Link) (m : Memory) : Bare link (Translation.boot link m) where
  allocated _ := by
    change (mmuInit link ⟨m, 0#64, []⟩).allocated = 0#64
    rw [Windows.mmuInit_eq]
    rfl
  l1 _ := by
    have hindex : PageWalk.index 2 (pageAddress 0) = 3 := by decide
    have hslot : PageWalk.slot 2 (pageAddress 0) (Windows.tables 2) = heapEntry.1 := by decide
    rcases Windows.descAt_boot_two link .empty m (pageAddress 0) with ⟨htwo, -⟩ | ⟨-, hdesc⟩
    · exact absurd (htwo.symm.trans hindex) (by decide)
    · rw [PageWalk.descAt, hslot] at hdesc
      exact hdesc
  l2 i hpos hi := by
    have hslot := toNat_l2Slot (p := 512 * i) (by omega)
    have hclear : Apart (BitVec.ofNat 64 (l3Index0BasePhys.toNat % 2 ^ 48)) 4096
        (l2Slot (512 * i)) 8 := by
      have haddr : l3Index0BasePhys.toNat = 0x800C0000 := rfl
      rw [l3Index0_pointer]
      exact (apart_of_le (by omega) (by omega)).symm
    have hindex : PageWalk.index 1 (BitVec.ofNat 64 (2 ^ 21 * i)) = i := by
      rw [PageWalk.index, BitVec.toNat_ofNat]
      omega
    have hentry : PageWalk.slot 1 (BitVec.ofNat 64 (2 ^ 21 * i)) l2Index3BasePhys =
        l2Slot (512 * i) := by
      have htable : l2Index3BasePhys.toNat = 0x80080000 := rfl
      apply BitVec.eq_of_toNat_eq
      rw [PageWalk.slot_toNat (by omega), hindex, hslot]
      omega
    change load64 (mmuInit link ⟨m, 0#64, []⟩).mem _ = 0#64
    rw [Windows.mmuInit_eq]
    refine (load64_storeAll_apart fun w hw => ?_).trans ?_
    · obtain ⟨d, -, rfl⟩ := List.mem_map.mp hw
      have hat := Windows.toNat_slot d.1 d.2.1
      have htable := Windows.tables_le d.1
      have hlt := PageWalk.index_lt d.1 d.2.1
      exact apart_of_le (by rw [Windows.entry]; dsimp only; omega) (by omega)
    · unfold Windows.cleared
      rw [load64_clearTable _ (by decide) hclear, ← hentry]
      exact load64_clearTable_slot _ (by decide) (by decide) 1 _
  l3 h := absurd h (by simp [Translation.boot, Translation.Heap.pages])

theorem heap_slots (link : Link) {va : Word} (h3 : PageWalk.index 3 va = 0)
    (h2 : PageWalk.index 2 va = 3) :
    PageWalk.slot 3 va l0BasePhys = l0BasePhys ∧
      PageWalk.slot 2 va l1BasePhys = l1BasePhys + 24#64 ∧
      PageWalk.slot 1 va l2Index3BasePhys = l2Slot (512 * PageWalk.index 1 va) ∧
      PageWalk.slot 0 va (PageWalk.address (makeTableDesc (l3Table link 0))) =
        l3Slot link (PageWalk.index 0 va) := by
  have h1lt := PageWalk.index_lt 1 va
  have h0lt := PageWalk.index_lt 0 va
  have haligned : link.start % 4096 = 0 := link.aligned
  have hfits : link.start + 512 * 10 ≤ 2 ^ 48 := link.fits
  have hl0 : l0BasePhys.toNat = 0x80020000 := rfl
  have hl1 : l1BasePhys.toNat = 0x80040000 := rfl
  have hl1' : (l1BasePhys + 24#64).toNat = 0x80040018 := rfl
  have hl2 : l2Index3BasePhys.toNat = 0x80080000 := rfl
  have hl2Slot := toNat_l2Slot (p := 512 * PageWalk.index 1 va) (by omega)
  have hfirst := toNat_l3Table (Translation.enterable_of_lt link (p := 0) (by decide)).fits
  have htable := toNat_address_makeTableDesc (x := l3Table link 0) (by omega)
  have hl3Slot := toNat_l3Slot
    (Translation.enterable_of_lt link (p := PageWalk.index 0 va) (by omega)).fits
  refine ⟨?_, ?_, ?_, ?_⟩
  all_goals
    apply BitVec.eq_of_toNat_eq
    rw [PageWalk.slot_toNat (by omega)]
    omega

theorem userFrom_heap (inv : Translation.Inv link s) (bare : Bare link s) {va : Word}
    (h3 : PageWalk.index 3 va = 0) (h2 : PageWalk.index 2 va = 3) :
    PageWalk.userFrom s.kernel.tables.mem va 3 l0BasePhys =
      if PageWalk.index 1 va = 0 ∧ PageWalk.index 0 va < s.pages then
        some ⟨3, l3Slot link (PageWalk.index 0 va), makeL3BlockDesc (frame (PageWalk.index 0 va))⟩
      else none := by
  obtain ⟨hs3, hs2, hs1, hs0⟩ := heap_slots link h3 h2
  have ha2 : PageWalk.address (makeTableDesc l1BasePhys) = l1BasePhys := by decide
  have ha1 : PageWalk.address (makeTableDesc l2Index3BasePhys) = l2Index3BasePhys := by decide
  have hnone : (0#64).getLsbD 0 ≠ true := by decide
  have table {below : Nat} {at' next : Word}
      (hload : load64 s.kernel.tables.mem (PageWalk.slot (below + 1) va at') = makeTableDesc next)
      (hsmall : next.toNat < 2 ^ 48) :
      PageWalk.userFrom s.kernel.tables.mem va (below + 1) at' =
        PageWalk.userFrom s.kernel.tables.mem va below (PageWalk.address (makeTableDesc next)) :=
    PageWalk.userFrom_table hload (getLsbD_makeTableDesc _ (by decide))
      (getLsbD_makeTableDesc _ (by decide)) (permits_makeTableDesc hsmall)
  rw [table (hs3.symm ▸ inv.rooted.l0) (by decide), ha2]
  by_cases hempty : s.pages = 0
  · rw [if_neg (by omega)]
    apply PageWalk.userFrom_invalid
    rw [hs2]
    exact bare.l1 hempty ▸ hnone
  · obtain ⟨hallocated, hl2⟩ := inv.table (by omega)
    rw [table (hs2.symm ▸ inv.rooted.l1 hallocated) (by decide), ha1]
    by_cases hi1 : PageWalk.index 1 va = 0
    · have hfirst := toNat_l3Table (Translation.enterable_of_lt link (p := 0) (by decide)).fits
      have hfits : link.start + 512 * 10 ≤ 2 ^ 48 := link.fits
      rw [hi1, Nat.mul_zero] at hs1
      rw [table (hs1.symm ▸ hl2) (by omega)]
      by_cases hlt : PageWalk.index 0 va < s.pages
      · rw [if_pos ⟨hi1, hlt⟩, PageWalk.userFrom_page (hs0.symm ▸ inv.entries _ hlt)
          ⟨getLsbD_makeL3BlockDesc _ (by decide), getLsbD_makeL3BlockDesc _ (by decide),
            permits_makeL3BlockDesc _⟩, hs0]
      · rw [if_neg fun h => hlt h.2]
        apply PageWalk.userFrom_invalid
        rw [hs0]
        exact bare.l3 (by omega) _ (by omega) (PageWalk.index_lt 0 va) ▸ hnone
    · rw [if_neg fun h => hi1 h.1]
      apply PageWalk.userFrom_invalid
      rw [hs1]
      exact bare.l2 _ (by omega) (PageWalk.index_lt 1 va) ▸ hnone

def Covers (s : Heap) : Prop :=
  ∀ q < s.pages, ∃ range ∈ s.returned, ∃ f, range.1 = pageAddress f ∧ f ≤ q ∧ q < f + range.2

theorem covers_kmalloc (inv : Translation.Inv link s) (h : Covers s) {r : Request}
    (small : pageCount r.size ≤ 20) (few : s.pages + pageCount r.size ≤ 512) :
    Covers (Translation.step link s r) := by
  have hscanned := scanned_eq
  obtain ⟨haddress, -⟩ := Translation.step_eq inv (r := r) ⟨small, by omega⟩
  intro q hq
  rw [Translation.pages_step] at hq
  by_cases hold : q < s.pages
  · obtain ⟨range, hrange, hin⟩ := h q hold
    exact ⟨range, List.mem_append_left _ hrange, hin⟩
  · exact ⟨_, List.mem_append_right _ (List.mem_singleton_self _), s.pages, haddress, by omega, hq⟩

theorem allocated_iff (inv : Translation.Inv link s) (covers : Covers s) {va : Word} :
    Allocated s va ↔ ∃ p < s.pages, ∃ off < 4096, va = byteAddress p off := by
  constructor
  · exact exists_byte inv
  · rintro ⟨p, hp, off, hoff, rfl⟩
    have hfew := inv.few
    obtain ⟨range, hrange, f, hf, hle, hlt⟩ := covers p hp
    obtain ⟨g, hg, hroom⟩ := inv.ranges range hrange
    have hpage := toNat_pageAddress (p := f) (by omega)
    have hpage' := toNat_pageAddress (p := g) (by omega)
    have hbyte := toNat_byteAddress (p := p) (by omega) hoff
    have hsame := congrArg BitVec.toNat (hf.symm.trans hg)
    refine ⟨range, hrange, ?_⟩
    rw [hf, within_iff (by omega)]
    omega

/-- The memory that is read on the way, and where it comes from. -/
structure Inv (link : Link) (m : Memory) (t : State) : Prop where
  heap : HeapMemory.Inv link t
  bare : Bare link t.heap
  covers : Covers t.heap
  kept : ∀ x, Windows.Kept x →
    t.heap.kernel.tables.mem x = (Windows.boot link .empty m).tables.mem x
  users : ∀ x : Word, 0x80A00000 ≤ x.toNat → x.toNat < 0xC0000000 →
    t.heap.kernel.tables.mem x =
      (Run.run UserTables.step (mmuInit link ⟨m, 0#64, []⟩) t.calls).mem x

theorem bare_withTables (inv : Translation.Inv link s) (near : Windows.InFirstWindow link)
    (h : Bare link s) {t : Tables} (allocated : t.allocated = s.kernel.tables.allocated)
    (same : ∀ x : Word, x.toNat < 0x80A00000 → t.mem x = s.kernel.tables.mem x) :
    Bare link (withTables s t) := by
  have hhigh := near.high
  have hfew := inv.few
  have hload (a : Word) (ha : a.toNat + 8 ≤ 0x80A00000) :
      load64 t.mem a = load64 s.kernel.tables.mem a := by
    apply load64_congr
    intro x hx
    have hat := (within_iff (by omega)).mp hx
    exact same x (by omega)
  exact {
    allocated := fun hnone => allocated.trans (h.allocated hnone)
    l1 := fun hnone => (hload _ (by decide)).trans (h.l1 hnone)
    l2 := fun i hpos hi => by
      have hslot := toNat_l2Slot (p := 512 * i) (by omega)
      exact (hload _ (by omega)).trans (h.l2 i hpos hi)
    l3 := fun hsome q hle hq => by
      have hslot := toNat_l3Slot (Translation.enterable_of_lt link (p := q) (by omega)).fits
      exact (hload _ (by omega)).trans (h.l3 hsome q hle hq) }

theorem inv_boot (link : Link) (m : Memory) : Inv link m (boot link m) where
  heap := HeapMemory.inv_boot link m
  bare := bare_boot link m
  covers q hq := absurd hq (Nat.not_lt_zero q)
  kept _ _ := rfl
  users _ _ _ := rfl

theorem inv_step (near : Windows.InFirstWindow link) {m : Memory} {t : State}
    (h : Inv link m t) {e : Event} (legal : Legal t e) : Inv link m (step link t e) := by
  have hheap := HeapMemory.inv_step near h.heap legal
  cases e with
  | kmalloc r =>
    exact {
      heap := hheap
      bare := bare_kmalloc h.heap.tables h.bare legal.1 legal.2
      covers := covers_kmalloc h.heap.tables h.covers legal.1 legal.2
      kept := fun x hx => (Windows.kmalloc_kept near _ r.size r.res hx).trans (h.kept x hx)
      users := fun x hlow hhigh =>
        (kmalloc_high near _ r.size r.res hlow).trans (h.users x hlow hhigh) }
  | store va v =>
    obtain ⟨p, hp, off, hoff, rfl⟩ := exists_byte h.heap.tables legal
    have hfew := h.heap.tables.few
    have hframe := toNat_byteFrame (p := p) (by omega) hoff
    have hmem (x : Word) (hx : x.toNat < 0xC0000000) :
        store8 t.heap.kernel.tables.mem (byteFrame p off) v x = t.heap.kernel.tables.mem x := by
      apply store8_of_ne
      rintro rfl
      omega
    rw [step_store h.heap hp hoff] at hheap ⊢
    exact {
      heap := hheap
      bare := bare_withTables h.heap.tables near h.bare (by exact rfl)
        fun x hx => hmem x (by omega)
      covers := h.covers
      kept := fun x hx => (hmem x (Nat.lt_trans hx.1 (by decide))).trans (h.kept x hx)
      users := fun x hlow hhigh => (hmem x hhigh).trans (h.users x hlow hhigh) }
  | map c =>
    exact {
      heap := hheap
      bare := by
        apply bare_withTables h.heap.tables near h.bare
        · rw [UserTables.step_eq]
          rfl
        · exact fun x hx => map_mem _ c (.inl hx)
      covers := h.covers
      kept := fun x hx =>
        (map_mem _ c (.inl (Nat.lt_trans hx.1 (by decide)))).trans (h.kept x hx)
      users := fun x hlow hhigh => by
        have hold := h.users x hlow hhigh
        generalize mmuInit link ⟨m, 0#64, []⟩ = t0 at hold ⊢
        dsimp only [HeapMemory.step, withTables]
        rw [Run.run_append, Run.run_cons, Run.run_nil, UserTables.step_eq, UserTables.step_eq]
        dsimp only [Tables.store]
        exact storeAll_congr _ hold }

theorem userFrom_windows (near : Windows.InFirstWindow link) {m : Memory} {t : State}
    (h : Inv link m t) {va : Word} (hva : PageWalk.index 2 va ≠ 3) :
    PageWalk.userFrom t.heap.kernel.tables.mem va 3 l0BasePhys = none := by
  have hsame : PageWalk.walk t.heap.kernel.tables.mem l0BasePhys va =
      PageWalk.walk (Windows.boot link .empty m).tables.mem l0BasePhys va := by
    have hdesc (below : Nat) (hbelow : below ≤ 3) :
        PageWalk.descAt (Windows.boot link .empty m).tables.mem Windows.tables va below =
          PageWalk.descAt t.heap.kernel.tables.mem Windows.tables va below :=
      load64_congr fun x hx => (h.kept x (Windows.kept_of_within_slot hva hbelow hx)).symm
    exact (PageWalk.walkFrom_congr (Windows.chained_boot link .empty m va) hdesc (le_refl 3)).symm
  cases hleaf : PageWalk.userFrom t.heap.kernel.tables.mem va 3 l0BasePhys with
  | none => rfl
  | some leaf =>
    obtain ⟨hwalk, hpermits⟩ := PageWalk.walkFrom_of_userFrom hleaf
    have hboot := hsame.symm.trans hwalk
    by_cases hin : ∃ w ∈ Windows.windows,
        w.1 ≤ va.toNat % 2 ^ 48 ∧ va.toNat % 2 ^ 48 < w.1 + 2 ^ 21
    · obtain ⟨w, hw, hin⟩ := hin
      obtain ⟨pa, -, -, hblock⟩ := Windows.walk_boot_window near .empty m hw hin
      rw [hblock, Option.some.injEq] at hboot
      rw [← hboot, permits_makeBlockDesc] at hpermits
      exact absurd hpermits Bool.false_ne_true
    · rw [Windows.walk_boot_none near .empty m fun w hw h => hin ⟨w, hw, h⟩] at hboot
      exact absurd hboot (by simp)

theorem userFrom_root {m : Memory} {t : State} (h : Inv link m t) {va : Word}
    (hva : PageWalk.index 3 va ≠ 0) :
    PageWalk.userFrom t.heap.kernel.tables.mem va 3 l0BasePhys = none := by
  have hindex := PageWalk.index_lt 3 va
  have hl0 : l0BasePhys.toNat = 0x80020000 := rfl
  have hslot : (PageWalk.slot 3 va l0BasePhys).toNat = _ := PageWalk.slot_toNat (by omega)
  have hload : load64 t.heap.kernel.tables.mem (PageWalk.slot 3 va l0BasePhys) =
      PageWalk.descAt (Windows.boot link .empty m).tables.mem Windows.tables va 3 := by
    apply load64_congr
    intro x hx
    have hentry : heapEntry.1.toNat = 0x80040018 := rfl
    have hat := (within_iff (by omega)).mp hx
    refine h.kept x ⟨by omega, fun hin => ?_⟩
    have hin := (within_iff (by omega)).mp hin
    omega
  apply PageWalk.userFrom_invalid
  rw [hload]
  rcases Windows.descAt_boot_three link .empty m va with ⟨hzero, -⟩ | ⟨-, hdesc⟩
  · exact absurd hzero hva
  · rw [hdesc]
    decide

theorem index_byteAddress_eq {p off : Nat} (hp : p < 512) (hoff : off < 4096) :
    PageWalk.index 3 (byteAddress p off) = 0 ∧ PageWalk.index 2 (byteAddress p off) = 3 ∧
      PageWalk.index 1 (byteAddress p off) = 0 ∧ PageWalk.index 0 (byteAddress p off) = p := by
  have hbyte := toNat_byteAddress hp hoff
  simp only [PageWalk.index, hbyte, Nat.reduceMul, Nat.reduceAdd, Nat.reducePow]
  omega

theorem eq_byteAddress {va : Word} (hva : va.toNat / 2 ^ 48 = 0xFFFF)
    (h3 : PageWalk.index 3 va = 0) (h2 : PageWalk.index 2 va = 3) (h1 : PageWalk.index 1 va = 0) :
    va = byteAddress (PageWalk.index 0 va) (va.toNat % 4096) := by
  have h0 := PageWalk.index_lt 0 va
  apply BitVec.eq_of_toNat_eq
  rw [toNat_byteAddress h0 (by omega)]
  unfold PageWalk.index at *
  omega

theorem upper_of_inv (near : Windows.InFirstWindow link) {m : Memory} {t : State}
    (h : Inv link m t) (p : Process) {va pa : Word} (hva : va.toNat / 2 ^ 48 = 0xFFFF) :
    reach t p va = some pa ↔ Allocated t.heap va ∧ pa = va &&& lowMask := by
  have inv := h.heap.tables
  have hfew := inv.few
  have hreach : reach t p va = (PageWalk.userFrom t.heap.kernel.tables.mem va 3 l0BasePhys).map
      fun leaf => leaf.output va := by
    rw [reach, rootOf, if_pos hva]
    rfl
  rw [hreach, allocated_iff inv h.covers]
  constructor
  · intro hsome
    by_cases h3 : PageWalk.index 3 va = 0
    · by_cases h2 : PageWalk.index 2 va = 3
      · rw [userFrom_heap inv h.bare h3 h2] at hsome
        split at hsome
        next hpage =>
          have hoff : va.toNat % 4096 < 4096 := Nat.mod_lt _ (by decide)
          have heq := eq_byteAddress hva h3 h2 hpage.1
          refine ⟨⟨_, hpage.2, _, hoff, heq⟩, ?_⟩
          generalize PageWalk.index 0 va = q at hsome hpage heq
          generalize va.toNat % 4096 = off at hoff heq
          rw [heq, Option.map_some, output_byteAddress _ (by omega) hoff,
            Option.some.injEq] at hsome
          rw [← hsome, heq, byteAddress_and_lowMask (by omega) hoff]
        next => exact absurd hsome (by simp)
      · rw [userFrom_windows near h h2] at hsome
        exact absurd hsome (by simp)
    · rw [userFrom_root h h3] at hsome
      exact absurd hsome (by simp)
  · rintro ⟨⟨q, hq, off, hoff, rfl⟩, rfl⟩
    obtain ⟨h3, h2, h1, h0⟩ := index_byteAddress_eq (p := q) (by omega) hoff
    rw [userFrom_heap inv h.bare h3 h2, h0, if_pos ⟨h1, hq⟩, Option.map_some,
      output_byteAddress _ (by omega) hoff, byteAddress_and_lowMask (by omega) hoff]

theorem zeroed_mmuInit (link : Link) {m : Memory} {p : Process} (zeroed : Zeroed m p) :
    Zeroed (mmuInit link ⟨m, 0#64, []⟩).mem p := by
  intro below hbelow va
  refine (load64_congr fun x hx => ?_).trans (zeroed below hbelow va)
  have hat := Isolation.within_slot hx
  have hbase : 0x80A00000 ≤ p.base := by cases p <;> decide
  exact mmuInit_high link _ (by omega)

theorem walk_of_calls {m : Memory} {t : State} (h : Inv link m t) {p : Process}
    (zeroed : Zeroed m p) {va : Word} {leaf : PageWalk.Leaf}
    (hwalk : PageWalk.walk t.heap.kernel.tables.mem (p.table 3) va = some leaf) :
    leaf.level = 3 ∧ ∃ c ∈ t.calls, c.process = p ∧ ∃ a ∈ c.pages,
      PageWalk.address leaf.desc = pageFrame a := by
  have hzeroed := zeroed_mmuInit link zeroed
  have husers := h.users
  generalize mmuInit link ⟨m, 0#64, []⟩ = t0 at hzeroed husers
  have chained := chained_run (hzeroed.chained va) t.calls
  have hdesc (below : Nat) (hbelow : below ≤ 3) :
      PageWalk.descAt (Run.run UserTables.step t0 t.calls).mem p.table va below =
        PageWalk.descAt t.heap.kernel.tables.mem p.table va below := by
    apply load64_congr
    intro x hx
    have hat := Isolation.within_slot hx
    have hindex := PageWalk.index_lt below va
    have hbase : 0x80A00000 ≤ p.base ∧ p.base ≤ 0x80A60000 := by cases p <;> decide
    exact (husers x (by omega) (by omega)).symm
  have hsame := (PageWalk.walkFrom_congr chained hdesc (le_refl 3)).trans hwalk
  have hlast := ((PageWalk.walkFrom_eq_some_iff chained
    (UserMapping.blockless_run hzeroed t.calls va) (le_refl 3)).mp hsame).2
  rw [PageWalk.walkFrom, Option.ite_none_right_eq_some] at hlast
  have hlevel : leaf.level = 3 := by rw [← Option.some.inj hlast.2]
  obtain ⟨-, c, hc, hp, a, ha, -, hframe, -⟩ :=
    (UserMapping.mapsPage_iff hzeroed t.calls va (PageWalk.address leaf.desc)).mp
      ⟨leaf, hsame, hlevel, rfl⟩
  exact ⟨hlevel, c, hc, hp, a, ha, hframe⟩

theorem lower_of_inv {m : Memory} {t : State} (h : Inv link m t) {p : Process}
    (zeroed : Zeroed m p) {va pa : Word} (hva : va.toNat / 2 ^ 48 ≠ 0xFFFF)
    (hreach : reach t p va = some pa) :
    ∃ c ∈ t.calls, c.process = p ∧ ∃ a ∈ c.pages, pageOf pa = pageOf a := by
  rw [reach, rootOf, if_neg hva] at hreach
  split at hreach
  · obtain ⟨leaf, hleaf, rfl⟩ := Option.map_eq_some_iff.mp hreach
    obtain ⟨hwalk, -⟩ := PageWalk.walkFrom_of_userFrom hleaf
    obtain ⟨hlevel, c, hc, hp, a, ha, hframe⟩ := walk_of_calls h zeroed hwalk
    refine ⟨c, hc, hp, a, ha, ?_⟩
    have hpage : pageOf a < 2 ^ 36 := Nat.mod_lt _ (by decide)
    have hnat := congrArg BitVec.toNat hframe
    rw [PageWalk.toNat_address, pageFrame, BitVec.toNat_ofNat] at hnat
    rw [PageWalk.Leaf.output, PageWalk.Leaf.spanBits, hlevel, pageOf, BitVec.toNat_ofNat]
    omega
  · exact absurd hreach (by simp)

end

/-- Along every run of `kmalloc` calls for at most 20 pages each and 512 in all, stores to the
heap and mapping calls for the user processes, whose tables are zero at boot: a process at EL0
reaches every byte of every range that `kmalloc` has returned, at the kernel's own address of it,
and no other byte through the kernel's tables; through its own tables it reaches no page but those
asked for in its name. -/
theorem user_reaches_the_heap (link : Link) (near : Windows.InFirstWindow link) (m : Memory)
    (zeroed : ∀ p, Zeroed m p) (events : List Event)
    (legal : Run.Guarded (HeapMemory.step link) Legal (boot link m) events) :
    Run.Always (HeapMemory.step link) (fun t => ∀ p, Exposed t p) (boot link m) events := by
  have always : Run.Always (HeapMemory.step link) (Inv link m) (boot link m) events :=
    Run.always_of_guarded (fun _ _ h ok => inv_step near h ok) (inv_boot link m) legal
  exact always.mono fun t h p =>
    ⟨fun _ _ hva => upper_of_inv near h p hva, fun _ _ hva => lower_of_inv h (zeroed p) hva⟩

theorem user_reaches_the_heap_two_ranges :
    Run.Always (HeapMemory.step imageLink) (fun t => ∀ p, Exposed t p)
      (boot imageLink fun _ => 0#8) twoRanges :=
  user_reaches_the_heap imageLink Windows.inFirstWindow_imageLink _ zeroed_zeroTables _
    legal_twoRanges

end KernelFuzzing.Mmu.UserAccess
