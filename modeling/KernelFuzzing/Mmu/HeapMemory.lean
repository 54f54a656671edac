import KernelFuzzing.Mmu.UserTables
import KernelFuzzing.Mmu.Windows

/-! The kernel heap as memory: bytes are stored and loaded through the addresses that
`kmalloc` returned, by way of the tables that `kmalloc` itself keeps filling in, while
pages are mapped for the user processes in the same physical memory. -/
namespace KernelFuzzing.Mmu.HeapMemory
open Foundation Memory
open Translation (Heap Request)
open UserTables (Call)

def Allocated (s : Heap) (va : Word) : Prop :=
  ∃ range ∈ s.returned, Within range.1 (4096 * range.2) va

/-- Where the kernel's tables lead an address. -/
def translate (s : Heap) (va : Word) : Option Word :=
  PageWalk.translate s.kernel.tables.mem l0BasePhys va

/-- `none` is a translation fault. -/
def load (s : Heap) (va : Word) : Option Byte := (translate s va).map s.kernel.tables.mem

def withTables (s : Heap) (t : Tables) : Heap := { s with kernel := { s.kernel with tables := t } }

def store (s : Heap) (va : Word) (v : Byte) : Heap :=
  match translate s va with
  | some pa =>
      withTables s { s.kernel.tables with mem := store8 s.kernel.tables.mem pa v }
  | none => s

inductive Event where
  | kmalloc (r : Request)
  | store (va : Word) (v : Byte)
  | map (c : Call)

/-- The heap, a memory of its own for each address of it, and the mapping calls so far. -/
structure State where
  heap : Heap
  flat : Memory
  calls : List Call

def step (link : Link) (t : State) : Event → State
  | .kmalloc r => { t with heap := Translation.step link t.heap r }
  | .store va v =>
      { t with heap := store t.heap va v, flat := Function.update t.flat va v }
  | .map c =>
      { t with
        heap := withTables t.heap (UserTables.step t.heap.kernel.tables c)
        calls := t.calls ++ [c] }

def boot (link : Link) (m : Memory) : State :=
  ⟨Translation.boot link m, fun va => m (va &&& lowMask), []⟩

/-- Requests for no more pages than the first level 3 table has, stores to the heap only. -/
def Legal (t : State) : Event → Prop
  | .kmalloc r => pageCount r.size ≤ 20 ∧ t.heap.pages + pageCount r.size ≤ 512
  | .store va _ => Allocated t.heap va
  | .map _ => True

/-- Every address of a returned range reads as its own memory does. -/
def Agrees (t : State) : Prop := ∀ va, Allocated t.heap va → load t.heap va = some (t.flat va)

theorem returned_store (s : Heap) (va : Word) (v : Byte) :
    (store s va v).returned = s.returned := by
  unfold store
  split <;> rfl

def byteAddress (p off : Nat) : Word := pageAddress p + BitVec.ofNat 64 off

def byteFrame (p off : Nat) : Word := frame p + BitVec.ofNat 64 off

section
variable {p off : Nat}

theorem toNat_byteAddress (hp : p < 512) (hoff : off < 4096) :
    (byteAddress p off).toNat = 0xFFFF0000C0000000 + 4096 * p + off := by
  have hpage := toNat_pageAddress (p := p) (by omega)
  rw [byteAddress, BitVec.toNat_add, BitVec.toNat_ofNat, hpage]
  omega

theorem toNat_byteFrame (hp : p < 512) (hoff : off < 4096) :
    (byteFrame p off).toNat = 0xC0000000 + 4096 * p + off := by
  have hframe := toNat_frame (p := p) (by omega)
  rw [byteFrame, BitVec.toNat_add, BitVec.toNat_ofNat, hframe]
  omega

theorem byteAddress_and_lowMask (hp : p < 512) (hoff : off < 4096) :
    byteAddress p off &&& lowMask = byteFrame p off := by
  apply BitVec.eq_of_toNat_eq
  rw [toNat_lowMask, toNat_byteAddress hp hoff, toNat_byteFrame hp hoff]
  omega

theorem byteFrame_eq_iff {q off' : Nat} (hp : p < 512) (hoff : off < 4096) (hq : q < 512)
    (hoff' : off' < 4096) :
    byteFrame q off' = byteFrame p off ↔ byteAddress q off' = byteAddress p off := by
  rw [← BitVec.toNat_inj, ← BitVec.toNat_inj, toNat_byteFrame hp hoff, toNat_byteFrame hq hoff',
    toNat_byteAddress hp hoff, toNat_byteAddress hq hoff']
  omega

theorem index_byteAddress (hp : p < 512) (hoff : off < 4096) :
    ∀ b ≤ 3, PageWalk.index b (byteAddress p off) = PageWalk.index b (pageAddress p) := by
  have hbyte := toNat_byteAddress hp hoff
  have hpage := toNat_pageAddress (p := p) (by omega)
  intro b hb
  obtain rfl | rfl | rfl | rfl : b = 0 ∨ b = 1 ∨ b = 2 ∨ b = 3 := by omega
  all_goals
    simp only [PageWalk.index, hbyte, hpage, Nat.reduceMul, Nat.reduceAdd, Nat.reducePow]
    omega

theorem output_byteAddress (slot : Word) (hp : p < 512) (hoff : off < 4096) :
    (PageWalk.Leaf.mk 3 slot (makeL3BlockDesc (frame p))).output (byteAddress p off) =
      byteFrame p off := by
  have hframe := toNat_frame (p := p) (by omega)
  have hdesc := toNat_makeL3BlockDesc (frame p)
  have hbyte := toNat_byteAddress hp hoff
  apply BitVec.eq_of_toNat_eq
  simp only [PageWalk.Leaf.output, PageWalk.Leaf.spanBits]
  rw [toNat_byteFrame hp hoff, BitVec.toNat_ofNat, hdesc, hbyte, hframe]
  omega

end

theorem exists_byte {link : Link} {s : Heap} (h : Translation.Inv link s) {va : Word}
    (hva : Allocated s va) : ∃ p < s.pages, ∃ off < 4096, va = byteAddress p off := by
  obtain ⟨range, hrange, hin⟩ := hva
  obtain ⟨f, hf, hle⟩ := h.ranges range hrange
  have hfew := h.few
  have hpage := toNat_pageAddress (p := f) (by omega)
  unfold Within at hin
  rw [hf] at hin
  refine ⟨f + (va - pageAddress f).toNat / 4096, by omega, (va - pageAddress f).toNat % 4096,
    Nat.mod_lt _ (by decide), ?_⟩
  apply BitVec.eq_of_toNat_eq
  rw [toNat_byteAddress (by omega) (Nat.mod_lt _ (by decide))]
  bv_omega

theorem translate_byteAddress {link : Link} {s : Heap} (h : Translation.Inv link s) {p off : Nat}
    (hp : p < s.pages) (hoff : off < 4096) :
    translate s (byteAddress p off) = some (byteFrame p off) := by
  have hfew := h.few
  have hlt : p < 512 := by omega
  obtain ⟨ha, hl2⟩ := h.table (by omega)
  have hfits : Fits link p := (Translation.enterable_of_lt link (by omega)).fits
  have hfirst : p / 512 = 0 / 512 := by omega
  rw [← l2Slot_congr hfirst, ← l3Table_congr hfirst] at hl2
  have hslot : walkSlot link p = l3Slot link p :=
    (walkSlot_eq_l3Slot_iff hfits).mpr (by omega)
  have hwalk := walk_of_load h.rooted ha hfits hl2 (hslot ▸ h.entries p hp)
  have hindex : PageWalk.walk s.kernel.tables.mem l0BasePhys (byteAddress p off) =
      PageWalk.walk s.kernel.tables.mem l0BasePhys (pageAddress p) :=
    PageWalk.walkFrom_index (index_byteAddress hlt hoff) l0BasePhys
  rw [translate, PageWalk.translate, hindex, hwalk, Option.map_some, output_byteAddress _ hlt hoff]

theorem inv_withTables {link : Link} (near : Windows.InFirstWindow link) {s : Heap}
    (h : Translation.Inv link s) {t : Tables} (allocated : t.allocated = s.kernel.tables.allocated)
    (same : ∀ x : Word, x.toNat < 0x80A00000 → t.mem x = s.kernel.tables.mem x) :
    Translation.Inv link (withTables s t) := by
  have hhigh := near.high
  have hload (a : Word) (ha : a.toNat + 8 ≤ 0x80A00000) :
      load64 t.mem a = load64 s.kernel.tables.mem a := by
    apply load64_congr
    intro x hx
    have hat := (within_iff (by omega)).mp hx
    exact same x (by omega)
  exact {
    rooted :=
      { l0 := (hload _ (by decide)).trans h.rooted.l0
        l1 := fun ha => (hload _ (by decide)).trans (h.rooted.l1 (allocated ▸ ha)) }
    few := h.few
    available := h.available
    ranges := h.ranges
    table := fun hpos => ⟨allocated ▸ (h.table hpos).1,
      (hload _ (by decide)).trans (h.table hpos).2⟩
    entries := by
      intro p hp
      have hlt : p < s.pages := hp
      have hfew := h.few
      have hslot := toNat_l3Slot (Translation.enterable_of_lt link (p := p) (by omega)).fits
      exact (hload _ (by omega)).trans (h.entries p hp) }

section
variable {link : Symbols}

theorem not_within_of_high {a x : Word} {n : Nat} (h : a.toNat + n ≤ 0x80A00000)
    (hx : 0x80A00000 ≤ x.toNat) : ¬ Within a n x := fun hin => by
  have hat := (within_iff (by omega)).mp hin
  omega

theorem prepared_high (near : Windows.InFirstWindow link) (t : Tables) {x : Word}
    (hx : 0x80A00000 ≤ x.toNat) : (prepared link t).mem x = t.mem x := by
  have hhigh := near.high
  have hstart : (BitVec.ofNat 64 link.start).toNat = link.start := by
    rw [BitVec.toNat_ofNat]
    omega
  unfold prepared
  split
  · have hfill : mapPagetableEntry.zeroFill link t.mem x = t.mem x :=
      zeroFill_of_not_within (by omega) t.mem (not_within_of_high (by omega) hx)
    rw [first_mem, store64_of_not_within (not_within_of_high (by decide) hx),
      clearTable_of_not_within _ (by decide) (not_within_of_high (by decide) hx)]
    dsimp only
    rw [hfill]
  · rfl

theorem rangeEntries_high (near : Windows.InFirstWindow link) {f n : Nat} (hn : f + n ≤ 131200)
    (m : Memory) {x : Word} (hx : 0x80A00000 ≤ x.toNat) :
    storeAll m (rangeEntries link f n) x = m x := by
  have hhigh := near.high
  apply storeAll_of_not_within
  intro w hw
  obtain ⟨i, hi, rfl | rfl⟩ := mem_rangeEntries.mp hw
  · have hslot := toNat_l2Slot (p := f + i) (by omega)
    exact not_within_of_high (by dsimp only; omega) hx
  · have hslot := toNat_l3Slot (Windows.fits_of_lt near (p := f + i) (by omega))
    exact not_within_of_high (by dsimp only; omega) hx

theorem kmalloc_high (near : Windows.InFirstWindow link) (k : Kernel) (size : Word)
    (res : BitIndexArray) {x : Word} (hx : 0x80A00000 ≤ x.toNat) :
    (kmalloc link k size res).2.tables.mem x = k.tables.mem x := by
  by_cases enough : pageCount size ≤ k.bitmap.available.length
  · obtain ⟨f, rest, hfree⟩ := List.exists_cons_of_length_pos
      (Nat.lt_of_lt_of_le (pageCount_pos size) enough)
    have hf := lt_of_mem_available (hfree ▸ List.mem_cons_self : f ∈ k.bitmap.available)
    by_cases small : pageCount size ≤ 20
    · rw [kmalloc_mapped hfree enough small fun i hi => Windows.fits_of_lt near (by omega)]
      exact (rangeEntries_high near (by omega) _ hx).trans (prepared_high near _ hx)
    · rw [kmalloc_refused hfree enough (Nat.not_le.mp small)]
  · rw [kmalloc_short (Nat.not_le.mp enough)]
    exact prepared_high near _ hx

theorem mmuInit_high (link : Symbols) (t : Tables) {x : Word} (hx : 0x80A00000 ≤ x.toNat) :
    (mmuInit link t).mem x = t.mem x := by
  have hclear (t : Tables) {table : Word} (hlow : table.toNat + 4096 ≤ 0x80A00000) :
      (clearTable t table).mem x = t.mem x := by
    have hmod : table.toNat % 2 ^ 48 = table.toNat := Nat.mod_eq_of_lt (by omega)
    refine clearTable_of_not_within t (by omega) (not_within_of_high ?_ hx)
    rw [hmod, BitVec.ofNat_toNat, BitVec.setWidth_eq]
    exact hlow
  have hentries : storeAll (Windows.cleared t).mem
      ((Windows.descriptors link).map Windows.entry) x = (Windows.cleared t).mem x := by
    apply storeAll_of_not_within
    intro w hw
    obtain ⟨d, -, rfl⟩ := List.mem_map.mp hw
    have hslot := Windows.toNat_slot d.1 d.2.1
    have htable := Windows.tables_le d.1
    have hindex := PageWalk.index_lt d.1 d.2.1
    exact not_within_of_high (by rw [Windows.entry]; dsimp only; omega) hx
  rw [Windows.mmuInit_eq]
  refine hentries.trans ?_
  unfold Windows.cleared
  rw [hclear _ (by decide), hclear _ (by decide), hclear _ (by decide), hclear _ (by decide),
    hclear _ (by decide)]

end

theorem map_mem (t : Tables) (c : Call) {x : Word}
    (hx : x.toNat < 0x80A00000 ∨ 0xC0000000 ≤ x.toNat) :
    (UserTables.step t c).mem x = t.mem x := by
  rw [UserTables.step_eq]
  apply storeAll_of_not_within
  intro w hw hin
  obtain ⟨b, -, va, hslot⟩ := UserTables.slot_of_mem_entries hw
  have hindex := PageWalk.index_lt b va
  have hat := UserTables.toNat_slot c.process b va
  have hbase : 0x80A00000 ≤ c.process.base ∧ c.process.base ≤ 0x80A60000 := by
    cases c.process <;> decide
  rw [hslot, within_iff (by omega)] at hin
  omega

/-- Each byte of each frame holds what its address holds in a memory of its own. -/
structure Inv (link : Link) (t : State) : Prop where
  tables : Translation.Inv link t.heap
  bytes : ∀ p < 512, ∀ off < 4096,
    t.heap.kernel.tables.mem (byteFrame p off) = t.flat (byteAddress p off)

section
variable {link : Link} {t : State}

theorem Inv.agrees (h : Inv link t) : Agrees t := by
  intro va hva
  obtain ⟨p, hp, off, hoff, rfl⟩ := exists_byte h.tables hva
  have hfew := h.tables.few
  rw [load, translate_byteAddress h.tables hp hoff, Option.map_some, h.bytes p (by omega) off hoff]

theorem inv_kmalloc (near : Windows.InFirstWindow link) (h : Inv link t) {r : Request}
    (legal : Legal t (.kmalloc r)) : Inv link (step link t (.kmalloc r)) where
  tables := by
    have hscanned := scanned_eq
    obtain ⟨hsmall, hfew⟩ := legal
    exact Translation.inv_step h.tables ⟨hsmall, by omega⟩ hfew
  bytes p hp off hoff := by
    refine (kmalloc_high near t.heap.kernel r.size r.res ?_).trans (h.bytes p hp off hoff)
    rw [toNat_byteFrame hp hoff]
    omega

theorem address_kmalloc (h : Inv link t) {r : Request} (legal : Legal t (.kmalloc r)) :
    (kmalloc link t.heap.kernel r.size r.res).1 = pageAddress t.heap.pages := by
  have hscanned := scanned_eq
  obtain ⟨hsmall, hfew⟩ := legal
  exact (Translation.step_eq h.tables ⟨hsmall, by omega⟩).1

theorem returned_kmalloc (h : Inv link t) {r : Request} (legal : Legal t (.kmalloc r)) :
    (step link t (.kmalloc r)).heap.returned =
      t.heap.returned ++ [(pageAddress t.heap.pages, pageCount r.size)] :=
  congrArg (fun va => t.heap.returned ++ [(va, pageCount r.size)]) (address_kmalloc h legal)

theorem step_store (h : Inv link t) {p off : Nat} (hp : p < t.heap.pages) (hoff : off < 4096)
    (v : Byte) : step link t (.store (byteAddress p off) v) =
      { t with
        heap := withTables t.heap
          { t.heap.kernel.tables with
            mem := store8 t.heap.kernel.tables.mem (byteFrame p off) v }
        flat := Function.update t.flat (byteAddress p off) v } := by
  simp only [step, store, translate_byteAddress h.tables hp hoff]

theorem inv_store (near : Windows.InFirstWindow link) (h : Inv link t) {va : Word} {v : Byte}
    (legal : Legal t (.store va v)) : Inv link (step link t (.store va v)) := by
  obtain ⟨p, hp, off, hoff, rfl⟩ := exists_byte h.tables legal
  have hfew := h.tables.few
  have hframe := toNat_byteFrame (p := p) (by omega) hoff
  rw [step_store h hp hoff]
  constructor
  · refine inv_withTables near h.tables (by exact rfl) fun x hx => ?_
    apply store8_of_ne
    rintro rfl
    omega
  · intro q hq off' hoff'
    by_cases hsame : byteAddress q off' = byteAddress p off
    · have hframes := (byteFrame_eq_iff (by omega) hoff hq hoff').mpr hsame
      dsimp only [withTables]
      rw [hsame, hframes, Function.update_self]
      exact if_pos rfl
    · have hframes := (byteFrame_eq_iff (by omega) hoff hq hoff').not.mpr hsame
      dsimp only [withTables]
      rw [Function.update_of_ne hsame, store8_of_ne hframes]
      exact h.bytes q hq off' hoff'

theorem inv_map (near : Windows.InFirstWindow link) (h : Inv link t) (c : Call) :
    Inv link (step link t (.map c)) where
  tables := by
    apply inv_withTables near h.tables
    · rw [UserTables.step_eq]
      rfl
    · exact fun x hx => map_mem _ c (.inl hx)
  bytes p hp off hoff := by
    refine (map_mem _ c (.inr ?_)).trans (h.bytes p hp off hoff)
    rw [toNat_byteFrame hp hoff]
    omega

theorem inv_step (near : Windows.InFirstWindow link) (h : Inv link t) {e : Event}
    (legal : Legal t e) : Inv link (step link t e) := by
  cases e with
  | kmalloc r => exact inv_kmalloc near h legal
  | store va v => exact inv_store near h legal
  | map c => exact inv_map near h c

end

theorem inv_boot (link : Link) (m : Memory) : Inv link (boot link m) where
  tables := Translation.inv_boot link m
  bytes p hp off hoff := by
    have hhigh : 0x80A00000 ≤ (byteFrame p off).toNat := by
      rw [toNat_byteFrame hp hoff]
      omega
    have hflat : (boot link m).flat (byteAddress p off) = m (byteFrame p off) :=
      congrArg m (byteAddress_and_lowMask hp hoff)
    exact (mmuInit_high link _ hhigh).trans hflat.symm

theorem always_inv (link : Link) (near : Windows.InFirstWindow link) (m : Memory)
    {events : List Event} (legal : Run.Guarded (step link) Legal (boot link m) events) :
    Run.Always (step link) (Inv link) (boot link m) events :=
  Run.always_of_guarded (fun _ _ h ok => inv_step near h ok) (inv_boot link m) legal

def twoRanges : List Event :=
  [.kmalloc (Translation.requestOf 81920#64), .store (pageAddress 0) 7#8,
    .map ⟨.two, .tenPages, 0x80001F38#64⟩, .kmalloc (Translation.requestOf 4096#64),
    .store (byteAddress 20 4095) 9#8, .store (byteAddress 19 4095) 8#8]

theorem legal_twoRanges :
    Run.Guarded (step imageLink) Legal (boot imageLink fun _ => 0#8) twoRanges := by
  let t₀ := boot imageLink fun _ => 0#8
  let t₁ := step imageLink t₀ (.kmalloc (Translation.requestOf 81920#64))
  let t₂ := step imageLink t₁ (.store (pageAddress 0) 7#8)
  let t₃ := step imageLink t₂ (.map ⟨.two, .tenPages, 0x80001F38#64⟩)
  let t₄ := step imageLink t₃ (.kmalloc (Translation.requestOf 4096#64))
  let t₅ := step imageLink t₄ (.store (byteAddress 20 4095) 9#8)
  have near := Windows.inFirstWindow_imageLink
  have htwenty : pageCount (Translation.requestOf 81920#64).size = 20 := by
    simp [Translation.requestOf, pageCount]
  have hone : pageCount (Translation.requestOf 4096#64).size = 1 := by
    simp [Translation.requestOf, pageCount]
  have legal₀ : Legal t₀ (.kmalloc (Translation.requestOf 81920#64)) := by
    rw [Legal, htwenty]
    decide
  have h₁ : Inv imageLink t₁ := inv_step near (inv_boot _ _) legal₀
  have returned₁ : t₁.heap.returned = [(pageAddress 0, 20)] := by
    rw [show t₁.heap.returned = _ from returned_kmalloc (inv_boot _ _) legal₀, htwenty]
    rfl
  have legal₁ : Legal t₁ (.store (pageAddress 0) 7#8) :=
    ⟨_, returned₁ ▸ List.mem_cons_self, by decide⟩
  have h₃ : Inv imageLink t₃ := inv_step near (inv_step near h₁ legal₁) trivial
  have returned₃ : t₃.heap.returned = [(pageAddress 0, 20)] :=
    (returned_store t₁.heap _ _).trans returned₁
  have pages₃ : t₃.heap.pages = 20 := by
    rw [Heap.pages, returned₃]
    rfl
  have legal₃ : Legal t₃ (.kmalloc (Translation.requestOf 4096#64)) := by
    rw [Legal, pages₃, hone]
    decide
  have returned₄ : t₄.heap.returned = [(pageAddress 0, 20), (pageAddress 20, 1)] := by
    rw [show t₄.heap.returned = _ from returned_kmalloc h₃ legal₃, returned₃, pages₃, hone]
    rfl
  have returned₅ : t₅.heap.returned = _ := (returned_store t₄.heap _ _).trans returned₄
  exact ⟨legal₀, legal₁, trivial, legal₃,
    ⟨_, returned₄ ▸ List.mem_cons_of_mem _ List.mem_cons_self, by decide⟩,
    ⟨_, returned₅ ▸ List.mem_cons_self, by decide⟩, trivial⟩

end KernelFuzzing.Mmu.HeapMemory
