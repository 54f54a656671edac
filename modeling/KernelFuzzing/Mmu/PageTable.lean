import KernelFuzzing.Foundation.PageWalk

/-! The translation tables of core/mmu.c: descriptors, the tables `mmuInit` builds
and the entries `mapPagetableEntry` adds for `kmalloc`. A store through a kernel
pointer lands at the pointer's low 48 bits, as `mmuInit` maps it. -/
namespace KernelFuzzing.Mmu
open Foundation Memory

def physKernelBase : Word := 0x80000000#64
def virtKernelBase : Word := 0xFFFF000080000000#64
def physRegion2Base : Word := 0x09000000#64
def virtRegion2Base : Word := 0xFFFF000082400000#64
def dtbBase : Word := 0x40000000#64
def virtDtbBase : Word := 0xFFFF000085400000#64
def gicdBase : Word := 0x08000000#64
def virtualGicdBase : Word := 0xFFFF000081400000#64
def stackTop : Word := 0x801F0000#64
def virtioRegRange : Word := 0xFFFF000086400000#64
def userProcess1TableStart : Word := 0x80A00000#64
def userProcess1TableStartWritable : Word := 0xFFFF000080A00000#64
def userProcess2TableStart : Word := userProcess1TableStart + 0x60000#64
def userProcess2TableStartWritable : Word := userProcess1TableStartWritable + 0x60000#64

def l0BasePhys : Word := 0x80020000#64
def l1BasePhys : Word := 0x80040000#64
def l2BasePhys : Word := 0x80060000#64
def l2Index3BasePhys : Word := 0x80080000#64
def l2BasePhysForL3Entries : Word := 0x800A0000#64
def l3Index0BasePhys : Word := 0x800C0000#64

def descValid : Word := 1#64
def descTable : Word := 2#64
def descPage : Word := 2#64
def descAf : Word := 1#64 <<< 10
def descAp : Word := 1#64 <<< 6

def lowMask : Word := 0x0000FFFFFFFFFFFF#64
def highMask : Word := 0xFFFF000000000000#64

def calcIndexL0 (va : Word) : Word := (va >>> 39) &&& 0x1FF#64
def calcIndexL1 (va : Word) : Word := (va >>> 30) &&& 0x1FF#64
def calcIndexL2 (va : Word) : Word := (va >>> 21) &&& 0x1FF#64
def calcIndexL3 (va : Word) : Word := (va >>> 12) &&& 0x1FF#64

def makeTableDesc (nextTablePhysBase : Word) : Word :=
  (((nextTablePhysBase &&& ~~~0xFFF#64) >>> 12) <<< 12) ||| (descValid ||| descTable)

def makeL3BlockDesc (physBase : Word) : Word :=
  (physBase &&& ~~~0xFFF#64) ||| (descValid ||| descPage ||| descAf ||| descAp)

def makeBlockDesc (physBase : Word) : Word :=
  (((physBase &&& ~~~0xFFF#64) >>> 12) <<< 12) ||| (descValid ||| descAf)

/-- Physical memory, the flag `ALLOCATED` and, oldest first, the entries that
`setTableEntry` has stored: each an address and a descriptor. -/
structure Tables where
  mem : Memory
  allocated : Word
  stored : List (Word × Word)

def hardCodedTables : List Word :=
  [l0BasePhys, l1BasePhys, l2BasePhys, l2Index3BasePhys, l2BasePhysForL3Entries,
    l3Index0BasePhys]

/-- The symbol `__block_l2_memory_start` of the linker script, as a pointer. -/
structure Symbols where
  blockL2MemoryStart : Word

def Symbols.start (link : Symbols) : Nat := (link.blockL2MemoryStart &&& lowMask).toNat

/-- The symbol is aligned to 4 KiB and its `512 * 10` bytes overlap no table at a fixed
address. -/
structure Link extends Symbols where
  aligned : (blockL2MemoryStart &&& lowMask).toNat % 4096 = 0
  fits : (blockL2MemoryStart &&& lowMask).toNat + 512 * 10 ≤ 2 ^ 48
  apart : ∀ table ∈ hardCodedTables,
    (blockL2MemoryStart &&& lowMask).toNat + 512 * 10 ≤ table.toNat ∨
      table.toNat + 4096 ≤ (blockL2MemoryStart &&& lowMask).toNat

instance : Coe Link Symbols := ⟨Link.toSymbols⟩

/-- The symbol's value in the kernel image of the repository. -/
def imageLink : Link where
  blockL2MemoryStart := 0x8008E000#64
  aligned := by decide
  fits := by decide
  apart := by
    simp [hardCodedTables, lowMask, l0BasePhys, l1BasePhys, l2BasePhys, l2Index3BasePhys,
      l2BasePhysForL3Entries, l3Index0BasePhys]

def entryAddress (table idx : Word) : Word := (table + 8#64 * idx) &&& lowMask

def clearTable (t : Tables) (table : Word) : Tables :=
  { t with
    mem := storeAll t.mem <|
      (List.range 512).map fun i => (entryAddress table (BitVec.ofNat 64 i), 0#64) }

def setTableEntry (t : Tables) (table idx desc : Word) : Tables :=
  { t with
    mem := store64 t.mem (entryAddress table idx) desc
    stored := t.stored ++ [(entryAddress table idx, desc)] }

def addVirtioPage (t : Tables) (reg : Word) : Tables :=
  setTableEntry t l2BasePhys (calcIndexL2 virtioRegRange) (makeBlockDesc reg)

def mmuInit (link : Symbols) (t : Tables) : Tables :=
  let t := clearTable t l0BasePhys
  let t := clearTable t l1BasePhys
  let t := clearTable t l2BasePhys
  let t := clearTable t l2Index3BasePhys
  let t := clearTable t l3Index0BasePhys
  let l3TableAddress := (link.blockL2MemoryStart &&& lowMask) + 512#64 * 0#64
  let l3TableAddressWritable := highMask ||| l3TableAddress
  let t := setTableEntry t l0BasePhys (calcIndexL0 virtKernelBase) (makeTableDesc l1BasePhys)
  let t := setTableEntry t l0BasePhys (calcIndexL0 physKernelBase) (makeTableDesc l1BasePhys)
  let t := setTableEntry t l1BasePhys (calcIndexL1 virtKernelBase) (makeTableDesc l2BasePhys)
  let t := setTableEntry t l1BasePhys (calcIndexL1 physKernelBase) (makeTableDesc l2BasePhys)
  let block (t : Tables) (va pa : Word) : Tables :=
    setTableEntry t l2BasePhys (calcIndexL2 va) (makeBlockDesc pa)
  let t := block t virtKernelBase physKernelBase
  let t := block t physKernelBase physKernelBase
  let t := block t virtRegion2Base physRegion2Base
  let t := block t userProcess1TableStartWritable userProcess1TableStart
  let t := block t virtualGicdBase gicdBase
  let t := block t virtDtbBase dtbBase
  let t := block t stackTop stackTop
  block t l3TableAddressWritable l3TableAddress

def mapUserToPhysical (t : Tables) (id address : Word) : Tables :=
  let l0 := if id = 1#64 then userProcess1TableStart else userProcess2TableStart
  let l0w :=
    if id = 1#64 then userProcess1TableStartWritable else userProcess2TableStartWritable
  let l1 := l0 + 0x10000#64
  let l2 := l1 + 0x10000#64
  let l3 := l2 + 0x10000#64
  let l1w := l0w + 0x10000#64
  let l2w := l1w + 0x10000#64
  let l3w := l2w + 0x10000#64
  let t := setTableEntry t l0w (calcIndexL0 address) (makeTableDesc l1)
  let t := setTableEntry t l1w (calcIndexL1 address) (makeTableDesc l2)
  let t := setTableEntry t l2w (calcIndexL2 address) (makeTableDesc l3)
  (List.range 10).foldl (fun t i =>
    let page := address + 4096#64 * BitVec.ofNat 64 i
    setTableEntry t l3w (calcIndexL3 page) (makeL3BlockDesc page)) t

def mapUserToPhysicalTest (t : Tables) (id address : Word) : Tables :=
  let l0 := if id = 1#64 then userProcess1TableStart else userProcess2TableStart
  let l0w :=
    if id = 1#64 then userProcess1TableStartWritable else userProcess2TableStartWritable
  let l1 := l0 + 0x10000#64
  let l2 := l1 + 0x10000#64
  let l3 := l2 + 0x10000#64
  let l1w := l0w + 0x10000#64
  let l2w := l1w + 0x10000#64
  let l3w := l2w + 0x10000#64
  let t := setTableEntry t l0w (calcIndexL0 address) (makeTableDesc l1)
  let t := setTableEntry t l1w (calcIndexL1 address) (makeTableDesc l2)
  let t := setTableEntry t l2w (calcIndexL2 address) (makeTableDesc l3)
  setTableEntry t l3w (calcIndexL3 address) (makeL3BlockDesc address)

def mapPagetableEntry.body (link : Symbols) (va pa : Word) (t : Tables) (i : Nat) : Tables :=
  let currentL2Writable := highMask ||| l2Index3BasePhys
  let currentVa := va + 4096#64 * BitVec.ofNat 64 i
  let physicalVa := pa + 4096#64 * BitVec.ofNat 64 i
  let l2Idx := calcIndexL2 currentVa
  -- `block + 512` bytes for each level 2 index
  let l3TableAddress := (link.blockL2MemoryStart &&& lowMask) + 512#64 * l2Idx
  let l3TableAddressWritable := highMask ||| l3TableAddress
  let t := setTableEntry t currentL2Writable l2Idx (makeTableDesc l3TableAddress)
  setTableEntry t l3TableAddressWritable (calcIndexL3 currentVa) (makeL3BlockDesc physicalVa)

def mapPagetableEntry.zeroFill (link : Symbols) (mem : Memory) : Memory :=
  (List.range (512 * 10)).foldl (fun mem i =>
    store8 mem ((link.blockL2MemoryStart + BitVec.ofNat 64 i) &&& lowMask) 0#8) mem

/-- What the first call of `mapPagetableEntry` does before its loop. -/
def mapPagetableEntry.first (link : Symbols) (t : Tables) (l1Idx : Word) : Tables :=
  let t := clearTable { t with mem := mapPagetableEntry.zeroFill link t.mem } l3Index0BasePhys
  let t := setTableEntry t l1BasePhys l1Idx (makeTableDesc l2Index3BasePhys)
  { t with allocated := 1#64 }

def mapPagetableEntry (link : Symbols) (t : Tables) (va pa total : Word) : Bool × Tables :=
  if total > 20#64 then (false, t)
  else
    let l1Idx := calcIndexL1 0xFFFF0000C0000000#64
    if l1Idx ≠ 3#64 then (false, t)
    else
      let t := if t.allocated = 0#64 then mapPagetableEntry.first link t l1Idx else t
      (true, (List.range total.toNat).foldl (mapPagetableEntry.body link va pa) t)

theorem toNat_lowMask (x : Word) : (x &&& lowMask).toNat = x.toNat % 2 ^ 48 := by
  rw [lowMask, BitVec.toNat_and]
  exact Nat.and_two_pow_sub_one_eq_mod x.toNat 48

theorem toNat_highMask {x : Word} (h : x.toNat < 2 ^ 48) :
    (highMask ||| x).toNat = 0xFFFF000000000000 + x.toNat := by
  rw [highMask, BitVec.toNat_or]
  exact (Nat.two_pow_add_eq_or_of_lt h 0xFFFF).symm

theorem toNat_calcIndex (va : Word) (k : Nat) :
    ((va >>> k) &&& 0x1FF#64).toNat = va.toNat / 2 ^ k % 512 := by
  rw [BitVec.toNat_and, BitVec.toNat_ushiftRight, Nat.shiftRight_eq_div_pow]
  exact Nat.and_two_pow_sub_one_eq_mod _ 9

private theorem pageMask_eq (x : Word) : x &&& ~~~0xFFF#64 = (x >>> 12) <<< 12 := by
  apply BitVec.eq_of_getLsbD_eq
  intro i hi
  have hmask : Nat.testBit 0xFFF i = decide (i < 12) := Nat.testBit_two_pow_sub_one 12 i
  rw [BitVec.getLsbD_and, BitVec.getLsbD_not, BitVec.getLsbD_ofNat, hmask,
    BitVec.getLsbD_shiftLeft, BitVec.getLsbD_ushiftRight]
  by_cases h : i < 12
  · simp [h]
  · simp [h, hi, Nat.add_sub_cancel' (Nat.le_of_not_lt h)]

private theorem toNat_pageShift (x : Word) :
    ((x >>> 12) <<< 12).toNat = x.toNat / 4096 * 4096 := by
  have hx := x.isLt
  rw [BitVec.toNat_shiftLeft, BitVec.toNat_ushiftRight, Nat.shiftRight_eq_div_pow,
    Nat.shiftLeft_eq]
  omega

private theorem toNat_or_low (x : Word) {bits : Word} (h : bits.toNat < 4096) :
    ((x >>> 12) <<< 12 ||| bits).toNat = x.toNat / 4096 * 4096 + bits.toNat := by
  rw [BitVec.toNat_or, toNat_pageShift, Nat.mul_comm]
  exact (Nat.two_pow_add_eq_or_of_lt (i := 12) h _).symm

theorem toNat_makeTableDesc (x : Word) :
    (makeTableDesc x).toNat = x.toNat / 4096 * 4096 + 3 := by
  rw [makeTableDesc, pageMask_eq, toNat_or_low _ (by decide), toNat_pageShift,
    Nat.mul_div_cancel _ (by decide)]
  rfl

theorem toNat_makeL3BlockDesc (x : Word) :
    (makeL3BlockDesc x).toNat = x.toNat / 4096 * 4096 + 0x443 := by
  rw [makeL3BlockDesc, pageMask_eq, toNat_or_low _ (by decide)]
  rfl

theorem toNat_makeBlockDesc (x : Word) :
    (makeBlockDesc x).toNat = x.toNat / 4096 * 4096 + 0x401 := by
  rw [makeBlockDesc, pageMask_eq, toNat_or_low _ (by decide), toNat_pageShift,
    Nat.mul_div_cancel _ (by decide)]
  rfl

private theorem getLsbD_of_toNat {desc : Word} {k : Nat} (h : desc.toNat % 4 = 3)
    (hk : k < 2) : desc.getLsbD k = true := by
  rw [BitVec.getLsbD, Nat.testBit_eq_decide_div_mod_eq, decide_eq_true_eq]
  match k, hk with
  | 0, _ => omega
  | 1, _ => omega

theorem getLsbD_makeTableDesc (x : Word) {k : Nat} (hk : k < 2) :
    (makeTableDesc x).getLsbD k = true := by
  refine getLsbD_of_toNat ?_ hk
  rw [toNat_makeTableDesc]
  omega

theorem getLsbD_makeL3BlockDesc (x : Word) {k : Nat} (hk : k < 2) :
    (makeL3BlockDesc x).getLsbD k = true := by
  refine getLsbD_of_toNat ?_ hk
  rw [toNat_makeL3BlockDesc]
  omega

theorem getLsbD_makeBlockDesc (x : Word) :
    (makeBlockDesc x).getLsbD 0 = true ∧ (makeBlockDesc x).getLsbD 1 = false := by
  have hdesc := toNat_makeBlockDesc x
  rw [BitVec.getLsbD, BitVec.getLsbD, Nat.testBit_eq_decide_div_mod_eq,
    Nat.testBit_eq_decide_div_mod_eq, decide_eq_true_eq, decide_eq_false_iff_not]
  omega

theorem toNat_address_makeTableDesc {x : Word} (h : x.toNat < 2 ^ 48) :
    (PageWalk.address (makeTableDesc x)).toNat = x.toNat / 4096 * 4096 := by
  rw [PageWalk.toNat_address, toNat_makeTableDesc]
  omega

theorem address_makeL3BlockDesc {x : Word} (h : x.toNat < 2 ^ 48)
    (aligned : x.toNat % 4096 = 0) : PageWalk.address (makeL3BlockDesc x) = x := by
  apply BitVec.eq_of_toNat_eq
  rw [PageWalk.toNat_address, toNat_makeL3BlockDesc]
  omega

theorem toNat_entryAddress {table idx : Word} (hidx : idx.toNat < 512)
    (h : table.toNat % 2 ^ 48 + 4096 ≤ 2 ^ 48) :
    (entryAddress table idx).toNat = table.toNat % 2 ^ 48 + 8 * idx.toNat := by
  rw [entryAddress, toNat_lowMask, BitVec.toNat_add, BitVec.toNat_mul]
  change (table.toNat + 8 * idx.toNat % 2 ^ 64) % 2 ^ 64 % 2 ^ 48 = _
  omega

theorem entryAddress_eq_slot {pointer table : Word} (h : pointer.toNat % 2 ^ 48 = table.toNat)
    (room : table.toNat + 4096 ≤ 2 ^ 48) (below : Nat) (va : Word) :
    entryAddress pointer ((va >>> (12 + 9 * below)) &&& 0x1FF#64) =
      PageWalk.slot below va table := by
  have hidx := toNat_calcIndex va (12 + 9 * below)
  have hlt : va.toNat / 2 ^ (12 + 9 * below) % 512 < 512 := Nat.mod_lt _ (by decide)
  apply BitVec.eq_of_toNat_eq
  rw [toNat_entryAddress (by omega) (by omega), PageWalk.slot_toNat (by omega), hidx, h]
  rfl

def Tables.store (t : Tables) (entries : List (Word × Word)) : Tables :=
  { t with mem := storeAll t.mem entries, stored := t.stored ++ entries }

theorem setTableEntry_eq (t : Tables) (table idx desc : Word) :
    setTableEntry t table idx desc = t.store [(entryAddress table idx, desc)] := rfl

theorem Tables.store_store (t : Tables) (es fs : List (Word × Word)) :
    (t.store es).store fs = t.store (es ++ fs) := by
  simp [Tables.store]

theorem Tables.foldl_store (t : Tables) (f : α → List (Word × Word)) (as : List α) :
    as.foldl (fun t a => t.store (f a)) t = t.store (as.flatMap f) := by
  induction as generalizing t with
  | nil => simp [Tables.store]
  | cons a as ih => rw [List.foldl_cons, ih, Tables.store_store, List.flatMap_cons]

@[simp] theorem clearTable_allocated (t : Tables) (table : Word) :
    (clearTable t table).allocated = t.allocated := by
  unfold clearTable
  rfl

@[simp] theorem setTableEntry_allocated (t : Tables) (table idx desc : Word) :
    (setTableEntry t table idx desc).allocated = t.allocated := rfl

/-- The way from the root to the level 2 table of the kernel heap, once there. -/
structure Rooted (t : Tables) : Prop where
  l0 : load64 t.mem l0BasePhys = makeTableDesc l1BasePhys
  l1 : t.allocated ≠ 0#64 →
    load64 t.mem (l1BasePhys + 24#64) = makeTableDesc l2Index3BasePhys

def OffRoot (a : Word) : Prop := Apart a 8 l0BasePhys 8 ∧ Apart a 8 (l1BasePhys + 24#64) 8

theorem Rooted.store {t : Tables} (h : Rooted t) {es : List (Word × Word)}
    (off : ∀ e ∈ es, OffRoot e.1) : Rooted (t.store es) where
  l0 := (load64_storeAll_apart fun e he => (off e he).1).trans h.l0
  l1 := fun ha => (load64_storeAll_apart fun e he => (off e he).2).trans (h.l1 ha)

theorem offRoot_of_le {a : Word} (low : 0x80040020 ≤ a.toNat) (high : a.toNat + 8 ≤ 2 ^ 64) :
    OffRoot a := by
  have h0 : (0x80020000#64).toNat = 0x80020000 := rfl
  have h1 : (0x80040018#64).toNat = 0x80040018 := rfl
  refine ⟨(apart_of_le ?_ high).symm, (apart_of_le ?_ high).symm⟩
  · rw [l0BasePhys, h0]
    omega
  · change (0x80040018#64).toNat + 8 ≤ _
    rw [h1]
    omega

private theorem calcIndex_lt (va : Word) (k : Nat) : ((va >>> k) &&& 0x1FF#64).toNat < 512 := by
  rw [toNat_calcIndex]
  exact Nat.mod_lt _ (by decide)

theorem offRoot_entryAddress {table idx : Word} (hidx : idx.toNat < 512)
    (low : 0x80060000 ≤ table.toNat % 2 ^ 48)
    (high : table.toNat % 2 ^ 48 + 4096 ≤ 2 ^ 48) : OffRoot (entryAddress table idx) := by
  have haddr := toNat_entryAddress hidx high
  exact offRoot_of_le (by omega) (by omega)

theorem Rooted.setTableEntry {t : Tables} (h : Rooted t) {table idx : Word} (desc : Word)
    (off : OffRoot (entryAddress table idx)) : Rooted (setTableEntry t table idx desc) := by
  rw [setTableEntry_eq]
  apply h.store
  intro e he
  rwa [List.mem_singleton.mp he]

def Behind (table : Word) : Prop :=
  0x80060000 ≤ table.toNat % 2 ^ 48 ∧ table.toNat % 2 ^ 48 + 4096 ≤ 2 ^ 48

instance (table : Word) : Decidable (Behind table) := inferInstanceAs (Decidable (_ ∧ _))

theorem Rooted.setBehind {t : Tables} (h : Rooted t) {table : Word} (behind : Behind table)
    (k : Nat) (va desc : Word) :
    Rooted (Mmu.setTableEntry t table ((va >>> k) &&& 0x1FF#64) desc) :=
  h.setTableEntry desc (offRoot_entryAddress (calcIndex_lt va k) behind.1 behind.2)

theorem Rooted.addVirtioPage {t : Tables} (h : Rooted t) (reg : Word) :
    Rooted (addVirtioPage t reg) :=
  h.setBehind (by decide) 21 _ _

private theorem Rooted.userTables {t : Tables} (h : Rooted t) {l0w l1w l2w : Word}
    (h0 : Behind l0w) (h1 : Behind l1w) (h2 : Behind l2w) (address l1 l2 l3 : Word) :
    Rooted (Mmu.setTableEntry (Mmu.setTableEntry (Mmu.setTableEntry t l0w (calcIndexL0 address)
      (makeTableDesc l1)) l1w (calcIndexL1 address) (makeTableDesc l2)) l2w
        (calcIndexL2 address) (makeTableDesc l3)) := by
  have hl0 := h.setBehind h0 39 address (makeTableDesc l1)
  have hl1 := hl0.setBehind h1 30 address (makeTableDesc l2)
  exact hl1.setBehind h2 21 address (makeTableDesc l3)

theorem Rooted.mapUserToPhysical {t : Tables} (h : Rooted t) (id address : Word) :
    Rooted (mapUserToPhysical t id address) := by
  unfold Mmu.mapUserToPhysical
  by_cases hid : id = 1#64
  · simp only [hid, if_true]
    exact List.foldlRecOn _ _ (h.userTables (by decide) (by decide) (by decide) address _ _ _)
      fun t ht i _ => ht.setBehind (by decide) 12 _ _
  · simp only [hid, if_false]
    exact List.foldlRecOn _ _ (h.userTables (by decide) (by decide) (by decide) address _ _ _)
      fun t ht i _ => ht.setBehind (by decide) 12 _ _

theorem Rooted.mapUserToPhysicalTest {t : Tables} (h : Rooted t) (id address : Word) :
    Rooted (mapUserToPhysicalTest t id address) := by
  unfold Mmu.mapUserToPhysicalTest
  by_cases hid : id = 1#64
  · simp only [hid, if_true]
    exact (h.userTables (by decide) (by decide) (by decide) address _ _ _).setBehind
      (by decide) 12 _ _
  · simp only [hid, if_false]
    exact (h.userTables (by decide) (by decide) (by decide) address _ _ _).setBehind
      (by decide) 12 _ _

private theorem offRoot_l1 : OffRoot (entryAddress l1BasePhys (calcIndexL1 virtKernelBase)) :=
  ⟨(apart_of_le (by decide) (by decide)).symm, apart_of_le (by decide) (by decide)⟩

theorem rooted_mmuInit (link : Link) (t : Tables) (h : t.allocated = 0#64) :
    Rooted (mmuInit link t) := by
  have l1Entry (t : Tables) (ht : Rooted t) : Rooted (Mmu.setTableEntry t l1BasePhys
      (calcIndexL1 virtKernelBase) (makeTableDesc l2BasePhys)) :=
    ht.setTableEntry _ offRoot_l1
  have block (t : Tables) (va pa : Word) (ht : Rooted t) :
      Rooted (Mmu.setTableEntry t l2BasePhys (calcIndexL2 va) (makeBlockDesc pa)) :=
    ht.setBehind (by decide) 21 va _
  have root (t : Tables) (ht : t.allocated = 0#64) : Rooted (Mmu.setTableEntry t l0BasePhys
      (calcIndexL0 physKernelBase) (makeTableDesc l1BasePhys)) :=
    ⟨load64_store64 t.mem l0BasePhys _, fun hne => absurd ht hne⟩
  unfold mmuInit
  iterate 8 apply block
  apply l1Entry
  apply l1Entry
  exact root _ (by simpa only [setTableEntry_allocated, clearTable_allocated] using h)

theorem zeroFill_of_not_within {link : Symbols} (hfits : link.start + 512 * 10 ≤ 2 ^ 48)
    (m : Memory) {x : Word} (h : ¬ Within (BitVec.ofNat 64 link.start) (512 * 10) x) :
    mapPagetableEntry.zeroFill link m x = m x := by
  refine List.foldlRecOn (motive := fun m' : Memory => m' x = m x) _ _ rfl fun m' hm i hi => ?_
  rw [store8_of_ne ?_, hm]
  rintro rfl
  apply h
  have hlt : i < 512 * 10 := List.mem_range.mp hi
  have hstart : link.start = link.blockL2MemoryStart.toNat % 2 ^ 48 := toNat_lowMask _
  have hat : ((link.blockL2MemoryStart + BitVec.ofNat 64 i) &&& lowMask).toNat =
      link.start + i := by
    rw [toNat_lowMask, BitVec.toNat_add, BitVec.toNat_ofNat]
    omega
  unfold Within
  bv_omega

theorem load64_zeroFill {link : Symbols} (hfits : link.start + 512 * 10 ≤ 2 ^ 48)
    (m : Memory) {b : Word} (h : Apart (BitVec.ofNat 64 link.start) (512 * 10) b 8) :
    load64 (mapPagetableEntry.zeroFill link m) b = load64 m b :=
  load64_congr fun x hx => zeroFill_of_not_within hfits m fun ha => h x ha hx

theorem clearTable_of_not_within (t : Tables) {table x : Word}
    (high : table.toNat % 2 ^ 48 + 4096 ≤ 2 ^ 48)
    (h : ¬ Within (BitVec.ofNat 64 (table.toNat % 2 ^ 48)) 4096 x) :
    (clearTable t table).mem x = t.mem x := by
  unfold clearTable
  apply storeAll_of_not_within
  intro w hw hx
  obtain ⟨i, hi, rfl⟩ := List.mem_map.mp hw
  have hlt : i < 512 := List.mem_range.mp hi
  have hidx : (BitVec.ofNat 64 i).toNat = i := by
    rw [BitVec.toNat_ofNat]
    omega
  have hidx' : (BitVec.ofNat 64 i).toNat < 512 := by omega
  have haddr := toNat_entryAddress hidx' high
  apply h
  unfold Within at hx ⊢
  bv_omega

theorem load64_clearTable (t : Tables) {table b : Word}
    (high : table.toNat % 2 ^ 48 + 4096 ≤ 2 ^ 48)
    (h : Apart (BitVec.ofNat 64 (table.toNat % 2 ^ 48)) 4096 b 8) :
    load64 (clearTable t table).mem b = load64 t.mem b :=
  load64_congr fun x hx => clearTable_of_not_within t high fun ha => h x ha hx

theorem load64_clearTable_slot (t : Tables) {table : Word} (aligned : table.toNat % 8 = 0)
    (room : table.toNat + 4096 ≤ 2 ^ 48) (below : Nat) (va : Word) :
    load64 (clearTable t table).mem (PageWalk.slot below va table) = 0#64 := by
  have hindex := PageWalk.index_lt below va
  have hslot : (PageWalk.slot below va table).toNat = _ := PageWalk.slot_toNat (by omega)
  have haddr (i : Nat) (hi : i < 512) :
      (entryAddress table (BitVec.ofNat 64 i)).toNat = table.toNat + 8 * i := by
    have hidx : (BitVec.ofNat 64 i).toNat = i := by
      rw [BitVec.toNat_ofNat]
      omega
    rw [toNat_entryAddress (by omega) (by omega), hidx]
    omega
  unfold clearTable
  apply load64_storeAll_of_mem
  · refine List.mem_map.mpr ⟨PageWalk.index below va, List.mem_range.mpr hindex, ?_⟩
    have heq : entryAddress table (BitVec.ofNat 64 (PageWalk.index below va)) =
        PageWalk.slot below va table :=
      BitVec.eq_of_toNat_eq ((haddr _ hindex).trans hslot.symm)
    rw [heq]
  · intro w hw
    obtain ⟨i, hi, rfl⟩ := List.mem_map.mp hw
    have hi' := haddr i (List.mem_range.mp hi)
    by_cases hsame : i = PageWalk.index below va
    · left
      have heq : entryAddress table (BitVec.ofNat 64 i) = PageWalk.slot below va table :=
        BitVec.eq_of_toNat_eq (by omega)
      rw [heq]
    · right
      apply apart_of_aligned (by dsimp only; omega) (by omega)
      intro heq
      have hnat := congrArg BitVec.toNat heq
      dsimp only at hnat
      omega

def heapEntry : Word × Word := (l1BasePhys + 24#64, makeTableDesc l2Index3BasePhys)

theorem first_stored (link : Symbols) (t : Tables) :
    (mapPagetableEntry.first link t 3#64).stored = t.stored ++ [heapEntry] := by
  unfold mapPagetableEntry.first clearTable
  rfl

theorem first_mem (link : Symbols) (t : Tables) :
    (mapPagetableEntry.first link t 3#64).mem =
      store64 (clearTable ⟨mapPagetableEntry.zeroFill link t.mem, t.allocated, t.stored⟩
        l3Index0BasePhys).mem (l1BasePhys + 24#64) (makeTableDesc l2Index3BasePhys) := by
  unfold mapPagetableEntry.first
  rfl

theorem Rooted.first {t : Tables} (h : Rooted t) (link : Link) :
    Rooted (mapPagetableEntry.first link t 3#64) := by
  have hstart : (BitVec.ofNat 64 link.start).toNat = link.start := by
    have hlt : link.start < 2 ^ 64 := BitVec.isLt _
    rw [BitVec.toNat_ofNat, Nat.mod_eq_of_lt hlt]
  have hfits : link.start + 512 * 10 ≤ 2 ^ 48 := link.fits
  have hfill : Apart (BitVec.ofNat 64 link.start) (512 * 10) l0BasePhys 8 := by
    rcases link.apart l0BasePhys (by simp [hardCodedTables]) with below | above
    · exact apart_of_le (by rwa [hstart]) (by decide)
    · refine (apart_of_le ?_ (by omega)).symm
      rw [hstart]
      exact Nat.le_trans (by decide) above
  refine ⟨?_, fun _ => ?_⟩
  · rw [first_mem, load64_store64_apart (apart_of_le (by decide) (by decide)).symm,
      load64_clearTable _ (by decide) (apart_of_le (by decide) (by decide)).symm,
      load64_zeroFill hfits _ hfill, h.l0]
  · rw [first_mem, load64_store64]

end KernelFuzzing.Mmu
