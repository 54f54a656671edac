import KernelFuzzing.Foundation.Memory

/-! The translation table walk of the ARMv8 4 KiB granule with a 48-bit address:
four levels of 512 descriptors, each level taking nine bits of the address. -/
namespace KernelFuzzing.Foundation.PageWalk
open Memory

structure Leaf where
  level : Nat
  slot : Word
  desc : Word
deriving DecidableEq

/-- The nine address bits that select the entry of a table with `below` levels below it. -/
def index (below : Nat) (va : Word) : Nat := va.toNat / 2 ^ (12 + 9 * below) % 512

def slot (below : Nat) (va table : Word) : Word := table + BitVec.ofNat 64 (8 * index below va)

/-- The next table of a table descriptor and the frame of a page descriptor: bits 47:12. -/
def address (desc : Word) : Word := BitVec.ofNat 64 (desc.toNat / 4096 % 2 ^ 36 * 4096)

def walkFrom (m : Memory) (va : Word) : Nat → Word → Option Leaf
  | 0, table =>
      let desc := load64 m (slot 0 va table)
      if desc.getLsbD 0 ∧ desc.getLsbD 1 then some ⟨3, slot 0 va table, desc⟩ else none
  | below + 1, table =>
      let desc := load64 m (slot (below + 1) va table)
      if !desc.getLsbD 0 then none
      else if desc.getLsbD 1 then walkFrom m va below (address desc)
      -- a block, which level 0 has not
      else if below = 2 then none
      else some ⟨2 - below, slot (below + 1) va table, desc⟩

def walk (m : Memory) (root va : Word) : Option Leaf := walkFrom m va 3 root

def MapsPage (m : Memory) (root va frame : Word) : Prop :=
  ∃ leaf, walk m root va = some leaf ∧ leaf.level = 3 ∧ address leaf.desc = frame

theorem index_lt (below : Nat) (va : Word) : index below va < 512 := Nat.mod_lt _ (by decide)

theorem slot_congr {below : Nat} {va va' : Word} (h : index below va = index below va')
    (table : Word) : slot below va table = slot below va' table := by
  rw [slot, slot, h]

theorem walkFrom_table {m : Memory} {below : Nat} {va table desc : Word}
    (h : load64 m (slot (below + 1) va table) = desc) (valid : desc.getLsbD 0 = true)
    (next : desc.getLsbD 1 = true) :
    walkFrom m va (below + 1) table = walkFrom m va below (address desc) := by
  simp only [walkFrom, h, valid, next, Bool.not_true, Bool.false_eq_true, if_false, if_true]

theorem walkFrom_block {m : Memory} {below : Nat} {va table desc : Word}
    (h : load64 m (slot (below + 1) va table) = desc) (valid : desc.getLsbD 0 = true)
    (block : desc.getLsbD 1 = false) (hbelow : below ≠ 2) :
    walkFrom m va (below + 1) table = some ⟨2 - below, slot (below + 1) va table, desc⟩ := by
  simp only [walkFrom, h, valid, block, Bool.not_true, Bool.false_eq_true, if_false, hbelow]

theorem walkFrom_index {m : Memory} {va va' : Word} {below : Nat}
    (h : ∀ b ≤ below, index b va = index b va') (table : Word) :
    walkFrom m va below table = walkFrom m va' below table := by
  induction below generalizing table with
  | zero => simp only [walkFrom, slot_congr (h 0 (Nat.le_refl 0))]
  | succ below ih =>
    have hslot := slot_congr (h (below + 1) (Nat.le_refl _)) table
    have hnext := ih fun b hb => h b (Nat.le_succ_of_le hb)
    simp only [walkFrom, hslot, hnext]

theorem toNat_address (desc : Word) :
    (address desc).toNat = desc.toNat / 4096 % 2 ^ 36 * 4096 := by
  rw [address, BitVec.toNat_ofNat]
  omega

theorem slot_toNat {below : Nat} {va table : Word} (h : table.toNat + 4096 ≤ 2 ^ 64) :
    (slot below va table).toNat = table.toNat + 8 * index below va := by
  have hindex := index_lt below va
  rw [slot, BitVec.toNat_add, BitVec.toNat_ofNat]
  omega

/-- A level 2 descriptor covers 2 MiB, a level 1 descriptor 1 GiB. -/
def Leaf.spanBits (leaf : Leaf) : Nat := 12 + 9 * (3 - leaf.level)

def Leaf.output (leaf : Leaf) (va : Word) : Word :=
  BitVec.ofNat 64 (leaf.desc.toNat % 2 ^ 48 / 2 ^ leaf.spanBits * 2 ^ leaf.spanBits +
    va.toNat % 2 ^ leaf.spanBits)

@[simp] theorem Leaf.output_two (slot desc va : Word) :
    (Leaf.mk 2 slot desc).output va =
      BitVec.ofNat 64 (desc.toNat % 2 ^ 48 / 2 ^ 21 * 2 ^ 21 + va.toNat % 2 ^ 21) := rfl

def translate (m : Memory) (root va : Word) : Option Word :=
  (walk m root va).map fun leaf => leaf.output va

/-- The walk of an access from EL0: the descriptor it ends at has bit 6, AP[1], and no table
descriptor on the way has bit 61, APTable[0]. -/
def userFrom (m : Memory) (va : Word) : Nat → Word → Option Leaf
  | 0, table =>
      let desc := load64 m (slot 0 va table)
      if desc.getLsbD 0 ∧ desc.getLsbD 1 ∧ desc.getLsbD 6 then some ⟨3, slot 0 va table, desc⟩
      else none
  | below + 1, table =>
      let desc := load64 m (slot (below + 1) va table)
      if !desc.getLsbD 0 then none
      else if desc.getLsbD 1 then
        if desc.getLsbD 61 then none else userFrom m va below (address desc)
      else if below = 2 ∨ !desc.getLsbD 6 then none
      else some ⟨2 - below, slot (below + 1) va table, desc⟩

def userTranslate (m : Memory) (root va : Word) : Option Word :=
  (userFrom m va 3 root).map fun leaf => leaf.output va

section
variable {m : Memory} {va table : Word} {below : Nat}

theorem userFrom_invalid (h : (load64 m (slot below va table)).getLsbD 0 ≠ true) :
    userFrom m va below table = none := by
  cases below with
  | zero => exact if_neg fun hvalid => h hvalid.1
  | succ below => exact if_pos (by simpa using h)

theorem userFrom_table {desc : Word} (h : load64 m (slot (below + 1) va table) = desc)
    (valid : desc.getLsbD 0 = true) (next : desc.getLsbD 1 = true)
    (permits : desc.getLsbD 61 = false) :
    userFrom m va (below + 1) table = userFrom m va below (address desc) := by
  simp only [userFrom, h, valid, next, permits, Bool.not_true, Bool.false_eq_true, if_false,
    if_true]

theorem userFrom_page {desc : Word} (h : load64 m (slot 0 va table) = desc)
    (page : desc.getLsbD 0 = true ∧ desc.getLsbD 1 = true ∧ desc.getLsbD 6 = true) :
    userFrom m va 0 table = some ⟨3, slot 0 va table, desc⟩ := by
  unfold userFrom
  rw [h]
  exact if_pos page

theorem walkFrom_of_userFrom {leaf : Leaf} (h : userFrom m va below table = some leaf) :
    walkFrom m va below table = some leaf ∧ leaf.desc.getLsbD 6 = true := by
  induction below generalizing table with
  | zero =>
    rw [userFrom, Option.ite_none_right_eq_some] at h
    obtain ⟨⟨h0, h1, h6⟩, hleaf⟩ := h
    rw [walkFrom, if_pos ⟨h0, h1⟩]
    exact ⟨hleaf, Option.some.inj hleaf ▸ h6⟩
  | succ below ih =>
    simp only [userFrom, Option.ite_none_left_eq_some] at h
    obtain ⟨hvalid, h⟩ := h
    simp only [walkFrom, if_neg hvalid]
    split at h
    next htable =>
      rw [Option.ite_none_left_eq_some] at h
      rw [if_pos htable]
      exact ih h.2
    next hblock =>
      rw [Option.ite_none_left_eq_some] at h
      obtain ⟨hpermits, hleaf⟩ := h
      rw [if_neg hblock, if_neg fun htop => hpermits (.inl htop)]
      refine ⟨hleaf, ?_⟩
      rw [← Option.some.inj hleaf]
      simpa using fun h6 => hpermits (.inr h6)

end

section
variable (m : Memory) (tables : Nat → Word) (va : Word)

def descAt (below : Nat) : Word := load64 m (slot below va (tables below))

/-- Where the address has a valid table descriptor in `tables (below + 1)`, it leads to
`tables below`. -/
def Chained : Prop :=
  ∀ below < 3, (descAt m tables va (below + 1)).getLsbD 0 = true →
    (descAt m tables va (below + 1)).getLsbD 1 = true →
    address (descAt m tables va (below + 1)) = tables below

/-- Where the address has a valid descriptor in `tables (below + 1)`, it is one of a table. -/
def Blockless : Prop :=
  ∀ below < 3, (descAt m tables va (below + 1)).getLsbD 0 = true →
    (descAt m tables va (below + 1)).getLsbD 1 = true

end

section
variable {m m' : Memory} {tables : Nat → Word} {va : Word}

theorem descAt_congr {va' : Word} {below : Nat} (h : index below va = index below va') :
    descAt m tables va below = descAt m tables va' below := by
  rw [descAt, descAt, slot_congr h]

theorem walkFrom_congr (chained : Chained m tables va)
    (same : ∀ below ≤ 3, descAt m tables va below = descAt m' tables va below)
    {below : Nat} (hbelow : below ≤ 3) :
    walkFrom m va below (tables below) = walkFrom m' va below (tables below) := by
  induction below with
  | zero =>
    have hsame := same 0 hbelow
    unfold descAt at hsame
    simp only [walkFrom, hsame]
  | succ below ih =>
    have hsame := same (below + 1) hbelow
    have hnext := chained below (by omega)
    unfold descAt at hsame hnext
    simp only [walkFrom, ← hsame]
    split
    · rfl
    next hvalid =>
      split
      next htable => rw [hnext (by simpa using hvalid) htable, ih (by omega)]
      next => rfl

theorem walkFrom_invalid (tables : Nat → Word) (below : Nat)
    (h : ¬ (descAt m tables va (below + 1)).getLsbD 0 = true) :
    walkFrom m va (below + 1) (tables (below + 1)) = none := by
  unfold descAt at h
  simp only [walkFrom]
  rw [if_pos (by simpa using h)]

theorem walkFrom_eq_some_iff (chained : Chained m tables va) (blockless : Blockless m tables va)
    {leaf : Leaf} {n : Nat} (hn : n ≤ 3) :
    walkFrom m va n (tables n) = some leaf ↔
      (∀ below < n, (descAt m tables va (below + 1)).getLsbD 0 = true) ∧
        walkFrom m va 0 (tables 0) = some leaf := by
  induction n with
  | zero => simp
  | succ n ih =>
    have hchain := chained n (by omega)
    have htable := blockless n (by omega)
    rw [Nat.forall_lt_succ_right, and_right_comm, ← ih (by omega)]
    by_cases hvalid : (descAt m tables va (n + 1)).getLsbD 0 = true
    · have hnext := htable hvalid
      have hstep : walkFrom m va (n + 1) (tables (n + 1)) = _ := walkFrom_table rfl hvalid hnext
      rw [hstep, ← descAt, hchain hvalid hnext]
      exact (and_iff_left hvalid).symm
    · rw [walkFrom_invalid tables n hvalid]
      exact iff_of_false (by simp) fun h => hvalid h.2

theorem mapsPage_iff (chained : Chained m tables va) (blockless : Blockless m tables va)
    (frame : Word) :
    MapsPage m (tables 3) va frame ↔
      (∀ below < 3, (descAt m tables va (below + 1)).getLsbD 0 = true) ∧
        (descAt m tables va 0).getLsbD 0 = true ∧ (descAt m tables va 0).getLsbD 1 = true ∧
        address (descAt m tables va 0) = frame := by
  simp only [MapsPage, walk, walkFrom_eq_some_iff chained blockless (le_refl 3)]
  constructor
  · rintro ⟨leaf, ⟨hvalid, hleaf⟩, -, haddress⟩
    rw [walkFrom, Option.ite_none_right_eq_some] at hleaf
    obtain ⟨⟨h0, h1⟩, hleaf⟩ := hleaf
    rw [← Option.some.inj hleaf] at haddress
    exact ⟨hvalid, h0, h1, haddress⟩
  · rintro ⟨hvalid, h0, h1, haddress⟩
    refine ⟨⟨3, slot 0 va (tables 0), descAt m tables va 0⟩, ⟨hvalid, ?_⟩, rfl, haddress⟩
    rw [walkFrom]
    exact if_pos ⟨h0, h1⟩

end

end KernelFuzzing.Foundation.PageWalk
