import Mathlib.Data.List.Range
import Mathlib.Logic.Function.Basic
import KernelFuzzing.Foundation.Memory

/-! The page bitmap of core/mmu.c: one bit per 4 KiB page, scanned byte by byte
from the start. A page is named below by its position, eight times the byte
index plus the bit. -/
namespace KernelFuzzing.Mmu
open Foundation

/-- The bytes behind `mem->buffer`, by index. -/
structure AllocateMem where
  buffer : Nat → Byte

structure BitIndex where
  index : Word
  bit : Byte
  valid : Bool
deriving DecidableEq

/-- A `BitIndex res[]` array of the caller, with whatever it held before. -/
abbrev BitIndexArray := Nat → BitIndex

def checkFree (mem : AllocateMem) (index : Word) (bit : Byte) : Bool :=
  let temp := mem.buffer index.toNat
  let v : Byte := 1#8 <<< bit.toNat
  if temp &&& v ≠ 0 then false else true

def deallocateMem (mem : AllocateMem) (index : Word) (bit : Byte) :
    Bool × AllocateMem :=
  if checkFree mem index bit then (true, mem)
  else
    -- `v = 0; v << bit` is zero: the whole byte is stored as zero
    let v : Byte := 0#8 <<< bit.toNat
    let mem' : AllocateMem := ⟨Function.update mem.buffer index.toNat v⟩
    (checkFree mem' index bit, mem')

/-- The scan of `findFree` from a byte index and a bit, which counts modulo 256
as `uint8_t` does. -/
def findFree.loop (mem : AllocateMem) (index : Word) (bit : Byte) : BitIndex :=
  if h : index ≤ 16385#64 then
    if checkFree mem index bit then ⟨index, bit, true⟩
    else if hb : bit + 1 = 8#8 then findFree.loop mem (index + 1) 0
    else findFree.loop mem index (bit + 1)
  else ⟨0, 0, false⟩
termination_by (16386 - index.toNat, (7 - bit).toNat)
decreasing_by
  · exact Prod.Lex.left _ _ (by bv_omega)
  · exact Prod.Lex.right _ (by bv_omega)

def findFree (mem : AllocateMem) : BitIndex := findFree.loop mem 0 0

/-- The variables of `setBitmap` that its loop changes. -/
structure SetBitmap where
  mem : AllocateMem
  res : BitIndexArray
  t : Word

def setBitmap.body (st : SetBitmap) (i : Nat) : SetBitmap :=
  let val := findFree st.mem
  if val.valid then
    let temp := st.mem.buffer val.index.toNat
    let v : Byte := 1#8 <<< val.bit.toNat
    { mem := ⟨Function.update st.mem.buffer val.index.toNat (temp ||| v)⟩
      res := Function.update st.res i val
      t := st.t + 1 }
  else st

def setBitmap (mem : AllocateMem) (size : Word) (res : BitIndexArray) :
    Bool × AllocateMem × BitIndexArray :=
  let st := (List.range size.toNat).foldl setBitmap.body ⟨mem, res, 0⟩
  (if st.t = size then true else false, st.mem, st.res)

def allocateMem (mem : AllocateMem) (size : Word) (res : BitIndexArray) :
    Word × AllocateMem × BitIndexArray :=
  if size < 4096#64 then
    let (ok, mem, res) := setBitmap mem 1#64 res
    (if ok then 1#64 else 0#64, mem, res)
  else
    let val := size / 4096#64
    let rem := size % 4096#64
    let val := if val > 0#64 ∧ rem > 0#64 then val + 1#64 else val
    let (ok, mem, res) := setBitmap mem val res
    (if ok then val else 0#64, mem, res)

def freePages (mem : AllocateMem) (res : BitIndexArray) (size : Word) : AllocateMem :=
  (List.range size.toNat).foldl
    (fun mem i => (deallocateMem mem (res i).index (res i).bit).2) mem

/-- The number of positions that `findFree` scans. -/
def scanned : Nat := 16386 * 8

theorem scanned_eq : scanned = 131088 := rfl

-- a hundred thousand positions are never to be listed by unfolding
attribute [irreducible] scanned

def BitIndex.position (b : BitIndex) : Nat := b.index.toNat * 8 + b.bit.toNat

def BitIndex.ofPosition (p : Nat) : BitIndex :=
  ⟨BitVec.ofNat 64 (p / 8), BitVec.ofNat 8 (p % 8), true⟩

def AllocateMem.used (mem : AllocateMem) (p : Nat) : Bool :=
  (mem.buffer (p / 8)).getLsbD (p % 8)

/-- The free pages of the scanned range, lowest first. -/
def AllocateMem.available (mem : AllocateMem) : List Nat :=
  (List.range scanned).filter fun p => !mem.used p

def AllocateMem.mark (mem : AllocateMem) (p : Nat) : AllocateMem :=
  ⟨Function.update mem.buffer (p / 8) (mem.buffer (p / 8) ||| 1#8 <<< (p % 8))⟩

def BitIndex.first : List Nat → BitIndex
  | [] => ⟨0, 0, false⟩
  | p :: _ => BitIndex.ofPosition p

theorem position_ofPosition {p : Nat} (hp : p < 2 ^ 64) :
    (BitIndex.ofPosition p).position = p := by
  simp only [BitIndex.position, BitIndex.ofPosition, BitVec.toNat_ofNat]
  omega

theorem checkFree_eq (mem : AllocateMem) (index : Word) (bit : Byte)
    (hbit : bit.toNat < 8) :
    checkFree mem index bit = !mem.used (index.toNat * 8 + bit.toNat) := by
  have hdiv : (index.toNat * 8 + bit.toNat) / 8 = index.toNat := by omega
  have hmod : (index.toNat * 8 + bit.toNat) % 8 = bit.toNat := by omega
  have hmask : (1#8 <<< bit.toNat) ≠ 0#8 := by
    intro h
    have hone := congrArg (fun v => BitVec.getLsbD v bit.toNat) h
    rw [← BitVec.twoPow_eq] at hone
    simp [hbit] at hone
  unfold checkFree AllocateMem.used
  rw [hdiv, hmod]
  rw [← BitVec.twoPow_eq] at hmask
  simp only [← BitVec.twoPow_eq, BitVec.and_twoPow]
  split <;> simp_all

theorem index_le {p : Nat} (hp : p < scanned) : BitVec.ofNat 64 (p / 8) ≤ 16385#64 := by
  rw [scanned_eq] at hp
  rw [BitVec.le_def]
  simp only [BitVec.toNat_ofNat]
  omega

theorem checkFree_position (mem : AllocateMem) {p : Nat} (hp : p < scanned) :
    checkFree mem (BitVec.ofNat 64 (p / 8)) (BitVec.ofNat 8 (p % 8)) = !mem.used p := by
  rw [scanned_eq] at hp
  have hindex : (BitVec.ofNat 64 (p / 8)).toNat = p / 8 := by
    rw [BitVec.toNat_ofNat]
    omega
  have hbit : (BitVec.ofNat 8 (p % 8)).toNat = p % 8 := by
    rw [BitVec.toNat_ofNat]
    omega
  rw [checkFree_eq _ _ _ (by omega), hindex, hbit, Nat.div_add_mod' p 8]

theorem next_position {p : Nat} (hp : p < scanned) :
    (BitVec.ofNat 8 (p % 8) + 1 = 8#8 ∧
      BitVec.ofNat 64 (p / 8) + 1 = BitVec.ofNat 64 ((p + 1) / 8) ∧
      BitVec.ofNat 8 ((p + 1) % 8) = 0) ∨
    (BitVec.ofNat 8 (p % 8) + 1 ≠ 8#8 ∧ BitVec.ofNat 64 ((p + 1) / 8) = BitVec.ofNat 64 (p / 8) ∧
      BitVec.ofNat 8 (p % 8) + 1 = BitVec.ofNat 8 ((p + 1) % 8)) := by
  rw [scanned_eq] at hp
  by_cases hseven : p % 8 = 7
  · left
    refine ⟨by bv_omega, by bv_omega, by bv_omega⟩
  · right
    refine ⟨by bv_omega, by bv_omega, by bv_omega⟩

private theorem findFree_loop_eq (mem : AllocateMem) (k p : Nat)
    (h : p + k = scanned) :
    findFree.loop mem (BitVec.ofNat 64 (p / 8)) (BitVec.ofNat 8 (p % 8)) =
      BitIndex.first ((List.range' p k).filter fun p => !mem.used p) := by
  induction k generalizing p with
  | zero =>
    have hend : p = 131088 := h.trans scanned_eq
    subst hend
    rw [findFree.loop]
    rfl
  | succ k ih =>
    have hp : p < scanned := by omega
    have next := ih (p + 1) (by omega)
    rw [findFree.loop, dif_pos (index_le hp), checkFree_position mem hp, List.range'_succ,
      List.filter_cons]
    cases mem.used p with
    | false => rfl
    | true =>
      simp only [Bool.not_true, Bool.false_eq_true, if_false]
      rw [← next]
      rcases next_position hp with ⟨hcarry, hindex, hbit⟩ | ⟨hcarry, hindex, hbit⟩
      · rw [dif_pos hcarry, hindex, hbit]
      · rw [dif_neg hcarry, hindex, hbit]

theorem findFree_eq (mem : AllocateMem) :
    findFree mem = BitIndex.first mem.available := by
  have h := findFree_loop_eq mem scanned 0 (by omega)
  rwa [← List.range_eq_range'] at h

def AllocateMem.markAll (mem : AllocateMem) (ps : List Nat) : AllocateMem :=
  ps.foldl AllocateMem.mark mem

/-- The array after the results for `ps` were stored from entry `k` on. -/
def BitIndexArray.storeAll (res : BitIndexArray) (k : Nat) : List Nat → BitIndexArray
  | [] => res
  | p :: ps => BitIndexArray.storeAll (Function.update res k (.ofPosition p)) (k + 1) ps

theorem markAll_cons (mem : AllocateMem) (p : Nat) (ps : List Nat) :
    mem.markAll (p :: ps) = (mem.mark p).markAll ps := rfl

theorem storeAll_cons (res : BitIndexArray) (k p : Nat) (ps : List Nat) :
    res.storeAll k (p :: ps) =
      BitIndexArray.storeAll (Function.update res k (.ofPosition p)) (k + 1) ps := rfl

theorem used_mark (mem : AllocateMem) (p q : Nat) :
    (mem.mark p).used q = (mem.used q || decide (q = p)) := by
  simp only [AllocateMem.used, AllocateMem.mark]
  by_cases hbyte : q / 8 = p / 8
  · have hbit : (p % 8 = q % 8) ↔ q = p := by omega
    simp only [hbyte, Function.update_self, ← BitVec.twoPow_eq, BitVec.getLsbD_or,
      BitVec.getLsbD_twoPow, hbit]
    rw [decide_eq_true (by omega : p % 8 < 8), Bool.true_and]
  · have hne : q ≠ p := fun h => hbyte (by rw [h])
    rw [Function.update_of_ne hbyte, decide_eq_false hne, Bool.or_false]

theorem used_markAll (mem : AllocateMem) (ps : List Nat) (q : Nat) :
    (mem.markAll ps).used q = (mem.used q || decide (q ∈ ps)) := by
  induction ps generalizing mem with
  | nil => simp [AllocateMem.markAll]
  | cons p ps ih =>
    rw [markAll_cons, ih, used_mark]
    by_cases hq : q = p <;> simp [hq]

theorem mem_available {mem : AllocateMem} {p : Nat} :
    p ∈ mem.available ↔ p < scanned ∧ mem.used p = false := by
  simp [AllocateMem.available]

theorem available_pairwise (mem : AllocateMem) : mem.available.Pairwise (· < ·) :=
  List.pairwise_lt_range.filter _

theorem available_nodup (mem : AllocateMem) : mem.available.Nodup :=
  (available_pairwise mem).imp Nat.ne_of_lt

def AllocateMem.empty : AllocateMem := ⟨fun _ => 0#8⟩

theorem available_empty : AllocateMem.empty.available = List.range scanned := by
  rw [AllocateMem.available, List.filter_eq_self]
  intro p _
  simp [AllocateMem.empty, AllocateMem.used]

theorem available_mark {mem : AllocateMem} (h : mem.available = p :: rest) :
    (mem.mark p).available = rest := by
  have hnodup := available_nodup mem
  rw [h, List.nodup_cons] at hnodup
  have hfilter : (mem.mark p).available = mem.available.filter (· != p) := by
    rw [AllocateMem.available, AllocateMem.available, List.filter_filter]
    apply List.filter_congr
    intro q _
    rw [used_mark]
    by_cases hq : q = p <;> simp [hq]
  rw [hfilter, h, List.filter_cons]
  simp only [bne_self_eq_false, Bool.false_eq_true, if_false]
  rw [List.filter_eq_self]
  intro q hq
  simpa using fun hqp : q = p => hnodup.1 (hqp ▸ hq)

theorem available_markAll_take (mem : AllocateMem) (n : Nat) :
    (mem.markAll (mem.available.take n)).available = mem.available.drop n := by
  induction n generalizing mem with
  | zero => simp [AllocateMem.markAll]
  | succ n ih =>
    cases h : mem.available with
    | nil => simp [AllocateMem.markAll, h]
    | cons p rest =>
      have next := ih (mem.mark p)
      rw [available_mark h] at next
      simpa [AllocateMem.markAll] using next

theorem storeAll_of_lt (res : BitIndexArray) (ps : List Nat) {j k : Nat} (h : j < k) :
    res.storeAll k ps j = res j := by
  induction ps generalizing res k with
  | nil => rfl
  | cons p ps ih =>
    rw [BitIndexArray.storeAll, ih _ (by omega), Function.update_of_ne (by omega)]

theorem storeAll_getElem (res : BitIndexArray) (ps : List Nat) (k i : Nat)
    (hi : i < ps.length) : res.storeAll k ps (k + i) = .ofPosition ps[i] := by
  induction ps generalizing res k i with
  | nil => simp at hi
  | cons p ps ih =>
    cases i with
    | zero =>
      rw [BitIndexArray.storeAll, storeAll_of_lt _ _ (by omega)]
      simp
    | succ i =>
      have next := ih (Function.update res k (.ofPosition p)) (k + 1) i (by simpa using hi)
      rw [BitIndexArray.storeAll, show k + (i + 1) = k + 1 + i by omega, next]
      simp

private theorem setBitmap_body_of_free (mem : AllocateMem) (res : BitIndexArray)
    (t : Word) (i : Nat) (h : mem.available = p :: rest) :
    setBitmap.body ⟨mem, res, t⟩ i =
      ⟨mem.mark p, Function.update res i (.ofPosition p), t + 1⟩ := by
  have hmem : p ∈ mem.available := by
    rw [h]
    exact List.mem_cons_self
  have hp : p < 131088 := by
    rw [← scanned_eq]
    exact (mem_available.mp hmem).1
  have hindex : (BitVec.ofNat 64 (p / 8)).toNat = p / 8 := by
    rw [BitVec.toNat_ofNat]
    omega
  have hbit : (BitVec.ofNat 8 (p % 8)).toNat = p % 8 := by
    rw [BitVec.toNat_ofNat]
    omega
  have hval : findFree mem = ⟨BitVec.ofNat 64 (p / 8), BitVec.ofNat 8 (p % 8), true⟩ := by
    rw [findFree_eq, h]
    rfl
  unfold setBitmap.body
  rw [hval]
  simp only [if_true, hindex, hbit, AllocateMem.mark, BitIndex.ofPosition,
    BitVec.ofNat_eq_ofNat]

private theorem setBitmap_loop_eq (n k : Nat) (mem : AllocateMem) (res : BitIndexArray)
    (t : Word) :
    (List.range' k n).foldl setBitmap.body ⟨mem, res, t⟩ =
      ⟨mem.markAll (mem.available.take n), res.storeAll k (mem.available.take n),
        t + BitVec.ofNat 64 (mem.available.take n).length⟩ := by
  induction n generalizing k mem res t with
  | zero => simp [AllocateMem.markAll, BitIndexArray.storeAll]
  | succ n ih =>
    rw [List.range'_succ, List.foldl_cons]
    cases h : mem.available with
    | nil =>
      have hval : findFree mem = ⟨0, 0, false⟩ := by
        rw [findFree_eq, h]
        rfl
      have hbody : setBitmap.body ⟨mem, res, t⟩ k = ⟨mem, res, t⟩ := by
        unfold setBitmap.body
        rw [hval]
        rfl
      rw [hbody, ih, h]
      simp [BitIndexArray.storeAll]
    | cons p rest =>
      rw [setBitmap_body_of_free mem res t k h, ih, available_mark h]
      have ht : t + 1 + BitVec.ofNat 64 (rest.take n).length =
          t + BitVec.ofNat 64 ((rest.take n).length + 1) := by
        rw [BitVec.ofNat_add, BitVec.add_assoc, BitVec.add_comm 1]
        rfl
      rw [List.take_succ_cons, List.length_cons, ht, markAll_cons, storeAll_cons]

theorem mem_after_rounds (mem : AllocateMem) (res : BitIndexArray) (i : Nat) :
    ((List.range i).foldl setBitmap.body ⟨mem, res, 0⟩).mem =
      mem.markAll (mem.available.take i) := by
  rw [List.range_eq_range', setBitmap_loop_eq]

theorem setBitmap_eq (mem : AllocateMem) (size : Word) (res : BitIndexArray) :
    setBitmap mem size res =
      (decide (size.toNat ≤ mem.available.length),
        mem.markAll (mem.available.take size.toNat),
        res.storeAll 0 (mem.available.take size.toNat)) := by
  have hsize := size.isLt
  unfold setBitmap
  rw [List.range_eq_range', setBitmap_loop_eq]
  have hcount : (0 + BitVec.ofNat 64 (mem.available.take size.toNat).length = size) ↔
      size.toNat ≤ mem.available.length := by
    rw [List.length_take]
    constructor
    · intro h
      bv_omega
    · intro h
      bv_omega
  simp only [hcount]
  by_cases h : size.toNat ≤ mem.available.length <;> simp [h]

/-- The number of pages a request of `size` bytes takes. -/
def pageCount (size : Word) : Nat := max 1 ((size.toNat + 4095) / 4096)

theorem pageCount_pos (size : Word) : 0 < pageCount size := by
  unfold pageCount
  omega

theorem pageCount_lt (size : Word) : pageCount size < 2 ^ 64 := by
  have := size.isLt
  unfold pageCount
  omega

theorem toNat_pageCount (size : Word) :
    (BitVec.ofNat 64 (pageCount size)).toNat = pageCount size := by
  rw [BitVec.toNat_ofNat, Nat.mod_eq_of_lt (pageCount_lt size)]

/-- `allocateMem` takes the lowest free pages, as many as there are, and reports
their number exactly when there were enough. -/
theorem allocateMem_eq (mem : AllocateMem) (size : Word) (res : BitIndexArray) :
    allocateMem mem size res =
      (if pageCount size ≤ mem.available.length then BitVec.ofNat 64 (pageCount size) else 0#64,
        mem.markAll (mem.available.take (pageCount size)),
        res.storeAll 0 (mem.available.take (pageCount size))) := by
  have hsize := size.isLt
  unfold allocateMem
  split
  · rename_i hsmall
    have hone : pageCount size = 1 := by
      unfold pageCount
      bv_omega
    simp [setBitmap_eq, hone]
  · rename_i hlarge
    have hval : (if size / 4096#64 > 0#64 ∧ size % 4096#64 > 0#64
        then size / 4096#64 + 1#64 else size / 4096#64) = BitVec.ofNat 64 (pageCount size) := by
      have hcount := pageCount_lt size
      apply BitVec.eq_of_toNat_eq
      unfold pageCount at hcount ⊢
      rw [BitVec.toNat_ofNat, Nat.mod_eq_of_lt hcount]
      have hdiv : (size / 4096#64).toNat = size.toNat / 4096 := by simp
      have hmod : (size % 4096#64).toNat = size.toNat % 4096 := by simp
      have hge : 4096 ≤ size.toNat := by bv_omega
      simp only [gt_iff_lt, BitVec.lt_def, hdiv, hmod, BitVec.toNat_ofNat, Nat.zero_mod]
      split
      · rw [BitVec.toNat_add, hdiv, BitVec.toNat_ofNat]
        omega
      · rw [hdiv]
        omega
    simp only [hval, setBitmap_eq, toNat_pageCount, decide_eq_true_eq]

end KernelFuzzing.Mmu
