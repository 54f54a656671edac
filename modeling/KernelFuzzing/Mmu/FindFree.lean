import Mathlib.Data.Prod.Lex
import Mathlib.Order.Bounds.Basic
import KernelFuzzing.Mmu.BitmapSize

/-! The scan of `find_free` over a buffer that has an end: what it returns, and the
bytes it reads to find it. -/
namespace KernelFuzzing.Mmu
open Foundation

/-- A bitmap of as many bytes as were set aside for it, with the reads made so far. -/
structure Buffer where
  bytes : List Byte
  reads : List Nat

abbrev Scan := StateT Buffer Option

def Buffer.load (index : Word) : Scan Byte := fun buffer =>
  buffer.bytes[index.toNat]?.map fun byte =>
    (byte, { buffer with reads := buffer.reads ++ [index.toNat] })

def checkFree.scan (index : Word) (bit : Byte) : Scan Bool := do
  let temp ← Buffer.load index
  let v : Byte := 1#8 <<< bit.toNat
  if temp &&& v ≠ 0 then return false else return true

def findFree.scanFrom (index : Word) (bit : Byte) : Scan BitIndex := do
  if h : index ≤ 16385#64 then
    let i : BitIndex := ⟨index, bit, true⟩
    if ← checkFree.scan index bit then return i
    else if hb : bit + 1 = 8#8 then findFree.scanFrom (index + 1) 0
    else findFree.scanFrom index (bit + 1)
  else
    let r : BitIndex := ⟨0, 0, false⟩
    return r
termination_by (16386 - index.toNat, (7 - bit).toNat)
decreasing_by
  · exact Prod.Lex.left _ _ (by bv_omega)
  · exact Prod.Lex.right _ (by bv_omega)

def findFree.scan : Scan BitIndex := findFree.scanFrom 0 0

def AllocateMem.ofBytes (bytes : List Byte) : AllocateMem := ⟨fun i => bytes.getD i 0⟩

def freeBits (bytes : List Byte) : Set (ℕ ×ₗ ℕ) :=
  {q | (ofLex q).1 ≤ 16385 ∧ (ofLex q).2 < 8 ∧
    (bytes.getD (ofLex q).1 0).getLsbD (ofLex q).2 = false}

theorem checkFree_scan_run {buffer : Buffer} {index : Word}
    (h : index.toNat < buffer.bytes.length) (bit : Byte) :
    (checkFree.scan index bit).run buffer =
      some (checkFree (.ofBytes buffer.bytes) index bit,
        { buffer with reads := buffer.reads ++ [index.toNat] }) := by
  have hload : Buffer.load index buffer =
      some ((AllocateMem.ofBytes buffer.bytes).buffer index.toNat,
        { buffer with reads := buffer.reads ++ [index.toNat] }) := by
    simp [Buffer.load, AllocateMem.ofBytes, h]
  unfold checkFree.scan checkFree
  rw [StateT.run_bind, StateT.run, hload]
  simp only [Option.bind_eq_bind, Option.bind_some]
  split <;> rfl

theorem scanFrom_run (bytes : List Byte) (h : 16386 ≤ bytes.length) (index : Word) (bit : Byte)
    (reads : List Nat) :
    (findFree.scanFrom index bit).run ⟨bytes, reads⟩ =
      some (findFree.loop (.ofBytes bytes) index bit,
        ⟨bytes, reads ++ findFree.readsFrom (.ofBytes bytes) index bit⟩) := by
  fun_induction findFree.loop (.ofBytes bytes) index bit generalizing reads with
  | case1 index bit hle hfree =>
    rw [findFree.scanFrom, findFree.readsFrom, dif_pos hle, dif_pos hle, if_pos hfree,
      StateT.run_bind, checkFree_scan_run (by bv_omega), hfree]
    rfl
  | case2 index bit hle hused hcarry ih =>
    rw [findFree.scanFrom, findFree.readsFrom, dif_pos hle, dif_pos hle, if_neg hused,
      dif_pos hcarry, StateT.run_bind, checkFree_scan_run (by bv_omega)]
    simp only [Option.bind_eq_bind, Option.bind_some, if_neg hused, dif_pos hcarry, ih,
      List.append_assoc, List.singleton_append]
  | case3 index bit hle hused hcarry ih =>
    rw [findFree.scanFrom, findFree.readsFrom, dif_pos hle, dif_pos hle, if_neg hused,
      dif_neg hcarry, StateT.run_bind, checkFree_scan_run (by bv_omega)]
    simp only [Option.bind_eq_bind, Option.bind_some, if_neg hused, dif_neg hcarry, ih,
      List.append_assoc, List.singleton_append]
  | case4 index bit hend =>
    rw [findFree.scanFrom, findFree.readsFrom, dif_neg hend, dif_neg hend, List.append_nil]
    rfl

theorem used_ofBytes (bytes : List Byte) (i : Nat) {b : Nat} (h : b < 8) :
    (AllocateMem.ofBytes bytes).used (i * 8 + b) = (bytes.getD i 0).getLsbD b := by
  have hdiv : (i * 8 + b) / 8 = i := by omega
  have hmod : (i * 8 + b) % 8 = b := by omega
  rw [AllocateMem.used, hdiv, hmod]
  rfl

theorem mem_freeBits_iff (bytes : List Byte) (i b : Nat) :
    toLex (i, b) ∈ freeBits bytes ↔
      b < 8 ∧ i * 8 + b ∈ (AllocateMem.ofBytes bytes).available := by
  have hscanned := scanned_eq
  have hset : toLex (i, b) ∈ freeBits bytes ↔
      i ≤ 16385 ∧ b < 8 ∧ (bytes.getD i 0).getLsbD b = false := Iff.rfl
  rw [hset, mem_available]
  constructor
  · rintro ⟨hi, hb, hzero⟩
    exact ⟨hb, by omega, by rw [used_ofBytes _ _ hb, hzero]⟩
  · rintro ⟨hb, hlt, hfree⟩
    exact ⟨by omega, hb, by rw [← used_ofBytes _ _ hb, hfree]⟩

theorem isLeast_freeBits {bytes : List Byte}
    (h : (AllocateMem.ofBytes bytes).available = p :: rest) :
    IsLeast (freeBits bytes) (toLex (p / 8, p % 8)) := by
  constructor
  · rw [mem_freeBits_iff, Nat.div_add_mod', h]
    exact ⟨Nat.mod_lt _ (by decide), List.mem_cons_self⟩
  · intro q hq
    obtain ⟨i, b⟩ := q
    obtain ⟨hb, hmem⟩ := (mem_freeBits_iff bytes i b).mp hq
    have hsorted := available_pairwise (.ofBytes bytes)
    rw [h, List.pairwise_cons] at hsorted
    have hle : p ≤ i * 8 + b := by
      rw [h, List.mem_cons] at hmem
      rcases hmem with rfl | hmem
      · exact Nat.le_refl _
      · exact Nat.le_of_lt (hsorted.1 _ hmem)
    change toLex (p / 8, p % 8) ≤ toLex (i, b)
    rw [Prod.Lex.toLex_le_toLex]
    dsimp only
    omega

theorem freeBits_eq_empty_iff (bytes : List Byte) :
    freeBits bytes = ∅ ↔ (AllocateMem.ofBytes bytes).available = [] := by
  constructor
  · intro hempty
    cases h : (AllocateMem.ofBytes bytes).available with
    | nil => rfl
    | cons p rest =>
      have hleast := (isLeast_freeBits h).1
      rw [hempty] at hleast
      exact absurd hleast (Set.notMem_empty _)
  · intro hnil
    rw [Set.eq_empty_iff_forall_notMem]
    rintro ⟨i, b⟩ hq
    have hmem := ((mem_freeBits_iff bytes i b).mp hq).2
    rw [hnil] at hmem
    exact absurd hmem List.not_mem_nil

theorem freeBits_eq_empty_iff_full (bytes : List Byte) :
    freeBits bytes = ∅ ↔ ∀ i ≤ 16385, ∀ b < 8, (bytes.getD i 0).getLsbD b = true := by
  rw [Set.eq_empty_iff_forall_notMem]
  constructor
  · intro hempty i hi b hb
    by_contra hzero
    exact hempty (toLex (i, b)) ⟨hi, hb, by simpa using hzero⟩
  · rintro hfull q ⟨hi, hb, hzero⟩
    rw [hfull _ hi _ hb] at hzero
    exact absurd hzero (by decide)

/-- What a scan of the whole bitmap comes to. -/
structure FirstFree (bytes : List Byte) (r : BitIndex) (reads : List Nat) : Prop where
  least : r.valid = true →
    IsLeast (freeBits bytes) (toLex (r.index.toNat, r.bit.toNat))
  found : r.valid = true ↔ (freeBits bytes).Nonempty
  full : r.valid = false ↔ ∀ i ≤ 16385, ∀ b < 8, (bytes.getD i 0).getLsbD b = true
  inside : ∀ j ∈ reads, j < 16386

/-- The scan returns the first free bit, out of the scanned bytes alone and with the
buffer as it was. -/
theorem find_free_first (bytes : List Byte) (h : 16386 ≤ bytes.length) :
    ∃ r reads, findFree.scan.run ⟨bytes, []⟩ = some (r, ⟨bytes, reads⟩) ∧
      FirstFree bytes r reads := by
  have hscanned := scanned_eq
  refine ⟨findFree (.ofBytes bytes), findFree.reads (.ofBytes bytes),
    scanFrom_run bytes h 0 0 [], ?_⟩
  have hfound : (findFree (.ofBytes bytes)).valid = true ↔ (freeBits bytes).Nonempty := by
    rw [findFree_eq, Set.nonempty_iff_ne_empty, Ne, freeBits_eq_empty_iff]
    cases (AllocateMem.ofBytes bytes).available <;> simp [BitIndex.first, BitIndex.ofPosition]
  refine { found := hfound, least := fun hvalid => ?_, full := ?_, inside := fun j hj => ?_ }
  · cases havail : (AllocateMem.ofBytes bytes).available with
    | nil =>
      rw [hfound, Set.nonempty_iff_ne_empty, Ne, freeBits_eq_empty_iff] at hvalid
      exact absurd havail hvalid
    | cons p rest =>
      have hp := mem_available.mp (havail ▸ List.mem_cons_self)
      have hindex : (BitVec.ofNat 64 (p / 8)).toNat = p / 8 := by
        rw [BitVec.toNat_ofNat]
        omega
      have hbit : (BitVec.ofNat 8 (p % 8)).toNat = p % 8 := by
        rw [BitVec.toNat_ofNat]
        omega
      rw [findFree_eq, havail]
      simp only [BitIndex.first, BitIndex.ofPosition, hindex, hbit]
      exact isLeast_freeBits havail
  · rw [← freeBits_eq_empty_iff_full, ← Set.not_nonempty_iff_eq_empty, ← hfound,
      Bool.not_eq_true]
  · obtain ⟨q, hq, rfl, -⟩ := (BitmapSize.mem_reads_iff _ _).mp hj
    omega

def partlyTaken : List Byte := [0xFF#8, 0x03#8] ++ List.replicate 16384 0x00#8

theorem find_free_first_partly_taken :
    16386 ≤ partlyTaken.length ∧
      ∃ r reads, findFree.scan.run ⟨partlyTaken, []⟩ = some (r, ⟨partlyTaken, reads⟩) ∧
        FirstFree partlyTaken r reads :=
  have hlength : 16386 ≤ partlyTaken.length := by
    rw [partlyTaken, List.length_append, List.length_replicate]
    decide
  ⟨hlength, find_free_first partlyTaken hlength⟩

end KernelFuzzing.Mmu
