import Mathlib.Data.List.Infix
import KernelFuzzing.Fuzzing.Ops

/-! How `LLVMFuzzerTestOneInput` of fuzzing/fuzz_nsim.c cuts its input into the operations
that the two runners go through. Allocations succeed. -/
namespace KernelFuzzing.Fuzzing
open Foundation

def Slice.empty : Slice := ⟨[], 0⟩

/-- `seq[idx] = s`, with no result outside the array. -/
def store (seq : List Slice) (idx : Nat) (s : Slice) : Option (List Slice) :=
  if idx < seq.length then some (seq.set idx s) else none

/-- The `n` bytes that `memcpy` takes from `data[i]` on. -/
def memcpyFrom (data : List Byte) (i n : Nat) : Option (List Byte) :=
  if i + n ≤ data.length then some ((data.drop i).take n) else none

/-- The loop of `LLVMFuzzerTestOneInput`. -/
def parse (data : List Byte) (count : Byte) (i idx : Nat) (seq : List Slice) :
    Option (List Slice × Nat) := do
  if h : i < data.length ∧ idx < count.toNat then
    let op ← data[i]?
    let i' := i + 1
    let left := data.length - i'
    let take := if left > 8 then 8 else left
    let d0 ← data[0]?
    let params ← memcpyFrom data i' take
    let seq ← store seq idx ⟨op :: d0 % 32#8 :: params, 2 + take⟩
    parse data count (i' + take) (idx + 1) seq
  else
    return (seq, idx)
termination_by data.length - i

/-- The arguments of the two runners, or nothing when there is nothing to run. -/
def llvmFuzzerTestOneInput (euid : Nat) (data : List Byte) :
    Option (Option (RunnerArgs × RunnerArgs)) := do
  if euid ≠ 0 then return none
  if data.length = 0 then return none
  let d0 ← data[0]?
  let count : Byte := 1#8 + d0 % 24#8
  let seq := List.replicate (count.toNat + 3) Slice.empty
  let head := [Op.create.byte, d0 % 32#8, 1#8]
  let seq ← store seq 0 ⟨head, 3⟩
  let (seq, idx) ← parse data count 1 1 seq
  let del := [Op.del.byte, d0 % 32#8]
  let seq ← store seq idx ⟨del, 2⟩
  let idx := idx + 1
  if d0 &&& 1#8 = 1#8 then
    let d2 := [Op.doubleDel.byte, d0 % 32#8]
    let seq ← store seq idx ⟨d2, 2⟩
    let idx := idx + 1
    return some (⟨seq, idx, 0⟩, ⟨seq, idx, 1⟩)
  else
    return some (⟨seq, idx, 0⟩, ⟨seq, idx, 1⟩)

/-- At most `k` pieces of a string: a byte and up to eight more. -/
def pieces : Nat → List Byte → List (Byte × List Byte)
  | 0, _ => []
  | _, [] => []
  | k + 1, op :: rest => (op, rest.take 8) :: pieces k (rest.drop 8)

theorem length_pieces_le (k : Nat) (s : List Byte) : (pieces k s).length ≤ k := by
  fun_induction pieces k s with
  | case1 | case2 => simp
  | case3 k op rest ih => simpa using ih

theorem length_params_le (k : Nat) (s : List Byte) : ∀ q ∈ pieces k s, q.2.length ≤ 8 := by
  fun_induction pieces k s with
  | case1 | case2 => simp
  | case3 k op rest ih =>
    rw [List.forall_mem_cons]
    exact ⟨List.length_take_le 8 rest, ih⟩

theorem pieces_prefix (k : Nat) (s : List Byte) :
    (pieces k s).flatMap (fun q => q.1 :: q.2) <+: s ∧
      ((pieces k s).flatMap (fun q => q.1 :: q.2) = s ∨ (pieces k s).length = k) := by
  fun_induction pieces k s with
  | case1 s => exact ⟨List.nil_prefix, .inr rfl⟩
  | case2 k => exact ⟨List.nil_prefix, .inl rfl⟩
  | case3 k op rest ih =>
    rw [List.flatMap_cons, List.cons_append, List.length_cons]
    refine ⟨?_, ?_⟩
    · rw [List.cons_prefix_cons]
      refine ⟨rfl, ?_⟩
      conv_rhs => rw [← List.take_append_drop 8 rest]
      exact List.prefix_append_right_inj _ |>.mpr ih.1
    · rcases ih.2 with hall | hcount
      · left
        rw [hall, List.take_append_drop]
      · right
        rw [hcount]

def Slice.ofPiece (device : Byte) (q : Byte × List Byte) : Slice :=
  ⟨q.1 :: device :: q.2, 2 + q.2.length⟩

theorem memcpy_params {data : List Byte} {i take : Nat} (hi : i ≤ data.length)
    (htake : take = if data.length - i > 8 then 8 else data.length - i) :
    memcpyFrom data i take = some ((data.drop i).take 8) ∧
      take = ((data.drop i).take 8).length ∧ data.drop (i + take) = (data.drop i).drop 8 := by
  rw [htake, memcpyFrom, List.length_take, List.length_drop, List.drop_drop]
  split
  · exact ⟨if_pos (by omega), by omega, rfl⟩
  · refine ⟨?_, by omega, ?_⟩
    · rw [if_pos (by omega), List.take_of_length_le (by simp),
        List.take_of_length_le (by rw [List.length_drop]; omega)]
    · rw [List.drop_of_length_le (by omega), List.drop_of_length_le (by omega)]

theorem store_take (seq : List Slice) {idx : Nat} (h : idx < seq.length) (s : Slice) :
    ∃ seq', store seq idx s = some seq' ∧ seq'.length = seq.length ∧
      seq'.take (idx + 1) = seq.take idx ++ [s] := by
  refine ⟨_, if_pos h, List.length_set, ?_⟩
  rw [List.take_succ_eq_append_getElem (by simpa using h), List.take_set_of_le (Nat.le_refl _),
    List.getElem_set_self]

theorem parse_eq {data : List Byte} {d0 : Byte} (hd0 : data[0]? = some d0) (count : Byte)
    (k i idx : Nat) (seq : List Slice) (hk : idx + k = count.toNat)
    (hroom : count.toNat ≤ seq.length) :
    ∃ seq', parse data count i idx seq =
        some (seq', idx + (pieces k (data.drop i)).length) ∧
      seq'.length = seq.length ∧
      seq'.take (idx + (pieces k (data.drop i)).length) =
        seq.take idx ++ (pieces k (data.drop i)).map (.ofPiece (d0 % 32#8)) := by
  induction k generalizing i idx seq with
  | zero =>
    refine ⟨seq, ?_, rfl, by simp [pieces]⟩
    rw [parse, dif_neg (by omega)]
    simp [pieces]
  | succ k ih =>
    by_cases hi : i < data.length
    · have hdrop := List.drop_eq_getElem_cons hi
      have hpast : i + 1 ≤ data.length := hi
      obtain ⟨hmemcpy, htake, hrest⟩ := memcpy_params hpast rfl
      have hslot : idx < seq.length := by omega
      obtain ⟨next, hstore, hlength, hfilled⟩ := store_take seq hslot
        (.ofPiece (d0 % 32#8) (data[i], (data.drop (i + 1)).take 8))
      obtain ⟨seq', hparse, hlength', hall⟩ := ih
        (i + 1 + if data.length - (i + 1) > 8 then 8 else data.length - (i + 1)) (idx + 1) next
        (by omega) (by omega)
      rw [hrest] at hparse hall
      rw [hdrop, pieces, List.length_cons, List.map_cons]
      have hcount (l : Nat) : idx + 1 + l = idx + (l + 1) := by omega
      rw [hcount] at hparse hall
      refine ⟨seq', ?_, hlength'.trans hlength, ?_⟩
      · rw [parse, dif_pos (by omega), List.getElem?_eq_getElem hi, hd0]
        dsimp only [Option.bind_eq_bind, Option.bind_some]
        rw [hmemcpy]
        dsimp only [Option.bind_eq_bind, Option.bind_some]
        rw [htake] at hparse ⊢
        exact (congrArg (Option.bind · _) hstore).trans hparse
      · rw [hall, hfilled, List.append_assoc, List.singleton_append]
    · refine ⟨seq, ?_, rfl, by simp [List.drop_of_length_le (Nat.le_of_not_lt hi), pieces]⟩
      rw [parse, dif_neg (by omega)]
      simp [List.drop_of_length_le (Nat.le_of_not_lt hi), pieces]

def Slice.payload (s : Slice) : List Byte := s.bytes.take 1 ++ s.bytes.drop 2

structure Middle (limit : Nat) (input : List Byte) (mid : List Slice) : Prop where
  count : mid.length ≤ limit
  front : mid.flatMap Slice.payload <+: input
  all : mid.flatMap Slice.payload = input ∨ mid.length = limit
  params : ∀ s ∈ mid, (s.bytes.drop 2).length ≤ 8

/-- The two operations, or one, that end every sequence. -/
def ending (d0 : Byte) : List Slice :=
  ⟨[Op.del.byte, d0 % 32#8], 2⟩ ::
    if d0.toNat % 2 = 1 then [⟨[Op.doubleDel.byte, d0 % 32#8], 2⟩] else []

/-- The sequence built from an input, in the slots allocated for it. -/
structure Built (d0 : Byte) (input : List Byte) (a : RunnerArgs) : Prop where
  slots : a.seq.length = 1 + d0.toNat % 24 + 3
  fits : a.nseq ≤ a.seq.length
  shape : ∃ mid, a.seq.take a.nseq = ⟨[Op.create.byte, d0 % 32#8, 1#8], 3⟩ :: (mid ++ ending d0) ∧
    Middle (d0.toNat % 24) input mid ∧ ∀ s ∈ mid, s.Names (d0.toNat % 32)

theorem middle_pieces (device : Byte) (k : Nat) (input : List Byte) :
    Middle k input ((pieces k input).map (.ofPiece device)) := by
  have hpayload : ((pieces k input).map (Slice.ofPiece device)).flatMap Slice.payload =
      (pieces k input).flatMap fun q => q.1 :: q.2 := by
    rw [List.flatMap_map]
    rfl
  obtain ⟨hfront, hall⟩ := pieces_prefix k input
  refine { count := ?_, front := ?_, all := ?_, params := ?_ }
  · rw [List.length_map]
    exact length_pieces_le k input
  · rwa [hpayload]
  · rwa [hpayload, List.length_map]
  · rw [List.forall_mem_map]
    exact length_params_le k input

theorem names_device (d0 : Byte) : (d0 % 32#8).toNat % 32 = d0.toNat % 32 := by
  rw [BitVec.toNat_umod]
  exact Nat.mod_mod _ _

theorem names_pieces (d0 : Byte) (k : Nat) (input : List Byte) :
    ∀ s ∈ (pieces k input).map (Slice.ofPiece (d0 % 32#8)), s.Names (d0.toNat % 32) := by
  rw [List.forall_mem_map]
  exact fun q _ => ⟨names_device d0, Nat.add_comm 2 q.2.length, Nat.le_add_right 2 _⟩

theorem names_ending (d0 : Byte) : ∀ s ∈ ending d0, s.Names (d0.toNat % 32) := by
  rw [ending, List.forall_mem_cons]
  refine ⟨⟨names_device d0, rfl, Nat.le_refl 2⟩, ?_⟩
  split
  · rw [List.forall_mem_singleton]
    exact ⟨names_device d0, rfl, Nat.le_refl 2⟩
  · exact fun _ hs => absurd hs List.not_mem_nil

theorem Built.names {d0 : Byte} {input : List Byte} {a : RunnerArgs} (h : Built d0 input a) :
    ∀ s ∈ a.seq.take a.nseq, s.Names (d0.toNat % 32) := by
  obtain ⟨mid, hshape, -, hmid⟩ := h.shape
  rw [hshape, List.forall_mem_cons, List.forall_mem_append]
  exact ⟨⟨names_device d0, rfl, Nat.le_succ 2⟩, hmid, names_ending d0⟩

theorem odd_iff (d0 : Byte) : d0 &&& 1#8 = 1#8 ↔ d0.toNat % 2 = 1 := by
  rw [BitVec.toNat_eq, BitVec.toNat_and]
  simp

theorem llvmFuzzerTestOneInput_eq (d0 : Byte) (input : List Byte) :
    ∃ seq nseq, llvmFuzzerTestOneInput 0 (d0 :: input) =
        some (some (⟨seq, nseq, 0⟩, ⟨seq, nseq, 1⟩)) ∧
      ∀ skew, Built d0 input ⟨seq, nseq, skew⟩ := by
  have hcount : (1#8 + d0 % 24#8).toNat = 1 + d0.toNat % 24 := by
    rw [BitVec.toNat_add, BitVec.toNat_umod]
    simp
    omega
  have hslots : 0 < (List.replicate ((1#8 + d0 % 24#8).toNat + 3) Slice.empty).length := by
    simp
  obtain ⟨head, hhead, hheadLength, hheadTake⟩ := store_take _ hslots
    ⟨[Op.create.byte, d0 % 32#8, 1#8], 3⟩
  rw [List.length_replicate, hcount] at hheadLength
  have hd0 : (d0 :: input)[0]? = some d0 := rfl
  obtain ⟨seq, hparse, hlength, htake⟩ := parse_eq hd0 (1#8 + d0 % 24#8)
    (d0.toNat % 24) 1 1 head hcount.symm (by omega)
  have hshort := length_pieces_le (d0.toNat % 24) input
  have hroom : 1 + (pieces (d0.toNat % 24) input).length < seq.length := by omega
  obtain ⟨deleted, hdel, hdelLength, hdelTake⟩ := store_take seq hroom
    ⟨[Op.del.byte, d0 % 32#8], 2⟩
  have hmiddle := middle_pieces (d0 % 32#8) (d0.toNat % 24) input
  have hnames := names_pieces d0 (d0.toNat % 24) input
  have hfront : deleted.take (1 + (pieces (d0.toNat % 24) input).length + 1) =
      ⟨[Op.create.byte, d0 % 32#8, 1#8], 3⟩ ::
        ((pieces (d0.toNat % 24) input).map (.ofPiece (d0 % 32#8)) ++
          [⟨[Op.del.byte, d0 % 32#8], 2⟩]) := by
    rw [hdelTake]
    simp only [List.drop_succ_cons, List.drop_zero] at htake
    rw [htake, hheadTake]
    rfl
  unfold llvmFuzzerTestOneInput
  rw [if_neg (by decide), if_neg (by simp), hd0]
  dsimp only [Option.bind_eq_bind, Option.bind_some]
  rw [hhead]
  dsimp only [Option.bind_eq_bind, Option.bind_some]
  simp only [List.drop_succ_cons, List.drop_zero] at hparse
  rw [hparse]
  dsimp only [Option.bind_eq_bind, Option.bind_some]
  rw [hdel]
  dsimp only [Option.bind_eq_bind, Option.bind_some]
  by_cases hodd : d0.toNat % 2 = 1
  · have hlast : 1 + (pieces (d0.toNat % 24) input).length + 1 < deleted.length := by omega
    obtain ⟨twice, htwice, htwiceLength, htwiceTake⟩ := store_take deleted hlast
      ⟨[Op.doubleDel.byte, d0 % 32#8], 2⟩
    have hlengths : twice.length = 1 + d0.toNat % 24 + 3 := by omega
    rw [if_pos ((odd_iff d0).mpr hodd), htwice]
    refine ⟨_, _, rfl, fun skew => ⟨hlengths, ?_, _, ?_, hmiddle, hnames⟩⟩
    · dsimp only
      omega
    · dsimp only
      rw [htwiceTake, hfront, ending, if_pos hodd]
      simp
  · have hlengths : deleted.length = 1 + d0.toNat % 24 + 3 := by omega
    rw [if_neg (mt (odd_iff d0).mp hodd)]
    refine ⟨_, _, rfl, fun skew => ⟨hlengths, ?_, _, ?_, hmiddle, hnames⟩⟩
    · dsimp only
      omega
    · dsimp only
      rw [hfront, ending, if_neg hodd]

theorem Built.at_index {d0 : Byte} {input : List Byte} {a : RunnerArgs} (h : Built d0 input a) :
    ∀ i < a.nseq, ∃ s, a.seq[i]? = some s ∧ s.Names (d0.toNat % 32) := by
  intro i hi
  have hlt : i < a.seq.length := Nat.lt_of_lt_of_le hi h.fits
  refine ⟨a.seq[i], List.getElem?_eq_getElem hlt, h.names _ ?_⟩
  exact List.mem_take_iff_getElem.mpr ⟨i, by omega, rfl⟩

/-- Both runners get the sequence that belongs to the input, and each of their operations
stays in its slice and addresses the device of the first byte. -/
theorem fuzzer_sequence (d0 : Byte) (input : List Byte) :
    ∃ a1 a2, llvmFuzzerTestOneInput 0 (d0 :: input) = some (some (a1, a2)) ∧
      ∀ a ∈ [a1, a2], Built d0 input a ∧
        (∀ s ∈ a.seq.take a.nseq, ∀ found,
          (∀ log, (doOp.id s.bytes s.len 1).run log = some (d0.toNat % 32, log)) ∧
          Safe (d0.toNat % 32) (doOp found s.bytes s.len 1)) ∧
        ∀ found, Safe (d0.toNat % 32) (runner found a) := by
  obtain ⟨seq, nseq, hrun, hbuilt⟩ := llvmFuzzerTestOneInput_eq d0 input
  have hall (skew : Int) := (hbuilt skew).at_index
  have hops (s : Slice) (hs : s ∈ seq.take nseq) := (hbuilt 0).names s hs
  refine ⟨_, _, hrun, ?_⟩
  have hone (skew : Int) : Built d0 input ⟨seq, nseq, skew⟩ ∧
      (∀ s ∈ seq.take nseq, ∀ found,
        (∀ log, (doOp.id s.bytes s.len 1).run log = some (d0.toNat % 32, log)) ∧
        Safe (d0.toNat % 32) (doOp found s.bytes s.len 1)) ∧
      ∀ found, Safe (d0.toNat % 32) (runner found ⟨seq, nseq, skew⟩) := by
    refine ⟨hbuilt skew, fun s hs found => ?_, fun found => safe_runner found (hall skew)⟩
    have hnames := hops s hs
    have hlen := Nat.le_of_eq hnames.len
    refine ⟨fun log => ?_, safe_doOp found hlen hnames.two hnames.device 1⟩
    rw [id_run hlen hnames.two, hnames.device]
  rw [List.forall_mem_cons, List.forall_mem_singleton]
  exact ⟨hone 0, hone 1⟩

end KernelFuzzing.Fuzzing
