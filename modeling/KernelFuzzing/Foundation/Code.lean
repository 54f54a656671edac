import Mathlib.Logic.Function.Iterate
import KernelFuzzing.Foundation.AArch64

/-! Code at an address, its instructions numbered from 0, run one at a time as the program
counter says. -/
namespace KernelFuzzing.Foundation
open AArch64

structure Code (I : Type*) where
  base : Word
  instrs : List I
  exec : Machine → I → Machine

namespace Code

variable {I : Type*} {p : Code I} {m m' m'' : Machine} {k : Nat} {i : I}

def label (p : Code I) (k : Nat) : Word := p.base + BitVec.ofNat 64 (4 * k)

def fetch (p : Code I) (m : Machine) : Option I := p.instrs[(m.pc - p.base).toNat / 4]?

def step (p : Code I) (m : Machine) : Machine :=
  match p.fetch m with
  | some i => p.exec m i
  | none => m

def run (p : Code I) (n : Nat) (m : Machine) : Machine := p.step^[n] m

/-- The core comes from one state to the other. -/
def Leads (p : Code I) (m m' : Machine) : Prop := ∃ n, p.run n m = m'

theorem label_zero (p : Code I) : p.label 0 = p.base := BitVec.add_zero p.base

theorem label_succ (p : Code I) (k : Nat) : p.label k + 4#64 = p.label (k + 1) := by
  unfold label
  bv_omega

theorem Leads.refl (p : Code I) (m : Machine) : p.Leads m m := ⟨0, rfl⟩

theorem Leads.trans (h : p.Leads m m') (h' : p.Leads m' m'') : p.Leads m m'' := by
  obtain ⟨n, hn⟩ := h
  obtain ⟨n', hn'⟩ := h'
  refine ⟨n' + n, ?_⟩
  rw [← hn', ← hn]
  exact Function.iterate_add_apply p.step n' n m

theorem leads_step (hpc : m.pc = p.label k) (hk : 4 * k < 2 ^ 64) (hi : p.instrs[k]? = some i) :
    p.Leads m (p.exec m i) := by
  have hindex : (m.pc - p.base).toNat / 4 = k := by
    rw [hpc, label]
    bv_omega
  have hfetch : p.fetch m = some i := by rw [fetch, hindex, hi]
  refine ⟨1, ?_⟩
  change p.step m = p.exec m i
  rw [step, hfetch]

theorem leads_block {block : List I} (hpc : m.pc = p.label k)
    (hblock : block <+: p.instrs.drop k) (small : 4 * (k + block.length) < 2 ^ 64)
    (next : ∀ i ∈ block, ∀ m, (p.exec m i).pc = m.pc + 4#64) :
    p.Leads m (block.foldl p.exec m) ∧
      (block.foldl p.exec m).pc = p.label (k + block.length) := by
  induction block generalizing m k with
  | nil => exact ⟨.refl p m, hpc⟩
  | cons i block ih =>
    obtain ⟨rest, hrest⟩ := hblock
    rw [List.length_cons] at small
    have hi : p.instrs[k]? = some i := by
      rw [← Nat.add_zero k, ← List.getElem?_drop, ← hrest]
      rfl
    have htail : block <+: p.instrs.drop (k + 1) := by
      rw [← List.drop_drop, ← hrest]
      exact ⟨rest, rfl⟩
    have hfirst := leads_step hpc (by omega) hi
    have hpc' : (p.exec m i).pc = p.label (k + 1) := by
      rw [next i List.mem_cons_self, hpc, label_succ]
    obtain ⟨hleads, hend⟩ := ih hpc' htail (by omega) fun j hj => next j (List.mem_cons_of_mem i hj)
    refine ⟨hfirst.trans hleads, ?_⟩
    rw [List.foldl_cons, hend, List.length_cons]
    congr 1
    omega

end Code

namespace AArch64

/-- The flags after a comparison or a `subs`, the rest of `pstate` as it was. -/
def withFlags (pstate a b : Word) : Word := (pstate &&& 0xFFFFFFFF0FFFFFFF#64) ||| flags a b

/-- The condition of `b.gt`: Z is clear, and N equals V. -/
def condGt (pstate : Word) : Bool :=
  !pstate.getLsbD 30 && (pstate.getLsbD 31 == pstate.getLsbD 28)

private theorem flag_bits (n z c v : Bool) :
    (BitVec.ofBool n ++ BitVec.ofBool z ++ BitVec.ofBool c ++ BitVec.ofBool v)[3] = n ∧
      (BitVec.ofBool n ++ BitVec.ofBool z ++ BitVec.ofBool c ++ BitVec.ofBool v)[0] = v := by
  revert n z c v
  decide

private theorem getLsbD_flags_n (pstate a b : Word) :
    (withFlags pstate a b).getLsbD 31 = (a - b).msb := by
  simp [withFlags, flags, flag_bits]

private theorem getLsbD_flags_v (pstate a b : Word) :
    (withFlags pstate a b).getLsbD 28 = ((a.msb != b.msb) && (a.msb != (a - b).msb)) := by
  simp [withFlags, flags, flag_bits]

theorem condGt_withFlags (pstate : Word) {a b : Word} (ha : a.toNat < 2 ^ 63)
    (hb : b.toNat < 2 ^ 63) : condGt (withFlags pstate a b) = decide (b.toNat < a.toNat) := by
  have hmsba : a.msb = false := by
    rw [BitVec.msb_eq_decide, decide_eq_false_iff_not]
    omega
  have hmsbb : b.msb = false := by
    rw [BitVec.msb_eq_decide, decide_eq_false_iff_not]
    omega
  have hz : (withFlags pstate a b).getLsbD 30 = (a == b) := getLsbD_flags pstate a b
  rw [condGt, hz, getLsbD_flags_n, getLsbD_flags_v, hmsba, hmsbb]
  by_cases hlt : b.toNat < a.toNat
  · have hne : a ≠ b := fun heq => Nat.ne_of_lt hlt (congrArg BitVec.toNat heq.symm)
    have hsub : (a - b).msb = false := by
      rw [BitVec.msb_eq_decide, decide_eq_false_iff_not]
      bv_omega
    simp [hlt, hne, hsub]
  · by_cases heq : a = b
    · simp [heq]
    · have hsub : (a - b).msb = true := by
        rw [BitVec.msb_eq_decide, decide_eq_true_eq]
        bv_omega
      simp [hlt, hsub]

private theorem getLsbD_mask : ∀ i < 28, (0xFFFFFFFF0FFFFFFF#64).getLsbD i = true := by decide

theorem getLsbD_withFlags_of_lt (pstate a b : Word) {i : Nat} (hi : i < 28) :
    (withFlags pstate a b).getLsbD i = pstate.getLsbD i := by
  have hflags : (flags a b).getLsbD i = false := by
    simp [flags, hi]
  rw [withFlags, BitVec.getLsbD_or, BitVec.getLsbD_and, hflags, getLsbD_mask i hi, Bool.and_true,
    Bool.or_false]

end AArch64

end KernelFuzzing.Foundation
