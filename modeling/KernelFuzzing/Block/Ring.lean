import Mathlib.Data.List.Infix
import KernelFuzzing.Block.Requests

/-! What the device reads from the available ring, against what the calls published. The
head of a chain goes to the element of its free index; the device reads in turn. -/
namespace KernelFuzzing.Block.Ring
open Foundation

def heads (s : System) : List Nat := s.calls.map Call.freeIndex

/-- The `k`-th entry the device took is the head of the `k`-th call. -/
def InOrder (s : System) : Prop := s.consumed <+: s.calls.map Call.head

def turn (s : System) : Nat :=
  if s.seen.toNat % 12 ∈ heads s then s.seen.toNat % 12 else 0

/-- The call whose turn it is when the device takes an entry has the free index `turn`. -/
def InTurn (s : System) (e : Event) : Prop :=
  e = .consume → s.seen ≠ s.backend.avail.idx →
    ∀ f, (heads s)[s.consumed.length]? = some f → f = turn s

/-- Nothing published yet, over a ring of zeros. -/
def bootRing (b : Backend) : System :=
  boot { b with
    avail.idx := 0
    avail.ring := fun _ => 0 }

structure Inv (s : System) : Prop where
  ring : ∀ p, s.backend.avail.ring p = if p ∈ heads s then BitVec.ofNat 16 p else 0
  idx : s.backend.avail.idx = BitVec.ofNat 16 s.calls.length
  seen : s.seen = BitVec.ofNat 16 s.consumed.length
  small : ∀ f ∈ heads s, f < 36
  inOrder : InOrder s

private theorem prefix_concat {l m : List α} {a : α} (h : l <+: m) :
    l ++ [a] <+: m ↔ m[l.length]? = some a := by
  obtain ⟨t, rfl⟩ := h
  rw [List.prefix_append_right_inj, List.getElem?_append_right (Nat.le_refl _), Nat.sub_self]
  cases t with
  | nil => simp
  | cons b t => simp [List.cons_prefix_cons, eq_comm]

theorem inOrder_iff {s : System} : InOrder s ↔ s.consumed <+: (heads s).map (BitVec.ofNat 16) := by
  rw [heads, List.map_map]
  rfl

private theorem map_modify {calls : List Call} {f : Call → Call} (k : Nat)
    (keep : ∀ c, (f c).freeIndex = c.freeIndex) :
    (calls.modify k f).map Call.freeIndex = calls.map Call.freeIndex := by
  apply List.ext_getElem?
  intro j
  rw [List.getElem?_map, List.getElem?_map, List.getElem?_modify]
  by_cases hk : k = j
  · cases calls[j]? <;> simp [hk, keep]
  · simp [hk]

section
variable {s : System}

private theorem Inv.congr (h : Inv s) {s' : System} (hheads : heads s' = heads s)
    (avail : s'.backend.avail = s.backend.avail) (seen : s'.seen = s.seen)
    (consumed : s'.consumed = s.consumed) : Inv s' where
  ring := by rw [avail, hheads]; exact h.ring
  idx := by
    have hlength := congrArg List.length hheads
    rw [heads, heads, List.length_map, List.length_map] at hlength
    rw [avail, hlength]
    exact h.idx
  seen := by rw [seen, consumed]; exact h.seen
  small := by rw [hheads]; exact h.small
  inOrder := by
    rw [inOrder_iff, hheads, consumed]
    exact inOrder_iff.mp h.inOrder

theorem Inv.enter (h : Inv s) {s' : System} (entered : Enters s i s') : Inv s' := by
  obtain ⟨hi, -⟩ := BlockData.freeSlot_eq_some entered.free
  have hheads : heads s' = heads s ++ [i * 3] := by
    rw [heads, entered.calls, List.map_append]
    rfl
  refine ⟨fun p => ?_, ?_, ?_, fun f hf => ?_, ?_⟩
  · rw [entered.published.ring, Function.update_apply, hheads, h.ring]
    by_cases hp : p = i * 3 <;> simp [hp]
  · rw [entered.published.idx, h.idx, entered.calls, List.length_append]
    rw [List.length_singleton, BitVec.ofNat_add]
    rfl
  · rw [entered.seen, entered.consumed]
    exact h.seen
  · rw [hheads, List.mem_append, List.mem_singleton] at hf
    rcases hf with hold | rfl
    · exact h.small f hold
    · omega
  · have order := inOrder_iff.mp h.inOrder
    rw [inOrder_iff, hheads, entered.consumed, List.map_append]
    exact order.trans (List.prefix_append _ _)

private theorem consumed_lt (h : Inv s) (hseen : s.seen ≠ s.backend.avail.idx) :
    s.consumed.length < s.calls.length := by
  have hle := h.inOrder.length_le
  rw [List.length_map] at hle
  refine Nat.lt_of_le_of_ne hle fun heq => hseen ?_
  rw [h.seen, h.idx, heq]

theorem inOrder_consume (h : Inv s) (hseen : s.seen ≠ s.backend.avail.idx) :
    InOrder (step s .consume) ↔ InTurn s .consume := by
  have hlt := consumed_lt h hseen
  have hget : (heads s)[s.consumed.length]? = some (s.calls[s.consumed.length].freeIndex) := by
    rw [heads, List.getElem?_map, List.getElem?_eq_getElem hlt]
    rfl
  have hsmall := h.small _ (List.mem_of_getElem? hget)
  have hentry : s.backend.avail.ring (s.seen.toNat % 12) = BitVec.ofNat 16 (turn s) := by
    rw [h.ring, turn]
    split <;> rfl
  have hturn : turn s < 36 := by
    unfold turn
    split <;> omega
  rw [inOrder_iff, step_consume hseen]
  change s.consumed ++ [s.backend.avail.ring (s.seen.toNat % 12)] <+: (heads s).map _ ↔ _
  rw [prefix_concat (inOrder_iff.mp h.inOrder), List.getElem?_map, hget, hentry]
  simp only [InTurn, hget, Option.map_some, Option.some.injEq, forall_eq', hseen, ne_eq,
    not_false_eq_true, forall_const]
  rw [← BitVec.toNat_inj, BitVec.toNat_ofNat, BitVec.toNat_ofNat]
  omega

theorem inv_step (h : Inv s) {e : Event} (ok : InTurn s e) : Inv (step s e) := by
  rcases step_effect s e with same | effect
  · rwa [same]
  · generalize hs' : step s e = s' at effect
    cases effect with
    | blockRead r i entered => exact h.enter entered
    | blockWrite r i entered => exact h.enter entered
    | notify k _ => exact h.congr (map_modify k fun _ => rfl) rfl rfl rfl
    | complete k c len _ _ => exact h.congr (map_modify k fun _ => rfl) rfl rfl rfl
    | finish k c _ => exact h.congr (map_modify k fun _ => rfl) rfl rfl rfl
    | consume hseen =>
      refine ⟨h.ring, h.idx, ?_, h.small, ?_⟩
      · rw [h.seen, List.length_append, List.length_singleton, BitVec.ofNat_add]
        rfl
      · rw [← hs']
        exact (inOrder_consume h hseen).mpr ok

theorem not_inOrder_step (h : Inv s) {e : Event} (bad : ¬ InTurn s e) :
    ¬ InOrder (step s e) := by
  have taken : e = .consume ∧ s.seen ≠ s.backend.avail.idx := by
    by_contra hnot
    exact bad fun he hseen => absurd ⟨he, hseen⟩ hnot
  obtain ⟨rfl, hseen⟩ := taken
  rwa [inOrder_consume h hseen]

theorem inv_bootRing (b : Backend) : Inv (bootRing b) where
  ring p := by simp [bootRing, boot, heads, initVirtioBackend]
  idx := rfl
  seen := rfl
  small f hf := absurd hf List.not_mem_nil
  inOrder := List.prefix_rfl

end

/-- The device takes the heads of the calls in the order of the calls along exactly the
runs in which each call, when its turn comes, has the free index `turn`. -/
theorem in_order_iff_in_turn (b : Backend) (events : List Event) :
    Run.Always step InOrder (bootRing b) events ↔ Run.Guarded step InTurn (bootRing b) events :=
  Run.always_iff_guarded_of_total (fun _ h => h.inOrder) (fun _ _ h => inv_step h)
    (fun _ _ h => not_inOrder_step h) (inv_bootRing b)

def secondTaken : List Event :=
  [.blockRead oneSector, .notify, .blockRead oneSector, .notify, .consume, .consume]

theorem not_in_order_second_taken :
    ¬ Run.Always step InOrder (bootRing zeroBackend) secondTaken := by
  intro always
  have order : [0, 0] <+: [(0 : BitVec 16), 3] := always.last
  exact absurd order (by decide)

end KernelFuzzing.Block.Ring
