import KernelFuzzing.Foundation.Slots
import KernelFuzzing.Block.Requests

/-! Which call owns which of the 12 slots of `used_request_index`, along every run. -/
namespace KernelFuzzing.Block.Slots
open Foundation Foundation.Slots

/-- The call `k` has not returned and owns the chain of slot `i`. -/
def Holds (calls : List Call) (k i : Nat) : Prop :=
  ∃ c, calls[k]? = some c ∧ c.inFlight = true ∧ c.chain = [3 * i, 3 * i + 1, 3 * i + 2]

structure SlotsOwned (s : System) : Prop where
  owned : ∀ i < 12, s.backend.data.usedRequestIndex i = 1 ↔ ∃! k, Holds s.calls k i
  disjoint : ∀ (j k : Nat) (c d : Call), j ≠ k → s.calls[j]? = some c → s.calls[k]? = some d →
    c.inFlight = true → d.inFlight = true → c.chain.Disjoint d.chain
  free : (s.calls.filter Call.inFlight).length < 12 → (findFreeIndex s.backend.data).1 ≠ none

/-- A call that returns clears the mark of its own slot, and nothing else. -/
def FreesOwnSlot (s : System) (e : Event) : Prop :=
  ∀ k c i, e = .finish k → Returns s k c → Holds s.calls k i →
    (step s e).backend = { s.backend with
      data.usedRequestIndex := Function.update s.backend.data.usedRequestIndex i 0 }

/-- Every call that returns has the free index 0. -/
def ReturnsSlotZero (s : System) (e : Event) : Prop :=
  ∀ k c, e = .finish k → Returns s k c → c.freeIndex = 0

structure Inv (s : System) : Prop where
  assigned : Assigned 12 (fun i => s.backend.data.usedRequestIndex i ≠ 0) (Holds s.calls)
  marks : ∀ i < 12, s.backend.data.usedRequestIndex i ≠ 0 → s.backend.data.usedRequestIndex i = 1
  slots : ∀ k c, s.calls[k]? = some c → c.inFlight = true → ∃ i, Holds s.calls k i
  lock : ∀ k, s.lock = some k → ∃ c, s.calls[k]? = some c ∧ c.phase = .locked

theorem chain_eq_iff {c : Call} {i : Nat} :
    c.chain = [3 * i, 3 * i + 1, 3 * i + 2] ↔ c.freeIndex = 3 * i := by
  simp [Call.chain]

theorem Holds.slot_unique {calls : List Call} (hi : Holds calls k i) (hj : Holds calls k j) :
    j = i := by
  obtain ⟨c, hc, -, hci⟩ := hi
  obtain ⟨d, hd, -, hdj⟩ := hj
  rw [hc, Option.some.injEq] at hd
  rw [← hd, chain_eq_iff] at hdj
  rw [chain_eq_iff] at hci
  omega

theorem holds_modify {calls : List Call} {f : Call → Call}
    (keep : ∀ c, calls[k]? = some c →
      (f c).inFlight = c.inFlight ∧ (f c).freeIndex = c.freeIndex) (j i : Nat) :
    Holds (calls.modify k f) j i ↔ Holds calls j i := by
  simp only [Holds, List.getElem?_modify, chain_eq_iff]
  by_cases hk : k = j
  · subst hk
    cases hc : calls[k]? with
    | none => simp
    | some c =>
      obtain ⟨hflight, hindex⟩ := keep c hc
      simp [hflight, hindex]
  · simp [hk]

theorem holds_append {calls : List Call} (f j i : Nat) :
    Holds (calls ++ [⟨f * 3, .locked, false⟩]) j i ↔
      Holds calls j i ∨ j = calls.length ∧ i = f := by
  simp only [Holds, List.getElem?_append, chain_eq_iff]
  by_cases hj : j < calls.length
  · simp [hj, Nat.ne_of_lt hj]
  · by_cases hlast : j = calls.length
    · subst hlast
      simp [Call.inFlight]
      omega
    · have hout : ¬ j - calls.length = 0 := by omega
      simp [hj, hlast, hout]

theorem holds_return {calls : List Call} (len : BitVec 32) (j i : Nat) :
    Holds (calls.modify k fun c => { c with phase := .returned len }) j i ↔
      Holds calls j i ∧ j ≠ k := by
  simp only [Holds, List.getElem?_modify]
  by_cases hk : k = j
  · subst hk
    cases hc : calls[k]? with
    | none => simp
    | some c => simp [Call.inFlight]
  · simp [hk, Ne.symm hk]

section
variable {s : System}

theorem Inv.holds_bound (h : Inv s) (hold : Holds s.calls k i) : i < 12 :=
  (h.assigned.held hold).1

theorem Inv.marked_iff (h : Inv s) (hi : i < 12) :
    s.backend.data.usedRequestIndex i = 1 ↔ ∃! k, Holds s.calls k i := by
  rw [← h.assigned.marked_iff hi]
  exact ⟨fun hone => hone ▸ by decide, h.marks i hi⟩

theorem slotsOwned_of_inv (h : Inv s) : SlotsOwned s where
  owned i hi := h.marked_iff hi
  disjoint := by
    intro j k c d hne hc hd hcflight hdflight
    obtain ⟨i, hold⟩ := h.slots j c hc hcflight
    obtain ⟨i', hold'⟩ := h.slots k d hd hdflight
    have hslots : i ≠ i' := fun heq => hne (h.assigned.unique hold (heq ▸ hold'))
    obtain ⟨c', hc', -, hchain⟩ := hold
    obtain ⟨d', hd', -, hchain'⟩ := hold'
    rw [Option.some.inj (hc.symm.trans hc'), Option.some.inj (hd.symm.trans hd'), hchain, hchain']
    simp
    omega
  free := by
    intro few hnone
    have full := BlockData.freeSlot_eq_none.mp (findFreeIndex_eq_none.mp hnone)
    have all (k i : Nat) (hold : Holds s.calls k i) :
        i ∈ (s.calls.filter Call.inFlight).map fun c => c.freeIndex / 3 := by
      obtain ⟨c, hc, hflight, hchain⟩ := hold
      refine List.mem_map.mpr ⟨c, List.mem_filter.mpr ⟨List.mem_of_getElem? hc, hflight⟩, ?_⟩
      rw [chain_eq_iff.mp hchain, Nat.mul_div_cancel_left i (by decide)]
    obtain ⟨i, hi, hfree⟩ := h.assigned.exists_unmarked all (by rwa [List.length_map])
    exact hfree (full i hi)

theorem Inv.enter (h : Inv s) {s' : System} (entered : Enters s i s') (lock : LockHeld s') :
    Inv s' := by
  obtain ⟨hi, hfree⟩ := BlockData.freeSlot_eq_some entered.free
  have hused (j : Nat) : s'.backend.data.usedRequestIndex j =
      if j = i then 1 else s.backend.data.usedRequestIndex j := by
    rw [entered.published.data]
    exact Function.update_apply ..
  have hholds (k j : Nat) :
      Holds s'.calls k j ↔ Holds s.calls k j ∨ k = s.calls.length ∧ j = i := by
    rw [entered.calls, holds_append]
  refine ⟨?_, fun j hj hmark => ?_, fun k c hc hflight => ?_, lock⟩
  · refine (h.assigned.grant hi (not_not.mpr hfree) s.calls.length).congr (fun j hj => ?_) hholds
    rw [hused]
    by_cases hji : j = i <;> simp [hji]
  · rw [hused] at hmark ⊢
    by_cases hji : j = i
    · rw [if_pos hji]
    · rw [if_neg hji] at hmark ⊢
      exact h.marks j hj hmark
  · simp only [hholds]
    rw [entered.calls, List.getElem?_append] at hc
    by_cases hk : k < s.calls.length
    · rw [if_pos hk] at hc
      exact (h.slots k c hc hflight).imp fun _ => .inl
    · rw [if_neg hk, List.getElem?_singleton] at hc
      have hlast : k = s.calls.length := by
        by_contra hne
        rw [if_neg (by omega)] at hc
        exact absurd hc (by simp)
      exact ⟨i, .inr ⟨hlast, rfl⟩⟩

private theorem Inv.modify (h : Inv s) {s' : System} {f : Call → Call}
    (data : s'.backend.data = s.backend.data) (calls : s'.calls = s.calls.modify k f)
    (keep : ∀ c, s.calls[k]? = some c →
      (f c).inFlight = c.inFlight ∧ (f c).freeIndex = c.freeIndex)
    (lock : LockHeld s') : Inv s' := by
  refine ⟨?_, ?_, ?_, lock⟩
  · refine h.assigned.congr (fun i _ => by rw [data]) fun j i => ?_
    rw [calls, holds_modify keep]
  · rw [data]
    exact h.marks
  · intro j c hc hflight
    simp only [calls, holds_modify keep]
    rw [calls] at hc
    rcases getElem?_modify_cases hc with ⟨rfl, d, hd, rfl⟩ | ⟨-, hold⟩
    · exact h.slots j d hd ((keep d hd).1.symm.trans hflight)
    · exact h.slots j c hold hflight

theorem Inv.finish (h : Inv s) (returns : Returns s k c) (zero : c.freeIndex = 0) {s' : System}
    (backend : s'.backend = (Block.finish c.freeIndex s.backend).2)
    (calls : s'.calls = s.calls.modify k fun d =>
      { d with phase := .returned (Block.finish c.freeIndex s.backend).1 })
    (lock : LockHeld s') : Inv s' := by
  have hold : Holds s.calls k 0 := ⟨c, returns.1, returns.inFlight, chain_eq_iff.mpr zero⟩
  have hused (j : Nat) : s'.backend.data.usedRequestIndex j =
      if j = 0 then 0 else s.backend.data.usedRequestIndex j := by
    rw [backend, zero]
    exact Function.update_apply ..
  have hholds (j i : Nat) : Holds s'.calls j i ↔ Holds s.calls j i ∧ j ≠ k := by
    rw [calls, holds_return]
  refine ⟨?_, fun j hj hmark => ?_, fun j d hd hflight => ?_, lock⟩
  · refine (h.assigned.release hold fun i => hold.slot_unique).congr (fun j _ => ?_) hholds
    rw [hused]
    by_cases hj : j = 0 <;> simp [hj]
  · rw [hused] at hmark ⊢
    by_cases hzero : j = 0
    · exact absurd (if_pos hzero) hmark
    · rw [if_neg hzero] at hmark ⊢
      exact h.marks j hj hmark
  · rw [calls] at hd
    rcases getElem?_modify_cases hd with ⟨rfl, d', hd', rfl⟩ | ⟨hne, hkept⟩
    · simp [Call.inFlight] at hflight
    · obtain ⟨i, hi⟩ := h.slots j d hkept hflight
      exact ⟨i, (hholds j i).mpr ⟨hi, hne⟩⟩

theorem inv_step (h : Inv s) {e : Event} (ok : ReturnsSlotZero s e) : Inv (step s e) := by
  have lock : LockHeld (step s e) := lockHeld_step h.lock e
  rcases step_effect s e with same | effect
  · rwa [same]
  · generalize step s e = s' at effect lock
    cases effect with
    | blockRead r i entered => exact h.enter entered lock
    | blockWrite r i entered => exact h.enter entered lock
    | notify k hlock =>
      refine h.modify (k := k) rfl rfl (fun c hc => ⟨?_, rfl⟩) lock
      exact (LockHeld.inFlight h.lock hlock hc).symm
    | consume => exact ⟨h.assigned, h.marks, h.slots, lock⟩
    | complete k c len hc hdone => exact h.modify (k := k) rfl rfl (fun c _ => ⟨rfl, rfl⟩) lock
    | finish k c returns => exact h.finish returns (ok k c rfl returns) rfl rfl lock

theorem not_slotsOwned_step (h : Inv s) {e : Event} (bad : ¬ ReturnsSlotZero s e) :
    ¬ SlotsOwned (step s e) := by
  simp only [ReturnsSlotZero, not_forall] at bad
  obtain ⟨k, c, rfl, returns, hzero⟩ := bad
  have hc := returns.1
  obtain ⟨i, hold⟩ := h.slots k c hc returns.inFlight
  have hi : i < 12 := h.holds_bound hold
  have hindex : c.freeIndex = 3 * i := by
    obtain ⟨d, hd, -, hchain⟩ := hold
    rw [Option.some.inj (hc.symm.trans hd), chain_eq_iff.mp hchain]
  rw [step_finish returns]
  intro owned
  -- the mark of slot `i` stays, since `3 * i` is another element
  have hmark : Function.update s.backend.data.usedRequestIndex c.freeIndex 0 i = 1 := by
    rw [Function.update_of_ne (by omega)]
    exact h.marks i hi (h.assigned.held hold).2
  have hleft (j l : Nat) (hjl : Holds (s.calls.modify k fun d =>
      { d with phase := .returned (Block.finish c.freeIndex s.backend).1 }) j l) :
      Holds s.calls j l ∧ j ≠ k := (holds_return _ j l).mp hjl
  exact h.assigned.not_owned hold hleft ((owned.owned i hi).mp hmark)

theorem freesOwnSlot_of_slotZero {e : Event} (ok : ReturnsSlotZero s e) : FreesOwnSlot s e := by
  rintro k c i rfl returns ⟨d, hd, -, hchain⟩
  have hzero := ok k c rfl returns
  have hi : i = 0 := by
    rw [chain_eq_iff, Option.some.inj (hd.symm.trans returns.1)] at hchain
    omega
  rw [step_finish returns, hzero, hi]
  rfl

theorem inv_boot (b : Backend) : Inv (boot b) where
  assigned := by
    refine .empty (fun i hi => ?_) fun k i => ?_
    · simp [boot, initVirtioBackend, hi]
    · simp [boot, Holds]
  marks i hi := by simp [boot, initVirtioBackend, hi]
  slots k c hc := by simp [boot] at hc
  lock := lockHeld_boot b

end

/-- The marks agree with the calls in flight, and each return frees its own slot, along
exactly the runs in which every call that returns has slot 0. -/
theorem slots_owned_iff_slot_zero (b : Backend) (events : List Event) :
    Run.Always step SlotsOwned (boot b) events ∧ Run.Guarded step FreesOwnSlot (boot b) events ↔
      Run.Guarded step ReturnsSlotZero (boot b) events := by
  have always : Run.Always step SlotsOwned (boot b) events ↔
      Run.Guarded step ReturnsSlotZero (boot b) events :=
    Run.always_iff_guarded_of_total (fun _ => slotsOwned_of_inv) (fun _ _ h => inv_step h)
      (fun _ _ h => not_slotsOwned_step h) (inv_boot b)
  rw [always]
  exact and_iff_left_of_imp fun ok => ok.mono fun _ _ => freesOwnSlot_of_slotZero

def secondReturns : List Event :=
  [.blockRead oneSector, .notify, .blockRead oneSector, .notify, .complete 1 513, .finish 1]

theorem slots_not_owned_second_returns :
    ¬ (Run.Always step SlotsOwned (boot zeroBackend) secondReturns ∧
      Run.Guarded step FreesOwnSlot (boot zeroBackend) secondReturns) := by
  rintro ⟨always, -⟩
  have calls : (Run.run step (boot zeroBackend) secondReturns).calls =
      [⟨0, .waiting 0, false⟩, ⟨3, .returned 0, true⟩] := rfl
  obtain ⟨k, ⟨c, hc, hflight, hchain⟩, -⟩ := (always.last.owned 1 (by decide)).mp (by decide)
  rw [chain_eq_iff] at hchain
  rw [calls] at hc
  match k, hc with
  | 0, rfl => simp at hchain
  | 1, rfl => simp [Call.inFlight] at hflight

end KernelFuzzing.Block.Slots
