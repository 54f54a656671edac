import KernelFuzzing.Foundation.Slots
import KernelFuzzing.Block.Requests
import KernelFuzzing.VirtioBlk.Init

/-! The indexes that calls use, against the size of the queue the device was told of.
There are 12 slots of three descriptors each. -/
namespace KernelFuzzing.Block.Queue
open Foundation

/-- What `init_queue` writes to QueueNum, also the length of both rings. -/
def queueNum : Nat := 12

/-- An index in use: the position of a descriptor that is filled in, the index stored as
its `next` or in the available ring, the element of a ring that is accessed. -/
inductive Access where
  | desc (position : Nat)
  | next (index : BitVec 16)
  | availEntry (index : BitVec 16)
  | availRing (element : Nat)
  | usedRing (element : Nat)

def Access.index : Access → Nat
  | .desc position => position
  | .next index => index.toNat
  | .availEntry index => index.toNat
  | .availRing element => element
  | .usedRing element => element

def published (freeIndex : Nat) (b : Backend) : List Access :=
  [.desc freeIndex, .desc (freeIndex + 1), .desc (freeIndex + 2),
    .next (b.desc freeIndex).next, .next (b.desc (freeIndex + 1)).next,
    .availRing freeIndex, .availEntry (b.avail.ring freeIndex)]

def enterAccesses (s : System) (result : Option (Nat × Backend)) : List Access :=
  match s.lock, result with
  | none, some (freeIndex, b) => published freeIndex b
  | _, _ => []

def finishAccesses (s : System) (k : Nat) : List Access :=
  match s.calls[k]? with
  | some ⟨freeIndex, .waiting lastSeenIdx, _⟩ =>
      if waits s.backend lastSeenIdx then [] else [.usedRing freeIndex, .usedRing freeIndex]
  | _ => []

/-- What the driver accesses in a step. -/
def accesses (s : System) : Event → List Access
  | .blockRead r => enterAccesses s (blockRead r s.backend)
  | .blockWrite r => enterAccesses s (blockWrite r s.backend)
  | .finish k => finishAccesses s k
  | _ => []

def inFlight (s : System) : Nat := s.calls.countP Call.inFlight

/-- A step uses indexes of the queue only, and with four calls in flight no other starts. -/
structure InQueue (s : System) (e : Event) : Prop where
  index : ∀ a ∈ accesses s e, a.index < queueNum
  fifth : 4 ≤ inFlight s → ∀ r, e = .blockRead r ∨ e = .blockWrite r → step s e = s

/-- A call that enters its locked section finds one of the first four slots free. -/
def FindsLowSlot (s : System) (e : Event) : Prop :=
  ∀ r, e = .blockRead r ∨ e = .blockWrite r → s.lock = none →
    ∃ i < 4, s.backend.data.usedRequestIndex i = 0

def lowMarks (d : BlockData) : Nat := Nat.count (fun i => d.usedRequestIndex i ≠ 0) 4

structure Inv (s : System) : Prop where
  slot : ∀ c ∈ s.calls, ∃ i < 4, c.freeIndex = i * 3
  high : ∀ i, 4 ≤ i → i < 12 → s.backend.data.usedRequestIndex i = 0
  few : inFlight s ≤ lowMarks s.backend.data
  lock : LockHeld s

theorem num_announced {dev : VirtioBlk.Device} {obj : VirtioBlk.Virtio} {num : BitVec 32}
    (h : .write VirtioBlk.virtioQueueNum num ∈ VirtioBlk.accesses dev obj) :
    num.toNat = queueNum := by
  obtain ⟨x, f, g, f', g', y, hnegotiated⟩ := VirtioBlk.negotiated_eq dev
  obtain ⟨version, id, features, hqueued⟩ := VirtioBlk.queued_eq dev obj
  rw [VirtioBlk.accesses_eq, hqueued, VirtioBlk.offered, hnegotiated] at h
  have hsetUp : .write VirtioBlk.virtioQueueNum num ∈ VirtioBlk.setUp dev obj := by
    simpa using h
  unfold VirtioBlk.setUp at hsetUp
  split at hsetUp
  · simp at hsetUp
  · split at hsetUp
    · simp at hsetUp
    · have hnum : num = 12#32 := by simpa [VirtioBlk.addressWrites] using hsetUp
      rw [hnum]
      rfl

theorem publish_spec {type len : BitVec 32} {flags : BitVec 16} {r : Request} {b b' : Backend}
    {freeIndex : Nat} (h : publish type len flags r b = some (freeIndex, b')) :
    (b'.desc freeIndex).next = BitVec.ofNat 16 freeIndex + 1 ∧
      (b'.desc (freeIndex + 1)).next = BitVec.ofNat 16 freeIndex + 2 ∧
      b'.avail.ring freeIndex = BitVec.ofNat 16 freeIndex ∧
      (∀ p, p ≠ freeIndex → p ≠ freeIndex + 1 → p ≠ freeIndex + 2 → b'.desc p = b.desc p) ∧
      ∀ p, p ≠ freeIndex → b'.avail.ring p = b.avail.ring p := by
  unfold publish at h
  split at h
  · cases h
  · simp only [Option.some.injEq, Prod.mk.injEq] at h
    obtain ⟨rfl, rfl⟩ := h
    refine ⟨by simp, by simp, Function.update_self .., fun p h0 h1 h2 => ?_, fun p h0 => ?_⟩
    · simp [h0, h1, h2]
    · exact Function.update_of_ne h0 ..

theorem starts_cases (s : System) {r : Request} {e : Event}
    (starts : e = .blockRead r ∨ e = .blockWrite r) :
    ((s.lock ≠ none ∨ s.backend.data.freeSlot = none) ∧ step s e = s ∧ accesses s e = []) ∨
      ∃ type len flags i b, s.lock = none ∧ s.backend.data.freeSlot = some i ∧
        publish type len flags r s.backend = some (i * 3, b) ∧
        accesses s e = published (i * 3) b ∧ (step s e).backend = b := by
  have enters (type len : BitVec 32) (flags : BitVec 16)
      (hstep : step s e = s.enter (publish type len flags r s.backend))
      (hacc : accesses s e = enterAccesses s (publish type len flags r s.backend)) :
      ((s.lock ≠ none ∨ s.backend.data.freeSlot = none) ∧ step s e = s ∧ accesses s e = []) ∨
        ∃ type len flags i b, s.lock = none ∧ s.backend.data.freeSlot = some i ∧
          publish type len flags r s.backend = some (i * 3, b) ∧
          accesses s e = published (i * 3) b ∧ (step s e).backend = b := by
    rw [hstep, hacc]
    cases hlock : s.lock with
    | some k => exact .inl (by simp [System.enter, enterAccesses, hlock])
    | none =>
      cases hfree : s.backend.data.freeSlot with
      | none => exact .inl (by simp [System.enter, enterAccesses, hlock, publish_of_none hfree])
      | some i =>
        obtain ⟨b, hpublish, -⟩ := publish_of_some type len flags r hfree
        refine .inr ⟨type, len, flags, i, b, rfl, rfl, hpublish, ?_, ?_⟩
        · simp only [enterAccesses, hlock, hpublish]
        · simp only [System.enter, hlock, hpublish]
  rcases starts with rfl | rfl
  · exact enters _ _ _ rfl rfl
  · exact enters _ _ _ rfl rfl

theorem step_frame (s : System) (e : Event) (p : Nat) :
    (.desc p ∉ accesses s e → (step s e).backend.desc p = s.backend.desc p) ∧
      (.availRing p ∉ accesses s e →
        (step s e).backend.avail.ring p = s.backend.avail.ring p) := by
  have starts {r : Request} (hstarts : e = .blockRead r ∨ e = .blockWrite r) :
      (.desc p ∉ accesses s e → (step s e).backend.desc p = s.backend.desc p) ∧
        (.availRing p ∉ accesses s e →
          (step s e).backend.avail.ring p = s.backend.avail.ring p) := by
    rcases starts_cases s hstarts with ⟨-, same, -⟩ |
      ⟨_, _, _, i, b, -, -, hpublish, hacc, hb⟩
    · simp [same]
    · obtain ⟨-, -, -, desc, ring⟩ := publish_spec hpublish
      rw [hacc, hb]
      constructor
      · intro hnot
        simp only [published, List.mem_cons, Access.desc.injEq, not_or] at hnot
        exact desc p hnot.1 hnot.2.1 hnot.2.2.1
      · intro hnot
        refine ring p fun hp => hnot ?_
        simp [published, hp]
  cases e with
  | blockRead r => exact starts (.inl rfl)
  | blockWrite r => exact starts (.inr rfl)
  | notify | consume | complete k len | finish k =>
    rcases step_effect s _ with same | effect
    · rw [same]
      exact ⟨fun _ => rfl, fun _ => rfl⟩
    · generalize step s _ = s' at effect
      cases effect
      exact ⟨fun _ => rfl, fun _ => rfl⟩

theorem index_published_iff {type len : BitVec 32} {flags : BitVec 16} {r : Request}
    {b b' : Backend} {freeIndex : Nat}
    (h : publish type len flags r b = some (freeIndex, b')) :
    (∀ a ∈ published freeIndex b', a.index < queueNum) ↔ freeIndex + 2 < queueNum := by
  obtain ⟨next1, next2, entry, -, -⟩ := publish_spec h
  have hone : (1 : BitVec 16).toNat = 1 := rfl
  have htwo : (2 : BitVec 16).toNat = 2 := rfl
  unfold queueNum
  constructor
  · intro below
    exact below (.desc (freeIndex + 2)) (by simp [published])
  · intro hlt
    simp only [published, List.forall_mem_cons, Access.index, next1, next2, entry,
      BitVec.toNat_add, BitVec.toNat_ofNat, hone, htwo]
    refine ⟨?_, ?_, ?_, ?_, ?_, ?_, ?_, fun a ha => absurd ha List.not_mem_nil⟩ <;> omega

theorem BlockData.low_iff {d : BlockData} {i : Nat} (h : d.freeSlot = some i) :
    (∃ j < 4, d.usedRequestIndex j = 0) ↔ i < 4 := by
  obtain ⟨hfree, -, lowest⟩ := List.find?_range_eq_some.mp h
  constructor
  · rintro ⟨j, hj, hzero⟩
    by_contra hi
    have hmark := lowest j (by omega)
    simp [hzero] at hmark
  · exact fun hi => ⟨i, hi, by simpa using hfree⟩

section
variable {s : System}

theorem Inv.few_of_low (h : Inv s) (low : ∃ i < 4, s.backend.data.usedRequestIndex i = 0) :
    inFlight s < 4 := by
  by_contra hmany
  obtain ⟨i, hi, hzero⟩ := low
  have hle : lowMarks s.backend.data ≤ 4 := Nat.count_le _
  have hall : lowMarks s.backend.data = 4 := by
    have hfew := h.few
    omega
  exact Nat.count_iff_forall.mp hall i hi hzero

/-- Some slot is free, since the slots from the fifth on are. -/
theorem Inv.exists_free (h : Inv s) : ∃ i, s.backend.data.freeSlot = some i := by
  rw [← Option.isSome_iff_exists, Option.isSome_iff_ne_none]
  intro hnone
  exact BlockData.freeSlot_eq_none.mp hnone 4 (by decide) (h.high 4 (by decide) (by decide))

theorem inQueue_iff (h : Inv s) (e : Event) : InQueue s e ↔ FindsLowSlot s e := by
  constructor
  · intro inQueue r starts hlock
    rcases starts_cases s starts with ⟨hwaits, -, -⟩ | ⟨_, _, _, i, b, -, hfree, hpublish, hacc, -⟩
    · obtain ⟨i, hfree⟩ := h.exists_free
      simp [hlock, hfree] at hwaits
    · have below := inQueue.index
      rw [hacc, index_published_iff hpublish, queueNum] at below
      exact (BlockData.low_iff hfree).mpr (by omega)
  · intro finds
    refine ⟨?_, fun many r starts => ?_⟩
    · have index_starts {r : Request} (starts : e = .blockRead r ∨ e = .blockWrite r) :
          ∀ a ∈ accesses s e, a.index < queueNum := by
        rcases starts_cases s starts with ⟨-, -, hacc⟩ |
          ⟨_, _, _, i, b, hlock, hfree, hpublish, hacc, -⟩
        · simp [hacc]
        · have hi := (BlockData.low_iff hfree).mp (finds r starts hlock)
          rw [hacc, index_published_iff hpublish, queueNum]
          omega
      cases e with
      | blockRead r => exact index_starts (.inl rfl)
      | blockWrite r => exact index_starts (.inr rfl)
      | notify | consume | complete k len => exact fun a ha => absurd ha List.not_mem_nil
      | finish k =>
        intro a ha
        simp only [accesses, finishAccesses] at ha
        split at ha
        next freeIndex lastSeenIdx completed hcall =>
          obtain ⟨i, hi, hindex⟩ := h.slot _ (List.mem_of_getElem? hcall)
          have ha : a = .usedRing freeIndex := by
            split at ha <;> simp at ha
            exact ha
          rw [ha, Access.index, queueNum]
          dsimp only at hindex
          omega
        next => simp at ha
    · rcases starts_cases s starts with ⟨-, same, -⟩ | ⟨_, _, _, i, b, hlock, -⟩
      · exact same
      · have few := h.few_of_low (finds r starts hlock)
        omega

private theorem Inv.modify (h : Inv s) {s' : System} {k : Nat} {f : Call → Call}
    (data : s'.backend.data = s.backend.data) (calls : s'.calls = s.calls.modify k f)
    (index : ∀ c, (f c).freeIndex = c.freeIndex)
    (flight : ∀ c, s.calls[k]? = some c → (f c).inFlight = c.inFlight)
    (lock : LockHeld s') : Inv s' := by
  refine ⟨fun c hc => ?_, by rw [data]; exact h.high, ?_, lock⟩
  · obtain ⟨j, hj⟩ := List.getElem?_of_mem hc
    rw [calls] at hj
    rcases getElem?_modify_cases hj with ⟨-, d, hd, rfl⟩ | ⟨-, hold⟩
    · rw [index]
      exact h.slot d (List.mem_of_getElem? hd)
    · exact h.slot c (List.mem_of_getElem? hold)
  · have hsame : inFlight s' = inFlight s := by
      unfold inFlight
      rw [calls]
      exact countP_modify_of_same flight
    rw [hsame, data]
    exact h.few

theorem Inv.enter (h : Inv s) {s' : System} {i : Nat} (entered : Enters s i s') (hi : i < 4)
    (lock : LockHeld s') : Inv s' := by
  obtain ⟨-, hfree⟩ := BlockData.freeSlot_eq_some entered.free
  have hused (j : Nat) : s'.backend.data.usedRequestIndex j =
      if j = i then 1 else s.backend.data.usedRequestIndex j := by
    rw [entered.published.data]
    exact Function.update_apply ..
  refine ⟨fun c hc => ?_, fun j hj hlt => ?_, ?_, lock⟩
  · rw [entered.calls, List.mem_append, List.mem_singleton] at hc
    rcases hc with hc | rfl
    · exact h.slot c hc
    · exact ⟨i, hi, rfl⟩
  · rw [hused, if_neg (by omega)]
    exact h.high j hj hlt
  · have hmarks : lowMarks s'.backend.data = lowMarks s.backend.data + 1 := by
      refine Slots.count_grant hi (not_not.mpr hfree) fun j _ => ?_
      rw [hused]
      by_cases hj : j = i <;> simp [hj]
    rw [hmarks, inFlight, entered.calls, List.countP_append]
    exact Nat.add_le_add_right h.few 1

theorem Inv.finish (h : Inv s) {k : Nat} {c : Call} (returns : Returns s k c) :
    Inv (step s (.finish k)) := by
  have hc := returns.1
  have lock := lockHeld_step h.lock (.finish k)
  rw [step_finish returns] at lock ⊢
  refine ⟨fun d hd => ?_, fun j hj hlt => ?_, ?_, lock⟩
  · obtain ⟨j, hj⟩ := List.getElem?_of_mem hd
    rcases getElem?_modify_cases hj with ⟨-, d', hd', rfl⟩ | ⟨-, hold⟩
    · exact h.slot d' (List.mem_of_getElem? hd')
    · exact h.slot d (List.mem_of_getElem? hold)
  · change Function.update s.backend.data.usedRequestIndex c.freeIndex 0 j = 0
    rw [Function.update_apply]
    split
    · rfl
    · exact h.high j hj hlt
  · have hcount := countP_modify (p := Call.inFlight)
      (f := fun d => { d with phase := .returned (Block.finish c.freeIndex s.backend).1 }) hc
    have hreturned : Call.inFlight
        { c with phase := .returned (Block.finish c.freeIndex s.backend).1 } = false := rfl
    rw [returns.inFlight, hreturned, if_pos rfl, if_neg Bool.false_ne_true, Nat.add_zero] at hcount
    have hmarks : lowMarks s.backend.data ≤
        lowMarks (Block.finish c.freeIndex s.backend).2.data + 1 := by
      refine Slots.count_release (i := c.freeIndex) fun j _ hj hmark => ?_
      change Function.update s.backend.data.usedRequestIndex c.freeIndex 0 j ≠ 0
      rwa [Function.update_of_ne hj]
    have few := h.few
    unfold inFlight at few ⊢
    change List.countP _ (s.calls.modify k _) ≤
      lowMarks (Block.finish c.freeIndex s.backend).2.data
    omega

theorem inv_step (h : Inv s) {e : Event} (ok : FindsLowSlot s e) : Inv (step s e) := by
  have lock := lockHeld_step h.lock e
  rcases step_effect s e with same | effect
  · rwa [same]
  · generalize hs' : step s e = s' at effect lock
    cases effect with
    | blockRead r i entered =>
      have hi := (BlockData.low_iff entered.free).mp (ok r (.inl rfl) entered.unlocked)
      exact h.enter entered hi lock
    | blockWrite r i entered =>
      have hi := (BlockData.low_iff entered.free).mp (ok r (.inr rfl) entered.unlocked)
      exact h.enter entered hi lock
    | notify k hlock =>
      exact h.modify (k := k) rfl rfl (fun _ => rfl)
        (fun _ hc => (h.lock.inFlight hlock hc).symm) lock
    | consume => exact ⟨h.slot, h.high, h.few, lock⟩
    | complete k c len hc hdone =>
      exact h.modify (k := k) rfl rfl (fun _ => rfl) (fun _ _ => rfl) lock
    | finish k c returns => exact hs' ▸ h.finish returns

theorem inv_boot (b : Backend) : Inv (boot b) where
  slot _ hc := absurd hc List.not_mem_nil
  high _ _ hi := if_pos hi
  few := Nat.zero_le _
  lock := lockHeld_boot b

end

/-- The calls use indexes of the queue only, the fifth at a time waiting, along exactly the
runs in which every call that starts finds one of the first four slots free. -/
theorem in_queue_iff_finds_low_slot (b : Backend) (events : List Event) :
    Run.Guarded step InQueue (boot b) events ↔ Run.Guarded step FindsLowSlot (boot b) events :=
  Run.guarded_iff_guarded (fun _ e h => inQueue_iff h e) (fun _ _ h => inv_step h) (inv_boot b)

def fiveReads : List Event :=
  [.blockRead oneSector, .notify, .blockRead oneSector, .notify, .blockRead oneSector, .notify,
    .blockRead oneSector, .notify, .blockRead oneSector]

theorem not_in_queue_five_reads : ¬ Run.Guarded step InQueue (boot zeroBackend) fiveReads := by
  rintro ⟨-, -, -, -, -, -, -, -, fifth, -⟩
  have below := fifth.index (.availRing 12) (List.mem_of_getElem? (i := 5) rfl)
  exact absurd below (by decide)

end KernelFuzzing.Block.Queue
