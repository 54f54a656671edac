import KernelFuzzing.Foundation.Run
import KernelFuzzing.Block.Backend

/-! Any number of `block_read` and `block_write` calls together with the device, one step
of one party at a time. A step that its party cannot take, such as a turn of a wait loop,
leaves everything as it is. -/
namespace KernelFuzzing.Block
open Foundation

/-- Where a call is: still in its locked section, before `last_seen_idx` is read; in its
wait loop; or done, with its result. -/
inductive Phase where
  | locked
  | waiting (lastSeenIdx : BitVec 32)
  | returned (len : BitVec 32)

structure Call where
  freeIndex : Nat
  phase : Phase
  completed : Bool

def Call.inFlight (c : Call) : Bool :=
  match c.phase with
  | .returned _ => false
  | _ => true

def Call.chain (c : Call) : List Nat := [c.freeIndex, c.freeIndex + 1, c.freeIndex + 2]

def Call.head (c : Call) : BitVec 16 := BitVec.ofNat 16 c.freeIndex

/-- The calls in the order they published, the one that holds `GlobalBlockLock`, the
device's index into the available ring and the entries it has taken from there. -/
structure System where
  backend : Backend
  lock : Option Nat
  calls : List Call
  seen : BitVec 16
  consumed : List (BitVec 16)

inductive Event where
  /-- A call enters its locked section and runs it up to the increment of `avail.idx`. -/
  | blockRead (r : Request)
  | blockWrite (r : Request)
  /-- The call in the locked section reads `last_seen_idx`, notifies and unlocks. -/
  | notify
  /-- The device takes the next entry of the available ring. -/
  | consume
  /-- The device completes the chain of a call. -/
  | complete (k : Nat) (len : BitVec 32)
  /-- A call looks at `used.idx` and returns if it changed. -/
  | finish (k : Nat)

def System.enter (s : System) (published : Option (Nat × Backend)) : System :=
  match s.lock, published with
  | none, some (freeIndex, b) =>
      { s with
        backend := b
        lock := some s.calls.length
        calls := s.calls ++ [⟨freeIndex, .locked, false⟩] }
  | _, _ => s

def System.notify (s : System) : System :=
  match s.lock with
  | some k =>
      { s with
        lock := none
        calls := s.calls.modify k fun c =>
          { c with phase := .waiting (s.backend.used.idx.setWidth 32) } }
  | none => s

def System.consume (s : System) : System :=
  if s.seen = s.backend.avail.idx then s
  else
    { s with
      seen := s.seen + 1
      consumed := s.consumed ++ [s.backend.avail.ring (s.seen.toNat % 12)] }

def System.complete (s : System) (k : Nat) (len : BitVec 32) : System :=
  match s.calls[k]? with
  | some c =>
      if c.completed then s
      else
        { s with
          backend := reportUsed (BitVec.ofNat 32 c.freeIndex) len s.backend
          calls := s.calls.modify k fun c => { c with completed := true } }
  | none => s

def System.finish (s : System) (k : Nat) : System :=
  match s.calls[k]? with
  | some ⟨freeIndex, .waiting lastSeenIdx, _⟩ =>
      if waits s.backend lastSeenIdx then s
      else
        { s with
          backend := (Block.finish freeIndex s.backend).2
          calls := s.calls.modify k fun c =>
            { c with phase := .returned (Block.finish freeIndex s.backend).1 } }
  | _ => s

def step (s : System) : Event → System
  | .blockRead r => s.enter (blockRead r s.backend)
  | .blockWrite r => s.enter (blockWrite r s.backend)
  | .notify => s.notify
  | .consume => s.consume
  | .complete k len => s.complete k len
  | .finish k => s.finish k

def boot (b : Backend) : System := ⟨initVirtioBackend b, none, [], b.avail.idx, []⟩

def zeroBackend : Backend :=
  ⟨⟨0, fun _ => 0⟩, fun _ => ⟨0, 0, 0⟩, fun _ => ⟨0, 0, 0, 0⟩, ⟨0, 0, fun _ => 0⟩,
    ⟨0, 0, fun _ => ⟨0, 0⟩⟩⟩

def oneSector : Request := ⟨1000, 0xFFFF0000C0010000, 512, 0xFFFF0000C0020000, 0xFFFF0000C0030000⟩

/-- The call `k` is in its wait loop and `used.idx` has changed. -/
def Returns (s : System) (k : Nat) (c : Call) : Prop :=
  s.calls[k]? = some c ∧
    ∃ lastSeenIdx, c.phase = .waiting lastSeenIdx ∧ waits s.backend lastSeenIdx = false

theorem step_finish {s : System} {k : Nat} {c : Call} (h : Returns s k c) :
    step s (.finish k) =
      { s with
        backend := (Block.finish c.freeIndex s.backend).2
        calls := s.calls.modify k fun d =>
          { d with phase := .returned (Block.finish c.freeIndex s.backend).1 } } := by
  obtain ⟨freeIndex, phase, completed⟩ := c
  obtain ⟨hcall, last, rfl, hwaits⟩ := h
  simp [step, System.finish, hcall, hwaits]

theorem step_notify {s : System} {k : Nat} (h : s.lock = some k) :
    step s .notify =
      { s with
        lock := none
        calls := s.calls.modify k fun c =>
          { c with phase := .waiting (s.backend.used.idx.setWidth 32) } } := by
  simp [step, System.notify, h]

theorem step_consume {s : System} (h : s.seen ≠ s.backend.avail.idx) :
    step s .consume =
      { s with
        seen := s.seen + 1
        consumed := s.consumed ++ [s.backend.avail.ring (s.seen.toNat % 12)] } := by
  simp [step, System.consume, h]

theorem step_complete {s : System} {k : Nat} {c : Call} (h : s.calls[k]? = some c)
    (open' : c.completed = false) (len : BitVec 32) :
    step s (.complete k len) =
      { s with
        backend := reportUsed (BitVec.ofNat 32 c.freeIndex) len s.backend
        calls := s.calls.modify k fun c => { c with completed := true } } := by
  simp [step, System.complete, h, open']

theorem getElem?_modify_cases {calls : List Call} {f : Call → Call} {c : Call} {j k : Nat}
    (h : (calls.modify k f)[j]? = some c) :
    (j = k ∧ ∃ d, calls[k]? = some d ∧ c = f d) ∨ (j ≠ k ∧ calls[j]? = some c) := by
  rw [List.getElem?_modify, Option.map_eq_map, Option.map_eq_some_iff] at h
  obtain ⟨d, hd, hc⟩ := h
  by_cases hk : k = j
  · rw [if_pos hk] at hc
    exact .inl ⟨hk.symm, d, hk ▸ hd, hc.symm⟩
  · rw [if_neg hk] at hc
    exact .inr ⟨Ne.symm hk, hc ▸ hd⟩

theorem countP_modify {calls : List Call} {p : Call → Bool} {f : Call → Call} {c : Call} {k : Nat}
    (h : calls[k]? = some c) :
    (calls.modify k f).countP p + (if p c then 1 else 0) =
      calls.countP p + if p (f c) then 1 else 0 := by
  induction calls generalizing k with
  | nil => simp at h
  | cons d calls ih =>
    cases k with
    | zero =>
      obtain rfl : d = c := by simpa using h
      rw [List.modify_zero_cons, List.countP_cons, List.countP_cons]
      omega
    | succ k =>
      rw [List.getElem?_cons_succ] at h
      have hrest := ih h
      rw [List.modify_succ_cons, List.countP_cons, List.countP_cons]
      omega

theorem countP_modify_of_same {calls : List Call} {p : Call → Bool} {f : Call → Call} {k : Nat}
    (same : ∀ c, calls[k]? = some c → p (f c) = p c) :
    (calls.modify k f).countP p = calls.countP p := by
  cases hk : calls[k]? with
  | none => rw [List.modify_eq_self (List.getElem?_eq_none_iff.mp hk)]
  | some c =>
    have hcount := countP_modify (p := p) (f := f) hk
    rwa [same c hk, Nat.add_right_cancel_iff] at hcount

structure Enters (s : System) (i : Nat) (s' : System) : Prop where
  unlocked : s.lock = none
  free : s.backend.data.freeSlot = some i
  published : Published i s.backend s'.backend
  lock : s'.lock = some s.calls.length
  calls : s'.calls = s.calls ++ [⟨i * 3, .locked, false⟩]
  seen : s'.seen = s.seen
  consumed : s'.consumed = s.consumed

theorem enter_cases (s : System) (r : Request) (type len : BitVec 32) (flags : BitVec 16) :
    s.enter (publish type len flags r s.backend) = s ∨
      ∃ i, Enters s i (s.enter (publish type len flags r s.backend)) := by
  cases hlock : s.lock with
  | some k =>
    left
    simp [System.enter, hlock]
  | none =>
    cases hfree : s.backend.data.freeSlot with
    | none =>
      left
      simp [System.enter, hlock, publish_of_none hfree]
    | some i =>
      right
      obtain ⟨b', hb, published⟩ := publish_of_some type len flags r hfree
      simp only [System.enter, hlock, hb]
      exact ⟨i, ⟨hlock, hfree, published, rfl, rfl, rfl, rfl⟩⟩

inductive Effect (s : System) : Event → System → Prop where
  | blockRead (r : Request) (i : Nat) {s' : System} : Enters s i s' → Effect s (.blockRead r) s'
  | blockWrite (r : Request) (i : Nat) {s' : System} : Enters s i s' → Effect s (.blockWrite r) s'
  | notify (k : Nat) : s.lock = some k →
      Effect s .notify
        { s with
          lock := none
          calls := s.calls.modify k fun c =>
            { c with phase := .waiting (s.backend.used.idx.setWidth 32) } }
  | consume : s.seen ≠ s.backend.avail.idx →
      Effect s .consume
        { s with
          seen := s.seen + 1
          consumed := s.consumed ++ [s.backend.avail.ring (s.seen.toNat % 12)] }
  | complete (k : Nat) (c : Call) (len : BitVec 32) : s.calls[k]? = some c →
      c.completed = false →
      Effect s (.complete k len)
        { s with
          backend := reportUsed (BitVec.ofNat 32 c.freeIndex) len s.backend
          calls := s.calls.modify k fun c => { c with completed := true } }
  | finish (k : Nat) (c : Call) : Returns s k c →
      Effect s (.finish k)
        { s with
          backend := (Block.finish c.freeIndex s.backend).2
          calls := s.calls.modify k fun d =>
            { d with phase := .returned (Block.finish c.freeIndex s.backend).1 } }

theorem step_effect (s : System) (e : Event) : step s e = s ∨ Effect s e (step s e) := by
  cases e with
  | blockRead r =>
    exact (enter_cases s r _ _ _).imp id fun ⟨i, entered⟩ => .blockRead r i entered
  | blockWrite r =>
    exact (enter_cases s r _ _ _).imp id fun ⟨i, entered⟩ => .blockWrite r i entered
  | notify =>
    cases hlock : s.lock with
    | none => exact .inl (by simp [step, System.notify, hlock])
    | some k => exact .inr (step_notify hlock ▸ .notify k hlock)
  | consume =>
    by_cases hseen : s.seen = s.backend.avail.idx
    · exact .inl (by simp [step, System.consume, hseen])
    · exact .inr (step_consume hseen ▸ .consume hseen)
  | complete k len =>
    cases hcall : s.calls[k]? with
    | none => exact .inl (by simp [step, System.complete, hcall])
    | some c =>
      cases hdone : c.completed with
      | true => exact .inl (by simp [step, System.complete, hcall, hdone])
      | false => exact .inr (step_complete hcall hdone len ▸ .complete k c len hcall hdone)
  | finish k =>
    match hcall : s.calls[k]? with
    | none => exact .inl (by simp [step, System.finish, hcall])
    | some ⟨freeIndex, .locked, _⟩ => exact .inl (by simp [step, System.finish, hcall])
    | some ⟨freeIndex, .returned len, _⟩ => exact .inl (by simp [step, System.finish, hcall])
    | some ⟨freeIndex, .waiting lastSeenIdx, completed⟩ =>
      cases hwaits : waits s.backend lastSeenIdx with
      | true => exact .inl (by simp [step, System.finish, hcall, hwaits])
      | false =>
        have returns : Returns s k ⟨freeIndex, .waiting lastSeenIdx, completed⟩ :=
          ⟨hcall, lastSeenIdx, rfl, hwaits⟩
        exact .inr (step_finish returns ▸ .finish k _ returns)

def LockHeld (s : System) : Prop :=
  ∀ k, s.lock = some k → ∃ c, s.calls[k]? = some c ∧ c.phase = .locked

theorem Returns.inFlight {s : System} {k : Nat} {c : Call} (h : Returns s k c) :
    c.inFlight = true := by
  obtain ⟨-, last, hphase, -⟩ := h
  simp [Call.inFlight, hphase]

theorem LockHeld.inFlight {s : System} (h : LockHeld s) {k : Nat} {c : Call}
    (hlock : s.lock = some k) (hc : s.calls[k]? = some c) : c.inFlight = true := by
  obtain ⟨d, hd, hlocked⟩ := h k hlock
  rw [Option.some.inj (hc.symm.trans hd)]
  simp [Call.inFlight, hlocked]

theorem lockHeld_step {s : System} (h : LockHeld s) (e : Event) : LockHeld (step s e) := by
  have enter {i : Nat} {s' : System} (entered : Enters s i s') : LockHeld s' := by
    intro k hk
    rw [entered.lock, Option.some.injEq] at hk
    refine ⟨⟨i * 3, .locked, false⟩, ?_, rfl⟩
    rw [entered.calls, ← hk]
    simp
  rcases step_effect s e with same | effect
  · rwa [same]
  · generalize step s e = s' at effect
    cases effect with
    | blockRead r i entered => exact enter entered
    | blockWrite r i entered => exact enter entered
    | notify k hlock => exact fun j hj => absurd hj (by simp)
    | consume => exact h
    | complete k c len hc hdone =>
      intro j hj
      obtain ⟨d, hd, hlocked⟩ := h j hj
      rw [List.getElem?_modify, hd]
      by_cases hk : k = j
      · exact ⟨{ d with completed := true }, by simp [hk], hlocked⟩
      · exact ⟨d, by simp [hk], hlocked⟩
    | finish k c returns =>
      intro j hj
      obtain ⟨d, hd, hlocked⟩ := h j hj
      obtain ⟨hc, last, hphase, -⟩ := returns
      have hk : k ≠ j := by
        rintro rfl
        rw [Option.some.inj (hc.symm.trans hd), hlocked] at hphase
        cases hphase
      rw [List.getElem?_modify, hd]
      exact ⟨d, by simp [hk], hlocked⟩

theorem lockHeld_boot (b : Backend) : LockHeld (boot b) := fun k hk => absurd hk (by simp [boot])

end KernelFuzzing.Block
