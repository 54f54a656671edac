import KernelFuzzing.Foundation.Rotation
import KernelFuzzing.Block.Requests

/-! `block_read` and `block_write` calls one after the other, against a device that
completes the chain of each with a length of its own. -/
namespace KernelFuzzing.Block.Sequential
open Foundation

inductive Kind where
  | blockRead
  | blockWrite

def Kind.publish : Kind → Request → Backend → Option (Nat × Backend)
  | .blockRead => Block.blockRead
  | .blockWrite => Block.blockWrite

/-- A call, the length the device reports for its chain, and whether the device completes
the chain before the call has read `last_seen_idx`. -/
structure Turn where
  kind : Kind
  request : Request
  len : BitVec 32
  early : Bool

def completeChain (k head : Nat) (len : BitVec 32) (b : Backend) : Backend :=
  { b with
    used.ring := Rotation.put 12 b.used.ring k ⟨BitVec.ofNat 32 head, len⟩
    used.idx := b.used.idx + 1 }

/-- The `k`-th call from its start to its return. `none` is a call that does not return. -/
def call (k : Nat) (c : Turn) (b : Backend) : Option (BitVec 32 × Backend) :=
  match c.kind.publish c.request b with
  | none => none
  | some (freeIndex, b) =>
      let b := if c.early then completeChain k freeIndex c.len b else b
      let lastSeenIdx := b.used.idx.setWidth 32
      let b := if c.early then b else completeChain k freeIndex c.len b
      if waits b lastSeenIdx then none else some (finish freeIndex b)

structure Driver where
  backend : Backend
  results : List (BitVec 32)
  hangs : Bool

/-- The next call starts when the one before has returned. -/
def step (s : Driver) (c : Turn) : Driver :=
  if s.hangs then s
  else
    match call s.results.length c s.backend with
    | none => { s with hangs := true }
    | some (len, b) => { s with backend := b, results := s.results ++ [len] }

def start (b : Backend) : Driver := ⟨initVirtioBackend b, [], false⟩

def Idle (b : Backend) : Prop := b.data.usedRequestIndex 0 = 0

theorem publish_of_idle {b : Backend} (idle : Idle b) (c : Turn) :
    ∃ b', c.kind.publish c.request b = some (0, b') ∧ b'.used = b.used := by
  have hfree := BlockData.freeSlot_of_first idle
  cases hkind : c.kind with
  | blockRead =>
    obtain ⟨b', hb, published⟩ := publish_of_some _ _ _ c.request hfree
    exact ⟨b', hb, published.used⟩
  | blockWrite =>
    obtain ⟨b', hb, published⟩ := publish_of_some _ _ _ c.request hfree
    exact ⟨b', hb, published.used⟩

theorem call_early {b : Backend} (idle : Idle b) {c : Turn} (early : c.early = true) (k : Nat) :
    call k c b = none := by
  obtain ⟨b', hb, -⟩ := publish_of_idle idle c
  simp [call, hb, early, waits]

theorem call_late {b : Backend} (idle : Idle b) {c : Turn} (late : c.early = false) (k : Nat) :
    ∃ b', call k c b = some ((b'.used.ring 0).len, b') ∧ Idle b' ∧
      b'.used.ring = Rotation.put 12 b.used.ring k ⟨0, c.len⟩ := by
  obtain ⟨b', hb, used⟩ := publish_of_idle idle c
  have hwaits : waits (completeChain k 0 c.len b') (b'.used.idx.setWidth 32) = false :=
    waits_eq_false.mpr (setWidth_add_one_ne _)
  refine ⟨(finish 0 (completeChain k 0 c.len b')).2, ?_, finish_usedRequestIndex 0 _, ?_⟩
  · simp only [call, hb, late, hwaits, Bool.false_eq_true, if_false]
    rfl
  · rw [← used]
    rfl

/-- After calls whose chains were completed late. Element 0 of the used ring is written
once in twelve calls, and every call reads it. -/
structure Returned (b : Backend) (calls : List Turn) (s : Driver) : Prop where
  late : ∀ c ∈ calls, c.early = false
  hangs : s.hangs = false
  idle : Idle s.backend
  ring : s.backend.used.ring =
    Rotation.putAll 12 b.used.ring (calls.map fun c => ⟨0, c.len⟩)
  length : s.results.length = calls.length
  results : ∀ k < calls.length, s.results[k]? = (calls[12 * (k / 12)]?).map Turn.len

structure Stuck (calls : List Turn) (s : Driver) : Prop where
  hangs : s.hangs = true
  early : ∃ c ∈ calls, c.early = true
  length : s.results.length < calls.length

section
variable {b : Backend} {calls : List Turn} {s : Driver}

theorem Stuck.step (h : Stuck calls s) (c : Turn) : Stuck (calls ++ [c]) (step s c) := by
  have hstep : Sequential.step s c = s := by rw [Sequential.step, h.hangs, if_pos rfl]
  obtain ⟨d, hd, early⟩ := h.early
  rw [hstep]
  refine ⟨h.hangs, ⟨d, List.mem_append_left _ hd, early⟩, ?_⟩
  rw [List.length_append]
  exact Nat.lt_add_right _ h.length

theorem Returned.step_early (h : Returned b calls s) {c : Turn} (early : c.early = true) :
    Stuck (calls ++ [c]) (step s c) := by
  have hstep : Sequential.step s c = { s with hangs := true } := by
    simp [Sequential.step, h.hangs, call_early h.idle early]
  rw [hstep]
  refine ⟨rfl, ⟨c, List.mem_append_right _ (List.mem_singleton_self c), early⟩, ?_⟩
  rw [List.length_append, h.length]
  exact Nat.lt_succ_self _

theorem Returned.step_late (h : Returned b calls s) {c : Turn} (late : c.early = false) :
    Returned b (calls ++ [c]) (step s c) := by
  obtain ⟨b', hcall, idle, ring⟩ := call_late h.idle late s.results.length
  have hstep : Sequential.step s c =
      { s with backend := b', results := s.results ++ [(b'.used.ring 0).len] } := by
    simp [Sequential.step, h.hangs, hcall]
  have hring : b'.used.ring =
      Rotation.putAll 12 b.used.ring ((calls ++ [c]).map fun c => ⟨0, c.len⟩) := by
    rw [List.map_append, List.map_singleton, Rotation.putAll_concat, List.length_map, ← h.length,
      ← h.ring, ring]
  rw [hstep]
  refine ⟨fun d hd => ?_, h.hangs, idle, hring, ?_, fun k hk => ?_⟩
  · rcases List.mem_append.mp hd with hd | hd
    · exact h.late d hd
    · rw [List.mem_singleton.mp hd, late]
  · rw [List.length_append, List.length_append, h.length]
    rfl
  · rw [List.length_append, List.length_singleton] at hk
    by_cases hlast : k < calls.length
    · rw [List.getElem?_append_left (h.length ▸ hlast), List.getElem?_append_left (by omega)]
      exact h.results k hlast
    · -- the new call reads what the first call of its twelve left
      obtain rfl : k = calls.length := by omega
      obtain ⟨d, hd⟩ : ∃ d, (calls ++ [c])[12 * (calls.length / 12)]? = some d := by
        rw [← Option.isSome_iff_exists, isSome_getElem?, List.length_append,
          List.length_singleton]
        omega
      have hzero : b'.used.ring 0 = ⟨0, d.len⟩ := by
        rw [hring]
        refine Rotation.putAll_eq (k := 12 * (calls.length / 12)) ?_ (Nat.mul_mod_right ..) ?_
        · rw [List.getElem?_map, hd, Option.map_some]
        · intro j hj hlt
          rw [List.length_map, List.length_append, List.length_singleton] at hlt
          omega
      rw [← h.length, List.getElem?_concat_length, h.length, hd, hzero, Option.map_some]

theorem returned_or_stuck (b : Backend) (calls : List Turn) :
    Returned b calls (Run.run step (start b) calls) ∨
      Stuck calls (Run.run step (start b) calls) := by
  induction calls using List.reverseRecOn with
  | nil => exact .inl ⟨by simp, rfl, rfl, rfl, rfl, by simp⟩
  | append_singleton calls c ih =>
    rw [Run.run_append, Run.run_cons, Run.run_nil]
    rcases ih with returned | stuck
    · cases hearly : c.early with
      | true => exact .inr (returned.step_early hearly)
      | false => exact .inl (returned.step_late hearly)
    · exact .inr (stuck.step c)

end

/-- Every call returns the length that the device reported for it exactly if no chain is
completed before its call has read `last_seen_idx` and the lengths are the same in each
twelve calls. -/
theorem returns_own_length_iff (b : Backend) (calls : List Turn) :
    (Run.run step (start b) calls).results = calls.map Turn.len ↔
      ∀ k c, calls[k]? = some c →
        c.early = false ∧ (calls[12 * (k / 12)]?).map Turn.len = some c.len := by
  rcases returned_or_stuck b calls with returned | stuck
  · constructor
    · intro own k c hc
      obtain ⟨hk, -⟩ := List.getElem?_eq_some_iff.mp hc
      refine ⟨returned.late c (List.mem_of_getElem? hc), ?_⟩
      rw [← returned.results k hk, own, List.getElem?_map, hc, Option.map_some]
    · intro same
      apply List.ext_getElem?
      intro k
      by_cases hk : k < calls.length
      · rw [returned.results k hk, List.getElem?_map, List.getElem?_eq_getElem hk,
          (same k _ (List.getElem?_eq_getElem hk)).2, Option.map_some]
      · rw [List.getElem?_eq_none (by rw [returned.length]; omega),
          List.getElem?_eq_none (by rw [List.length_map]; omega)]
  · refine iff_of_false (fun own => ?_) fun same => ?_
    · have hlength := congrArg List.length own
      rw [List.length_map] at hlength
      exact absurd stuck.length (hlength ▸ Nat.lt_irrefl _)
    · obtain ⟨c, hc, early⟩ := stuck.early
      obtain ⟨k, hk⟩ := List.getElem?_of_mem hc
      rw [(same k c hk).1] at early
      exact absurd early Bool.false_ne_true

/-- A read of one sector, for which the device reports 513 bytes, then a write, for which
it reports the status byte. -/
def readThenWrite : List Turn :=
  [⟨.blockRead, oneSector, 513, false⟩, ⟨.blockWrite, oneSector, 1, false⟩]

theorem not_returns_own_length_second_call :
    ¬ (Run.run step (start zeroBackend) readThenWrite).results = readThenWrite.map Turn.len := by
  have results : (Run.run step (start zeroBackend) readThenWrite).results = [513, 513] := rfl
  rw [results]
  decide

end KernelFuzzing.Block.Sequential
