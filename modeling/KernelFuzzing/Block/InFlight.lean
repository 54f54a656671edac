import KernelFuzzing.Block.Requests

/-! What the device finds when it follows the chain of a call: as long as no return clears
the mark of another call, the chain of every call in flight holds that call's own request. -/
namespace KernelFuzzing.Block.InFlight
open Foundation

structure Issue where
  type : BitVec 32
  len : BitVec 32
  flags : BitVec 16
  request : Request

def Event.issue : Event → Option Issue
  | .blockRead r =>
      some ⟨virtioBlkTIn, r.size.setWidth 32, virtioDescFNext ||| virtioDescFWrite, r⟩
  | .blockWrite r => some ⟨virtioBlkTOut, 512, virtioDescFNext, r⟩
  | _ => none

structure Traced where
  system : System
  issues : List Issue

def step (t : Traced) (e : Event) : Traced where
  system := Block.step t.system e
  issues :=
    if (Block.step t.system e).calls.length = t.system.calls.length then t.issues
    else t.issues ++ (Event.issue e).toList

def boot (b : Backend) : Traced := ⟨Block.boot b, []⟩

/-- A chain as the device reads it: the header and the descriptor it lies behind, and the
fields of the data and status descriptors that the links lead to. -/
structure Chain where
  header : VirtioBlkReq
  headerLen : BitVec 32
  headerFlags : BitVec 16
  data : Word
  dataLen : BitVec 32
  dataFlags : BitVec 16
  status : Word
  statusLen : BitVec 32
  statusFlags : BitVec 16

def headerAddress (r : Request) : Word := kernalToUserSpace r.req

def Issue.chain (q : Issue) : Chain :=
  ⟨⟨q.type, 0, q.request.sector.setWidth 64⟩, 16, virtioDescFNext,
    kernalToUserSpace q.request.data, q.len, q.flags, kernalToUserSpace q.request.status, 1,
    virtioDescFWrite⟩

/-- The call `k`, which has not returned, and what it asked for. -/
def Open (t : Traced) (k : Nat) (c : Call) (q : Issue) : Prop :=
  t.system.calls[k]? = some c ∧ t.issues[k]? = some q ∧ c.inFlight = true

/-- The mark that a return clears, that of slot `freeIndex`, belongs to no other call in
flight, and a new header lies apart from those of the calls in flight. -/
structure Clear (t : Traced) (e : Event) : Prop where
  mark : ∀ k c, e = .finish k → Returns t.system k c →
    ∀ j d q, j ≠ k → Open t j d q → d.freeIndex ≠ c.freeIndex * 3
  header : ∀ q, Event.issue e = some q → ∀ k c r, Open t k c r →
    headerAddress q.request ≠ headerAddress r.request

/-- The header and the three descriptors from `f` on are those of an issue. -/
structure Filled (b : Backend) (f : Nat) (q : Issue) : Prop where
  header : b.reqs (headerAddress q.request) = ⟨q.type, 0, q.request.sector.setWidth 64⟩
  desc1 : b.desc f = ⟨headerAddress q.request, 16, virtioDescFNext, BitVec.ofNat 16 f + 1⟩
  desc2 : b.desc (f + 1) =
    ⟨kernalToUserSpace q.request.data, q.len, q.flags, BitVec.ofNat 16 f + 2⟩
  status : (b.desc (f + 2)).addr = kernalToUserSpace q.request.status
  statusLen : (b.desc (f + 2)).len = 1
  statusFlags : (b.desc (f + 2)).flags = virtioDescFWrite

theorem publish_filled {b b' : Backend} {i : Nat} {q : Issue}
    (h : publish q.type q.len q.flags q.request b = some (i * 3, b')) :
    Filled b' (i * 3) q ∧
      (∀ p, p < i * 3 ∨ i * 3 + 2 < p → b'.desc p = b.desc p) ∧
      ∀ a, a ≠ headerAddress q.request → b'.reqs a = b.reqs a := by
  unfold publish at h
  split at h
  · cases h
  · simp only [Option.some.injEq, Prod.mk.injEq] at h
    obtain ⟨rfl, rfl⟩ := h
    refine ⟨⟨Function.update_self .., by simp [headerAddress], by simp, by simp, by simp, by simp⟩,
      fun p hp => ?_, fun a ha => Function.update_of_ne ha ..⟩
    dsimp only
    rw [Function.update_of_ne (by omega), Function.update_of_ne (by omega),
      Function.update_of_ne (by omega)]

theorem Filled.congr {b b' : Backend} {f : Nat} {q : Issue} (h : Filled b f q)
    (desc : ∀ p, f ≤ p → p ≤ f + 2 → b'.desc p = b.desc p)
    (reqs : b'.reqs (headerAddress q.request) = b.reqs (headerAddress q.request)) :
    Filled b' f q := by
  have h0 := desc f (Nat.le_refl f) (by omega)
  have h1 := desc (f + 1) (by omega) (by omega)
  have h2 := desc (f + 2) (by omega) (Nat.le_refl _)
  exact ⟨reqs.trans h.header, h0.trans h.desc1, h1.trans h.desc2, h2 ▸ h.status, h2 ▸ h.statusLen,
    h2 ▸ h.statusFlags⟩

structure Inv (t : Traced) : Prop where
  issued : t.issues.length = t.system.calls.length
  filled : ∀ k c q, Open t k c q → Filled t.system.backend c.freeIndex q
  marked : ∀ k c q, Open t k c q →
    ∃ i < 12, c.freeIndex = i * 3 ∧ t.system.backend.data.usedRequestIndex i ≠ 0
  distinct : ∀ j k c d q r, j ≠ k → Open t j c q → Open t k d r → c.freeIndex ≠ d.freeIndex

section
variable {t : Traced}

theorem step_of_issue {s : System} {e : Event} {q : Issue} (h : Event.issue e = some q) :
    Block.step s e = s.enter (publish q.type q.len q.flags q.request s.backend) := by
  cases e with
  | blockRead r =>
    obtain rfl := Option.some.inj h
    rfl
  | blockWrite r =>
    obtain rfl := Option.some.inj h
    rfl
  | _ => cases h

theorem enter_publish (s : System) (q : Issue) :
    s.enter (publish q.type q.len q.flags q.request s.backend) = s ∨
      ∃ i b, s.backend.data.freeSlot = some i ∧
        publish q.type q.len q.flags q.request s.backend = some (i * 3, b) ∧
        Published i s.backend b ∧
        s.enter (publish q.type q.len q.flags q.request s.backend) =
          { s with
            backend := b
            lock := some s.calls.length
            calls := s.calls ++ [⟨i * 3, .locked, false⟩] } := by
  cases hlock : s.lock with
  | some k => exact .inl (by simp [System.enter, hlock])
  | none =>
    cases hfree : s.backend.data.freeSlot with
    | none => exact .inl (by simp [System.enter, hlock, publish_of_none hfree])
    | some i =>
      obtain ⟨b, hb, published⟩ := publish_of_some q.type q.len q.flags q.request hfree
      exact .inr ⟨i, b, rfl, hb, published, by simp only [System.enter, hlock, hb]⟩

theorem open_append {s : System} {i : Nat} {q : Issue} (h : Inv t)
    (calls : s.calls = t.system.calls ++ [⟨i * 3, .locked, false⟩]) {k : Nat} {c : Call}
    {r : Issue} (hopen : Open ⟨s, t.issues ++ [q]⟩ k c r) :
    Open t k c r ∨ k = t.system.calls.length ∧ c = ⟨i * 3, .locked, false⟩ ∧ r = q := by
  obtain ⟨hc, hr, hflight⟩ := hopen
  dsimp only at hc hr
  rw [calls] at hc
  by_cases hk : k < t.system.calls.length
  · rw [List.getElem?_append_left hk] at hc
    rw [List.getElem?_append_left (by rw [h.issued]; exact hk)] at hr
    exact .inl ⟨hc, hr, hflight⟩
  · have hlength : k < (t.system.calls ++ [(⟨i * 3, .locked, false⟩ : Call)]).length :=
      (List.getElem?_eq_some_iff.mp hc).1
    rw [List.length_append, List.length_singleton] at hlength
    obtain rfl : k = t.system.calls.length := by omega
    rw [List.getElem?_concat_length] at hc
    rw [← h.issued, List.getElem?_concat_length] at hr
    exact .inr ⟨rfl, (Option.some.inj hc).symm, (Option.some.inj hr).symm⟩

theorem Inv.publish (h : Inv t) {q : Issue} {i : Nat} {b : Backend} {s : System}
    (free : t.system.backend.data.freeSlot = some i)
    (hpublish : publish q.type q.len q.flags q.request t.system.backend = some (i * 3, b))
    (published : Published i t.system.backend b) (backend : s.backend = b)
    (calls : s.calls = t.system.calls ++ [⟨i * 3, .locked, false⟩])
    (header : ∀ k c r, Open t k c r → headerAddress q.request ≠ headerAddress r.request) :
    Inv ⟨s, t.issues ++ [q]⟩ := by
  obtain ⟨hi, hfree⟩ := BlockData.freeSlot_eq_some free
  obtain ⟨hfilled, hdesc, hreqs⟩ := publish_filled hpublish
  have hmark (l : Nat) : b.data.usedRequestIndex l =
      if l = i then 1 else t.system.backend.data.usedRequestIndex l := by
    rw [published.data]
    exact Function.update_apply ..
  -- an open call is in another slot, as its own is marked
  have other {k : Nat} {c : Call} {r : Issue} (hopen : Open t k c r) :
      ∃ l < 12, c.freeIndex = l * 3 ∧ l ≠ i ∧
        t.system.backend.data.usedRequestIndex l ≠ 0 := by
    obtain ⟨l, hl, hindex, hset⟩ := h.marked k c r hopen
    exact ⟨l, hl, hindex, fun heq => hset (heq ▸ hfree), hset⟩
  refine ⟨?_, fun k c r hopen => ?_, fun k c r hopen => ?_, fun j k c d q' r hne hc hd => ?_⟩
  · dsimp only
    rw [calls, List.length_append, List.length_append, h.issued]
    rfl
  · dsimp only
    rw [backend]
    rcases open_append h calls hopen with hold | ⟨-, rfl, rfl⟩
    · obtain ⟨l, -, hindex, hl, -⟩ := other hold
      refine (h.filled k c r hold).congr (fun p hlow hhigh => hdesc p ?_) ?_
      · omega
      · exact hreqs _ (header k c r hold).symm
    · exact hfilled
  · dsimp only
    rw [backend]
    rcases open_append h calls hopen with hold | ⟨-, rfl, rfl⟩
    · obtain ⟨l, hl, hindex, hother, hset⟩ := other hold
      exact ⟨l, hl, hindex, by rwa [hmark, if_neg hother]⟩
    · exact ⟨i, hi, rfl, by rw [hmark, if_pos rfl]; decide⟩
  · rcases open_append h calls hc with holdc | ⟨hj, rfl, -⟩
    · rcases open_append h calls hd with holdd | ⟨-, rfl, -⟩
      · exact h.distinct j k c d q' r hne holdc holdd
      · obtain ⟨l, -, hindex, hl, -⟩ := other holdc
        dsimp only
        omega
    · rcases open_append h calls hd with holdd | ⟨hk, -, -⟩
      · obtain ⟨l, -, hindex, hl, -⟩ := other holdd
        dsimp only
        omega
      · exact absurd (hj.trans hk.symm) hne

theorem Inv.keep (h : Inv t) {s : System} (desc : s.backend.desc = t.system.backend.desc)
    (reqs : s.backend.reqs = t.system.backend.reqs)
    (length : s.calls.length = t.system.calls.length)
    (opened : ∀ k c q, Open ⟨s, t.issues⟩ k c q → ∃ d, Open t k d q ∧ d.freeIndex = c.freeIndex)
    (marks : ∀ k c q, Open ⟨s, t.issues⟩ k c q → ∀ i, c.freeIndex = i * 3 →
      s.backend.data.usedRequestIndex i = t.system.backend.data.usedRequestIndex i) :
    Inv ⟨s, t.issues⟩ where
  issued := h.issued.trans length.symm
  filled k c q hopen := by
    obtain ⟨d, hd, hindex⟩ := opened k c q hopen
    rw [← hindex]
    exact (h.filled k d q hd).congr (fun p _ _ => congrFun desc p) (congrFun reqs _)
  marked k c q hopen := by
    obtain ⟨d, hd, hindex⟩ := opened k c q hopen
    obtain ⟨i, hi, hslot, hset⟩ := h.marked k d q hd
    rw [hindex] at hslot
    exact ⟨i, hi, hslot, by rwa [marks k c q hopen i hslot]⟩
  distinct j k c d q r hne hc hd := by
    obtain ⟨c', hc', hindex⟩ := opened j c q hc
    obtain ⟨d', hd', hindex'⟩ := opened k d r hd
    rw [← hindex, ← hindex']
    exact h.distinct j k c' d' q r hne hc' hd'

theorem open_modify {s : System} {k : Nat} {f : Call → Call}
    (calls : s.calls = t.system.calls.modify k f)
    (keep : ∀ c, t.system.calls[k]? = some c →
      ((f c).inFlight = true → c.inFlight = true) ∧ (f c).freeIndex = c.freeIndex)
    (j : Nat) (c : Call) (q : Issue) (hopen : Open ⟨s, t.issues⟩ j c q) :
    ∃ d, Open t j d q ∧ d.freeIndex = c.freeIndex := by
  obtain ⟨hc, hq, hflight⟩ := hopen
  dsimp only at hc
  rw [calls] at hc
  rcases getElem?_modify_cases hc with ⟨rfl, d, hd, rfl⟩ | ⟨-, hold⟩
  · obtain ⟨hopens, hindex⟩ := keep d hd
    exact ⟨d, ⟨hd, hq, hopens hflight⟩, hindex.symm⟩
  · exact ⟨c, ⟨hold, hq, hflight⟩, rfl⟩

theorem step_of_length {e : Event}
    (h : (Block.step t.system e).calls.length = t.system.calls.length) :
    step t e = ⟨Block.step t.system e, t.issues⟩ := by
  rw [step, if_pos h]

theorem inv_finish (h : Inv t) {k : Nat} {c : Call} (returns : Returns t.system k c)
    (clear : ∀ j d q, j ≠ k → Open t j d q → d.freeIndex ≠ c.freeIndex * 3) :
    Inv (step t (.finish k)) := by
  have hstep := step_finish returns
  have hlength : (Block.step t.system (.finish k)).calls.length = t.system.calls.length := by
    rw [hstep]
    exact List.length_modify ..
  rw [step_of_length hlength, hstep]
  refine h.keep rfl rfl (List.length_modify ..)
    (open_modify rfl fun c _ => ⟨fun hflight => absurd hflight (by simp [Call.inFlight]), rfl⟩)
    fun j d q hopen i hindex => ?_
  obtain ⟨hd, hq, hflight⟩ := hopen
  rcases getElem?_modify_cases hd with ⟨rfl, d', hd', rfl⟩ | ⟨hne, hold⟩
  · exact absurd hflight (by simp [Call.inFlight])
  · refine Function.update_of_ne (fun heq => clear j d q hne ⟨hold, hq, hflight⟩ ?_) _ _
    omega

theorem inv_step (h : Inv t) (lock : LockHeld t.system) {e : Event} (clear : Clear t e) :
    Inv (step t e) := by
  have same (heq : Block.step t.system e = t.system) : Inv (step t e) := by
    rw [step_of_length (by rw [heq]), heq]
    exact h
  cases hissue : Event.issue e with
  | some q =>
    have hstep := step_of_issue (s := t.system) hissue
    rcases enter_publish t.system q with heq | ⟨i, b, free, hpublish, published, heq⟩
    · exact same (hstep.trans heq)
    · have hcalls : (Block.step t.system e).calls =
          t.system.calls ++ [⟨i * 3, .locked, false⟩] := by
        rw [hstep, heq]
      have hgrows : (Block.step t.system e).calls.length ≠ t.system.calls.length := by
        simp [hcalls]
      rw [step, if_neg hgrows, hissue]
      exact h.publish free hpublish published (by rw [hstep, heq]) hcalls (clear.header q hissue)
  | none =>
    rcases step_effect t.system e with heq | effect
    · exact same heq
    · have hlength (s' : System) (hs : Block.step t.system e = s')
          (hcalls : s'.calls.length = t.system.calls.length) : step t e = ⟨s', t.issues⟩ := by
        rw [step_of_length (by rw [hs, hcalls]), hs]
      generalize hs : Block.step t.system e = s' at effect
      cases effect with
      | blockRead r i entered => cases hissue
      | blockWrite r i entered => cases hissue
      | notify k hlock =>
        rw [hlength _ hs (List.length_modify ..)]
        exact h.keep rfl rfl (List.length_modify ..)
          (open_modify rfl fun c hc => ⟨fun _ => lock.inFlight hlock hc, rfl⟩)
          fun _ _ _ _ _ _ => rfl
      | consume =>
        rw [hlength _ hs rfl]
        exact h.keep rfl rfl rfl (fun k c q hopen => ⟨c, hopen, rfl⟩) fun _ _ _ _ _ _ => rfl
      | complete k c len hc hdone =>
        rw [hlength _ hs (List.length_modify ..)]
        exact h.keep rfl rfl (List.length_modify ..)
          (open_modify rfl fun c _ => ⟨fun hflight => hflight, rfl⟩) fun _ _ _ _ _ _ => rfl
      | finish k c returns => exact inv_finish h returns (clear.mark k c rfl returns)

end

theorem inv_boot (b : Backend) : Inv (boot b) where
  issued := rfl
  filled k c q hopen := absurd hopen.1 (by simp [boot, Block.boot])
  marked k c q hopen := absurd hopen.1 (by simp [boot, Block.boot])
  distinct j k c d q r _ hc _ := absurd hc.1 (by simp [boot, Block.boot])

def readThenWrite : List Event :=
  [.blockRead oneSector, .notify, .blockWrite { oneSector with req := 0xFFFF0000C0040000 },
    .notify, .complete 0 513, .finish 0]

end KernelFuzzing.Block.InFlight
