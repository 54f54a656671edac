import KernelFuzzing.Dtd.Tokens

/-! Both walks stay in step with the tokens of the structure block. -/
namespace KernelFuzzing.Dtd
open Foundation Memory Reading DeviceTree

variable {m : Memory} {S : Set Word} {dtStrings p : Word} {looks : Word → Bool} {inside : Bool}
  {readable : Property → Word → Prop} {t : Token} {ts : List Token}

/-- What a walk may rely on when `p` points at the first of `ts`: the names end, it is
inside a node exactly when that node looks right, and what it reads of the properties of
such nodes is readable. -/
structure Walking (m : Memory) (S : Set Word) (dtStrings : Word) (looks : Word → Bool)
    (readable : Property → Word → Prop) (p : Word) (inside : Bool) (ts : List Token) : Prop where
  block : Block m S p ts
  named : ∀ q, .prop q ∈ ts → Terminated m S (string dtStrings q)
  inNode : ∃ node : Option (Name × Word), inside = node.any (fun n => looks n.2) ∧
    ∀ o ∈ occurrences node p ts, looks o.nodeAt → readable o.property o.value

theorem walking_univ (h : Block m Set.univ p ts) (hreadable : ∀ q value, readable q value) :
    Walking m Set.univ dtStrings looks readable p false ts :=
  ⟨h, fun _ _ => h.terminated.univ _, none, rfl, fun _ _ _ => hreadable _ _⟩

theorem readable_univ (q : Property) (value : Word) :
    Property.Readable m Set.univ dtStrings value q :=
  ⟨fun _ => Set.mem_univ _, fun _ _ => spans_univ _ _, fun _ _ => spans_univ _ _⟩

def insideAfter (looks : Word → Bool) (p : Word) (inside : Bool) : Token → Bool
  | .beginNode _ => looks (p + 4)
  | .endNode => false
  | _ => inside

theorem insideAfter_eq (looks : Word → Bool) (p : Word) (node : Option (Name × Word))
    (t : Token) : insideAfter looks p (node.any fun n => looks n.2) t =
      (nodeAfter node p t).any fun n => looks n.2 := by
  cases t <;> rfl

theorem Walking.property {q : Property}
    (h : Walking m S dtStrings looks readable p inside (.prop q :: ts)) (hinside : inside) :
    readable q (p + 12) := by
  obtain ⟨node, hnode, hreadable⟩ := h.inNode
  cases node with
  | none =>
    rw [hnode] at hinside
    cases hinside
  | some n =>
    rw [hnode] at hinside
    exact hreadable ⟨n.1, n.2, q, p + 12⟩ (List.mem_append_left _ (by simp [occurrenceAt])) hinside

theorem Walking.next (h : Walking m S dtStrings looks readable p inside (t :: ts)) :
    Walking m S dtStrings looks readable (p + BitVec.ofNat 64 t.size)
      (insideAfter looks p inside t) ts := by
  obtain ⟨node, hnode, hreadable⟩ := h.inNode
  refine ⟨h.block.next, fun q hq => h.named q (List.mem_cons_of_mem _ hq),
    nodeAfter node p t, ?_, fun o ho => hreadable o (List.mem_append_right _ ho)⟩
  rw [hnode, insideAfter_eq]

theorem getTotalRam.effect_inl {s s' : RamState}
    (h : getTotalRam.effect m dtStrings s t = .inl s') :
    s' = ⟨s.p + BitVec.ofNat 64 t.size,
      insideAfter (looksMemory m) s.p s.insideMemoryNode t⟩ := by
  cases t with
  | prop q =>
    rw [getTotalRam.effect] at h
    split at h
    · cases h
    · exact (Sum.inl.inj h).symm
  | unknown word behind => cases h
  | _ => exact (Sum.inl.inj h).symm

theorem getDriveInfo.effect_inl {s s' : DriveState}
    (h : getDriveInfo.effect m dtStrings s t = .inl s') :
    s'.p = s.p + BitVec.ofNat 64 t.size ∧
      s'.insideVirtio = insideAfter (looksVirtio m) s.p s.insideVirtio t := by
  cases t with
  | prop q =>
    rw [getDriveInfo.effect] at h
    split at h
    · split at h
      · cases h
        exact ⟨rfl, rfl⟩
      · cases h
    · split at h
      · split at h <;> cases h <;> exact ⟨rfl, rfl⟩
      · cases h
        exact ⟨rfl, rfl⟩
  | _ =>
    cases h
    exact ⟨rfl, rfl⟩

theorem rounds_getTotalRam (dtStrings : Word) {s : RamState}
    (h : Walking m S dtStrings (looksMemory m)
      (fun q _ => m (string dtStrings q) = chr 'r' → string dtStrings q + 2 ∈ S)
      s.p s.insideMemoryNode ts) :
    ∃ ss, Rounds m S (getTotalRam.body dtStrings) s ss
        (outcome (getTotalRam.effect m dtStrings) (fun _ => 0) s ts) ∧
      ss.map RamState.p <+: addresses s.p ts := by
  refine rounds_of_invariant RamState.p
    (I := fun s ts => Walking m S dtStrings (looksMemory m) _ s.p s.insideMemoryNode ts)
    ?_ ?_ ?_ ?_ h
  · intro s t ts h
    refine gives_getTotalRam_body h.block fun q hq hinside => ?_
    subst hq
    exact ⟨(h.named q List.mem_cons_self).mem, h.property hinside⟩
  · exact fun s h => gives_getTotalRam_last h.block
  · intro s t s' heffect
    rw [getTotalRam.effect_inl heffect]
  · intro s t ts s' h heffect
    rw [getTotalRam.effect_inl heffect]
    exact h.next

theorem rounds_getDriveInfo (dtStrings : Word) {s : DriveState}
    (h : Walking m S dtStrings (looksVirtio m)
      (fun q value => Property.Readable m S dtStrings value q) s.p s.insideVirtio ts) :
    ∃ ss, Rounds m S (getDriveInfo.body dtStrings) s ss
        (outcome (getDriveInfo.effect m dtStrings) DriveState.result s ts) ∧
      ss.map DriveState.p <+: addresses s.p ts := by
  refine rounds_of_invariant DriveState.p
    (I := fun s ts => Walking m S dtStrings (looksVirtio m) _ s.p s.insideVirtio ts)
    ?_ ?_ ?_ ?_ h
  · intro s t ts h
    refine gives_getDriveInfo_body h.block (fun q hq => ?_) fun q hq hinside => ?_
    · subst hq
      exact h.named q List.mem_cons_self
    · subst hq
      exact h.property hinside
  · exact fun s h => gives_getDriveInfo_last h.block
  · exact fun s t s' heffect => (getDriveInfo.effect_inl heffect).1
  · intro s t ts s' h heffect
    obtain ⟨hp, hinside⟩ := getDriveInfo.effect_inl heffect
    rw [hp, hinside]
    exact h.next

/-- With enough rounds `p` goes through the first of some addresses, and the loop ends. -/
def InStep {σ ρ : Type} (m : Memory) (body : σ → Reading (σ ⊕ ρ)) (pos : σ → Word) (s : σ)
    (as : List Word) : Prop :=
  ∃ n, ∀ rounds, n ≤ rounds →
    (heads body s rounds m).map pos <+: as ∧ (loop body s rounds m).1.isSome

theorem inStep_of_rounds {σ ρ : Type} {body : σ → Reading (σ ⊕ ρ)} {pos : σ → Word} {s : σ}
    {ss : List σ} {r : ρ} {as : List Word} (h : Rounds m S body s ss r)
    (hvisits : ss.map pos <+: as) : InStep m body pos s as := by
  obtain ⟨k, hheads⟩ := h.heads_eq
  obtain ⟨n, hgives⟩ := h.gives
  refine ⟨max k n, fun rounds hrounds => ?_⟩
  rw [hheads rounds (by omega), (hgives rounds (by omega)).1]
  exact ⟨hvisits, rfl⟩

/-- At the heads of their rounds both walks are at tokens of the tree, one after another
from the first on, and they end. -/
theorem walks_in_step (f : Forest) (aligned : p.toNat % 4 = 0) (holds : Holds m p (bytes f.tokens))
    (dtStrings : Word) (result : Nat → Word) :
    InStep m (getTotalRam.body dtStrings) RamState.p ⟨p, false⟩ (addresses p f.tokens) ∧
      InStep m (getDriveInfo.body dtStrings) DriveState.p ⟨p, false, result⟩
        (addresses p f.tokens) := by
  have hblock : Block m Set.univ p f.tokens := ⟨holds, aligned, spans_univ _ _⟩
  constructor
  · obtain ⟨ss, hrounds, hvisits⟩ := rounds_getTotalRam dtStrings (s := ⟨p, false⟩)
      (walking_univ hblock fun _ _ _ => Set.mem_univ _)
    exact inStep_of_rounds hrounds hvisits
  · obtain ⟨ss, hrounds, hvisits⟩ := rounds_getDriveInfo dtStrings
      (s := ⟨p, false, result⟩) (walking_univ hblock readable_univ)
    exact inStep_of_rounds hrounds hvisits

def nested : Forest :=
  .node .empty
    [some ⟨⟨[chr 'x'], by decide⟩, 0, [1], by decide⟩, none,
      some ⟨⟨[chr 'y'], by decide⟩, 2, [1, 2, 3, 4, 5], by decide⟩]
    (.node ⟨[chr 'm', chr 'e', chr 'm'], by decide⟩ []
      (.node ⟨[chr 'a'], by decide⟩ [some ⟨⟨[chr 'x'], by decide⟩, 0, [], by decide⟩] .nil .nil)
      (.node ⟨[chr 'v'], by decide⟩ [some ⟨⟨[chr 'y'], by decide⟩, 2, [7], by decide⟩] .nil
        (.nop .nil))) .nil

def nestedMemory : Memory :=
  place 0x40000038 (bytes nested.tokens ++ [chr 'x', 0, chr 'y', 0])

theorem walks_in_step_nested :
    InStep nestedMemory (getTotalRam.body 0x400000B4) RamState.p ⟨0x40000038, false⟩
        (addresses 0x40000038 nested.tokens) ∧
      InStep nestedMemory (getDriveInfo.body 0x400000B4) DriveState.p
        ⟨0x40000038, false, fun _ => 0⟩ (addresses 0x40000038 nested.tokens) := by
  have hplaced := holds_place 0x40000038
    (show (bytes nested.tokens ++ [chr 'x', 0, chr 'y', 0]).length ≤ 2 ^ 64 by decide +kernel)
  rw [holds_append] at hplaced
  exact walks_in_step nested (by decide) hplaced.1 _ _

end KernelFuzzing.Dtd
