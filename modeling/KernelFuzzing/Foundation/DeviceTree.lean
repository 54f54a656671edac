import Mathlib.Data.List.ReduceOption
import KernelFuzzing.Foundation.Reading

/-! The structure block of a flattened device tree: the tree, its tokens and their
bytes, and programs that go through the tokens one after another. -/
namespace KernelFuzzing.Foundation.DeviceTree
open Memory

abbrev Name := {bs : List Byte // 0#8 ∉ bs}

def Name.empty : Name := ⟨[], List.not_mem_nil⟩

/-- A property, whose name is found at an offset into the strings block. -/
structure Property where
  name : Name
  nameOff : BitVec 32
  value : List Byte
  small : value.length < 2 ^ 32

def tokenWords : List (BitVec 32) := [1, 2, 3, 4, 9]

/-- The tokens before the end token. An unknown one is a word of no meaning, with the
word behind it. -/
inductive Token where
  | beginNode (name : Name)
  | endNode
  | prop (q : Property)
  | nop
  | unknown (word : {w : BitVec 32 // w ∉ tokenWords}) (behind : BitVec 32)

/-- Nodes next to one another, each with its properties and then its children. A missing
property stands for a NOP token. -/
inductive Forest where
  | nil
  | nop (rest : Forest)
  | node (name : Name) (props : List (Option Property)) (children rest : Forest)

def propToken : Option Property → Token
  | none => .nop
  | some q => .prop q

def Forest.tokens : Forest → List Token
  | .nil => []
  | .nop rest => .nop :: rest.tokens
  | .node name props children rest =>
      .beginNode name :: (props.map propToken ++ (children.tokens ++ .endNode :: rest.tokens))

def pad (n : Nat) : Nat := (4 - n % 4) % 4

def Token.size : Token → Nat
  | .beginNode name => 4 + (name.val.length + 1 + pad (name.val.length + 1))
  | .endNode => 4
  | .prop q => 12 + (q.value.length + pad q.value.length)
  | .nop => 4
  | .unknown _ _ => 8

def Token.bytes : Token → List Byte
  | .beginNode name =>
      be32 1 ++ (name.val ++ [0] ++ List.replicate (pad (name.val.length + 1)) 0)
  | .endNode => be32 2
  | .prop q =>
      be32 3 ++ (be32 (BitVec.ofNat 32 q.value.length) ++ (be32 q.nameOff ++
        (q.value ++ List.replicate (pad q.value.length) 0)))
  | .nop => be32 4
  | .unknown word behind => be32 word.val ++ be32 behind

def bytes (ts : List Token) : List Byte := ts.flatMap Token.bytes ++ be32 9

def addresses : Word → List Token → List Word
  | p, [] => [p]
  | p, t :: ts => p :: addresses (p + BitVec.ofNat 64 t.size) ts

theorem Token.bytes_length (t : Token) : t.bytes.length = t.size := by
  cases t with
  | beginNode name =>
    simp only [Token.bytes, Token.size, List.length_append, be32_length, List.length_replicate,
      List.length_singleton]
  | prop q =>
    simp only [Token.bytes, Token.size, List.length_append, be32_length, List.length_replicate]
    omega
  | _ => simp [Token.bytes, Token.size]

@[simp] theorem bytes_nil : bytes [] = be32 9 := rfl

@[simp] theorem bytes_cons (t : Token) (ts : List Token) :
    bytes (t :: ts) = t.bytes ++ bytes ts := by
  simp [bytes]

theorem pad_spec (n : Nat) : pad n < 4 ∧ (n + pad n) % 4 = 0 := by
  unfold pad
  omega

theorem Token.size_mod (t : Token) : t.size % 4 = 0 := by
  cases t with
  | beginNode name =>
    have := (pad_spec (name.val.length + 1)).2
    simp only [Token.size]
    omega
  | prop q =>
    have := (pad_spec q.value.length).2
    simp only [Token.size]
    omega
  | _ => simp [Token.size]

theorem bytes_length_cons (t : Token) (ts : List Token) :
    (bytes (t :: ts)).length = t.size + (bytes ts).length := by
  rw [bytes_cons, List.length_append, Token.bytes_length]

theorem four_le_bytes_length (ts : List Token) : 4 ≤ (bytes ts).length := by
  rw [bytes, List.length_append, be32_length]
  omega

def Token.At (m : Memory) (p : Word) : Token → Prop
  | .beginNode name => loadBe32 m p = 1 ∧ Holds m (p + 4) (name.val ++ [0])
  | .endNode => loadBe32 m p = 2
  | .prop q =>
      loadBe32 m p = 3 ∧ loadBe32 m (p + 4) = BitVec.ofNat 32 q.value.length ∧
        loadBe32 m (p + 8) = q.nameOff ∧ Holds m (p + 12) q.value
  | .nop => loadBe32 m p = 4
  | .unknown word _ => loadBe32 m p = word.val

theorem Token.at_of_holds {m : Memory} {p : Word} {t : Token} (h : Holds m p t.bytes) :
    t.At m p := by
  cases t with
  | beginNode name =>
    rw [Token.bytes, holds_append, holds_append] at h
    exact ⟨loadBe32_of_holds h.1, h.2.1⟩
  | endNode => exact loadBe32_of_holds h
  | prop q =>
    rw [Token.bytes, holds_append, holds_append, holds_append, holds_append] at h
    simp only [be32_length, add_ofNat_add, Nat.reduceAdd] at h
    exact ⟨loadBe32_of_holds h.1, loadBe32_of_holds h.2.1, loadBe32_of_holds h.2.2.1, h.2.2.2.1⟩
  | nop => exact loadBe32_of_holds h
  | unknown word behind =>
    rw [Token.bytes, holds_append] at h
    exact loadBe32_of_holds h.1

structure Block (m : Memory) (S : Set Word) (p : Word) (ts : List Token) : Prop where
  holds : Holds m p (bytes ts)
  aligned : p.toNat % 4 = 0
  spans : Reading.Spans S p (bytes ts).length

section
variable {m : Memory} {S : Set Word} {p : Word} {t : Token} {ts : List Token}

theorem Block.token (h : Block m S p (t :: ts)) : t.At m p := by
  have hholds := h.holds
  rw [bytes_cons, holds_append] at hholds
  exact Token.at_of_holds hholds.1

theorem Block.next (h : Block m S p (t :: ts)) : Block m S (p + BitVec.ofNat 64 t.size) ts := by
  constructor
  · have hholds := h.holds
    rw [bytes_cons, holds_append, Token.bytes_length] at hholds
    exact hholds.2
  · have haligned := h.aligned
    have hsize := t.size_mod
    rw [BitVec.toNat_add, BitVec.toNat_ofNat]
    omega
  · have hspans := h.spans.drop t.size
    rw [bytes_length_cons, Nat.add_sub_cancel_left] at hspans
    exact hspans

theorem Block.spans_token (h : Block m S p (t :: ts)) : Reading.Spans S p (t.size + 4) := by
  have hlength := four_le_bytes_length ts
  have hspans := h.spans
  rw [bytes_length_cons] at hspans
  exact hspans.mono (by omega)

theorem Block.last (h : Block m S p []) : loadBe32 m p = 9 := loadBe32_of_holds h.holds

theorem Block.terminated (h : Block m S p ts) : Reading.Terminated m S p := by
  have hholds := h.holds
  have hspans := h.spans
  rw [bytes, holds_append] at hholds
  rw [bytes, List.length_append, be32_length] at hspans
  have hzero := hholds.2 0 (by simp)
  rw [add_ofNat_add] at hzero
  exact ⟨_, hzero, hspans.mono (by omega)⟩

end

/-- A property of a node, with the addresses of the node's name and of its value. -/
structure Occurrence where
  node : Name
  nodeAt : Word
  property : Property
  value : Word

/-- The node that the tokens behind `t` stand in, with the address of its name, when it
still takes properties. -/
def nodeAfter (node : Option (Name × Word)) (p : Word) : Token → Option (Name × Word)
  | .beginNode name => some (name, p + 4)
  | .endNode => none
  | _ => node

def occurrenceAt (node : Option (Name × Word)) (p : Word) : Token → Option Occurrence
  | .prop q => node.map fun n => ⟨n.1, n.2, q, p + 12⟩
  | _ => none

/-- The properties of a token list that begins inside a node or outside of one. -/
def occurrences : Option (Name × Word) → Word → List Token → List Occurrence
  | _, _, [] => []
  | node, p, t :: ts =>
      (occurrenceAt node p t).toList ++
        occurrences (nodeAfter node p t) (p + BitVec.ofNat 64 t.size) ts

def span (ts : List Token) : Word := BitVec.ofNat 64 (ts.map Token.size).sum

def Forest.occurrences (p : Word) : Forest → List Occurrence
  | .nil => []
  | .nop rest => rest.occurrences (p + 4)
  | .node name props children rest =>
      let own := p + BitVec.ofNat 64 (Token.beginNode name).size
      let below := own + span (props.map propToken)
      DeviceTree.occurrences (some (name, p + 4)) own (props.map propToken) ++
        (children.occurrences below ++ rest.occurrences (below + span children.tokens + 4))

def Forest.nodes : Forest → List (Name × List Property)
  | .nil => []
  | .nop rest => rest.nodes
  | .node name props children rest =>
      (name, props.reduceOption) :: (children.nodes ++ rest.nodes)

theorem span_cons (t : Token) (ts : List Token) (p : Word) :
    p + span (t :: ts) = p + BitVec.ofNat 64 t.size + span ts := by
  rw [span, span, add_ofNat_add, List.map_cons, List.sum_cons]

theorem span_append (ts us : List Token) (p : Word) :
    p + span (ts ++ us) = p + span ts + span us := by
  rw [span, span, span, add_ofNat_add, List.map_append, List.sum_append]

@[simp] theorem nodeAfter_propToken (node : Option (Name × Word)) (p : Word)
    (q : Option Property) : nodeAfter node p (propToken q) = node := by
  cases q <;> rfl

theorem occurrences_props (node : Option (Name × Word)) (p : Word)
    (props : List (Option Property)) (ts : List Token) :
    occurrences node p (props.map propToken ++ ts) =
      occurrences node p (props.map propToken) ++
        occurrences node (p + span (props.map propToken)) ts := by
  induction props generalizing p with
  | nil => simp [occurrences, span]
  | cons q props ih =>
    rw [List.map_cons, List.cons_append, occurrences, occurrences, nodeAfter_propToken, ih,
      span_cons, List.append_assoc]

theorem occurrences_tokens (f : Forest) (node : Option (Name × Word)) (p : Word) :
    ∃ after, ∀ ts, occurrences node p (f.tokens ++ ts) =
      f.occurrences p ++ occurrences after (p + span f.tokens) ts := by
  induction f generalizing node p with
  | nil => exact ⟨node, fun ts => by simp [Forest.tokens, Forest.occurrences, span]⟩
  | nop rest ih =>
    obtain ⟨after, ih⟩ := ih node (p + 4)
    refine ⟨after, fun ts => ?_⟩
    rw [Forest.tokens, span_cons]
    exact ih ts
  | node name props children rest ihc ihr =>
    obtain ⟨inner, ihc⟩ := ihc (some (name, p + 4))
      (p + BitVec.ofNat 64 (Token.beginNode name).size + span (props.map propToken))
    obtain ⟨after, ihr⟩ := ihr none
      (p + BitVec.ofNat 64 (Token.beginNode name).size + span (props.map propToken) +
        span children.tokens + 4)
    refine ⟨after, fun ts => ?_⟩
    have hspan : p + span (Forest.node name props children rest).tokens =
        p + BitVec.ofNat 64 (Token.beginNode name).size + span (props.map propToken) +
          span children.tokens + 4 + span rest.tokens := by
      rw [Forest.tokens, span_cons, span_append, span_append, span_cons]
      rfl
    rw [hspan, Forest.tokens, List.cons_append, List.append_assoc, List.append_assoc,
      List.cons_append, occurrences, nodeAfter, occurrences_props, ihc, occurrences, nodeAfter]
    simp only [occurrenceAt, Option.toList_none, List.nil_append]
    rw [Forest.occurrences, List.append_assoc, List.append_assoc]
    exact congrArg _ (congrArg _ (ihr ts))

theorem occurrences_eq (f : Forest) (p : Word) :
    occurrences none p f.tokens = f.occurrences p := by
  obtain ⟨after, h⟩ := occurrences_tokens f none p
  simpa [occurrences] using h []

theorem exists_occurrence_props (node : Name × Word) (p : Word) {props : List (Option Property)}
    {q : Property} (h : some q ∈ props) :
    ∃ o ∈ occurrences (some node) p (props.map propToken), o.node = node.1 ∧ o.property = q := by
  induction props generalizing p with
  | nil => cases h
  | cons r props ih =>
    rw [List.map_cons, occurrences, nodeAfter_propToken]
    rcases List.mem_cons.mp h with rfl | h
    · exact ⟨⟨node.1, node.2, q, p + 12⟩, List.mem_append_left _ List.mem_cons_self, rfl, rfl⟩
    · obtain ⟨o, ho, hnode, hproperty⟩ := ih (p + BitVec.ofNat 64 (propToken r).size) h
      exact ⟨o, List.mem_append_right _ ho, hnode, hproperty⟩

theorem Forest.exists_occurrence (f : Forest) (p : Word) {n : Name × List Property}
    (hn : n ∈ f.nodes) {q : Property} (hq : q ∈ n.2) :
    ∃ o ∈ f.occurrences p, o.node = n.1 ∧ o.property = q := by
  induction f generalizing p with
  | nil => cases hn
  | nop rest ih => exact ih _ hn
  | node name props children rest ihc ihr =>
    rw [Forest.nodes, List.mem_cons, List.mem_append] at hn
    rw [Forest.occurrences]
    rcases hn with rfl | hn | hn
    · obtain ⟨o, ho, hnode⟩ := exists_occurrence_props (name, p + 4) _
        (List.reduceOption_mem_iff.mp hq)
      exact ⟨o, List.mem_append_left _ ho, hnode⟩
    · obtain ⟨o, ho, hnode⟩ := ihc _ hn
      exact ⟨o, List.mem_append_right _ (List.mem_append_left _ ho), hnode⟩
    · obtain ⟨o, ho, hnode⟩ := ihr _ hn
      exact ⟨o, List.mem_append_right _ (List.mem_append_right _ ho), hnode⟩

structure Occurrence.Held (m : Memory) (o : Occurrence) : Prop where
  node : Holds m o.nodeAt (o.node.val ++ [0])
  value : Holds m o.value o.property.value

theorem Occurrence.Held.starts {m : Memory} {o : Occurrence} (h : o.Held m) {xs : List Byte}
    (hxs : xs <+: o.node.val) : Holds m o.nodeAt xs := by
  have hname := h.node.of_prefix_drop (k := 0) (hxs.trans (List.prefix_append _ _))
  rwa [BitVec.add_zero] at hname

theorem Block.held {m : Memory} {S : Set Word} {p : Word} {ts : List Token} (h : Block m S p ts)
    (node : Option (Name × Word)) (hnode : ∀ n ∈ node, Holds m n.2 (n.1.val ++ [0])) :
    ∀ o ∈ occurrences node p ts, o.Held m ∧ .prop o.property ∈ ts := by
  induction ts generalizing node p with
  | nil => exact fun o ho => absurd ho List.not_mem_nil
  | cons t ts ih =>
    intro o ho
    rcases List.mem_append.mp ho with ho | ho
    · cases t with
      | prop q =>
        rw [Option.mem_toList] at ho
        obtain ⟨n, hn, rfl⟩ := Option.map_eq_some_iff.mp ho
        exact ⟨⟨hnode n hn, h.token.2.2.2⟩, List.mem_cons_self⟩
      | _ => cases ho
    · have hafter : ∀ n ∈ nodeAfter node p t, Holds m n.2 (n.1.val ++ [0]) := by
        cases t with
        | beginNode name =>
          rintro n ⟨rfl⟩
          exact h.token.2
        | endNode => exact fun n hn => by cases hn
        | _ => exact hnode
      obtain ⟨hheld, hmem⟩ := ih h.next _ hafter o ho
      exact ⟨hheld, List.mem_cons_of_mem _ hmem⟩

section
variable {σ ρ : Type}

def outcome (effect : σ → Token → σ ⊕ ρ) (finish : σ → ρ) : σ → List Token → ρ
  | s, [] => finish s
  | s, t :: ts =>
    match effect s t with
    | .inl s' => outcome effect finish s' ts
    | .inr r => r

variable {m : Memory} {S : Set Word} {body : σ → Reading (σ ⊕ ρ)} (pos : σ → Word)
  {effect : σ → Token → σ ⊕ ρ} {finish : σ → ρ} {I : σ → List Token → Prop}

/-- The token rule: a loop whose body takes one token and moves on by its size visits
token after token. -/
theorem rounds_of_invariant
    (token : ∀ s t ts, I s (t :: ts) → Reading.Gives m S (body s) (effect s t))
    (last : ∀ s, I s [] → Reading.Gives m S (body s) (.inr (finish s)))
    (advance : ∀ s t s', effect s t = .inl s' → pos s' = pos s + BitVec.ofNat 64 t.size)
    (keep : ∀ s t ts s', I s (t :: ts) → effect s t = .inl s' → I s' ts)
    {s : σ} {ts : List Token} (h : I s ts) :
    ∃ ss, Reading.Rounds m S body s ss (outcome effect finish s ts) ∧
      ss.map pos <+: addresses (pos s) ts := by
  induction ts generalizing s with
  | nil => exact ⟨[s], .done (last s h), List.prefix_rfl⟩
  | cons t ts ih =>
    have hbody := token s t ts h
    cases heffect : effect s t with
    | inl s' =>
      have hpos := advance s t s' heffect
      obtain ⟨ss, hrounds, hvisits⟩ := ih (keep s t ts s' h heffect)
      rw [heffect] at hbody
      rw [outcome, heffect]
      refine ⟨s :: ss, .next hbody hrounds, ?_⟩
      rw [List.map_cons, addresses, List.cons_prefix_cons, ← hpos]
      exact ⟨rfl, hvisits⟩
    | inr r =>
      rw [heffect] at hbody
      rw [outcome, heffect]
      refine ⟨[s], .done hbody, ?_⟩
      rw [List.map_singleton, addresses, List.cons_prefix_cons]
      exact ⟨rfl, List.nil_prefix⟩

end

end KernelFuzzing.Foundation.DeviceTree
