import KernelFuzzing.Dtd.Blob

/-! What `get_total_ram` returns for a device tree. -/
namespace KernelFuzzing.Dtd
open Foundation Memory Reading DeviceTree

variable {m : Memory} {S : Set Word} {base p : Word} {ts : List Token}

/-- The property is taken for the `reg` of a memory node. -/
def takenForRam (m : Memory) (dtStrings : Word) (o : Occurrence) : Bool :=
  looksMemory m o.nodeAt && looksReg m (string dtStrings o.property)

/-- The `reg` of a node named `memory`, or `memory@` and an address. -/
def IsRam (o : Occurrence) : Prop :=
  (o.node.val = ascii ['m', 'e', 'm', 'o', 'r', 'y'] ∨
    ascii ['m', 'e', 'm', 'o', 'r', 'y', '@'] <+: o.node.val) ∧
    o.property.name.val = ascii ['r', 'e', 'g']

instance : DecidablePred IsRam := fun o =>
  inferInstanceAs (Decidable ((o.node.val = _ ∨ _ <+: o.node.val) ∧ o.property.name.val = _))

/-- The properties of a tree that are taken for the `reg` of a memory node. -/
def taken (m : Memory) (f : Forest) : List Occurrence :=
  (f.occurrences (dtStruct m ramBase)).filter (takenForRam m (dtStrings m ramBase))

def ramSizes (os : List Occurrence) : Word := (os.map fun o => sizes o.property.value).sum

/-- With no word of no meaning, the walk returns the sizes of the first property that it
takes for the `reg` of a memory node. -/
theorem outcome_getTotalRam (dtStrings : Word) (hknown : ∀ w b, Token.unknown w b ∉ ts)
    (node : Option (Name × Word)) :
    outcome (getTotalRam.effect m dtStrings) (fun _ => 0)
        ⟨p, node.any fun n => looksMemory m n.2⟩ ts =
      (((occurrences node p ts).find? (takenForRam m dtStrings)).map
        fun o => sizes o.property.value).getD 0 := by
  induction ts generalizing node p with
  | nil => rfl
  | cons t ts ih =>
    have hrest := @ih (p + BitVec.ofNat 64 t.size)
      fun w b h => hknown w b (List.mem_cons_of_mem _ h)
    cases t with
    | beginNode name => exact hrest (some (name, p + 4))
    | endNode => exact hrest none
    | prop q =>
      cases node with
      | none => exact hrest none
      | some n =>
        have heffect : getTotalRam.effect m dtStrings ⟨p, looksMemory m n.2⟩ (.prop q) =
            if takenForRam m dtStrings ⟨n.1, n.2, q, p + 12⟩ then .inr (sizes q.value)
            else .inl ⟨p + BitVec.ofNat 64 (Token.prop q).size, looksMemory m n.2⟩ := rfl
        rw [Option.any_some, outcome, heffect, occurrences, occurrenceAt, Option.map_some,
          Option.toList_some, List.singleton_append, List.find?_cons]
        cases takenForRam m dtStrings ⟨n.1, n.2, q, p + 12⟩ with
        | true => rfl
        | false => exact hrest (some n)
    | nop => exact hrest node
    | unknown word behind => exact absurd List.mem_cons_self (hknown word behind)

theorem unknown_notMem_tokens (f : Forest) (w : {w : BitVec 32 // w ∉ tokenWords})
    (b : BitVec 32) : Token.unknown w b ∉ f.tokens := by
  induction f with
  | nil => exact List.not_mem_nil
  | nop rest ih => simpa [Forest.tokens] using ih
  | node name props children rest ihc ihr =>
    have hprops : Token.unknown w b ∉ props.map propToken := by
      rw [List.mem_map]
      rintro ⟨q, -, hq⟩
      cases q <;> cases hq
    simp only [Forest.tokens, List.mem_cons, List.mem_append, reduceCtorEq, false_or, not_or]
    exact ⟨hprops, ihc, ihr⟩

theorem gives_getTotalRam_tree {f : Forest} (h : Blob m ramBase f.tokens)
    (low : dtbBase.toNat + totalsize m ramBase < 2 ^ 32) :
    Gives m Set.univ getTotalRam
      (((taken m f).head?.map fun o => sizes o.property.value).getD 0) := by
  have hinside := h.inside
  have hstrings := h.strings
  obtain ⟨ss, hrounds, -⟩ := rounds_getTotalRam (dtStrings m ramBase)
    (s := ⟨dtStruct m ramBase, false⟩) (walking_univ h.block_univ fun _ _ _ => Set.mem_univ _)
  have houtcome := outcome_getTotalRam (m := m) (p := dtStruct m ramBase) (dtStrings m ramBase)
    (unknown_notMem_tokens f) none
  rw [occurrences_eq] at houtcome
  rw [taken, List.head?_filter, ← houtcome]
  exact gives_getTotalRam (spans_univ _ _) (by omega) (by omega) hrounds.gives

theorem takenForRam_of_isRam {f : Forest} (h : NamedBlob m ramBase f.tokens) {o : Occurrence}
    (ho : o ∈ f.occurrences (dtStruct m ramBase)) (hram : IsRam o) :
    takenForRam m (dtStrings m ramBase) o := by
  rw [← occurrences_eq] at ho
  obtain ⟨hheld, hmem⟩ := h.block_univ.held none (fun n hn => by cases hn) o ho
  have hname := h.names _ hmem
  rw [hram.2] at hname
  have hmemory : ascii ['m', 'e', 'm', 'o', 'r', 'y'] <+: o.node.val := by
    rcases hram.1 with heq | hat
    · rw [heq]
    · exact List.IsPrefix.trans ⟨ascii ['@'], rfl⟩ hat
  have hnode := hheld.starts hmemory
  have h0 : m o.nodeAt = chr 'm' := hnode.first
  have h1 : m (o.nodeAt + 1) = chr 'e' := hnode 1 (by decide)
  have h5 : m (o.nodeAt + 5) = chr 'y' := hnode 5 (by decide)
  rw [takenForRam, looksMemory, h0, h1, h5, looksReg_of_holds hname]
  decide

theorem gives_ramSizes {f : Forest} (h : Blob m ramBase f.tokens)
    (low : dtbBase.toNat + totalsize m ramBase < 2 ^ 32) (one : (taken m f).length ≤ 1) :
    Gives m Set.univ getTotalRam (ramSizes (taken m f)) := by
  have hgives := gives_getTotalRam_tree h low
  cases htaken : taken m f with
  | nil =>
    rw [htaken] at hgives
    exact hgives
  | cons o os =>
    rw [htaken, List.length_cons] at one
    have hnone : os = [] := List.length_eq_zero_iff.mp (by omega)
    rw [htaken, hnone] at hgives
    rw [hnone, ramSizes, List.map_singleton, List.sum_singleton]
    exact hgives

/-- When at most one property is taken for the `reg` of a memory node, its sizes are
returned, and every `reg` of a memory node is taken for one. -/
theorem total_ram_of_one_taken (f : Forest) (h : NamedBlob m ramBase f.tokens)
    (low : dtbBase.toNat + totalsize m ramBase < 2 ^ 32) (one : (taken m f).length ≤ 1) :
    Gives m Set.univ getTotalRam (ramSizes (taken m f)) ∧
      ∀ o ∈ f.occurrences (dtStruct m ramBase), IsRam o → o ∈ taken m f :=
  ⟨gives_ramSizes h.toBlob low one,
    fun _ ho hram => List.mem_filter.mpr ⟨ho, takenForRam_of_isRam h ho hram⟩⟩

/-- `get_total_ram` returns the sum of the sizes of all memory nodes. -/
def SumsRam (m : Memory) (f : Forest) : Prop :=
  Gives m Set.univ getTotalRam (ramSizes ((f.occurrences (dtStruct m ramBase)).filter IsRam))

theorem sumsRam_of_one {f : Forest} (h : NamedBlob m ramBase f.tokens)
    (low : dtbBase.toNat + totalsize m ramBase < 2 ^ 32) (one : (taken m f).length ≤ 1)
    (ram : ∀ o ∈ taken m f, IsRam o) : SumsRam m f := by
  have hfilter : (f.occurrences (dtStruct m ramBase)).filter IsRam = taken m f := by
    refine List.filter_congr fun o ho => ?_
    by_cases htaken : takenForRam m (dtStrings m ramBase) o
    · simpa [htaken] using ram o (List.mem_filter.mpr ⟨ho, htaken⟩)
    · simpa [htaken] using fun hram => htaken (takenForRam_of_isRam h ho hram)
  rw [SumsRam, hfilter]
  exact gives_ramSizes h.toBlob low one

def cellStrings : List Byte :=
  ascii "#address-cells".toList ++ [0] ++ (ascii "#size-cells".toList ++ [0]) ++
    (ascii ['r', 'e', 'g'] ++ [0])

def rootOf (children : Forest) : Forest :=
  .node .empty
    [some ⟨⟨ascii "#address-cells".toList, by decide⟩, 0, be32 2, by decide⟩,
      some ⟨⟨ascii "#size-cells".toList, by decide⟩, 15, be32 2, by decide⟩] children .nil

def regNode (name : Name) (address size : BitVec 32) (rest : Forest) : Forest :=
  .node name [some ⟨regName, 27,
    be32 0 ++ be32 address ++ be32 0 ++ be32 size, by simp⟩] .nil rest

def oneMemory : Forest :=
  rootOf (regNode ⟨ascii "pl011@9000000".toList, by decide⟩ 0x9000000 0x1000
    (regNode ⟨ascii "memory@40000000".toList, by decide⟩ 0x40000000 0x10000000
      (regNode ⟨ascii "intc@8000000".toList, by decide⟩ 0x8000000 0x10000 .nil)))

def twoMemories : Forest :=
  rootOf (regNode ⟨ascii "memory@40000000".toList, by decide⟩ 0x40000000 0x10000000
    (regNode ⟨ascii "memory@80000000".toList, by decide⟩ 0x80000000 0x20000000 .nil))

/-- A node with the right letters in front of the memory node. -/
def medleyFirst : Forest :=
  rootOf (regNode ⟨ascii "medley".toList, by decide⟩ 0x9000000 0x1000
    (regNode ⟨ascii "memory@40000000".toList, by decide⟩ 0x40000000 0x10000000 .nil))

def memoryOf (f : Forest) : Memory := place ramBase (blob f.tokens cellStrings)

theorem namedBlob_memoryOf {f : Forest} (hsize : (blob f.tokens cellStrings).length < 2 ^ 32)
    (hnames : ∀ t ∈ f.tokens, NamedIn cellStrings t) :
    NamedBlob (memoryOf f) ramBase f.tokens :=
  namedBlob_place (by decide) hsize hnames

theorem total_ram_of_one_taken_one_memory :
    Gives (memoryOf oneMemory) Set.univ getTotalRam
        (ramSizes (taken (memoryOf oneMemory) oneMemory)) ∧
      ∀ o ∈ oneMemory.occurrences (dtStruct (memoryOf oneMemory) ramBase), IsRam o →
        o ∈ taken (memoryOf oneMemory) oneMemory :=
  total_ram_of_one_taken oneMemory (namedBlob_memoryOf (by decide +kernel) (by decide +kernel))
    (by decide +kernel) (by decide +kernel)

theorem not_sumsRam {f : Forest} (h : NamedBlob m ramBase f.tokens)
    (low : dtbBase.toNat + totalsize m ramBase < 2 ^ 32)
    (hne : ((taken m f).head?.map fun o => sizes o.property.value).getD 0 ≠
      ramSizes ((f.occurrences (dtStruct m ramBase)).filter IsRam)) : ¬ SumsRam m f :=
  fun hsum => hne ((gives_getTotalRam_tree h.toBlob low).unique hsum)

theorem total_ram_not_sum_two_memories :
    NamedBlob (memoryOf twoMemories) ramBase twoMemories.tokens ∧
      ¬ SumsRam (memoryOf twoMemories) twoMemories ∧
      NamedBlob (memoryOf medleyFirst) ramBase medleyFirst.tokens ∧
      ¬ SumsRam (memoryOf medleyFirst) medleyFirst := by
  have htwo : NamedBlob (memoryOf twoMemories) ramBase twoMemories.tokens :=
    namedBlob_memoryOf (by decide +kernel) (by decide +kernel)
  have hmedley : NamedBlob (memoryOf medleyFirst) ramBase medleyFirst.tokens :=
    namedBlob_memoryOf (by decide +kernel) (by decide +kernel)
  exact ⟨htwo, not_sumsRam htwo (by decide +kernel) (by decide +kernel), hmedley,
    not_sumsRam hmedley (by decide +kernel) (by decide +kernel)⟩

end KernelFuzzing.Dtd
