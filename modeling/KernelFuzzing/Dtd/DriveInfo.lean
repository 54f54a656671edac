import KernelFuzzing.Dtd.Blob

/-! What `get_drive_info` stores for a device tree. -/
namespace KernelFuzzing.Dtd
open Foundation Memory Reading DeviceTree

variable {m : Memory} {p dtStrings : Word} {ts : List Token}

/-- The property is taken for the `reg` of a virtio node and has a value. -/
def takenForReg (m : Memory) (dtStrings : Word) (o : Occurrence) : Bool :=
  looksVirtio m o.nodeAt && looksReg m (string dtStrings o.property) && o.property.value != []

/-- The property is taken for the `interrupts` of a virtio node and has a value. -/
def takenForInterrupts (m : Memory) (dtStrings : Word) (o : Occurrence) : Bool :=
  looksVirtio m o.nodeAt && looksInterrupts m (string dtStrings o.property) &&
    o.property.value != []

def driveRun (m : Memory) (dtStrings : Word) : List Occurrence → (Nat → Word) → Nat → Word
  | [], result => result
  | o :: os, result =>
    if takenForReg m dtStrings o then storeRegAt m o.value result
    else if takenForInterrupts m dtStrings o then
      driveRun m dtStrings os (storeInterruptAt m o.value result)
    else driveRun m dtStrings os result

theorem effect_prop (n : Name × Word) (q : Property) (result : Nat → Word) :
    getDriveInfo.effect m dtStrings ⟨p, looksVirtio m n.2, result⟩ (.prop q) =
      if takenForReg m dtStrings ⟨n.1, n.2, q, p + 12⟩ then .inr (storeRegAt m (p + 12) result)
      else if takenForInterrupts m dtStrings ⟨n.1, n.2, q, p + 12⟩ then
        .inl ⟨p + BitVec.ofNat 64 (Token.prop q).size, looksVirtio m n.2,
          storeInterruptAt m (p + 12) result⟩
      else .inl ⟨p + BitVec.ofNat 64 (Token.prop q).size, looksVirtio m n.2, result⟩ := by
  simp only [getDriveInfo.effect, takenForReg, takenForInterrupts]
  by_cases hnone : q.value = []
  · simp [hnone]
  · simp [hnone]

theorem outcome_getDriveInfo (node : Option (Name × Word)) (result : Nat → Word) :
    outcome (getDriveInfo.effect m dtStrings) DriveState.result
        ⟨p, node.any fun n => looksVirtio m n.2, result⟩ ts =
      driveRun m dtStrings (occurrences node p ts) result := by
  induction ts generalizing node p result with
  | nil => rfl
  | cons t ts ih =>
    cases t with
    | beginNode name => exact ih (some (name, p + 4)) result
    | endNode => exact ih none result
    | prop q =>
      cases node with
      | none => exact ih none result
      | some n =>
        rw [Option.any_some, outcome, effect_prop n q, occurrences, occurrenceAt,
          Option.map_some, Option.toList_some, List.singleton_append, driveRun]
        cases takenForReg m dtStrings ⟨n.1, n.2, q, p + 12⟩ with
        | true => rfl
        | false =>
          cases takenForInterrupts m dtStrings ⟨n.1, n.2, q, p + 12⟩ with
          | true => exact ih (some n) (storeInterruptAt m (p + 12) result)
          | false => exact ih (some n) result
    | nop => exact ih node result
    | unknown word behind => exact ih node result

def firstReg (m : Memory) (dtStrings : Word) (os : List Occurrence) : Option Occurrence :=
  os.find? (takenForReg m dtStrings)

def interruptsBefore (m : Memory) (dtStrings : Word) (os : List Occurrence) : List Occurrence :=
  (os.takeWhile fun o => !takenForReg m dtStrings o).filter (takenForInterrupts m dtStrings)

theorem storeInterruptAt_storeInterruptAt (a b : Word) (result : Nat → Word) :
    storeInterruptAt m a (storeInterruptAt m b result) = storeInterruptAt m a result := by
  funext i
  simp only [storeInterruptAt, storeInterrupt, Function.update_apply]
  split
  · rfl
  split
  · rfl
  split <;> rfl

theorem driveRun_of_firstReg {os : List Occurrence} {o : Occurrence}
    (h : firstReg m dtStrings os = some o) (result : Nat → Word) :
    driveRun m dtStrings os result = storeRegAt m o.value
      ((interruptsBefore m dtStrings os).foldl (fun r i => storeInterruptAt m i.value r)
        result) := by
  induction os generalizing result with
  | nil => cases h
  | cons o' os ih =>
    rw [firstReg, List.find?_cons] at h
    rw [driveRun, interruptsBefore, List.takeWhile_cons]
    cases hreg : takenForReg m dtStrings o' with
    | true =>
      rw [hreg] at h
      cases h
      rfl
    | false =>
      rw [hreg] at h
      simp only [Bool.false_eq_true, if_false, Bool.not_false, if_true]
      rw [List.filter_cons]
      split
      · exact ih h _
      · exact ih h _

theorem foldl_storeInterruptAt (os : List Occurrence) (result : Nat → Word) :
    os.foldl (fun r i => storeInterruptAt m i.value r) result =
      match os.getLast? with
      | some i => storeInterruptAt m i.value result
      | none => result := by
  induction os using List.reverseRecOn with
  | nil => rfl
  | append_singleton os o ih =>
    rw [List.foldl_append, ih, List.getLast?_concat]
    cases os.getLast? with
    | none => rfl
    | some i => exact storeInterruptAt_storeInterruptAt _ _ _

/-- The first node named `virtio_mmio` and more has these two properties, of one address
and size and of one interrupt. -/
structure FirstVirtio (f : Forest) (reg interrupts : Property) : Prop where
  node : ∃ n, f.nodes.find? (fun n => ascii "virtio_mmio".toList <+: n.1.val) = some n ∧
    reg ∈ n.2 ∧ interrupts ∈ n.2
  reg_name : reg.name.val = ascii ['r', 'e', 'g']
  reg_cells : reg.value.length = 16
  interrupts_name : interrupts.name.val = ascii "interrupts".toList
  interrupts_cells : interrupts.value.length = 12

/-- The address, size, interrupt type, number and flags of a node. -/
def StoresDrive (reg interrupts : Property) (result : Nat → Word) : Prop :=
  (result 0 = cells (be32At reg.value 0) (be32At reg.value 4) ∧
    result 1 = cells (be32At reg.value 8) (be32At reg.value 12)) ∧
    ∀ k < 3, result (2 + k) = cells 0 (be32At interrupts.value (4 * k))

instance (reg interrupts : Property) (result : Nat → Word) :
    Decidable (StoresDrive reg interrupts result) :=
  inferInstanceAs (Decidable ((_ = _ ∧ _ = _) ∧ ∀ k, ∀ _ : k < 3, _ = _))

def SameCells (m : Memory) (a : Word) (value : List Byte) (n : Nat) : Prop :=
  ∀ k < n, loadBe32 m (a + BitVec.ofNat 64 (4 * k)) = be32At value (4 * k)

theorem toNat_cells (hi lo : BitVec 32) :
    (cells hi lo).toNat = hi.toNat * 2 ^ 32 + lo.toNat := by
  have hhi := hi.isLt
  have hlo := lo.isLt
  rw [cells, BitVec.toNat_or, BitVec.toNat_shiftLeft, BitVec.toNat_setWidth, BitVec.toNat_setWidth,
    Nat.mod_eq_of_lt (by omega : hi.toNat < 2 ^ 64),
    Nat.mod_eq_of_lt (by omega : lo.toNat < 2 ^ 64),
    Nat.mod_eq_of_lt (by rw [Nat.shiftLeft_eq]; omega), ← Nat.shiftLeft_add_eq_or_of_lt hlo,
    Nat.shiftLeft_eq]

theorem cells_inj {a b c d : BitVec 32} : cells a b = cells c d ↔ a = c ∧ b = d := by
  have hb := b.isLt
  have hd := d.isLt
  simp only [BitVec.toNat_eq, toNat_cells]
  omega

theorem sameCells_zero (a : Word) (value : List Byte) : SameCells m a value 0 :=
  fun _ hk => absurd hk (Nat.not_lt_zero _)

theorem sameCells_succ (a : Word) (value : List Byte) (n : Nat) :
    SameCells m a value (n + 1) ↔ SameCells m a value n ∧
      loadBe32 m (a + BitVec.ofNat 64 (4 * n)) = be32At value (4 * n) := by
  simp only [SameCells, Nat.forall_lt_succ_right]

theorem storeRegAt_of_two_le {a : Word} {result : Nat → Word} {i : Nat} (hi : 2 ≤ i) :
    storeRegAt m a result i = result i := by
  simp only [storeRegAt, storeReg, Function.update_apply]
  rw [if_neg (by omega), if_neg (by omega)]

theorem storeRegAt_eq_iff {a : Word} {value : List Byte} {result : Nat → Word} :
    (storeRegAt m a result 0 = cells (be32At value 0) (be32At value 4) ∧
      storeRegAt m a result 1 = cells (be32At value 8) (be32At value 12)) ↔
      SameCells m a value 4 := by
  have h0 : storeRegAt m a result 0 = cells (loadBe32 m a) (loadBe32 m (a + 4)) := rfl
  have h1 : storeRegAt m a result 1 = cells (loadBe32 m (a + 8)) (loadBe32 m (a + 12)) := rfl
  rw [h0, h1, cells_inj, cells_inj]
  simp only [sameCells_succ, sameCells_zero, Nat.mul_zero, BitVec.add_zero, true_and, and_assoc]
  rfl

theorem storeInterruptAt_eq_iff {a : Word} {value : List Byte} {result : Nat → Word} :
    (∀ k < 3, storeInterruptAt m a result (2 + k) = cells 0 (be32At value (4 * k))) ↔
      SameCells m a value 3 := by
  have hstored (k : Nat) (hk : k < 3) : storeInterruptAt m a result (2 + k) =
      cells 0 (loadBe32 m (a + BitVec.ofNat 64 (4 * k))) := by
    match k, hk with
    | 0, _ => simp [storeInterruptAt, storeInterrupt]
    | 1, _ => rfl
    | 2, _ => rfl
  refine forall₂_congr fun k hk => ?_
  rw [hstored k hk, cells_inj]
  simp

/-- The first property taken for `reg` has the cells of `reg`, and the last one before it
taken for `interrupts` has those of `interrupts`, or they are in `result` already. -/
def InTurn (m : Memory) (f : Forest) (reg interrupts : Property) (result : Nat → Word) : Prop :=
  let os := f.occurrences (dtStruct m virtDtbBase)
  (∀ o ∈ firstReg m (Dtd.dtStrings m virtDtbBase) os, SameCells m o.value reg.value 4) ∧
    match (interruptsBefore m (Dtd.dtStrings m virtDtbBase) os).getLast? with
    | some o => SameCells m o.value interrupts.value 3
    | none => ∀ k < 3, result (2 + k) = cells 0 (be32At interrupts.value (4 * k))

theorem exists_firstReg {f : Forest} {reg interrupts : Property}
    (h : NamedBlob m virtDtbBase f.tokens) (hfirst : FirstVirtio f reg interrupts) :
    ∃ o, firstReg m (Dtd.dtStrings m virtDtbBase) (f.occurrences (dtStruct m virtDtbBase)) =
      some o := by
  obtain ⟨n, hfind, hreg, -⟩ := hfirst.node
  obtain ⟨o, ho, hnode, hproperty⟩ :=
    f.exists_occurrence (dtStruct m virtDtbBase) (List.mem_of_find?_eq_some hfind) hreg
  have hoccurs := ho
  rw [← occurrences_eq] at hoccurs
  obtain ⟨hheld, hmem⟩ := h.block_univ.held none (fun n hn => by cases hn) o hoccurs
  have hname := h.names _ hmem
  rw [hproperty, hfirst.reg_name] at hname
  have hvirtio : ascii "virtio_mmio".toList <+: o.node.val := by
    have hfound := List.find?_some hfind
    rw [hnode]
    exact of_decide_eq_true hfound
  have hnodeAt := hheld.starts hvirtio
  have hlooks : looksVirtio m o.nodeAt := by
    have h0 : m o.nodeAt = chr 'v' := hnodeAt.first
    have h1 : m (o.nodeAt + 1) = chr 'i' := hnodeAt 1 (by decide)
    have h2 : m (o.nodeAt + 2) = chr 'r' := hnodeAt 2 (by decide)
    rw [looksVirtio, beginsWith, h0, h1, h2]
    decide
  have hvalue : o.property.value ≠ [] := by
    intro hnil
    have hlength := hfirst.reg_cells
    rw [← hproperty, hnil] at hlength
    cases hlength
  refine Option.isSome_iff_exists.mp (List.find?_isSome.mpr ⟨o, ho, ?_⟩)
  rw [takenForReg, hlooks, hproperty, looksReg_of_holds hname, ← hproperty]
  simpa using hvalue

theorem gives_getDriveInfo_tree {f : Forest} (h : Blob m virtDtbBase f.tokens)
    (result : Nat → Word) :
    Gives m Set.univ (getDriveInfo result) (driveRun m (Dtd.dtStrings m virtDtbBase)
      (f.occurrences (dtStruct m virtDtbBase)) result) := by
  obtain ⟨ss, hrounds, -⟩ := rounds_getDriveInfo (Dtd.dtStrings m virtDtbBase)
    (s := ⟨dtStruct m virtDtbBase, false, result⟩)
    (walking_univ h.block_univ readable_univ)
  rw [← occurrences_eq, ← outcome_getDriveInfo]
  exact gives_getDriveInfo (spans_univ _ _) hrounds.gives

theorem stored_iff_driveRun {f : Forest} {reg interrupts : Property}
    (h : Blob m virtDtbBase f.tokens) (result : Nat → Word) :
    (∃ result', Gives m Set.univ (getDriveInfo result) result' ∧
        StoresDrive reg interrupts result') ↔
      StoresDrive reg interrupts (driveRun m (Dtd.dtStrings m virtDtbBase)
        (f.occurrences (dtStruct m virtDtbBase)) result) := by
  have hgives := gives_getDriveInfo_tree h result
  constructor
  · rintro ⟨result', hgives', hstores⟩
    rwa [hgives'.unique hgives] at hstores
  · exact fun hstores => ⟨_, hgives, hstores⟩

/-- The five values of the first virtio node are stored exactly when it comes in turn. -/
theorem drive_info_stored_iff_in_turn (f : Forest) {reg interrupts : Property}
    (h : NamedBlob m virtDtbBase f.tokens) (first : FirstVirtio f reg interrupts)
    (result : Nat → Word) :
    (∃ result', Gives m Set.univ (getDriveInfo result) result' ∧
        StoresDrive reg interrupts result') ↔ InTurn m f reg interrupts result := by
  obtain ⟨o, ho⟩ := exists_firstReg h first
  rw [stored_iff_driveRun h.toBlob, driveRun_of_firstReg ho, StoresDrive, storeRegAt_eq_iff, InTurn]
  refine and_congr ?_ ?_
  · simp [ho]
  · simp only [storeRegAt_of_two_le (Nat.le_add_right 2 _), foldl_storeInterruptAt]
    cases (interruptsBefore m (Dtd.dtStrings m virtDtbBase)
      (f.occurrences (dtStruct m virtDtbBase))).getLast? with
    | none => rfl
    | some i => exact storeInterruptAt_eq_iff

theorem sameCells_of_held {o : Occurrence} (h : o.Held m) {n : Nat}
    (hlength : 4 * n ≤ o.property.value.length) : SameCells m o.value o.property.value n :=
  fun _ hk => h.value.loadBe32 (by omega)

theorem inTurn_of_interrupts_before_reg {f : Forest} {reg interrupts : Property}
    (h : Blob m virtDtbBase f.tokens) (first : FirstVirtio f reg interrupts) {o i : Occurrence}
    (ho : firstReg m (Dtd.dtStrings m virtDtbBase) (f.occurrences (dtStruct m virtDtbBase)) =
      some o) (hreg : o.property = reg)
    (hi : (interruptsBefore m (Dtd.dtStrings m virtDtbBase)
      (f.occurrences (dtStruct m virtDtbBase))).getLast? = some i)
    (hinterrupts : i.property = interrupts) (result : Nat → Word) :
    InTurn m f reg interrupts result := by
  have hheld (x : Occurrence) (hx : x ∈ f.occurrences (dtStruct m virtDtbBase)) : x.Held m := by
    rw [← occurrences_eq] at hx
    exact (h.block_univ.held none (fun n hn => by cases hn) x hx).1
  have hmem := (List.takeWhile_sublist _).subset
    (List.mem_of_mem_filter (List.mem_of_getLast? hi))
  rw [InTurn, ho, hi]
  constructor
  · rintro _ ⟨rfl⟩
    rw [← hreg]
    exact sameCells_of_held (hheld o (List.mem_of_find?_eq_some ho))
      (by rw [hreg, first.reg_cells])
  · rw [← hinterrupts]
    exact sameCells_of_held (hheld i hmem) (by rw [hinterrupts, first.interrupts_cells])

def driveStrings : List Byte :=
  ascii ['r', 'e', 'g'] ++ [0] ++ (ascii "interrupts".toList ++ [0]) ++
    (ascii "interrupt-parent".toList ++ [0])

def mmioReg : Property :=
  ⟨regName, 0, be32 0 ++ be32 0xa000000 ++ be32 0 ++ be32 0x200, by decide⟩

def mmioInterrupts : Property :=
  ⟨⟨ascii "interrupts".toList, by decide⟩, 4, be32 0 ++ be32 16 ++ be32 1, by decide⟩

def mmioParent : Property :=
  ⟨⟨ascii "interrupt-parent".toList, by decide⟩, 15, be32 0x8002, by decide⟩

def mmioTree (props : List (Option Property)) : Forest :=
  .node .empty [] (.node ⟨ascii "virtio_mmio@a000000".toList, by decide⟩ props .nil .nil)
    .nil

def driveMemory (f : Forest) : Memory := place virtDtbBase (blob f.tokens driveStrings)

theorem namedBlob_driveMemory {f : Forest} (hsize : (blob f.tokens driveStrings).length < 2 ^ 32)
    (hnames : ∀ t ∈ f.tokens, NamedIn driveStrings t) :
    NamedBlob (driveMemory f) virtDtbBase f.tokens :=
  namedBlob_place (by decide) hsize hnames

theorem firstVirtio_mmioTree {props : List (Option Property)} (hreg : some mmioReg ∈ props)
    (hinterrupts : some mmioInterrupts ∈ props) :
    FirstVirtio (mmioTree props) mmioReg mmioInterrupts :=
  ⟨⟨_, rfl, List.reduceOption_mem_iff.mpr hreg, List.reduceOption_mem_iff.mpr hinterrupts⟩,
    rfl, rfl, rfl, rfl⟩

theorem drive_info_stored_iff_in_turn_interrupts_first :
    (∃ result', Gives (driveMemory (mmioTree [some mmioInterrupts, some mmioReg])) Set.univ
        (getDriveInfo fun _ => 0) result' ∧ StoresDrive mmioReg mmioInterrupts result') ↔
      InTurn (driveMemory (mmioTree [some mmioInterrupts, some mmioReg]))
        (mmioTree [some mmioInterrupts, some mmioReg]) mmioReg mmioInterrupts fun _ => 0 :=
  drive_info_stored_iff_in_turn _ (namedBlob_driveMemory (by decide +kernel) (by decide +kernel))
    (firstVirtio_mmioTree (by simp) (by simp)) _

def MmioStored (props : List (Option Property)) : Prop :=
  ∃ result', Gives (driveMemory (mmioTree props)) Set.univ (getDriveInfo fun _ => 0) result' ∧
    StoresDrive mmioReg mmioInterrupts result'

theorem drive_info_not_stored_reg_first :
    NamedBlob (driveMemory (mmioTree [some mmioReg, some mmioInterrupts])) virtDtbBase
        (mmioTree [some mmioReg, some mmioInterrupts]).tokens ∧
      FirstVirtio (mmioTree [some mmioReg, some mmioInterrupts]) mmioReg mmioInterrupts ∧
      ¬ MmioStored [some mmioReg, some mmioInterrupts] ∧
      ¬ MmioStored [some mmioInterrupts, some mmioParent, some mmioReg] ∧
      MmioStored [some mmioInterrupts, some mmioReg] := by
  have hfirst : NamedBlob (driveMemory (mmioTree [some mmioReg, some mmioInterrupts])) virtDtbBase
      (mmioTree [some mmioReg, some mmioInterrupts]).tokens :=
    namedBlob_driveMemory (by decide +kernel) (by decide +kernel)
  refine ⟨hfirst, firstVirtio_mmioTree (by simp) (by simp), ?_, ?_, ?_⟩
  · rw [MmioStored, stored_iff_driveRun hfirst.toBlob]
    decide +kernel
  · rw [MmioStored, stored_iff_driveRun
      (namedBlob_driveMemory (by decide +kernel) (by decide +kernel)).toBlob]
    decide +kernel
  · rw [MmioStored, stored_iff_driveRun
      (namedBlob_driveMemory (by decide +kernel) (by decide +kernel)).toBlob]
    decide +kernel

end KernelFuzzing.Dtd
