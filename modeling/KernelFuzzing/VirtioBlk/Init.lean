import KernelFuzzing.Foundation.Memory
import KernelFuzzing.Foundation.Run

/-! The register accesses of drivers/virtio_blk/virtio_blk.c during initialisation. The
device is any function from the accesses so far to the value a read returns. -/
namespace KernelFuzzing.VirtioBlk
open Foundation

@[simp] def virtioVersion : BitVec 32 := 0x004#32
@[simp] def virtioDeviceid : BitVec 32 := 0x008#32
@[simp] def virtioDeviceFeatures : BitVec 32 := 0x010#32
@[simp] def virtioDeviceFeaturesSel : BitVec 32 := 0x014#32
@[simp] def virtioDriverFeatures : BitVec 32 := 0x020#32
@[simp] def virtioDriverFeaturesSel : BitVec 32 := 0x024#32
@[simp] def virtioQueueSel : BitVec 32 := 0x030#32
@[simp] def virtioQueueNumMax : BitVec 32 := 0x034#32
@[simp] def virtioQueueNum : BitVec 32 := 0x038#32
@[simp] def virtioQueueReady : BitVec 32 := 0x044#32
@[simp] def virtioStatus : BitVec 32 := 0x070#32
@[simp] def virtioQueueDescLow : BitVec 32 := 0x080#32
@[simp] def virtioQueueDescHigh : BitVec 32 := 0x084#32
@[simp] def virtioQueueAvailLow : BitVec 32 := 0x090#32
@[simp] def virtioQueueAvailHigh : BitVec 32 := 0x094#32
@[simp] def virtioQueueUsedLow : BitVec 32 := 0x0a0#32
@[simp] def virtioQueueUsedHigh : BitVec 32 := 0x0a4#32

def virtioStatusReset : BitVec 32 := 0#32
def virtioStatusAck : BitVec 32 := 1#32
def virtioStatusDriver : BitVec 32 := 2#32
def virtioStatusDriverOk : BitVec 32 := 4#32
def virtioStatusFeaturesOk : BitVec 32 := 8#32

/-- An access to the register at an offset, with the value written or returned. -/
inductive Access where
  | write (offset value : BitVec 32)
  | read (offset value : BitVec 32)
deriving DecidableEq

abbrev Device := List Access → BitVec 32 → BitVec 32

abbrev Driver := StateM (List Access)

/-- The addresses that `init_virtio_backend` filled in. -/
structure Virtio where
  physicalVirtqDesc : Word
  physicalVirtqAvail : Word
  physicalVirtqUsed : Word

def writeU32 (offset value : BitVec 32) : Driver Unit :=
  modify fun h => h ++ [.write offset value]

def readU32 (dev : Device) (offset : BitVec 32) : Driver (BitVec 32) :=
  modifyGet fun h => (dev h offset, h ++ [.read offset (dev h offset)])

def updateStatus (status : BitVec 32) : Driver Unit := writeU32 virtioStatus status

def getLowerHalf (value : Word) : BitVec 32 := (value &&& 0x00000000ffffffff#64).setWidth 32

def getUpperHalf (value : Word) : BitVec 32 :=
  ((value &&& 0xffffffff00000000#64) >>> 32).setWidth 32

def initVirtioRegisters (obj : Virtio) : Driver Unit := do
  writeU32 virtioQueueDescLow (getLowerHalf obj.physicalVirtqDesc)
  writeU32 virtioQueueDescHigh (getUpperHalf obj.physicalVirtqDesc)
  writeU32 virtioQueueAvailLow (getLowerHalf obj.physicalVirtqAvail)
  writeU32 virtioQueueAvailHigh (getUpperHalf obj.physicalVirtqAvail)
  writeU32 virtioQueueUsedLow (getLowerHalf obj.physicalVirtqUsed)
  writeU32 virtioQueueUsedHigh (getUpperHalf obj.physicalVirtqUsed)

def initQueue (dev : Device) (obj : Virtio) : Driver Unit := do
  writeU32 virtioQueueSel 0#32
  let readyStatus ← readU32 dev virtioQueueReady
  let _ ← readU32 dev virtioVersion
  let _ ← readU32 dev virtioDeviceid
  let _ ← readU32 dev virtioDeviceFeatures
  if readyStatus ≠ 0#32 then return
  let queueMaxSize ← readU32 dev virtioQueueNumMax
  if queueMaxSize = 0#32 then return
  writeU32 virtioQueueNum 12#32
  initVirtioRegisters obj
  writeU32 virtioQueueReady 1#32

/-- `init_virtio_driver` up to the update of the status with FEATURES_OK. -/
def negotiate (dev : Device) : Driver Unit := do
  updateStatus virtioStatusReset
  updateStatus virtioStatusAck
  updateStatus (virtioStatusAck ||| virtioStatusDriver)
  let _ ← readU32 dev virtioStatus
  writeU32 virtioDeviceFeaturesSel 0#32
  let deviceFeaturesSelZero ← readU32 dev virtioDeviceFeatures
  writeU32 virtioDeviceFeaturesSel 1#32
  let _ ← readU32 dev virtioDeviceFeatures
  writeU32 virtioDriverFeaturesSel 0#32
  writeU32 virtioDriverFeatures deviceFeaturesSelZero
  writeU32 virtioDriverFeaturesSel 1#32
  writeU32 virtioDriverFeatures 1#32
  writeU32 virtioDeviceFeaturesSel 0#32
  let _ ← readU32 dev virtioDeviceFeatures
  writeU32 virtioDeviceFeaturesSel 1#32
  let _ ← readU32 dev virtioDeviceFeatures
  let _ ← readU32 dev virtioStatus

def initVirtioDriver (dev : Device) (obj : Virtio) : Driver Unit := do
  negotiate dev
  let status ← readU32 dev virtioStatus
  updateStatus (status ||| virtioStatusFeaturesOk)
  let _ ← readU32 dev virtioStatus
  initQueue dev obj
  let status ← readU32 dev virtioStatus
  updateStatus (status ||| virtioStatusDriverOk)

def accesses (dev : Device) (obj : Virtio) : List Access := ((initVirtioDriver dev obj).run []).2

def has (value bit : BitVec 32) : Prop := value &&& bit ≠ 0#32

instance (value bit : BitVec 32) : Decidable (has value bit) := inferInstanceAs (Decidable (_ ≠ _))

def Access.offset : Access → BitVec 32
  | .write offset _ => offset
  | .read offset _ => offset

def statusAccesses (h : List Access) : List Access := h.filter fun a => a.offset = virtioStatus

def FeaturesAccepted (h : List Access) : Prop :=
  ∃ v w, has v virtioStatusFeaturesOk ∧ has w virtioStatusFeaturesOk ∧
    [.write virtioStatus v, .read virtioStatus w] <:+: statusAccesses h

def QueueFound (h : List Access) : Prop :=
  ∃ max num, num ≤ max ∧ List.Sublist [.write virtioQueueSel 0#32, .read virtioQueueReady 0#32,
    .read virtioQueueNumMax max, .write virtioQueueNum num] h

def QueueZero (mem : Memory) (obj : Virtio) : Prop :=
  ∀ x, Memory.Within obj.physicalVirtqDesc (16 * 12) x ∨
    Memory.Within obj.physicalVirtqAvail (6 + 2 * 12) x ∨
    Memory.Within obj.physicalVirtqUsed (6 + 8 * 12) x → mem x = 0

def addressWrites (obj : Virtio) : List Access :=
  [.write virtioQueueDescLow (getLowerHalf obj.physicalVirtqDesc),
    .write virtioQueueDescHigh (getUpperHalf obj.physicalVirtqDesc),
    .write virtioQueueAvailLow (getLowerHalf obj.physicalVirtqAvail),
    .write virtioQueueAvailHigh (getUpperHalf obj.physicalVirtqAvail),
    .write virtioQueueUsedLow (getLowerHalf obj.physicalVirtqUsed),
    .write virtioQueueUsedHigh (getUpperHalf obj.physicalVirtqUsed)]

structure Prepared (mem : Memory) (obj : Virtio) (h : List Access) : Prop where
  features : FeaturesAccepted h
  queue : QueueFound h
  addresses : addressWrites obj ⊆ h
  zero : QueueZero mem obj
  ready : .write virtioQueueReady 1#32 ∈ h

/-- An access that sets DRIVER_OK is made only when everything is prepared. -/
def Allowed (mem : Memory) (obj : Virtio) (h : List Access) (a : Access) : Prop :=
  ∀ v, a = .write virtioStatus v → has v virtioStatusDriverOk → Prepared mem obj h

/-- Every access of a run is allowed by the accesses before it. -/
def InOrder (mem : Memory) (obj : Virtio) (h : List Access) : Prop :=
  Run.Guarded (fun h a => h ++ [a]) (Allowed mem obj) [] h

section
variable (dev : Device)

def negotiated : List Access := ((negotiate dev).run []).2

def status : BitVec 32 := dev (negotiated dev) virtioStatus

def offered : List Access :=
  negotiated dev ++ [.read virtioStatus (status dev),
    .write virtioStatus (status dev ||| virtioStatusFeaturesOk)]

def readBack : BitVec 32 := dev (offered dev) virtioStatus

def selected : List Access :=
  offered dev ++ [.read virtioStatus (readBack dev), .write virtioQueueSel 0#32]

def queueReady : BitVec 32 := dev (selected dev) virtioQueueReady

def tested : List Access :=
  let h := selected dev ++ [.read virtioQueueReady (queueReady dev)]
  let h := h ++ [.read virtioVersion (dev h virtioVersion)]
  let h := h ++ [.read virtioDeviceid (dev h virtioDeviceid)]
  h ++ [.read virtioDeviceFeatures (dev h virtioDeviceFeatures)]

def queueNumMax : BitVec 32 := dev (tested dev) virtioQueueNumMax

def queued (obj : Virtio) : List Access :=
  if queueReady dev ≠ 0#32 then tested dev
  else if queueNumMax dev = 0#32 then tested dev ++ [.read virtioQueueNumMax 0#32]
  else tested dev ++ [.read virtioQueueNumMax (queueNumMax dev), .write virtioQueueNum 12#32] ++
    addressWrites obj ++ [.write virtioQueueReady 1#32]

end

private def initReady (dev : Device) (obj : Virtio) : Driver Unit := do
  let queueMaxSize ← readU32 dev virtioQueueNumMax
  if queueMaxSize = 0#32 then return
  writeU32 virtioQueueNum 12#32
  initVirtioRegisters obj
  writeU32 virtioQueueReady 1#32

private theorem run_initReady (dev : Device) (obj : Virtio) :
    ((initReady dev obj).run (tested dev)).2 =
      if queueNumMax dev = 0#32 then tested dev ++ [.read virtioQueueNumMax 0#32]
      else tested dev ++ [.read virtioQueueNumMax (queueNumMax dev), .write virtioQueueNum 12#32] ++
        addressWrites obj ++ [.write virtioQueueReady 1#32] := by
  have hread : (initReady dev obj).run (tested dev) =
      (if queueNumMax dev = 0#32 then pure () else do
        writeU32 virtioQueueNum 12#32
        initVirtioRegisters obj
        writeU32 virtioQueueReady 1 : Driver Unit).run
          (tested dev ++ [.read virtioQueueNumMax (queueNumMax dev)]) := rfl
  rw [hread]
  split
  next hzero =>
    rw [hzero]
    rfl
  next =>
    generalize tested dev = h
    simp [writeU32, initVirtioRegisters, addressWrites]
    rfl

private theorem run_initQueue (dev : Device) (obj : Virtio) :
    ((initQueue dev obj).run (offered dev ++ [.read virtioStatus (readBack dev)])).2 =
      queued dev obj := by
  have hselected : offered dev ++ [.read virtioStatus (readBack dev)] ++
      [.write virtioQueueSel 0#32] = selected dev := by
    rw [selected, List.append_assoc]
    rfl
  have htested : (initQueue dev obj).run (offered dev ++ [.read virtioStatus (readBack dev)]) =
      (if queueReady dev ≠ 0#32 then pure () else initReady dev obj).run (tested dev) := by
    unfold queueReady tested queueReady
    rw [← hselected]
    rfl
  rw [htested, queued, ← run_initReady]
  split <;> rfl

theorem accesses_eq (dev : Device) (obj : Virtio) :
    accesses dev obj = queued dev obj ++
      [.read virtioStatus (dev (queued dev obj) virtioStatus),
        .write virtioStatus (dev (queued dev obj) virtioStatus ||| virtioStatusDriverOk)] := by
  have hoffered : negotiated dev ++ [.read virtioStatus (status dev)] ++
      [.write virtioStatus (status dev ||| virtioStatusFeaturesOk)] = offered dev := by
    rw [offered, List.append_assoc]
    rfl
  rw [← run_initQueue, List.append_cons]
  unfold readBack
  rw [← hoffered]
  rfl

theorem negotiated_eq (dev : Device) : ∃ x f g f' g' y, negotiated dev =
    [.write virtioStatus 0#32, .write virtioStatus 1#32, .write virtioStatus 3#32,
      .read virtioStatus x, .write virtioDeviceFeaturesSel 0#32, .read virtioDeviceFeatures f,
      .write virtioDeviceFeaturesSel 1#32, .read virtioDeviceFeatures g,
      .write virtioDriverFeaturesSel 0#32, .write virtioDriverFeatures f,
      .write virtioDriverFeaturesSel 1#32, .write virtioDriverFeatures 1#32,
      .write virtioDeviceFeaturesSel 0#32, .read virtioDeviceFeatures f',
      .write virtioDeviceFeaturesSel 1#32, .read virtioDeviceFeatures g', .read virtioStatus y] :=
  ⟨_, _, _, _, _, _, rfl⟩

attribute [irreducible] negotiated

/-- The end of `init_queue` with queue 0 ready for use, or not. -/
def setUp (dev : Device) (obj : Virtio) : List Access :=
  if queueReady dev ≠ 0#32 then []
  else if queueNumMax dev = 0#32 then [.read virtioQueueNumMax 0#32]
  else [.read virtioQueueNumMax (queueNumMax dev), .write virtioQueueNum 12#32] ++
    addressWrites obj ++ [.write virtioQueueReady 1#32]

theorem queued_eq (dev : Device) (obj : Virtio) : ∃ version id features, queued dev obj =
    offered dev ++ [.read virtioStatus (readBack dev), .write virtioQueueSel 0#32,
      .read virtioQueueReady (queueReady dev), .read virtioVersion version,
      .read virtioDeviceid id, .read virtioDeviceFeatures features] ++ setUp dev obj := by
  have htested : ∃ version id features, tested dev = offered dev ++
      [.read virtioStatus (readBack dev), .write virtioQueueSel 0#32,
        .read virtioQueueReady (queueReady dev), .read virtioVersion version,
        .read virtioDeviceid id, .read virtioDeviceFeatures features] := by
    simp only [tested, selected, List.append_assoc, List.cons_append, List.nil_append]
    exact ⟨_, _, _, rfl⟩
  obtain ⟨version, id, features, htested⟩ := htested
  refine ⟨version, id, features, ?_⟩
  rw [← htested, queued, setUp]
  split
  · rw [List.append_nil]
  · split
    · rfl
    · rw [List.append_assoc, List.append_assoc, List.append_assoc]

theorem has_or_right (v bit : BitVec 32) (h : bit ≠ 0#32) : has (v ||| bit) bit := by
  rw [has, BitVec.and_or_distrib_right, BitVec.and_self, ne_eq, BitVec.or_eq_zero_iff]
  exact fun hzero => h hzero.2

theorem has_driverOk_or_featuresOk (v : BitVec 32) :
    has (v ||| virtioStatusFeaturesOk) virtioStatusDriverOk ↔ has v virtioStatusDriverOk := by
  have hbits : virtioStatusFeaturesOk &&& virtioStatusDriverOk = 0#32 := by decide
  rw [has, has, BitVec.and_or_distrib_right, hbits, BitVec.or_zero]

section
variable {mem : Memory} {obj : Virtio}

private theorem run_record (h l : List Access) :
    Run.run (fun h a => h ++ [a]) h l = h ++ l := by
  induction l generalizing h with
  | nil => simp
  | cons a l ih => simp [ih]

private theorem guarded_of_quiet {l : List Access}
    (quiet : ∀ v, .write virtioStatus v ∈ l → ¬ has v virtioStatusDriverOk) (h : List Access) :
    Run.Guarded (fun h a => h ++ [a]) (Allowed mem obj) h l := by
  induction l generalizing h with
  | nil => trivial
  | cons a l ih =>
    refine ⟨fun v ha hv => ?_, ih (fun v hv => quiet v (List.mem_cons_of_mem a hv)) _⟩
    exact absurd hv (quiet v (ha ▸ List.mem_cons_self))

private theorem inOrder_append_status (h : List Access) (v : BitVec 32) :
    InOrder mem obj (h ++ [.write virtioStatus v]) ↔
      InOrder mem obj h ∧ (has v virtioStatusDriverOk → Prepared mem obj h) := by
  rw [InOrder, Run.guarded_append, run_record, List.nil_append]
  simp [InOrder, Allowed]

private theorem not_prepared_early (dev : Device) (v : BitVec 32) :
    ¬ Prepared mem obj (negotiated dev ++ [.read virtioStatus v]) := by
  obtain ⟨x, f, g, f', g', y, hnegotiated⟩ := negotiated_eq dev
  intro prepared
  have ready := prepared.ready
  rw [hnegotiated] at ready
  simp [virtioQueueReady, virtioStatus, virtioDeviceFeaturesSel, virtioDriverFeatures,
    virtioDriverFeaturesSel] at ready

private theorem before_driverOk (obj : Virtio) (dev : Device) (v : BitVec 32) :
    ∃ x f g f' g' y version id features, queued dev obj ++ [.read virtioStatus v] =
      [.write virtioStatus 0#32, .write virtioStatus 1#32, .write virtioStatus 3#32,
        .read virtioStatus x, .write virtioDeviceFeaturesSel 0#32, .read virtioDeviceFeatures f,
        .write virtioDeviceFeaturesSel 1#32, .read virtioDeviceFeatures g,
        .write virtioDriverFeaturesSel 0#32, .write virtioDriverFeatures f,
        .write virtioDriverFeaturesSel 1#32, .write virtioDriverFeatures 1#32,
        .write virtioDeviceFeaturesSel 0#32, .read virtioDeviceFeatures f',
        .write virtioDeviceFeaturesSel 1#32, .read virtioDeviceFeatures g', .read virtioStatus y,
        .read virtioStatus (status dev),
        .write virtioStatus (status dev ||| virtioStatusFeaturesOk),
        .read virtioStatus (readBack dev), .write virtioQueueSel 0#32,
        .read virtioQueueReady (queueReady dev), .read virtioVersion version,
        .read virtioDeviceid id, .read virtioDeviceFeatures features] ++
        setUp dev obj ++ [.read virtioStatus v] := by
  obtain ⟨x, f, g, f', g', y, hnegotiated⟩ := negotiated_eq dev
  obtain ⟨version, id, features, hqueued⟩ := queued_eq dev obj
  rw [hqueued, offered, hnegotiated]
  exact ⟨x, f, g, f', g', y, version, id, features, rfl⟩

/-- What the device answers, and the memory of the queue. -/
structure Compliant (mem : Memory) (obj : Virtio) (dev : Device) : Prop where
  quiet : ¬ has (status dev) virtioStatusDriverOk
  accepts : has (readBack dev) virtioStatusFeaturesOk
  notReady : queueReady dev = 0#32
  large : 12#32 ≤ queueNumMax dev
  zero : QueueZero mem obj

private theorem statusAccesses_setUp (obj : Virtio) (dev : Device) :
    statusAccesses (setUp dev obj) = [] := by
  unfold statusAccesses setUp addressWrites
  split
  · rfl
  · split
    · simp [Access.offset]
    · simp [Access.offset]

private theorem mem_queueReady (dev : Device) (v : BitVec 32) :
    .write virtioQueueReady 1#32 ∈ queued dev obj ++ [.read virtioStatus v] ↔
      queueReady dev = 0#32 ∧ queueNumMax dev ≠ 0#32 := by
  obtain ⟨x, f, g, f', g', y, version, id, features, hall⟩ := before_driverOk obj dev v
  rw [hall, setUp]
  by_cases hready : queueReady dev = 0#32
  · by_cases hmax : queueNumMax dev = 0#32
    · simp [hready, hmax]
    · simp [hready, hmax]
  · simp [hready]

private theorem features_iff (dev : Device) (v : BitVec 32) :
    FeaturesAccepted (queued dev obj ++ [.read virtioStatus v]) ↔
      has (readBack dev) virtioStatusFeaturesOk := by
  obtain ⟨x, f, g, f', g', y, version, id, features, hall⟩ := before_driverOk obj dev v
  have hstatus : statusAccesses (queued dev obj ++ [.read virtioStatus v]) =
      [.write virtioStatus 0#32, .write virtioStatus 1#32, .write virtioStatus 3#32,
        .read virtioStatus x, .read virtioStatus y, .read virtioStatus (status dev),
        .write virtioStatus (status dev ||| virtioStatusFeaturesOk),
        .read virtioStatus (readBack dev), .read virtioStatus v] := by
    have hsetUp := statusAccesses_setUp obj dev
    rw [statusAccesses] at hsetUp ⊢
    rw [hall, List.filter_append, List.filter_append, hsetUp]
    simp [Access.offset]
  rw [FeaturesAccepted, hstatus]
  constructor
  · rintro ⟨w, w', hw, hw', hinfix⟩
    have hthree : ¬ has 3#32 virtioStatusFeaturesOk := by decide
    simp [List.infix_cons_iff] at hinfix
    rcases hinfix with ⟨rfl, -⟩ | ⟨-, rfl⟩
    · exact absurd hw hthree
    · exact hw'
  · intro accepts
    exact ⟨status dev ||| virtioStatusFeaturesOk, readBack dev,
      has_or_right _ _ (by decide), accepts, by simp [List.infix_cons_iff]⟩

theorem prepared_iff (dev : Device) (v : BitVec 32) :
    Prepared mem obj (queued dev obj ++ [.read virtioStatus v]) ↔
      has (readBack dev) virtioStatusFeaturesOk ∧ queueReady dev = 0#32 ∧
        12#32 ≤ queueNumMax dev ∧ QueueZero mem obj := by
  obtain ⟨x, f, g, f', g', y, version, id, features, hall⟩ := before_driverOk obj dev v
  constructor
  · intro prepared
    obtain ⟨hready, hmax⟩ := (mem_queueReady dev v).mp prepared.ready
    refine ⟨(features_iff dev v).mp prepared.features, hready, ?_, prepared.zero⟩
    obtain ⟨max, num, hle, hqueue⟩ := prepared.queue
    have hmaxMem := hqueue.subset (a := .read virtioQueueNumMax max) (by simp)
    have hnumMem := hqueue.subset (a := .write virtioQueueNum num) (by simp)
    rw [hall, setUp] at hmaxMem hnumMem
    simp [hready, hmax, addressWrites] at hmaxMem hnumMem
    rwa [hmaxMem, hnumMem] at hle
  · rintro ⟨accepts, notReady, large, zero⟩
    have hmax : queueNumMax dev ≠ 0#32 := by
      intro hzero
      rw [hzero] at large
      exact absurd large (by decide)
    refine ⟨(features_iff dev v).mpr accepts, ⟨queueNumMax dev, 12#32, large, ?_⟩, ?_, zero,
      (mem_queueReady dev v).mpr ⟨notReady, hmax⟩⟩
    · rw [hall, setUp, notReady]
      simp [hmax, List.cons_sublist_cons']
    · rw [hall, setUp, notReady, if_neg (by simp), if_neg hmax]
      intro a ha
      simp [ha]

private theorem inOrder_negotiated (dev : Device) (v : BitVec 32) :
    InOrder mem obj (negotiated dev ++ [.read virtioStatus v]) := by
  obtain ⟨x, f, g, f', g', y, hnegotiated⟩ := negotiated_eq dev
  apply guarded_of_quiet
  intro v hv
  rw [hnegotiated] at hv
  simp at hv
  rcases hv with rfl | rfl | rfl <;> decide

private theorem inOrder_queued (dev : Device) (v : BitVec 32) :
    InOrder mem obj (queued dev obj ++ [.read virtioStatus v]) ↔ InOrder mem obj (offered dev) := by
  obtain ⟨version, id, features, hqueued⟩ := queued_eq dev obj
  rw [hqueued, List.append_assoc, List.append_assoc, InOrder, Run.guarded_append]
  refine and_iff_left (guarded_of_quiet ?_ _)
  intro w hw
  have hsetUp : .write virtioStatus w ∉ setUp dev obj := fun hmem => by
    have hstatus : .write virtioStatus w ∈ statusAccesses (setUp dev obj) :=
      List.mem_filter.mpr ⟨hmem, rfl⟩
    rw [statusAccesses_setUp] at hstatus
    exact List.not_mem_nil hstatus
  simp at hw hsetUp
  exact absurd hw hsetUp

theorem inOrder_accesses_iff (mem : Memory) (obj : Virtio) (dev : Device) :
    ∃ v, InOrder mem obj (accesses dev obj) ↔
      ¬ has (status dev) virtioStatusDriverOk ∧
        Prepared mem obj (queued dev obj ++ [.read virtioStatus v]) := by
  refine ⟨dev (queued dev obj) virtioStatus, ?_⟩
  have hlast (v : BitVec 32) : has (v ||| virtioStatusDriverOk) virtioStatusDriverOk :=
    has_or_right _ _ (by decide)
  rw [accesses_eq, List.append_cons, inOrder_append_status, inOrder_queued, offered,
    List.append_cons, inOrder_append_status, has_driverOk_or_featuresOk]
  simp only [inOrder_negotiated, hlast, forall_const, not_prepared_early, true_and, imp_false]

end

/-- DRIVER_OK is set in order exactly with a compliant device and zero queue memory. -/
theorem driver_ok_in_order_iff (mem : Memory) (obj : Virtio) (dev : Device) :
    InOrder mem obj (accesses dev obj) ↔ Compliant mem obj dev := by
  obtain ⟨v, hiff⟩ := inOrder_accesses_iff mem obj dev
  rw [hiff, prepared_iff]
  constructor
  · rintro ⟨quiet, accepts, notReady, large, zero⟩
    exact ⟨quiet, accepts, notReady, large, zero⟩
  · intro h
    exact ⟨h.quiet, h.accepts, h.notReady, h.large, h.zero⟩

def silent : Device := fun _ _ => 0#32

def queueAt : Virtio := ⟨0xC0001000, 0xC0002000, 0xC0003000⟩

theorem driver_ok_not_in_order_silent :
    ¬ InOrder (fun _ => 0#8) queueAt (accesses silent queueAt) := by
  obtain ⟨v, hiff⟩ := inOrder_accesses_iff (fun _ => 0#8) queueAt silent
  intro inOrder
  exact absurd ((prepared_iff silent v).mp (hiff.mp inOrder).2).1 (by decide)

end KernelFuzzing.VirtioBlk
