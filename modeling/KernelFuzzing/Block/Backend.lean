import Mathlib.Data.List.Basic
import Mathlib.Logic.Function.Basic
import KernelFuzzing.Foundation.Memory

/-! The block driver of drivers/block/block_driver.c and the virtqueue it shares with
the device. An array is a function of the index: elements past its end are what lies
behind it in the page it was allocated with. -/
namespace KernelFuzzing.Block
open Foundation

structure VirtioBlkReq where
  type : BitVec 32
  reserved : BitVec 32
  sector : Word

structure VirtqDec where
  addr : Word
  len : BitVec 32
  flags : BitVec 16
  next : BitVec 16

/-- `ring[12]` is the field `used_event`. -/
structure VirtqAvail where
  flags : BitVec 16
  idx : BitVec 16
  ring : Nat → BitVec 16

structure VirtqUsedElem where
  id : BitVec 32
  len : BitVec 32

structure VirtqUsed where
  flags : BitVec 16
  idx : BitVec 16
  ring : Nat → VirtqUsedElem

structure BlockData where
  globalCount : BitVec 8
  usedRequestIndex : Nat → BitVec 8

/-- What driver and device share: `GlobalBlockData`, the request headers by physical
address, the descriptor table and the two rings. -/
structure Backend where
  data : BlockData
  reqs : Word → VirtioBlkReq
  desc : Nat → VirtqDec
  avail : VirtqAvail
  used : VirtqUsed

/-- The arguments of `block_read` and `block_write`, and where `kmalloc` put the
request header and the status byte. -/
structure Request where
  sector : BitVec 32
  data : Word
  size : Word
  req : Word
  status : Word

def virtioBlkTIn : BitVec 32 := 0
def virtioBlkTOut : BitVec 32 := 1
def virtioDescFNext : BitVec 16 := 1
def virtioDescFWrite : BitVec 16 := 2

def kernalToUserSpace (virtualKernelAddress : Word) : Word :=
  virtualKernelAddress &&& 0x0000FFFFFFFFFFFF#64

/-- The part of `init_virtio_backend` that clears `GlobalBlockData`. -/
def initVirtioBackend (b : Backend) : Backend :=
  { b with
    data.globalCount := 0
    data.usedRequestIndex := fun i => if i < 12 then 0 else b.data.usedRequestIndex i }

/-- `none` is the result -1. -/
def findFreeIndex (d : BlockData) : Option Nat × BlockData :=
  match (List.range 12).find? fun i => d.usedRequestIndex i == 0 with
  | none => (none, d)
  | some i =>
      (some (i * 3),
        { globalCount := d.globalCount + 1
          usedRequestIndex := Function.update d.usedRequestIndex i 1 })

/-- The request header and, with a free index, the locked section up to the increment of
`avail.idx`. Without one, the section retries: `none`. -/
def publish (type : BitVec 32) (len : BitVec 32) (flags : BitVec 16) (r : Request)
    (b : Backend) : Option (Nat × Backend) :=
  match findFreeIndex b.data with
  | (none, _) => none
  | (some i, data) =>
      let desc1 : VirtqDec :=
        ⟨kernalToUserSpace r.req, 16, virtioDescFNext, BitVec.ofNat 16 i + 1⟩
      let desc2 : VirtqDec := ⟨kernalToUserSpace r.data, len, flags, BitVec.ofNat 16 i + 2⟩
      -- `next` of the third descriptor is left as it was
      let desc3 : VirtqDec :=
        ⟨kernalToUserSpace r.status, 1, virtioDescFWrite, (b.desc (i + 2)).next⟩
      some (i,
        { data := data
          reqs := Function.update b.reqs (kernalToUserSpace r.req) ⟨type, 0, r.sector.setWidth 64⟩
          desc := Function.update (Function.update (Function.update b.desc i desc1)
            (i + 1) desc2) (i + 2) desc3
          avail :=
            { flags := 1
              ring := Function.update b.avail.ring i (BitVec.ofNat 16 i)
              idx := b.avail.idx + 1 }
          used := b.used })

def blockRead (r : Request) (b : Backend) : Option (Nat × Backend) :=
  publish virtioBlkTIn (r.size.setWidth 32) (virtioDescFNext ||| virtioDescFWrite) r b

def blockWrite (r : Request) (b : Backend) : Option (Nat × Backend) :=
  publish virtioBlkTOut 512 virtioDescFNext r b

/-- The condition on which the wait loop goes round again. -/
def waits (b : Backend) (lastSeenIdx : BitVec 32) : Bool :=
  b.used.idx.setWidth 32 == lastSeenIdx

def finish (freeIndex : Nat) (b : Backend) : BitVec 32 × Backend :=
  ((b.used.ring freeIndex).len,
    { b with
      data.usedRequestIndex := Function.update b.data.usedRequestIndex freeIndex 0 })

def reportUsed (id len : BitVec 32) (b : Backend) : Backend :=
  { b with
    used.ring := Function.update b.used.ring (b.used.idx.toNat % 12) ⟨id, len⟩
    used.idx := b.used.idx + 1 }

@[simp] theorem finish_usedRequestIndex (i : Nat) (b : Backend) :
    (finish i b).2.data.usedRequestIndex i = 0 := Function.update_self ..

theorem waits_eq_false {b : Backend} {lastSeenIdx : BitVec 32} :
    waits b lastSeenIdx = false ↔ b.used.idx.setWidth 32 ≠ lastSeenIdx := by
  simp [waits]

theorem setWidth_add_one_ne (idx : BitVec 16) : (idx + 1).setWidth 32 ≠ idx.setWidth 32 := by
  intro h
  have hnat := congrArg BitVec.toNat h
  have hone : (1 : BitVec 16).toNat = 1 := rfl
  rw [BitVec.toNat_setWidth, BitVec.toNat_setWidth, BitVec.toNat_add, hone] at hnat
  omega

def BlockData.freeSlot (d : BlockData) : Option Nat :=
  (List.range 12).find? fun i => d.usedRequestIndex i == 0

theorem BlockData.freeSlot_eq_some {d : BlockData} (h : d.freeSlot = some i) :
    i < 12 ∧ d.usedRequestIndex i = 0 := by
  have hmem := List.mem_of_find?_eq_some h
  have hfree := List.find?_some h
  exact ⟨List.mem_range.mp hmem, by simpa using hfree⟩

theorem BlockData.freeSlot_of_first {d : BlockData} (h : d.usedRequestIndex 0 = 0) :
    d.freeSlot = some 0 := by
  have hrange : List.range 12 = 0 :: List.range' 1 11 := rfl
  rw [freeSlot, hrange, List.find?_cons_of_pos]
  simp [h]

theorem BlockData.freeSlot_eq_none {d : BlockData} :
    d.freeSlot = none ↔ ∀ i < 12, d.usedRequestIndex i ≠ 0 := by
  simp [freeSlot]

theorem findFreeIndex_of_none {d : BlockData} (h : d.freeSlot = none) :
    findFreeIndex d = (none, d) := by
  unfold BlockData.freeSlot at h
  rw [findFreeIndex, h]

theorem findFreeIndex_of_some {d : BlockData} (h : d.freeSlot = some i) :
    findFreeIndex d = (some (i * 3),
      ⟨d.globalCount + 1, Function.update d.usedRequestIndex i 1⟩) := by
  unfold BlockData.freeSlot at h
  rw [findFreeIndex, h]

theorem findFreeIndex_eq_none {d : BlockData} :
    (findFreeIndex d).1 = none ↔ d.freeSlot = none := by
  cases h : d.freeSlot with
  | none => simp [findFreeIndex_of_none h]
  | some i => simp [findFreeIndex_of_some h]

/-- What a request that got slot `i` leaves in the shared memory. -/
structure Published (i : Nat) (b b' : Backend) : Prop where
  data : b'.data = ⟨b.data.globalCount + 1, Function.update b.data.usedRequestIndex i 1⟩
  ring : b'.avail.ring = Function.update b.avail.ring (i * 3) (BitVec.ofNat 16 (i * 3))
  idx : b'.avail.idx = b.avail.idx + 1
  used : b'.used = b.used

theorem publish_of_none {b : Backend} (h : b.data.freeSlot = none) :
    publish type len flags r b = none := by
  rw [publish, findFreeIndex_of_none h]

theorem publish_of_some (type len : BitVec 32) (flags : BitVec 16) (r : Request) {b : Backend}
    (h : b.data.freeSlot = some i) :
    ∃ b', publish type len flags r b = some (i * 3, b') ∧ Published i b b' := by
  rw [publish, findFreeIndex_of_some h]
  exact ⟨_, rfl, ⟨rfl, rfl, rfl, rfl⟩⟩

end KernelFuzzing.Block
