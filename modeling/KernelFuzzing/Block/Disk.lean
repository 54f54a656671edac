import KernelFuzzing.Block.Requests

/-! A sequence of `block_read` and `block_write` calls, one after the other, against a
device that executes each chain on a disk of 512-byte sectors. -/
namespace KernelFuzzing.Block.Disk
open Foundation Memory

/-- The driver's shared memory, the status bytes, the memory of the data buffers and the
bytes of the disk. -/
structure Machine where
  backend : Backend
  status : Word → Byte
  mem : Memory
  disk : Nat → Byte

def writable (d : VirtqDec) : Bool := d.flags &&& virtioDescFWrite != 0

def transfer (req : VirtioBlkReq) (data : VirtqDec) (mem : Memory) (disk : Nat → Byte) :
    Memory × (Nat → Byte) :=
  let start := req.sector.toNat * 512
  if req.type = virtioBlkTOut ∧ !writable data then
    (mem, fun x =>
      if start ≤ x ∧ x < start + data.len.toNat
      then mem (data.addr + BitVec.ofNat 64 (x - start)) else disk x)
  else if req.type = virtioBlkTIn ∧ writable data then
    (fill mem data.addr data.len.toNat fun k => disk (start + k), disk)
  else (mem, disk)

def execute (head : BitVec 16) (written : BitVec 32) (m : Machine) : Machine :=
  let desc1 := m.backend.desc head.toNat
  let desc2 := m.backend.desc desc1.next.toNat
  let desc3 := m.backend.desc desc2.next.toNat
  let (mem, disk) := transfer (m.backend.reqs desc1.addr) desc2 m.mem m.disk
  { backend := reportUsed (head.setWidth 32) written m.backend
    status := Function.update m.status desc3.addr 0
    mem := mem
    disk := disk }

/-- One call from its start to its return, the device executing the published chain once
it is notified. `none` is a call that does not return. -/
def call (published : Backend → Option (Nat × Backend)) (written : BitVec 32) (m : Machine) :
    Option (BitVec 32 × Machine) :=
  match published m.backend with
  | none => none
  | some (freeIndex, b) =>
      let lastSeenIdx := b.used.idx.setWidth 32
      let m := execute (b.avail.ring freeIndex) written { m with backend := b }
      if waits m.backend lastSeenIdx then none
      else
        let (len, b) := finish freeIndex m.backend
        some (len, { m with backend := b })

def Machine.Idle (m : Machine) : Prop := m.backend.data.usedRequestIndex 0 = 0

/-- The write returns and leaves the disk outside the range as it was, and the read that
follows returns and leaves in its buffer what the write's buffer held. -/
def RoundTrip (m : Machine) (w r : Request) (written read : BitVec 32) : Prop :=
  ∃ res m', call (blockWrite w) written m = some (res, m') ∧
    (∀ x, x < w.sector.toNat * 512 ∨ w.sector.toNat * 512 + w.size.toNat ≤ x →
      m'.disk x = m.disk x) ∧
    ∃ res' m'', call (blockRead r) read m' = some (res', m'') ∧
      ∀ k < r.size.toNat, m''.mem (kernalToUserSpace r.data + BitVec.ofNat 64 k) =
        m.mem (kernalToUserSpace w.data + BitVec.ofNat 64 k)

theorem idle_boot (m : Machine) :
    ({ m with backend := initVirtioBackend m.backend } : Machine).Idle :=
  rfl

private theorem publish_of_idle {m : Machine} (h : m.Idle) (type len : BitVec 32)
    (flags : BitVec 16) (r : Request) :
    ∃ b, publish type len flags r m.backend = some (0, b) ∧ b.avail.ring 0 = 0 ∧
      b.reqs (b.desc 0).addr = ⟨type, 0, r.sector.setWidth 64⟩ ∧ (b.desc 0).next = 1 ∧
      b.desc 1 = ⟨kernalToUserSpace r.data, len, flags, 2⟩ := by
  have hfree := findFreeIndex_of_some (BlockData.freeSlot_of_first h)
  rw [publish, hfree]
  exact ⟨_, rfl, rfl, Function.update_self .., rfl, rfl⟩

theorem transfer_write {req : VirtioBlkReq} {data : VirtqDec} (mem : Memory) (disk : Nat → Byte)
    (write : req.type = virtioBlkTOut) (hdata : writable data = false) :
    transfer req data mem disk = (mem, fun x =>
      if req.sector.toNat * 512 ≤ x ∧ x < req.sector.toNat * 512 + data.len.toNat
      then mem (data.addr + BitVec.ofNat 64 (x - req.sector.toNat * 512)) else disk x) := by
  rw [transfer, if_pos ⟨write, by simp [hdata]⟩]

theorem transfer_read {req : VirtioBlkReq} {data : VirtqDec} (mem : Memory) (disk : Nat → Byte)
    (read : req.type = virtioBlkTIn) (hdata : writable data = true) :
    transfer req data mem disk = (fill mem data.addr data.len.toNat fun k =>
      disk (req.sector.toNat * 512 + k), disk) := by
  rw [transfer, if_neg (by simp [hdata]), if_pos ⟨read, hdata⟩]

theorem call_of_idle {m : Machine} (h : m.Idle) (type len : BitVec 32) (flags : BitVec 16)
    (r : Request) (written : BitVec 32) :
    ∃ res m', call (publish type len flags r) written m = some (res, m') ∧ m'.Idle ∧
      (m'.mem, m'.disk) = transfer ⟨type, 0, r.sector.setWidth 64⟩
        ⟨kernalToUserSpace r.data, len, flags, 2⟩ m.mem m.disk := by
  obtain ⟨b, hb, hring, hreq, hnext, hdata⟩ := publish_of_idle h type len flags r
  have hwaits (m' : Machine) (hm : m'.backend = reportUsed 0 written b) :
      waits m'.backend (b.used.idx.setWidth 32) = false := by
    rw [hm]
    exact waits_eq_false.mpr (setWidth_add_one_ne _)
  have hnext' : (b.desc (b.desc 0).next.toNat) = b.desc 1 := by rw [hnext]; rfl
  have hexecute : ∃ m', execute 0 written { m with backend := b } = m' ∧
      m'.backend = reportUsed 0 written b ∧
      (m'.mem, m'.disk) = transfer ⟨type, 0, r.sector.setWidth 64⟩
        ⟨kernalToUserSpace r.data, len, flags, 2⟩ m.mem m.disk := by
    refine ⟨_, rfl, rfl, ?_⟩
    change transfer (b.reqs (b.desc 0).addr) (b.desc (b.desc 0).next.toNat) m.mem m.disk = _
    rw [hreq, hnext', hdata]
  obtain ⟨m', hm', hbackend, htransfer⟩ := hexecute
  refine ⟨(finish 0 m'.backend).1, { m' with backend := (finish 0 m'.backend).2 }, ?_,
    finish_usedRequestIndex 0 m'.backend, htransfer⟩
  simp only [call, hb, hring, hm', hwaits m' hbackend, Bool.false_eq_true, if_false]

section
variable {m : Machine}

private theorem toNat_sector (r : Request) : (r.sector.setWidth 64).toNat = r.sector.toNat := by
  rw [BitVec.toNat_setWidth]
  omega

theorem blockWrite_of_idle (h : m.Idle) (r : Request) (written : BitVec 32) :
    ∃ res m', call (blockWrite r) written m = some (res, m') ∧ m'.Idle ∧ m'.mem = m.mem ∧
      m'.disk = fun x =>
        if r.sector.toNat * 512 ≤ x ∧ x < r.sector.toNat * 512 + 512
        then m.mem (kernalToUserSpace r.data + BitVec.ofNat 64 (x - r.sector.toNat * 512))
        else m.disk x := by
  obtain ⟨res, m', hcall, idle, htransfer⟩ :=
    call_of_idle h virtioBlkTOut 512 virtioDescFNext r written
  have hdata : writable ⟨kernalToUserSpace r.data, 512, virtioDescFNext, 2⟩ = false :=
    (by decide : (virtioDescFNext &&& virtioDescFWrite != 0) = false)
  rw [transfer_write _ _ rfl hdata, toNat_sector, Prod.mk.injEq] at htransfer
  exact ⟨res, m', hcall, idle, htransfer⟩

theorem blockRead_of_idle (h : m.Idle) (r : Request) (written : BitVec 32) :
    ∃ res m', call (blockRead r) written m = some (res, m') ∧ m'.Idle ∧
      m'.mem = (fill m.mem (kernalToUserSpace r.data) (r.size.toNat % 2 ^ 32) fun k =>
        m.disk (r.sector.toNat * 512 + k)) ∧
      m'.disk = m.disk := by
  obtain ⟨res, m', hcall, idle, htransfer⟩ := call_of_idle h virtioBlkTIn
    (r.size.setWidth 32) (virtioDescFNext ||| virtioDescFWrite) r written
  have hdata : writable ⟨kernalToUserSpace r.data, r.size.setWidth 32,
    virtioDescFNext ||| virtioDescFWrite, 2⟩ = true :=
    (by decide : ((virtioDescFNext ||| virtioDescFWrite) &&& virtioDescFWrite != 0) = true)
  rw [transfer_read _ _ rfl hdata, toNat_sector, Prod.mk.injEq, BitVec.toNat_setWidth] at htransfer
  exact ⟨res, m', hcall, idle, htransfer⟩

end

section
variable {m : Machine} {w r : Request}

def readBack (m : Machine) (w r : Request) (k : Nat) : Byte :=
  if k < r.size.toNat % 2 ^ 32 then
    if k < 512 then m.mem (kernalToUserSpace w.data + BitVec.ofNat 64 k)
    else m.disk (w.sector.toNat * 512 + k)
  else m.mem (kernalToUserSpace r.data + BitVec.ofNat 64 k)

theorem roundTrip_iff (idle : m.Idle) (sector : r.sector = w.sector) (size : r.size = w.size)
    (large : 512 ≤ w.size.toNat) (written read : BitVec 32) :
    RoundTrip m w r written read ↔ ∀ k < w.size.toNat,
      readBack m w r k = m.mem (kernalToUserSpace w.data + BitVec.ofNat 64 k) := by
  obtain ⟨res, m', hwrite, idle', hmem, hdisk⟩ := blockWrite_of_idle idle w written
  obtain ⟨res', m'', hread, -, hmem', -⟩ := blockRead_of_idle idle' r read
  have outside (x : Nat) (hx : x < w.sector.toNat * 512 ∨
      w.sector.toNat * 512 + w.size.toNat ≤ x) : m'.disk x = m.disk x := by
    rw [hdisk]
    exact if_neg (by omega)
  have back (k : Nat) (hk : k < w.size.toNat) :
      m''.mem (kernalToUserSpace r.data + BitVec.ofNat 64 k) = readBack m w r k := by
    rw [hmem', readBack]
    by_cases hread : k < r.size.toNat % 2 ^ 32
    · rw [fill_of_lt _ _ _ hread (by omega), if_pos hread, sector, hdisk]
      dsimp only
      by_cases hfirst : k < 512
      · rw [if_pos hfirst, if_pos (by omega), Nat.add_sub_cancel_left]
      · rw [if_neg hfirst, if_neg (by omega)]
    · rw [fill_of_le _ _ _ (by omega) (by omega), if_neg hread, hmem]
  constructor
  · rintro ⟨_, _, hcall, -, _, _, hcall', hbytes⟩ k hk
    rw [hwrite, Option.some.injEq, Prod.mk.injEq] at hcall
    rw [← hcall.2, hread, Option.some.injEq, Prod.mk.injEq] at hcall'
    rw [← back k hk, hcall'.2]
    exact hbytes k (size ▸ hk)
  · intro hbytes
    refine ⟨res, m', hwrite, outside, res', m'', hread, fun k hk => ?_⟩
    rw [size] at hk
    rw [back k hk, hbytes k hk]

private theorem readBack_disk {k : Nat} (v : Byte) (hk : k < r.size.toNat % 2 ^ 32)
    (far : 512 ≤ k) : readBack { m with disk := fun _ => v } w r k = v := by
  rw [readBack, if_pos hk, if_neg (Nat.not_lt.mpr far)]

/-- Whatever the disk held, the read gives back what was written exactly if the size is
at most 512 in its low 32 bits, and the rest of the buffer held it before. -/
theorem write_read_identity_iff (idle : m.Idle) (sector : r.sector = w.sector)
    (size : r.size = w.size) (sectors : 512 ∣ w.size.toNat) (nonzero : w.size ≠ 0)
    (written read : BitVec 32) :
    (∀ disk, RoundTrip { m with disk := disk } w r written read) ↔
      w.size.toNat % 2 ^ 32 ≤ 512 ∧ ∀ k, w.size.toNat % 2 ^ 32 ≤ k → k < w.size.toNat →
        m.mem (kernalToUserSpace r.data + BitVec.ofNat 64 k) =
          m.mem (kernalToUserSpace w.data + BitVec.ofNat 64 k) := by
  have large : 512 ≤ w.size.toNat := by
    obtain ⟨n, hn⟩ := sectors
    have hpos : w.size.toNat ≠ 0 := fun h => nonzero (BitVec.eq_of_toNat_eq h)
    omega
  have iff (disk : Nat → Byte) := roundTrip_iff (m := { m with disk := disk }) idle sector size
    large written read
  simp only [iff]
  constructor
  · intro h
    refine ⟨?_, fun k hk hlt => ?_⟩
    · by_contra hmany
      have hin : 512 < w.size.toNat := Nat.lt_of_lt_of_le (Nat.not_le.mp hmany) (Nat.mod_le _ _)
      -- a byte behind the first sector comes from the disk, whose byte is chosen to differ
      let v := m.mem (kernalToUserSpace w.data + BitVec.ofNat 64 512) + 1
      have hback := h (fun _ => v) 512 hin
      rw [readBack_disk v (by rw [size]; omega) (Nat.le_refl _)] at hback
      exact absurd hback (by simp [v])
    · have hback := h m.disk k hlt
      rwa [readBack, if_neg (by rw [size]; omega)] at hback
  · rintro ⟨hsmall, hrest⟩ disk k hk
    rw [readBack, size]
    by_cases hread : k < w.size.toNat % 2 ^ 32
    · rw [if_pos hread, if_pos (by omega)]
    · rw [if_neg hread]
      exact hrest k (Nat.le_of_not_lt hread) hk

end

def onesDisk : Machine := ⟨zeroBackend, fun _ => 0, fun _ => 0, fun _ => 1⟩

theorem idle_onesDisk : onesDisk.Idle := rfl

def writeOf (size : Word) : Request := { oneSector with size := size }

def readOf (size : Word) : Request := { oneSector with data := 0xFFFF0000C0040000, size := size }

theorem write_read_not_identity_two_sectors :
    ¬ RoundTrip onesDisk (writeOf 1024) (readOf 1024) 1 1025 := by
  have iff := roundTrip_iff (w := writeOf 1024) (r := readOf 1024) idle_onesDisk rfl rfl
    (by decide) 1 1025
  intro trip
  have hback := iff.mp trip 512 (by decide)
  rw [readBack, if_pos (by decide), if_neg (by decide)] at hback
  exact absurd hback (by decide)

theorem write_read_identity_one_sector : RoundTrip onesDisk (writeOf 512) (readOf 512) 1 513 := by
  have iff := write_read_identity_iff (w := writeOf 512) (r := readOf 512) idle_onesDisk rfl rfl
    (by decide) (by decide) 1 513
  have rest (k : Nat) (hk : (writeOf 512).size.toNat % 2 ^ 32 ≤ k)
      (hlt : k < (writeOf 512).size.toNat) : onesDisk.mem (kernalToUserSpace (readOf 512).data +
        BitVec.ofNat 64 k) = onesDisk.mem (kernalToUserSpace (writeOf 512).data +
        BitVec.ofNat 64 k) := rfl
  exact iff.mpr ⟨by decide, rest⟩ onesDisk.disk

end KernelFuzzing.Block.Disk
