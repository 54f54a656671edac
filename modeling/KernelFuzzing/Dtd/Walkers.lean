import Mathlib.Logic.Function.Basic
import KernelFuzzing.Foundation.DeviceTree

/-! The two walks through the device tree of core/dtd.c. -/
namespace KernelFuzzing.Dtd
open Foundation Memory Reading

def dtbBase : BitVec 32 := 0x40000000#32
def virtDtbBase : Word := 0xFFFF000085400000#64

def tokenBeginNode : BitVec 32 := 0x1
def tokenEndNode : BitVec 32 := 0x2
def tokenProp : BitVec 32 := 0x3
def tokenNop : BitVec 32 := 0x4
def tokenEnd : BitVec 32 := 0x9

def chr (c : Char) : Byte := BitVec.ofNat 8 c.toNat

def ascii (cs : List Char) : List Byte := cs.map chr

def cells (hi lo : BitVec 32) : Word := (hi.setWidth 64 <<< 32) ||| lo.setWidth 64

def readB32 (p : Word) : Reading (BitVec 32) := do
  let p0 ← read p
  let p1 ← read (p + 1)
  let p2 ← read (p + 2)
  let p3 ← read (p + 3)
  return (p0.setWidth 32 <<< 24) ||| (p1.setWidth 32 <<< 16) ||| (p2.setWidth 32 <<< 8) |||
    (p3.setWidth 32 <<< 0)

/-- A field of the header, loaded little-endian as the processor does. -/
def loadField (a : Word) : Reading (BitVec 32) := do
  let b0 ← read a
  let b1 ← read (a + 1)
  let b2 ← read (a + 2)
  let b3 ← read (a + 3)
  return (b3 ++ b2 ++ b1 ++ b0).cast four_bytes

/-- `__builtin_bswap32` -/
def bswap32 (x : BitVec 32) : BitVec 32 :=
  (x.extractLsb' 0 8 ++ x.extractLsb' 8 8 ++ x.extractLsb' 16 8 ++ x.extractLsb' 24 8).cast
    four_bytes

/-- `while (*p != '\0') p++` -/
def skipName (p : Word) : Reading Word := scan (fun p => do return (← read p) != 0) p

/-- `if (*p == '\0') p++` -/
def skipZero (p : Word) : Reading Word := do
  if (← read p) = 0 then return p + 1 else return p

/-- `while ((uint64_t)p & 3) p++` -/
def align (p : Word) : Reading Word := scan (fun p => return p &&& 3 != 0) p

/-- What `uart_printf` reads for `%s`. -/
def uartPuts (s : Word) : Reading Unit := do
  let _ ← skipName s

def putsWhen (c : Bool) (s : Word) : Reading Unit := if c then uartPuts s else pure ()

/-- `s[0] == a && s[1] == b && s[2] == c` -/
def startsWith (s : Word) (a b c : Byte) : Reading Bool := do
  if (← read s) = a then
    if (← read (s + 1)) = b then return (← read (s + 2)) == c else return false
  else return false

/-- `c && x`, which reads nothing when `c` is false. -/
def both (c : Bool) (x : Reading Bool) : Reading Bool := if c then x else pure false

/-- `string[0] == 'r' && string[2] == 'g'` -/
def isReg (string : Word) : Reading Bool := do
  if (← read string) = chr 'r' then return (← read (string + 2)) == chr 'g' else return false

structure RamState where
  p : Word
  insideMemoryNode : Bool

def isMemoryNode (name : Word) : Reading Bool := do
  if (← read name) = 0 then return false
  else if (← read name) = chr 'm' then
    if (← read (name + 1)) = chr 'e' then return (← read (name + 5)) == chr 'y' else return false
  else return false

/-- The `for` loop over the entries of `reg`. -/
def sumSizes : Nat → Word → Word → Reading Word
  | 0, _, total => return total
  | n + 1, p, total => do
    let _ ← readB32 p
    let _ ← readB32 (p + 4)
    let size2 ← readB32 (p + 8)
    let size1 ← readB32 (p + 12)
    sumSizes n (p + 16) (total + cells size2 size1)

/-- The `TOKEN_PROP` case, with `p` behind the token. -/
def getTotalRam.prop (dtStrings p : Word) (inside : Bool) : Reading (RamState ⊕ Word) := do
  let len ← readB32 p
  let stringOffset ← readB32 (p + 4)
  let string := dtStrings + stringOffset.setWidth 64
  let reg ← both inside (isReg string)
  if reg then
    if len = 0 then return .inr 0
    else do
      let total ← sumSizes (len / 16).toNat (p + 8) 0
      return .inr total
  else do
    let p ← align (p + 8 + len.setWidth 64)
    return .inl ⟨p, inside⟩

def getTotalRam.body (dtStrings : Word) (s : RamState) : Reading (RamState ⊕ Word) := do
  let token ← readB32 s.p
  let p := s.p + 4
  -- declared inside of the loop, so a later round starts from zero again
  let total : Word := 0
  if token = tokenBeginNode then do
    let inside ← isMemoryNode p
    let p ← skipName p
    let p ← align (p + 1)
    return .inl ⟨p, inside⟩
  else if token = tokenProp then getTotalRam.prop dtStrings p s.insideMemoryNode
  else if token = tokenEndNode then return .inl ⟨p, false⟩
  else if token = tokenNop then return .inl ⟨p, s.insideMemoryNode⟩
  -- `TOKEN_END` and the default
  else return .inr total

def getTotalRam : Reading Word := do
  let offDtStruct ← loadField (dtbBase.setWidth 64 + 8)
  let offDtString ← loadField (dtbBase.setWidth 64 + 12)
  -- an `int` and a `uint32_t` are added in 32 bits
  let dtStruct := (dtbBase + bswap32 offDtStruct).setWidth 64
  let dtStrings := (dtbBase + bswap32 offDtString).setWidth 64
  loop (getTotalRam.body dtStrings) ⟨dtStruct, false⟩

structure DriveState where
  p : Word
  insideVirtio : Bool
  result : Nat → Word

def isVirtioNode (name : Word) : Reading Bool := do
  if (← read name) = 0 then return false else startsWith name (chr 'v') (chr 'i') (chr 'r')

/-- `result[0]` and `result[1]`. -/
def storeReg (result : Nat → Word) (add size : Word) : Nat → Word :=
  Function.update (Function.update result 0 add) 1 size

/-- `result[2]` to `result[4]`. -/
def storeInterrupt (result : Nat → Word) (type num edge : Word) : Nat → Word :=
  Function.update (Function.update (Function.update result 2 type) 3 num) 4 edge

/-- The branch of `reg`, with `p` at the value. -/
def getDriveInfo.reg (s : DriveState) (string p : Word) (len : BitVec 32) :
    Reading (DriveState ⊕ (Nat → Word)) := do
  uartPuts string
  -- the `break` skips the alignment
  if len = 0 then return .inl { s with p := p }
  else do
    let add2 ← readB32 p
    let add1 ← readB32 (p + 4)
    let size2 ← readB32 (p + 8)
    let size1 ← readB32 (p + 12)
    return .inr (storeReg s.result (cells add2 add1) (cells size2 size1))

/-- The branch of `interrupts`, with `p` at the value. -/
def getDriveInfo.interrupts (s : DriveState) (string p : Word) (len : BitVec 32) :
    Reading (DriveState ⊕ (Nat → Word)) := do
  if len = 0 then return .inl { s with p := p }
  else do
    uartPuts string
    let num1 ← readB32 (p + 4)
    let type1 ← readB32 p
    let edge1 ← readB32 (p + 8)
    let result := storeInterrupt s.result (cells 0 type1) (cells 0 num1) (cells 0 edge1)
    let p ← align (p + len.setWidth 64)
    return .inl { s with p := p, result := result }

/-- The `TOKEN_PROP` case, with `p` behind the token. -/
def getDriveInfo.prop (dtStrings p : Word) (s : DriveState) :
    Reading (DriveState ⊕ (Nat → Word)) := do
  let len ← readB32 p
  let stringOffset ← readB32 (p + 4)
  let string := dtStrings + stringOffset.setWidth 64
  let compatible ← both s.insideVirtio (startsWith string (chr 'c') (chr 'o') (chr 'm'))
  putsWhen compatible (p + 8)
  uartPuts string
  let reg ← both s.insideVirtio (isReg string)
  if reg then getDriveInfo.reg s string (p + 8) len
  else do
    let interrupts ← both s.insideVirtio (startsWith string (chr 'i') (chr 'n') (chr 't'))
    if interrupts then getDriveInfo.interrupts s string (p + 8) len
    else do
      let p ← align (p + 8 + len.setWidth 64)
      return .inl { s with p := p }

def getDriveInfo.body (dtStrings : Word) (s : DriveState) :
    Reading (DriveState ⊕ (Nat → Word)) := do
  let token ← readB32 s.p
  let p := s.p + 4
  if token = tokenBeginNode then do
    uartPuts p
    let inside ← isVirtioNode p
    let p ← skipName p
    let p ← skipZero p
    let p ← align p
    return .inl { s with p := p, insideVirtio := inside }
  else if token = tokenProp then getDriveInfo.prop dtStrings p s
  else if token = tokenEndNode then return .inl { s with p := p, insideVirtio := false }
  else if token = tokenNop then return .inl { s with p := p }
  else if token = tokenEnd then return .inr s.result
  -- the default skips a word more and goes on
  else return .inl { s with p := p + 4 }

/-- The array `result` after the call, from what it held before. -/
def getDriveInfo (result : Nat → Word) : Reading (Nat → Word) := do
  let offDtStruct ← loadField (virtDtbBase + 8)
  let offDtString ← loadField (virtDtbBase + 12)
  let dtStruct := virtDtbBase + (bswap32 offDtStruct).setWidth 64
  let dtStrings := virtDtbBase + (bswap32 offDtString).setWidth 64
  loop (getDriveInfo.body dtStrings) ⟨dtStruct, false, result⟩

section
variable {m : Memory} {S : Set Word} {p : Word}

theorem shifts_eq_append (p0 p1 p2 p3 : Byte) :
    (p0.setWidth 32 <<< 24) ||| (p1.setWidth 32 <<< 16) ||| (p2.setWidth 32 <<< 8) |||
      (p3.setWidth 32 <<< 0) = (p0 ++ p1 ++ p2 ++ p3).cast rfl := by
  ext i hi
  simp
  grind

theorem gives_readB32 (h : Spans S p 4) : Gives m S (readB32 p) (loadBe32 m p) := by
  have h0 := h 0 (by omega)
  rw [BitVec.add_zero] at h0
  rw [loadBe32, ← shifts_eq_append]
  exact .bind (.read h0) (.bind (.read (h 1 (by omega))) (.bind (.read (h 2 (by omega)))
    (.bind (.read (h 3 (by omega))) (.pure _))))

theorem bswap32_append (b0 b1 b2 b3 : Byte) :
    bswap32 ((b0 ++ b1 ++ b2 ++ b3).cast rfl) = (b3 ++ b2 ++ b1 ++ b0).cast rfl := by
  ext i hi
  simp [bswap32]
  grind

theorem gives_loadField (h : Spans S p 4) :
    Gives m S (loadField p) (bswap32 (loadBe32 m p)) := by
  have h0 := h 0 (by omega)
  rw [BitVec.add_zero] at h0
  rw [loadBe32, bswap32_append]
  exact .bind (.read h0) (.bind (.read (h 1 (by omega))) (.bind (.read (h 2 (by omega)))
    (.bind (.read (h 3 (by omega))) (.pure _))))

theorem bswap32_bswap32_load : bswap32 (bswap32 (loadBe32 m p)) = loadBe32 m p := by
  rw [loadBe32, bswap32_append, bswap32_append]

def beginsWith (m : Memory) (s : Word) (a b c : Byte) : Bool :=
  m s == a && m (s + 1) == b && m (s + 2) == c

def looksReg (m : Memory) (string : Word) : Bool :=
  m string == chr 'r' && m (string + 2) == chr 'g'

def looksVirtio (m : Memory) (name : Word) : Bool :=
  beginsWith m name (chr 'v') (chr 'i') (chr 'r')

def looksInterrupts (m : Memory) (string : Word) : Bool :=
  beginsWith m string (chr 'i') (chr 'n') (chr 't')

def looksMemory (m : Memory) (name : Word) : Bool :=
  m name == chr 'm' && m (name + 1) == chr 'e' && m (name + 5) == chr 'y'

theorem gives_skipName {n : Nat} (hname : ∀ i < n, m (p + BitVec.ofNat 64 i) ≠ 0)
    (hend : m (p + BitVec.ofNat 64 n) = 0) (h : Spans S p (n + 1)) :
    Gives m S (skipName p) (p + BitVec.ofNat 64 n) := by
  have hread (i : Nat) (hi : i < n + 1) : Gives m S
      (do return (← read (p + BitVec.ofNat 64 i)) != 0) (m (p + BitVec.ofNat 64 i) != 0) :=
    .bind (.read (h i hi)) (.pure _)
  apply Gives.scan
  · intro i hi
    rw [← bne_iff_ne.mpr (hname i hi)]
    exact hread i (by omega)
  · have hlast := hread n (by omega)
    rwa [hend] at hlast

theorem gives_uartPuts (h : Terminated m S p) : Gives m S (uartPuts p) () := by
  classical
  obtain ⟨n, hzero, hspans⟩ := h
  have hfirst : ∃ n, m (p + BitVec.ofNat 64 n) = 0 := ⟨n, hzero⟩
  refine .bind (gives_skipName (fun i hi => Nat.find_min hfirst hi) (Nat.find_spec hfirst) ?_)
    (.pure _)
  exact hspans.mono (Nat.succ_le_succ (Nat.find_min' hfirst hzero))

theorem gives_startsWith {a b c : Byte} (h : Terminated m S p) (ha : a ≠ 0) (hb : b ≠ 0) :
    Gives m S (startsWith p a b c) (beginsWith m p a b c) := by
  refine .bind (.read h.mem) (.ite (fun h0 => ?_) fun h0 => ?_)
  · have htail := h.tail (h0 ▸ ha)
    refine .bind (.read htail.mem) (.ite (fun h1 => ?_) fun h1 => ?_)
    · have hmem := (htail.tail (h1 ▸ hb)).mem
      rw [BitVec.add_assoc] at hmem
      rw [show beginsWith m p a b c = (m (p + 2) == c) by
        simp only [beginsWith, h0, h1, beq_self_eq_true, Bool.true_and]]
      exact .bind (.read hmem) (.pure _)
    · rw [show beginsWith m p a b c = false by
        simp only [beginsWith, beq_false_of_ne h1, Bool.and_false, Bool.false_and]]
      exact .pure _
  · rw [show beginsWith m p a b c = false by simp [beginsWith, h0]]
    exact .pure _

theorem gives_both {c b : Bool} {x : Reading Bool} (h : c → Gives m S x b) :
    Gives m S (both c x) (c && b) := by
  cases c with
  | false => exact .pure _
  | true => exact h rfl

theorem gives_isReg (h : p ∈ S) (hnext : m p = chr 'r' → p + 2 ∈ S) :
    Gives m S (isReg p) (looksReg m p) := by
  refine .bind (.read h) (.ite (fun h0 => ?_) fun h0 => ?_)
  · rw [show looksReg m p = (m (p + 2) == chr 'g') by simp [looksReg, h0]]
    exact .bind (.read (hnext h0)) (.pure _)
  · rw [show looksReg m p = false by simp [looksReg, h0]]
    exact .pure _

theorem gives_isVirtioNode (h : Terminated m S p) :
    Gives m S (isVirtioNode p) (looksVirtio m p) := by
  refine .bind (.read h.mem) (.ite (fun hnone => ?_) fun _ => ?_)
  · rw [show looksVirtio m p = false by simp [looksVirtio, beginsWith, hnone, chr]]
    exact .pure _
  · exact gives_startsWith h (by decide) (by decide)

theorem gives_isMemoryNode (h : Spans S p 6) :
    Gives m S (isMemoryNode p) (looksMemory m p) := by
  have hread := h 0 (by omega)
  rw [BitVec.add_zero] at hread
  refine .bind (.read hread) (.ite (fun hnone => ?_) fun _ => ?_)
  · rw [show looksMemory m p = false by simp [looksMemory, hnone, chr]]
    exact .pure _
  refine .bind (.read hread) (.ite (fun h0 => ?_) fun h0 => ?_)
  · refine .bind (.read (h 1 (by omega))) (.ite (fun h1 => ?_) fun h1 => ?_)
    · rw [show looksMemory m p = (m (p + 5) == chr 'y') by
        simp only [looksMemory, h0, show m (p + 1) = chr 'e' from h1, beq_self_eq_true,
          Bool.true_and]]
      exact .bind (.read (h 5 (by omega))) (.pure _)
    · rw [show looksMemory m p = false by
        simp only [looksMemory, beq_false_of_ne (show m (p + 1) ≠ chr 'e' from h1),
          Bool.and_false, Bool.false_and]]
      exact .pure _
  · rw [show looksMemory m p = false by simp [looksMemory, h0]]
    exact .pure _

theorem and_three_ne (x : Word) : (x &&& 3 != 0) = decide (x.toNat % 4 ≠ 0) := by
  have hmod := Nat.and_two_pow_sub_one_eq_mod x.toNat 2
  rw [Bool.eq_iff_iff]
  simp only [bne_iff_ne, ne_eq, BitVec.toNat_eq, decide_eq_true_eq, BitVec.toNat_and]
  exact not_congr (by rw [← hmod]; rfl)

theorem gives_align (hp : p.toNat % 4 = 0) (n : Nat) :
    Gives m S (align (p + BitVec.ofNat 64 n)) (p + BitVec.ofNat 64 (n + DeviceTree.pad n)) := by
  have hspec := DeviceTree.pad_spec n
  have hmod (i : Nat) : (p + BitVec.ofNat 64 n + BitVec.ofNat 64 i).toNat % 4 = (n + i) % 4 := by
    simp only [BitVec.toNat_add, BitVec.toNat_ofNat]
    omega
  have hmore (i : Nat) : Gives m S
      (pure ((p + BitVec.ofNat 64 n + BitVec.ofNat 64 i) &&& 3 != 0) : Reading Bool)
      (decide ((n + i) % 4 ≠ 0)) := by
    rw [and_three_ne, hmod]
    exact .pure _
  rw [← add_ofNat_add]
  apply Gives.scan
  · intro i hi
    have hgo : (n + i) % 4 ≠ 0 := by
      unfold DeviceTree.pad at hi
      omega
    simpa [hgo] using hmore i
  · simpa [hspec.2] using hmore (DeviceTree.pad n)

end

end KernelFuzzing.Dtd
