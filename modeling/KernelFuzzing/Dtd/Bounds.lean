import KernelFuzzing.Dtd.Blob

/-! What the walks read of a blob. -/
namespace KernelFuzzing.Dtd
open Foundation Memory Reading DeviceTree

variable {m : Memory} {ts : List Token}

/-- A blob below 4 GiB for `get_total_ram`, which adds offsets in 32 bits. -/
structure RamBlob (m : Memory) (ts : List Token) : Prop extends Blob m ramBase ts where
  low : dtbBase.toNat + totalsize m ramBase < 2 ^ 32
  readable : ∀ o ∈ occurrences none (dtStruct m ramBase) ts, looksMemory m o.nodeAt →
    m (string (dtStrings m ramBase) o.property) = chr 'r' →
      string (dtStrings m ramBase) o.property + 2 ∈ extent m ramBase

/-- A blob for `get_drive_info`. -/
structure DriveBlob (m : Memory) (ts : List Token) : Prop extends Blob m virtDtbBase ts where
  readable : ∀ o ∈ occurrences none (dtStruct m virtDtbBase) ts, looksVirtio m o.nodeAt →
    Property.Readable m (extent m virtDtbBase) (dtStrings m virtDtbBase) o.value o.property

/-- Both walks read inside of their blob only, and return. -/
theorem walks_bounded {m' : Memory} {ts' : List Token} (ram : RamBlob m ts)
    (drive : DriveBlob m' ts') (result : Nat → Word) :
    (∃ total, Gives m (extent m ramBase) getTotalRam total) ∧
      ∃ result', Gives m' (extent m' virtDtbBase) (getDriveInfo result) result' := by
  constructor
  · obtain ⟨ss, hrounds, -⟩ := rounds_getTotalRam (dtStrings m ramBase)
      (s := ⟨dtStruct m ramBase, false⟩) ⟨ram.block, ram.named, none, rfl, ram.readable⟩
    have hlow := ram.low
    have hinside := ram.inside
    have hstrings := ram.strings
    exact ⟨_, gives_getTotalRam ram.spans_header (by omega) (by omega) hrounds.gives⟩
  · obtain ⟨ss, hrounds, -⟩ := rounds_getDriveInfo (dtStrings m' virtDtbBase)
      (s := ⟨dtStruct m' virtDtbBase, false, result⟩)
      ⟨drive.block, drive.named, none, rfl, drive.readable⟩
    exact ⟨_, gives_getDriveInfo drive.spans_header hrounds.gives⟩

/-- A word of no meaning, and a virtio node outside of any other with a `reg` of four bytes. -/
def looseTokens : List Token :=
  [.unknown ⟨7, by decide⟩ 0, .endNode, .beginNode ⟨ascii ['v', 'i', 'r'], by decide⟩,
    .prop ⟨regName, 0, be32 1, by decide⟩, .endNode, .endNode]

def looseMemory (base : Word) : Memory :=
  place base (blob looseTokens (ascii ['r', 'e', 'g'] ++ [0]))

theorem blob_loose {base : Word} (hbase : base.toNat % 4 = 0) :
    Blob (looseMemory base) base looseTokens :=
  (namedBlob_place hbase (by decide) (by decide)).toBlob

theorem occurrences_loose (p : Word) :
    occurrences none p looseTokens = [⟨⟨ascii ['v', 'i', 'r'], by decide⟩, p + 16,
      ⟨regName, 0, be32 1, by decide⟩, p + 32⟩] := by
  simp [looseTokens, occurrences, occurrenceAt, nodeAfter, Token.size, pad, ascii,
    BitVec.add_assoc]

theorem walks_bounded_loose :
    (∃ total, Gives (looseMemory ramBase) (extent (looseMemory ramBase) ramBase)
        getTotalRam total) ∧
      ∃ result', Gives (looseMemory virtDtbBase) (extent (looseMemory virtDtbBase) virtDtbBase)
        (getDriveInfo fun _ => 0) result' := by
  refine walks_bounded ⟨blob_loose (by decide), by decide, ?_⟩ ⟨blob_loose (by decide), ?_⟩ _
  · intro o ho hlooks
    rw [occurrences_loose, List.mem_singleton] at ho
    rw [ho] at hlooks
    exact absurd hlooks (by decide)
  · intro o ho _
    rw [occurrences_loose, List.mem_singleton] at ho
    have hvalue : Spans (extent (looseMemory virtDtbBase) virtDtbBase) o.value 16 := by
      rw [ho, show dtStruct (looseMemory virtDtbBase) virtDtbBase + 32 =
        virtDtbBase + BitVec.ofNat 64 88 by decide]
      exact spans_extent (by decide)
    have hsecond : string (dtStrings (looseMemory virtDtbBase) virtDtbBase) o.property + 2 ∈
        extent (looseMemory virtDtbBase) virtDtbBase := by
      rw [ho]
      exact ⟨106, by decide, by decide⟩
    exact ⟨fun _ => hsecond, fun _ _ => hvalue, fun _ _ => hvalue.mono (by decide)⟩

/-- 44 bytes, of which the last four are the structure block: a NOP token. -/
def unendedMemory : Memory :=
  place ramBase (be32 0xd00dfeed ++ be32 44 ++ be32 40 ++ be32 40 ++ List.replicate 24 0 ++ be32 4)

theorem reads_unended : Reads unendedMemory getTotalRam (ramBase + 44) := by
  have hstruct : offDtStruct unendedMemory ramBase = 40 := by decide
  have hstrings : offDtStrings unendedMemory ramBase = 40 := by decide
  have hnop : loadBe32 unendedMemory ((dtbBase + 40).setWidth 64) = 4 := by decide
  refine .after (gives_loadField (spans_univ _ _)) (.after (gives_loadField (spans_univ _ _)) ?_)
  rw [bswap32_bswap32_load, bswap32_bswap32_load]
  change Reads unendedMemory (loop (getTotalRam.body
    ((dtbBase + offDtStrings unendedMemory ramBase).setWidth 64))
    ⟨(dtbBase + offDtStruct unendedMemory ramBase).setWidth 64, false⟩) _
  rw [hstruct, hstrings]
  refine .loop ⟨ramBase + 44, false⟩ (.single ?_) ?_
  · refine .bind (gives_readB32 (spans_univ _ _)) ?_
    rw [hnop]
    exact .pure _
  · exact (Reads.read (ramBase + 44)).bind.bind

theorem walks_not_bounded_without_end :
    (offDtStruct unendedMemory ramBase).toNat < totalsize unendedMemory ramBase ∧
      (offDtStrings unendedMemory ramBase).toNat < totalsize unendedMemory ramBase ∧
      ¬ ∃ total, Gives unendedMemory (extent unendedMemory ramBase) getTotalRam total := by
  have hsize : totalsize unendedMemory ramBase = 44 := by decide
  refine ⟨by decide, by decide, ?_⟩
  rintro ⟨total, h⟩
  obtain ⟨i, hi, heq⟩ := h.mem_of_reads reads_unended
  rw [hsize] at hi
  simp only [ramBase, dtbBase] at heq
  bv_omega

end KernelFuzzing.Dtd
