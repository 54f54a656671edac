import KernelFuzzing.Dtd.InStep

/-! The blob that the header of a device tree describes, and the walks from the header on. -/
namespace KernelFuzzing.Dtd
open Foundation Memory Reading DeviceTree

/-- Where `get_total_ram` finds the blob. -/
def ramBase : Word := dtbBase.setWidth 64

def totalsize (m : Memory) (base : Word) : Nat := (loadBe32 m (base + 4)).toNat

def offDtStruct (m : Memory) (base : Word) : BitVec 32 := loadBe32 m (base + 8)
def offDtStrings (m : Memory) (base : Word) : BitVec 32 := loadBe32 m (base + 12)

def dtStruct (m : Memory) (base : Word) : Word := base + (offDtStruct m base).setWidth 64
def dtStrings (m : Memory) (base : Word) : Word := base + (offDtStrings m base).setWidth 64

def extent (m : Memory) (base : Word) : Set Word :=
  {a | ∃ i < totalsize m base, a = base + BitVec.ofNat 64 i}

structure Blob (m : Memory) (base : Word) (ts : List Token) : Prop where
  header : 16 ≤ totalsize m base
  aligned : (dtStruct m base).toNat % 4 = 0
  holds : Holds m (dtStruct m base) (bytes ts)
  inside : (offDtStruct m base).toNat + (bytes ts).length ≤ totalsize m base
  strings : (offDtStrings m base).toNat ≤ totalsize m base
  named : ∀ q, .prop q ∈ ts → Terminated m (extent m base) (string (dtStrings m base) q)

variable {m : Memory} {S : Set Word} {base : Word} {ts : List Token}

theorem spans_extent {k n : Nat} (h : k + n ≤ totalsize m base) :
    Spans (extent m base) (base + BitVec.ofNat 64 k) n :=
  fun i hi => ⟨k + i, by omega, add_ofNat_add base k i⟩

theorem Blob.block (h : Blob m base ts) : Block m (extent m base) (dtStruct m base) ts := by
  refine ⟨h.holds, h.aligned, ?_⟩
  rw [dtStruct, ← BitVec.ofNat_toNat]
  exact spans_extent h.inside

theorem Blob.block_univ (h : Blob m base ts) : Block m Set.univ (dtStruct m base) ts :=
  ⟨h.holds, h.aligned, spans_univ _ _⟩

theorem Blob.spans_header (h : Blob m base ts) : Spans (extent m base) (base + 8) 8 :=
  spans_extent h.header

/-- A blob whose names are those of its properties. -/
structure NamedBlob (m : Memory) (base : Word) (ts : List Token) : Prop extends
    Blob m base ts where
  names : ∀ q, .prop q ∈ ts → Holds m (string (dtStrings m base) q) (q.name.val ++ [0])

theorem looksReg_of_holds {s : Word} (h : Holds m s (ascii ['r', 'e', 'g'] ++ [0])) :
    looksReg m s := by
  have h0 : m s = chr 'r' := h.first
  have h2 : m (s + 2) = chr 'g' := h 2 (by decide)
  rw [looksReg, h0, h2]
  decide

def regName : Name := ⟨ascii ['r', 'e', 'g'], by decide⟩

def NamedIn (strings : List Byte) : Token → Prop
  | .prop q => q.name.val ++ [0] <+: strings.drop q.nameOff.toNat
  | _ => True

instance (strings : List Byte) : DecidablePred (NamedIn strings)
  | .prop q => inferInstanceAs (Decidable (q.name.val ++ [0] <+: _))
  | .beginNode _ | .endNode | .nop | .unknown _ _ => isTrue trivial

def blob (ts : List Token) (strings : List Byte) : List Byte :=
  let size := (bytes ts).length
  be32 0xd00dfeed ++ (be32 (BitVec.ofNat 32 (56 + size + strings.length)) ++
    (be32 56 ++ (be32 (BitVec.ofNat 32 (56 + size)) ++
      ((be32 40 ++ be32 17 ++ be32 16 ++ be32 0 ++ be32 (BitVec.ofNat 32 strings.length) ++
        be32 (BitVec.ofNat 32 size) ++ List.replicate 16 0) ++ (bytes ts ++ strings)))))

theorem blob_length (ts : List Token) (strings : List Byte) :
    (blob ts strings).length = 56 + (bytes ts).length + strings.length := by
  simp only [blob, List.length_append, be32_length, List.length_replicate]
  omega

theorem namedBlob_place {strings : List Byte} (hbase : base.toNat % 4 = 0)
    (hsize : (blob ts strings).length < 2 ^ 32)
    (hnames : ∀ t ∈ ts, NamedIn strings t) :
    NamedBlob (place base (blob ts strings)) base ts := by
  have hplaced := holds_place base (show (blob ts strings).length ≤ 2 ^ 64 by omega)
  rw [blob_length] at hsize
  generalize place base (blob ts strings) = m at hplaced ⊢
  simp only [blob, holds_append, be32_length, List.length_append, List.length_replicate,
    add_ofNat_add, Nat.reduceAdd] at hplaced
  obtain ⟨-, htotal, hstruct, hstrings, -, hbytes, hnamed⟩ := hplaced
  have hoff : offDtStrings m base = BitVec.ofNat 32 (56 + (bytes ts).length) :=
    loadBe32_of_holds hstrings
  have hoff' : offDtStruct m base = 56 := loadBe32_of_holds hstruct
  have htotal' : totalsize m base = 56 + (bytes ts).length + strings.length := by
    rw [totalsize, show base + 4 = base + BitVec.ofNat 64 4 from rfl, loadBe32_of_holds htotal,
      BitVec.toNat_ofNat, Nat.mod_eq_of_lt hsize]
  have hat (q : Property) : string (dtStrings m base) q =
      base + BitVec.ofNat 64 (56 + (bytes ts).length) + BitVec.ofNat 64 q.nameOff.toNat := by
    rw [string, dtStrings, hoff, BitVec.ofNat_toNat]
    congr 2
    apply BitVec.eq_of_toNat_eq
    simp only [BitVec.toNat_setWidth, BitVec.toNat_ofNat]
    omega
  refine ⟨⟨?_, ?_, ?_, ?_, ?_, ?_⟩, ?_⟩
  · omega
  · rw [dtStruct, hoff', BitVec.toNat_add]
    simp only [BitVec.toNat_setWidth, BitVec.ofNat_eq_ofNat, BitVec.toNat_ofNat]
    omega
  · rw [dtStruct, hoff']
    exact hbytes
  · rw [htotal', hoff']
    simp
  · rw [htotal', hoff, BitVec.toNat_ofNat]
    omega
  · intro q hq
    have hname := hnamed.of_prefix_drop (hnames _ hq)
    have hlength := (hnames _ hq).length_le
    rw [List.length_append, List.length_singleton, List.length_drop] at hlength
    rw [hat]
    apply terminated_token hname
    rw [add_ofNat_add]
    exact spans_extent (by omega)
  · intro q hq
    rw [hat]
    exact hnamed.of_prefix_drop (hnames _ hq)

theorem setWidth_ramBase {off : BitVec 32} (h : dtbBase.toNat + off.toNat < 2 ^ 32) :
    (dtbBase + off).setWidth 64 = ramBase + off.setWidth 64 := by
  have hoff := off.isLt
  apply BitVec.eq_of_toNat_eq
  simp only [ramBase, BitVec.toNat_add, BitVec.toNat_setWidth]
  omega

theorem gives_getTotalRam {total : Word} (hheader : Spans S (ramBase + 8) 8)
    (hstruct : dtbBase.toNat + (offDtStruct m ramBase).toNat < 2 ^ 32)
    (hstrings : dtbBase.toNat + (offDtStrings m ramBase).toNat < 2 ^ 32)
    (hloop : Gives m S (loop (getTotalRam.body (dtStrings m ramBase))
      ⟨dtStruct m ramBase, false⟩) total) : Gives m S getTotalRam total := by
  refine .bind (gives_loadField (hheader.mono (by omega)))
    (.bind (gives_loadField (hheader.drop 4)) ?_)
  rw [dtStruct, dtStrings, ← setWidth_ramBase hstruct, ← setWidth_ramBase hstrings] at hloop
  rw [bswap32_bswap32_load, bswap32_bswap32_load]
  exact hloop

theorem gives_getDriveInfo {result result' : Nat → Word} (hheader : Spans S (virtDtbBase + 8) 8)
    (hloop : Gives m S (loop (getDriveInfo.body (dtStrings m virtDtbBase))
      ⟨dtStruct m virtDtbBase, false, result⟩) result') :
    Gives m S (getDriveInfo result) result' := by
  refine .bind (gives_loadField (hheader.mono (by omega)))
    (.bind (gives_loadField (hheader.drop 4)) ?_)
  rw [bswap32_bswap32_load, bswap32_bswap32_load]
  exact hloop

end KernelFuzzing.Dtd
