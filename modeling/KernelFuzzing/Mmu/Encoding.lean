import KernelFuzzing.Foundation.Descriptor
import KernelFuzzing.Mmu.UserTables
import KernelFuzzing.Mmu.Windows

/-! The descriptors that core/mmu.c makes of the addresses its callers pass, decoded
again. -/
namespace KernelFuzzing.Mmu.Encoding
open Foundation Memory
open UserTables (Process Call)
open Translation (Request)

def processOf (id : Word) : Process := if id = 1#64 then .one else .two

/-- The `i`-th page of `map_user_to_physical`. -/
def page (address : Word) (i : Nat) : Word := address + 4096#64 * BitVec.ofNat 64 i

def pageAttributes : BitVec 12 := (descValid ||| descPage ||| descAf ||| descAp).setWidth 12

def blockAttributes : BitVec 12 := (descValid ||| descAf).setWidth 12

/-- Each descriptor stored for a user address decodes to its page. -/
def UserDecodes (t : Tables) (id address : Word) : Prop :=
  ∀ i < 10, Descriptor.PageFor
    (load64 (mapUserToPhysical t id address).mem
      (PageWalk.slot 0 (page address i) ((processOf id).table 0)))
    (page address i) pageAttributes

def probed : Nat := 32 * 0x200

/-- The descriptor stored for the virtio registers decodes to their base, and the window
leads there. -/
structure VirtioDecodes (t : Tables) (reg : Word) : Prop where
  block : Descriptor.BlockFor
    (load64 (addVirtioPage t reg).mem (PageWalk.slot 1 virtioRegRange l2BasePhys)) reg
    blockAttributes
  window : ∀ off < probed, PageWalk.translate (addVirtioPage t reg).mem l0BasePhys
    (virtioRegRange + BitVec.ofNat 64 off) = some (reg + BitVec.ofNat 64 off)

theorem pageFor_makeL3BlockDesc_iff (a : Word) :
    Descriptor.PageFor (makeL3BlockDesc a) a pageAttributes ↔ a.toNat < 2 ^ 48 := by
  have hbits : pageAttributes.toNat = 0x443 := rfl
  have ha := a.isLt
  rw [Descriptor.pageFor_iff, toNat_makeL3BlockDesc, hbits]
  omega

theorem blockFor_makeBlockDesc_iff (a : Word) :
    Descriptor.BlockFor (makeBlockDesc a) a blockAttributes ↔
      a.toNat < 2 ^ 48 ∧ a.toNat / 4096 % 512 = 0 := by
  have hbits : blockAttributes.toNat = 0x401 := rfl
  have ha := a.isLt
  rw [Descriptor.blockFor_iff, toNat_makeBlockDesc, hbits]
  omega

theorem mapUserToPhysical_eq (t : Tables) (id address : Word) :
    mapUserToPhysical t id address =
      UserTables.step t ⟨processOf id, .tenPages, address⟩ := by
  unfold UserTables.step mapUserToPhysical processOf
  by_cases hid : id = 1#64
  · simp [hid, Process.id]
  · simp [hid, Process.id]

theorem page_eq_of_index {address : Word} {i j : Nat} (hi : i < 10) (hj : j < 10)
    (h : PageWalk.index 0 (page address i) = PageWalk.index 0 (page address j)) : i = j := by
  have htoNat (k : Nat) (hk : k < 10) :
      (page address k).toNat = (address.toNat + 4096 * k) % 2 ^ 64 := by
    rw [page]
    bv_omega
  unfold PageWalk.index at h
  rw [htoNat i hi, htoNat j hj] at h
  omega

theorem load_user_page (t : Tables) (id address : Word) {i : Nat} (hi : i < 10) :
    load64 (mapUserToPhysical t id address).mem
      (PageWalk.slot 0 (page address i) ((processOf id).table 0)) =
        makeL3BlockDesc (page address i) := by
  rw [mapUserToPhysical_eq, UserTables.step_eq]
  have hpage : page address i ∈ (Call.mk (processOf id) .tenPages address).pages :=
    List.mem_map.mpr ⟨i, List.mem_range.mpr hi, rfl⟩
  have haligned := UserTables.slot_aligned (processOf id)
  refine load64_storeAll_of_mem (UserTables.mem_entries.mpr (.inr ⟨_, hpage, rfl⟩)) fun w hw => ?_
  rcases UserTables.mem_entries.mp hw with ⟨below, hbelow, rfl⟩ | ⟨a, ha, rfl⟩
  · refine .inr (apart_of_aligned (haligned _ _) (haligned 0 _) fun heq => ?_)
    exact absurd (UserTables.slot_inj (Nat.succ_le_of_lt hbelow) (Nat.zero_le 3) heq).2.1
      (Nat.succ_ne_zero below)
  · obtain ⟨j, hj, rfl⟩ := List.mem_map.mp ha
    rw [List.mem_range] at hj
    by_cases hslot : PageWalk.slot 0 (page address j) ((processOf id).table 0) =
        PageWalk.slot 0 (page address i) ((processOf id).table 0)
    · left
      obtain rfl := page_eq_of_index hj hi
        (UserTables.slot_inj (Nat.zero_le 3) (Nat.zero_le 3) hslot).2.2
      rfl
    · exact .inr (apart_of_aligned (haligned 0 _) (haligned 0 _) hslot)

theorem userDecodes_iff (t : Tables) (id address : Word) :
    UserDecodes t id address ↔ address.toNat + 9 * 4096 < 2 ^ 48 := by
  have htoNat (i : Nat) (hi : i < 10) :
      (page address i).toNat = (address.toNat + 4096 * i) % 2 ^ 64 := by
    rw [page]
    bv_omega
  have hpages : UserDecodes t id address ↔ ∀ i < 10, (page address i).toNat < 2 ^ 48 := by
    refine forall₂_congr fun i hi => ?_
    rw [load_user_page t id address hi, pageFor_makeL3BlockDesc_iff]
  rw [hpages]
  constructor
  · intro h
    have hfirst := h 0 (by decide)
    have hlast := h 9 (by decide)
    rw [htoNat 0 (by decide)] at hfirst
    rw [htoNat 9 (by decide)] at hlast
    omega
  · intro h i hi
    rw [htoNat i hi]
    omega

theorem addVirtioPage_eq (t : Tables) (reg : Word) :
    addVirtioPage t reg =
      t.store [(PageWalk.slot 1 virtioRegRange l2BasePhys, makeBlockDesc reg)] := by
  have hslot : entryAddress l2BasePhys (calcIndexL2 virtioRegRange) =
      PageWalk.slot 1 virtioRegRange l2BasePhys :=
    entryAddress_eq_slot (by decide) (by decide) 1 virtioRegRange
  rw [addVirtioPage, setTableEntry_eq, hslot]

theorem index_window {off : Nat} (hoff : off < probed) :
    PageWalk.index 3 (virtioRegRange + BitVec.ofNat 64 off) = 0 ∧
      PageWalk.index 2 (virtioRegRange + BitVec.ofNat 64 off) = 2 ∧
      PageWalk.index 1 (virtioRegRange + BitVec.ofNat 64 off) = PageWalk.index 1 virtioRegRange ∧
      (virtioRegRange + BitVec.ofNat 64 off).toNat % 2 ^ 21 = off := by
  have hbase : virtioRegRange.toNat = 0xFFFF000086400000 := rfl
  unfold probed at hoff
  have haddress : (virtioRegRange + BitVec.ofNat 64 off).toNat = 0xFFFF000086400000 + off := by
    rw [BitVec.toNat_add, BitVec.toNat_ofNat, hbase]
    omega
  unfold PageWalk.index
  rw [haddress, hbase]
  omega

/-- Tables whose first two levels lead the window to the level 2 table of the kernel. -/
structure Leads (t : Tables) : Prop where
  l0 : ∀ off < probed, PageWalk.descAt t.mem Windows.tables
    (virtioRegRange + BitVec.ofNat 64 off) 3 = makeTableDesc l1BasePhys
  l1 : ∀ off < probed, PageWalk.descAt t.mem Windows.tables
    (virtioRegRange + BitVec.ofNat 64 off) 2 = makeTableDesc l2BasePhys

theorem leads_run {link : Symbols} (near : Windows.InFirstWindow link) (bitmap : AllocateMem)
    (m : Memory) (requests : List Request) :
    Leads (Run.run (Windows.step link) (Windows.boot link bitmap m) requests).tables := by
  have hva {off : Nat} (hoff : off < probed) :
      PageWalk.index 2 (virtioRegRange + BitVec.ofNat 64 off) ≠ 3 := by
    rw [(index_window hoff).2.1]
    decide
  constructor
  · intro off hoff
    rw [← Windows.descAt_run near bitmap m requests (hva hoff) 3 (le_refl 3)]
    rcases Windows.descAt_boot_three link bitmap m (virtioRegRange + BitVec.ofNat 64 off) with
      ⟨-, hdesc⟩ | ⟨hne, -⟩
    · exact hdesc
    · exact absurd (index_window hoff).1 hne
  · intro off hoff
    rw [← Windows.descAt_run near bitmap m requests (hva hoff) 2 (by decide)]
    rcases Windows.descAt_boot_two link bitmap m (virtioRegRange + BitVec.ofNat 64 off) with
      ⟨-, hdesc⟩ | ⟨hne, -⟩
    · exact hdesc
    · exact absurd (index_window hoff).2.1 hne

theorem descAt_upper (t : Tables) (reg va : Word) {below : Nat} (hbelow : below < 2) :
    PageWalk.descAt (addVirtioPage t reg).mem Windows.tables va (below + 2) =
      PageWalk.descAt t.mem Windows.tables va (below + 2) := by
  rw [addVirtioPage_eq]
  refine load64_storeAll_apart fun w hw => ?_
  rw [List.mem_singleton.mp hw]
  refine apart_of_aligned (Windows.slot_aligned (by decide) virtioRegRange)
    (Windows.slot_aligned (by omega) va) fun heq => ?_
  have hlevel := (Windows.slot_inj (b := 0) (by decide) (by omega) heq).1
  omega

theorem load_window (t : Tables) (reg : Word) :
    load64 (addVirtioPage t reg).mem (PageWalk.slot 1 virtioRegRange l2BasePhys) =
      makeBlockDesc reg := by
  rw [addVirtioPage_eq]
  exact load64_store64 _ _ _

theorem translate_window {t : Tables} (leads : Leads t) (reg : Word) {off : Nat}
    (hoff : off < probed) :
    PageWalk.translate (addVirtioPage t reg).mem l0BasePhys
        (virtioRegRange + BitVec.ofNat 64 off) =
      some (BitVec.ofNat 64 ((makeBlockDesc reg).toNat % 2 ^ 48 / 2 ^ 21 * 2 ^ 21 + off)) := by
  obtain ⟨-, -, h1, hoffset⟩ := index_window hoff
  have hl0 : load64 (addVirtioPage t reg).mem
      (PageWalk.slot 3 (virtioRegRange + BitVec.ofNat 64 off) l0BasePhys) =
        makeTableDesc l1BasePhys :=
    (descAt_upper t reg _ (show 1 < 2 by decide)).trans (leads.l0 off hoff)
  have hl1 : load64 (addVirtioPage t reg).mem
      (PageWalk.slot 2 (virtioRegRange + BitVec.ofNat 64 off) l1BasePhys) =
        makeTableDesc l2BasePhys :=
    (descAt_upper t reg _ (show 0 < 2 by decide)).trans (leads.l1 off hoff)
  have hl2 := load_window t reg
  rw [← PageWalk.slot_congr h1] at hl2
  have ha1 : PageWalk.address (makeTableDesc l1BasePhys) = l1BasePhys := by decide
  have ha2 : PageWalk.address (makeTableDesc l2BasePhys) = l2BasePhys := by decide
  obtain ⟨hvalid, hblock⟩ := getLsbD_makeBlockDesc reg
  have hwalk : PageWalk.walk (addVirtioPage t reg).mem l0BasePhys
      (virtioRegRange + BitVec.ofNat 64 off) =
        some ⟨2, PageWalk.slot 1 (virtioRegRange + BitVec.ofNat 64 off) l2BasePhys,
          makeBlockDesc reg⟩ := by
    rw [PageWalk.walk,
      PageWalk.walkFrom_table hl0 (getLsbD_makeTableDesc _ (by decide))
        (getLsbD_makeTableDesc _ (by decide)), ha1,
      PageWalk.walkFrom_table hl1 (getLsbD_makeTableDesc _ (by decide))
        (getLsbD_makeTableDesc _ (by decide)), ha2,
      PageWalk.walkFrom_block hl2 hvalid hblock (by decide)]
  rw [PageWalk.translate, hwalk, Option.map_some, PageWalk.Leaf.output_two, hoffset]

theorem virtioDecodes_iff {t : Tables} (leads : Leads t) (reg : Word) :
    VirtioDecodes t reg ↔ reg.toNat < 2 ^ 48 ∧ reg.toNat % 2 ^ 21 = 0 := by
  have hdesc := toNat_makeBlockDesc reg
  constructor
  · intro h
    have hblock := h.block
    have hwindow := h.window 0 (by decide)
    rw [load_window, blockFor_makeBlockDesc_iff] at hblock
    rw [translate_window leads reg (by decide), Option.some.injEq] at hwindow
    have hnat := congrArg BitVec.toNat hwindow
    rw [BitVec.add_zero, BitVec.toNat_ofNat] at hnat
    omega
  · rintro ⟨hsmall, haligned⟩
    constructor
    · rw [load_window, blockFor_makeBlockDesc_iff]
      omega
    · intro off hoff
      unfold probed at hoff
      rw [translate_window leads reg hoff, Option.some.injEq]
      apply BitVec.eq_of_toNat_eq
      rw [BitVec.toNat_add, BitVec.toNat_ofNat, BitVec.toNat_ofNat]
      omega

/-- A user address is encoded so that it decodes again exactly when its ten pages lie below
2^48, and a register base exactly when it lies there on a 2 MiB boundary. -/
theorem descriptors_decode_iff {link : Symbols} (near : Windows.InFirstWindow link)
    (bitmap : AllocateMem) (m : Memory) (requests : List Request) (t : Tables)
    (id address reg : Word) :
    (UserDecodes t id address ↔ address.toNat + 9 * 4096 < 2 ^ 48) ∧
      (VirtioDecodes (Run.run (Windows.step link) (Windows.boot link bitmap m) requests).tables
        reg ↔ reg.toNat < 2 ^ 48 ∧ reg.toNat % 2 ^ 21 = 0) :=
  ⟨userDecodes_iff t id address, virtioDecodes_iff (leads_run near bitmap m requests) reg⟩

theorem descriptors_decode_iff_image :
    (UserDecodes UserTables.zeroTables 1#64 0x80001F38#64 ↔
      (0x80001F38#64).toNat + 9 * 4096 < 2 ^ 48) ∧
      (VirtioDecodes (Run.run (Windows.step imageLink)
        (Windows.boot imageLink .empty fun _ => 0#8) []).tables 0x0A000000#64 ↔
          (0x0A000000#64).toNat < 2 ^ 48 ∧ (0x0A000000#64).toNat % 2 ^ 21 = 0) :=
  descriptors_decode_iff Windows.inFirstWindow_imageLink .empty (fun _ => 0#8) []
    UserTables.zeroTables 1#64 0x80001F38#64 0x0A000000#64

theorem not_user_decodes_kernel_window :
    ¬ UserDecodes UserTables.zeroTables 1#64 0xFFFF000080001F38#64 := by
  rw [userDecodes_iff]
  decide

end KernelFuzzing.Mmu.Encoding
