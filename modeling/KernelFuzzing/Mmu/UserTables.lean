import KernelFuzzing.Foundation.Run
import KernelFuzzing.Mmu.PageTable

/-! The tables of the two user processes along a run of mapping calls. -/
namespace KernelFuzzing.Mmu.UserTables
open Foundation Memory

inductive Process where
  | one
  | two
deriving DecidableEq

def Process.id : Process → Word
  | .one => 1#64
  | .two => 2#64

def Process.base : Process → Nat
  | .one => 0x80A00000
  | .two => 0x80A60000

/-- The process's table with `below` levels below it. -/
def Process.table (p : Process) (below : Nat) : Word :=
  BitVec.ofNat 64 (p.base + 0x10000 * (3 - below))

inductive Variant where
  | tenPages
  | test
deriving DecidableEq

structure Call where
  process : Process
  variant : Variant
  address : Word

def step (t : Tables) (c : Call) : Tables :=
  match c.variant with
  | .tenPages => mapUserToPhysical t c.process.id c.address
  | .test => mapUserToPhysicalTest t c.process.id c.address

/-- Addresses in the pages that the call asks for. -/
def Call.pages (c : Call) : List Word :=
  match c.variant with
  | .tenPages => (List.range 10).map fun i => c.address + 4096#64 * BitVec.ofNat 64 i
  | .test => [c.address]

def pageOf (va : Word) : Nat := va.toNat / 4096 % 2 ^ 36

def pageFrame (va : Word) : Word := BitVec.ofNat 64 (4096 * pageOf va)

def Requested (p : Process) (calls : List Call) (page : Nat) : Prop :=
  ∃ c ∈ calls, c.process = p ∧ ∃ a ∈ c.pages, pageOf a = page

def Call.entries (c : Call) : List (Word × Word) :=
  let entry (below : Nat) : Word × Word :=
    (PageWalk.slot (below + 1) c.address (c.process.table (below + 1)),
      makeTableDesc (c.process.table below))
  [entry 2, entry 1, entry 0] ++ c.pages.map fun page =>
    (PageWalk.slot 0 page (c.process.table 0), makeL3BlockDesc page)

theorem toNat_table (p : Process) (below : Nat) :
    (p.table below).toNat = p.base + 0x10000 * (3 - below) := by
  rw [Process.table, BitVec.toNat_ofNat]
  cases p <;> simp only [Process.base] <;> omega

theorem toNat_slot (p : Process) (below : Nat) (va : Word) :
    (PageWalk.slot below va (p.table below)).toNat =
      p.base + 0x10000 * (3 - below) + 8 * PageWalk.index below va := by
  have htable := toNat_table p below
  rw [PageWalk.slot_toNat, htable]
  cases p <;> simp only [Process.base] at htable ⊢ <;> omega

theorem slot_inj {p q : Process} {b c : Nat} {va va' : Word} (hb : b ≤ 3) (hc : c ≤ 3)
    (h : PageWalk.slot b va (p.table b) = PageWalk.slot c va' (q.table c)) :
    p = q ∧ b = c ∧ PageWalk.index b va = PageWalk.index c va' := by
  have hnat := congrArg BitVec.toNat h
  have hi := PageWalk.index_lt b va
  have hj := PageWalk.index_lt c va'
  rw [toNat_slot, toNat_slot] at hnat
  cases p <;> cases q <;> simp only [Process.base] at hnat
  · exact ⟨rfl, by omega, by omega⟩
  · omega
  · omega
  · exact ⟨rfl, by omega, by omega⟩

theorem slot_aligned (p : Process) (below : Nat) (va : Word) :
    (PageWalk.slot below va (p.table below)).toNat % 8 = 0 := by
  rw [toNat_slot]
  cases p <;> simp only [Process.base] <;> omega

def Process.start (p : Process) : Word :=
  if p.id = 1#64 then userProcess1TableStart else userProcess2TableStart

def Process.startWritable (p : Process) : Word :=
  if p.id = 1#64 then userProcess1TableStartWritable else userProcess2TableStartWritable

theorem start_eq (p : Process) :
    p.start + 0x10000#64 = p.table 2 ∧ p.start + 0x10000#64 + 0x10000#64 = p.table 1 ∧
      p.start + 0x10000#64 + 0x10000#64 + 0x10000#64 = p.table 0 := by
  cases p <;> decide

theorem startWritable_eq (p : Process) :
    p.startWritable.toNat % 2 ^ 48 = (p.table 3).toNat ∧
      (p.startWritable + 0x10000#64).toNat % 2 ^ 48 = (p.table 2).toNat ∧
      (p.startWritable + 0x10000#64 + 0x10000#64).toNat % 2 ^ 48 = (p.table 1).toNat ∧
      (p.startWritable + 0x10000#64 + 0x10000#64 + 0x10000#64).toNat % 2 ^ 48 =
        (p.table 0).toNat := by
  cases p <;> decide

theorem stores_eq (t : Tables) (c : Call) {l0w l1w l2w l3w : Word}
    (h3 : l0w.toNat % 2 ^ 48 = (c.process.table 3).toNat)
    (h2 : l1w.toNat % 2 ^ 48 = (c.process.table 2).toNat)
    (h1 : l2w.toNat % 2 ^ 48 = (c.process.table 1).toNat)
    (h0 : l3w.toNat % 2 ^ 48 = (c.process.table 0).toNat) :
    c.pages.foldl (fun t page => setTableEntry t l3w (calcIndexL3 page) (makeL3BlockDesc page))
        (setTableEntry (setTableEntry (setTableEntry t l0w (calcIndexL0 c.address)
          (makeTableDesc (c.process.table 2))) l1w (calcIndexL1 c.address)
          (makeTableDesc (c.process.table 1))) l2w (calcIndexL2 c.address)
          (makeTableDesc (c.process.table 0))) = t.store c.entries := by
  have room (below : Nat) : (c.process.table below).toNat + 4096 ≤ 2 ^ 48 := by
    rw [toNat_table]
    cases c.process <;> simp only [Process.base] <;> omega
  have e3 : entryAddress l0w (calcIndexL0 c.address) = _ := entryAddress_eq_slot h3 (room 3) 3 _
  have e2 : entryAddress l1w (calcIndexL1 c.address) = _ := entryAddress_eq_slot h2 (room 2) 2 _
  have e1 : entryAddress l2w (calcIndexL2 c.address) = _ := entryAddress_eq_slot h1 (room 1) 1 _
  have e0 (page : Word) : entryAddress l3w (calcIndexL3 page) = _ :=
    entryAddress_eq_slot h0 (room 0) 0 page
  simp only [setTableEntry_eq, e3, e2, e1, e0, Tables.store_store, Tables.foldl_store,
    Call.entries]
  simp [List.map_eq_flatMap]

theorem step_eq (t : Tables) (c : Call) : step t c = t.store c.entries := by
  obtain ⟨h3, h2, h1, h0⟩ := startWritable_eq c.process
  obtain ⟨e2, e1, e0⟩ := start_eq c.process
  have hstores := stores_eq t c h3 h2 h1 h0
  rw [← hstores, ← e2, ← e1, ← e0]
  unfold step
  split
  next hvariant =>
    simp only [Call.pages, hvariant, List.foldl_map]
    rfl
  next hvariant =>
    simp only [Call.pages, hvariant]
    rfl

theorem run_eq (t : Tables) (calls : List Call) :
    Run.run step t calls = t.store (calls.flatMap Call.entries) := by
  rw [← Tables.foldl_store, Run.run]
  exact List.foldl_ext _ _ _ fun t c _ => step_eq t c

theorem mem_entries {c : Call} {w : Word × Word} :
    w ∈ c.entries ↔
      (∃ below < 3, w = (PageWalk.slot (below + 1) c.address (c.process.table (below + 1)),
        makeTableDesc (c.process.table below))) ∨
      ∃ a ∈ c.pages, w = (PageWalk.slot 0 a (c.process.table 0), makeL3BlockDesc a) := by
  rw [Call.entries, List.mem_append, List.mem_map]
  apply or_congr
  · constructor
    · simp only [List.mem_cons, List.not_mem_nil, or_false]
      rintro (rfl | rfl | rfl)
      · exact ⟨2, by decide, rfl⟩
      · exact ⟨1, by decide, rfl⟩
      · exact ⟨0, by decide, rfl⟩
    · rintro ⟨below, hbelow, rfl⟩
      match below, hbelow with
      | 0, _ | 1, _ | 2, _ => simp
  · constructor
    · rintro ⟨a, ha, rfl⟩
      exact ⟨a, ha, rfl⟩
    · rintro ⟨a, ha, rfl⟩
      exact ⟨a, ha, rfl⟩

theorem slot_of_mem_entries {c : Call} {w : Word × Word} (h : w ∈ c.entries) :
    ∃ below ≤ 3, ∃ va, w.1 = PageWalk.slot below va (c.process.table below) := by
  rcases mem_entries.mp h with ⟨below, hbelow, rfl⟩ | ⟨a, _, rfl⟩
  · exact ⟨below + 1, hbelow, c.address, rfl⟩
  · exact ⟨0, Nat.zero_le 3, a, rfl⟩

theorem address_mem_pages (c : Call) : c.address ∈ c.pages := by
  unfold Call.pages
  split
  · exact List.mem_map.mpr ⟨0, by simp, by simp⟩
  · exact List.mem_singleton_self _

theorem index_eq (va : Word) {below : Nat} (h : below ≤ 3) :
    PageWalk.index below va = pageOf va / 2 ^ (9 * below) % 512 := by
  unfold PageWalk.index pageOf
  match below, h with
  | 0, _ => omega
  | 1, _ => omega
  | 2, _ => omega
  | 3, _ => omega

theorem index_eq_of_region {a b : Word} (h : pageOf a / 512 = pageOf b / 512) {below : Nat}
    (hbelow : below < 3) : PageWalk.index (below + 1) a = PageWalk.index (below + 1) b := by
  have hpow : 2 ^ (9 * (below + 1)) = 512 * 2 ^ (9 * below) := by
    rw [Nat.mul_succ, pow_add, Nat.mul_comm, show 2 ^ 9 = 512 from rfl]
  rw [index_eq a hbelow, index_eq b hbelow, hpow, ← Nat.div_div_eq_div_mul,
    ← Nat.div_div_eq_div_mul, h]

theorem region_eq_of_index {a b : Word}
    (h : ∀ below < 3, PageWalk.index (below + 1) a = PageWalk.index (below + 1) b) :
    pageOf a / 512 = pageOf b / 512 := by
  have h0 := h 0 (by decide)
  have h1 := h 1 (by decide)
  have h2 := h 2 (by decide)
  rw [index_eq _ (by decide), index_eq _ (by decide)] at h0 h1 h2
  have ha : pageOf a < 2 ^ 36 := Nat.mod_lt _ (by decide)
  have hb : pageOf b < 2 ^ 36 := Nat.mod_lt _ (by decide)
  omega

theorem pageOf_eq_of_index {a b : Word} (hregion : pageOf a / 512 = pageOf b / 512)
    (h : PageWalk.index 0 a = PageWalk.index 0 b) : pageOf a = pageOf b := by
  rw [index_eq _ (by decide), index_eq _ (by decide)] at h
  omega

theorem pageFrame_inj {a b : Word} (h : pageFrame a = pageFrame b) : pageOf a = pageOf b := by
  have ha : pageOf a < 2 ^ 36 := Nat.mod_lt _ (by decide)
  have hb : pageOf b < 2 ^ 36 := Nat.mod_lt _ (by decide)
  have hnat := congrArg BitVec.toNat h
  rw [pageFrame, pageFrame, BitVec.toNat_ofNat, BitVec.toNat_ofNat] at hnat
  omega

theorem pageOf_ofNat {page : Nat} (h : page < 2 ^ 36) :
    pageOf (BitVec.ofNat 64 (4096 * page)) = page := by
  rw [pageOf, BitVec.toNat_ofNat]
  omega

theorem address_pageDesc (a : Word) : PageWalk.address (makeL3BlockDesc a) = pageFrame a := by
  apply BitVec.eq_of_toNat_eq
  rw [PageWalk.toNat_address, toNat_makeL3BlockDesc, pageFrame, BitVec.toNat_ofNat]
  unfold pageOf
  omega

theorem address_tableDesc (p : Process) (below : Nat) :
    PageWalk.address (makeTableDesc (p.table below)) = p.table below := by
  have htable := toNat_table p below
  apply BitVec.eq_of_toNat_eq
  rw [toNat_address_makeTableDesc, htable]
  · cases p <;> simp only [Process.base] <;> omega
  · cases p <;> simp only [Process.base] at htable <;> omega

theorem descAt_cases (t : Tables) (p : Process) (calls : List Call) (below : Nat)
    (hbelow : below ≤ 3) (va : Word) :
    (∃ c ∈ calls, c.process = p ∧ (PageWalk.slot below va (p.table below),
        PageWalk.descAt (Run.run step t calls).mem p.table va below) ∈ c.entries) ∨
      (∀ c ∈ calls, ∀ v, (PageWalk.slot below va (p.table below), v) ∉ c.entries) ∧
        PageWalk.descAt (Run.run step t calls).mem p.table va below =
          PageWalk.descAt t.mem p.table va below := by
  have happart : ∀ w ∈ calls.flatMap Call.entries,
      w.1 = PageWalk.slot below va (p.table below) ∨
        Apart w.1 8 (PageWalk.slot below va (p.table below)) 8 := by
    intro w hw
    obtain ⟨c, -, hw⟩ := List.mem_flatMap.mp hw
    obtain ⟨b, -, a, hslot⟩ := slot_of_mem_entries hw
    rw [or_iff_not_imp_left]
    apply apart_of_aligned _ (slot_aligned p below va)
    rw [hslot]
    exact slot_aligned c.process b a
  rw [run_eq]
  rcases load64_storeAll_cases (m := t.mem) happart with ⟨v, hmem, hload⟩ | ⟨hnone, hload⟩
  · left
    obtain ⟨c, hc, hv⟩ := List.mem_flatMap.mp hmem
    obtain ⟨b, hb, a, hslot⟩ := slot_of_mem_entries hv
    refine ⟨c, hc, (slot_inj hbelow hb hslot).1.symm, ?_⟩
    change (_, load64 (storeAll t.mem (calls.flatMap Call.entries)) _) ∈ c.entries
    rwa [hload]
  · right
    exact ⟨fun c hc v hv => hnone v (List.mem_flatMap.mpr ⟨c, hc, hv⟩), hload⟩

theorem chained_run {t : Tables} {p : Process} {va : Word}
    (chained : PageWalk.Chained t.mem p.table va) (calls : List Call) :
    PageWalk.Chained (Run.run step t calls).mem p.table va := by
  intro below hbelow hvalid htable
  rcases descAt_cases t p calls (below + 1) hbelow va with
    ⟨c, -, rfl, hmem⟩ | ⟨-, hload⟩
  · rcases mem_entries.mp hmem with ⟨b, hb, heq⟩ | ⟨a, -, heq⟩
    · obtain ⟨hslot, hdesc⟩ := Prod.mk.inj heq
      obtain rfl := Nat.succ.inj (slot_inj hbelow (Nat.succ_le_of_lt hb) hslot).2.1
      rw [hdesc]
      exact address_tableDesc c.process below
    · obtain ⟨hslot, -⟩ := Prod.mk.inj heq
      exact absurd (slot_inj hbelow (Nat.zero_le 3) hslot).2.1 (Nat.succ_ne_zero below)
  · rw [hload] at hvalid htable ⊢
    exact chained below hbelow hvalid htable

def Zeroed (m : Memory) (p : Process) : Prop :=
  ∀ below ≤ 3, ∀ va, PageWalk.descAt m p.table va below = 0#64

theorem Zeroed.chained {m : Memory} {p : Process} (zeroed : Zeroed m p) (va : Word) :
    PageWalk.Chained m p.table va := by
  intro below hbelow hvalid _
  rw [zeroed (below + 1) hbelow va] at hvalid
  exact absurd hvalid (by decide)

def zeroTables : Tables := ⟨fun _ => 0#8, 0#64, []⟩

theorem zeroed_zeroTables (p : Process) : Zeroed zeroTables.mem p := by
  intro below _ va
  simp only [PageWalk.descAt, load64, zeroTables]
  decide

end KernelFuzzing.Mmu.UserTables
