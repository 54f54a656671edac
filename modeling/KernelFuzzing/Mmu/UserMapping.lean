import KernelFuzzing.Mmu.UserTables

/-! When the tables of a user process map exactly the pages that were asked for. -/
namespace KernelFuzzing.Mmu.UserMapping
open Foundation Memory UserTables

/-- The walk finds a page for the addresses in requested pages only, and finds the
address's own page. -/
structure Exact (m : Memory) (p : Process) (calls : List Call) : Prop where
  found : ∀ va, (∃ frame, PageWalk.MapsPage m (p.table 3) va frame) ↔
    Requested p calls (pageOf va)
  own : ∀ va frame, PageWalk.MapsPage m (p.table 3) va frame → frame = pageFrame va

/-- All pages requested for the process lie in one 2 MiB region. -/
def OneRegion (p : Process) (calls : List Call) : Prop :=
  ∀ x y, Requested p calls x → Requested p calls y → x / 512 = y / 512

def Entered (p : Process) (calls : List Call) (below : Nat) (va : Word) : Prop :=
  ∃ c ∈ calls, c.process = p ∧ PageWalk.index below c.address = PageWalk.index below va

section
variable {t : Tables} {p : Process}

theorem descAt_upper (zeroed : Zeroed t.mem p) (calls : List Call) {below : Nat}
    (hbelow : below < 3) (va : Word) :
    Entered p calls (below + 1) va ∧
        PageWalk.descAt (Run.run step t calls).mem p.table va (below + 1) =
          makeTableDesc (p.table below) ∨
      ¬ Entered p calls (below + 1) va ∧
        PageWalk.descAt (Run.run step t calls).mem p.table va (below + 1) =
          0#64 := by
  rcases descAt_cases t p calls (below + 1) hbelow va with
    ⟨c, hc, rfl, hmem⟩ | ⟨hnone, hload⟩
  · left
    rcases mem_entries.mp hmem with ⟨b, hb, heq⟩ | ⟨a, -, heq⟩
    · obtain ⟨hslot, hdesc⟩ := Prod.mk.inj heq
      obtain ⟨-, hsame, hindex⟩ := slot_inj hbelow (Nat.succ_le_of_lt hb) hslot
      obtain rfl := Nat.succ.inj hsame
      exact ⟨⟨c, hc, rfl, hindex.symm⟩, hdesc⟩
    · obtain ⟨hslot, -⟩ := Prod.mk.inj heq
      exact absurd (slot_inj hbelow (Nat.zero_le 3) hslot).2.1 (Nat.succ_ne_zero below)
  · right
    refine ⟨?_, hload.trans (zeroed (below + 1) hbelow va)⟩
    rintro ⟨c, hc, rfl, hindex⟩
    apply hnone c hc (makeTableDesc (c.process.table below))
    rw [← PageWalk.slot_congr hindex]
    exact mem_entries.mpr (.inl ⟨below, hbelow, rfl⟩)

theorem descAt_page (zeroed : Zeroed t.mem p) (calls : List Call) (va : Word) :
    (∃ c ∈ calls, c.process = p ∧ ∃ a ∈ c.pages, PageWalk.index 0 a = PageWalk.index 0 va ∧
        PageWalk.descAt (Run.run step t calls).mem p.table va 0 = makeL3BlockDesc a) ∨
      (∀ c ∈ calls, c.process = p → ∀ a ∈ c.pages,
        PageWalk.index 0 a ≠ PageWalk.index 0 va) ∧
        PageWalk.descAt (Run.run step t calls).mem p.table va 0 = 0#64 := by
  rcases descAt_cases t p calls 0 (Nat.zero_le 3) va with ⟨c, hc, rfl, hmem⟩ | ⟨hnone, hload⟩
  · left
    rcases mem_entries.mp hmem with ⟨b, hb, heq⟩ | ⟨a, ha, heq⟩
    · obtain ⟨hslot, -⟩ := Prod.mk.inj heq
      exact absurd (slot_inj (Nat.zero_le 3) (Nat.succ_le_of_lt hb) hslot).2.1.symm
        (Nat.succ_ne_zero b)
    · obtain ⟨hslot, hdesc⟩ := Prod.mk.inj heq
      exact ⟨c, hc, rfl, a, ha, (slot_inj (Nat.zero_le 3) (Nat.zero_le 3) hslot).2.2.symm, hdesc⟩
  · right
    refine ⟨?_, hload.trans (zeroed 0 (Nat.zero_le 3) va)⟩
    rintro c hc rfl a ha hindex
    apply hnone c hc (makeL3BlockDesc a)
    rw [← PageWalk.slot_congr hindex]
    exact mem_entries.mpr (.inr ⟨a, ha, rfl⟩)

theorem valid_upper_iff (zeroed : Zeroed t.mem p) (calls : List Call) {below : Nat}
    (hbelow : below < 3) (va : Word) :
    (PageWalk.descAt (Run.run step t calls).mem p.table va (below + 1)).getLsbD 0 = true ↔
      Entered p calls (below + 1) va := by
  rcases descAt_upper zeroed calls hbelow va with ⟨hentered, hload⟩ | ⟨hnot, hload⟩
  · rw [hload]
    exact iff_of_true (getLsbD_makeTableDesc _ (by decide)) hentered
  · rw [hload]
    exact iff_of_false (by decide) hnot

theorem blockless_run (zeroed : Zeroed t.mem p) (calls : List Call) (va : Word) :
    PageWalk.Blockless (Run.run step t calls).mem p.table va := by
  intro below hbelow hvalid
  rcases descAt_upper zeroed calls hbelow va with ⟨-, hload⟩ | ⟨-, hload⟩
  · rw [hload]
    exact getLsbD_makeTableDesc _ (by decide)
  · rw [hload] at hvalid
    exact absurd hvalid (by decide)

theorem mapsPage_iff (zeroed : Zeroed t.mem p) (calls : List Call) (va frame : Word) :
    PageWalk.MapsPage (Run.run step t calls).mem (p.table 3) va frame ↔
      (∀ below < 3, Entered p calls (below + 1) va) ∧
        ∃ c ∈ calls, c.process = p ∧ ∃ a ∈ c.pages,
          PageWalk.index 0 a = PageWalk.index 0 va ∧ frame = pageFrame a ∧
          PageWalk.descAt (Run.run step t calls).mem p.table va 0 =
            makeL3BlockDesc a := by
  rw [PageWalk.mapsPage_iff (chained_run (zeroed.chained va) calls)
    (blockless_run zeroed calls va)]
  apply and_congr
  · exact forall₂_congr fun below hbelow => valid_upper_iff zeroed calls hbelow va
  · constructor
    · rintro ⟨hvalid, -, rfl⟩
      rcases descAt_page zeroed calls va with ⟨c, hc, hp, a, ha, hindex, hload⟩ | ⟨-, hload⟩
      · exact ⟨c, hc, hp, a, ha, hindex, by rw [hload, address_pageDesc], hload⟩
      · rw [hload] at hvalid
        exact absurd hvalid (by decide)
    · rintro ⟨c, hc, hp, a, ha, hindex, rfl, hload⟩
      rw [hload]
      exact ⟨getLsbD_makeL3BlockDesc _ (by decide), getLsbD_makeL3BlockDesc _ (by decide),
        address_pageDesc a⟩

/-- The walks of two requested pages end in one level 3 table, so the region of one with
the level 3 index of the other is mapped too. -/
theorem oneRegion_of_exact (zeroed : Zeroed t.mem p) {calls : List Call}
    (exact : Exact (Run.run step t calls).mem p calls) : OneRegion p calls := by
  rintro _ _ ⟨c, hc, hp, a, ha, rfl⟩ ⟨d, hd, hq, b, hb, rfl⟩
  obtain ⟨f, hf⟩ := (exact.found a).mpr ⟨c, hc, hp, a, ha, rfl⟩
  obtain ⟨g, hg⟩ := (exact.found b).mpr ⟨d, hd, hq, b, hb, rfl⟩
  let va := BitVec.ofNat 64 (4096 * (pageOf a / 512 * 512 + pageOf b % 512))
  have hpage : pageOf va = pageOf a / 512 * 512 + pageOf b % 512 := by
    have hlt : pageOf a < 2 ^ 36 := Nat.mod_lt _ (by decide)
    exact pageOf_ofNat (by omega)
  have hregion : pageOf a / 512 = pageOf va / 512 := by omega
  have hindex : PageWalk.index 0 b = PageWalk.index 0 va := by
    rw [index_eq b (Nat.zero_le 3), index_eq va (Nat.zero_le 3), hpage]
    omega
  have hva : PageWalk.MapsPage (Run.run step t calls).mem (p.table 3) va g := by
    rw [mapsPage_iff zeroed] at hf hg ⊢
    obtain ⟨hupper, -⟩ := hf
    obtain ⟨-, e, he, hpe, x, hx, hxb, hframe, hload⟩ := hg
    refine ⟨fun below hbelow => ?_, e, he, hpe, x, hx, hxb.trans hindex, hframe, ?_⟩
    · obtain ⟨e, he, hpe, hup⟩ := hupper below hbelow
      exact ⟨e, he, hpe, hup.trans (index_eq_of_region hregion hbelow)⟩
    · rwa [← PageWalk.descAt_congr hindex]
  have hsame : pageFrame b = pageFrame va := (exact.own b g hg).symm.trans (exact.own va g hva)
  rw [hregion, pageFrame_inj hsame]

theorem exact_of_oneRegion (zeroed : Zeroed t.mem p) {calls : List Call}
    (one : OneRegion p calls) : Exact (Run.run step t calls).mem p calls := by
  have hasked (va : Word) (hupper : ∀ below < 3, Entered p calls (below + 1) va)
      {c : Call} (hc : c ∈ calls) (hp : c.process = p) {a : Word} (ha : a ∈ c.pages)
      (hindex : PageWalk.index 0 a = PageWalk.index 0 va) : pageOf a = pageOf va := by
    apply pageOf_eq_of_index _ hindex
    apply region_eq_of_index
    intro below hbelow
    obtain ⟨d, hd, hq, hentered⟩ := hupper below hbelow
    have hregion := one _ _ ⟨c, hc, hp, a, ha, rfl⟩ ⟨d, hd, hq, _, address_mem_pages d, rfl⟩
    exact (index_eq_of_region hregion hbelow).trans hentered
  constructor
  · intro va
    constructor
    · rintro ⟨frame, h⟩
      obtain ⟨hupper, c, hc, hp, a, ha, hindex, -⟩ := (mapsPage_iff zeroed calls va frame).mp h
      exact ⟨c, hc, hp, a, ha, hasked va hupper hc hp ha hindex⟩
    · rintro ⟨c, hc, hp, a, ha, hpage⟩
      have hindex : PageWalk.index 0 a = PageWalk.index 0 va := by
        rw [index_eq a (Nat.zero_le 3), index_eq va (Nat.zero_le 3), hpage]
      have hupper (below : Nat) (hbelow : below < 3) : Entered p calls (below + 1) va := by
        have hregion := one _ _ ⟨c, hc, hp, _, address_mem_pages c, rfl⟩ ⟨c, hc, hp, a, ha, rfl⟩
        exact ⟨c, hc, hp, index_eq_of_region (hpage ▸ hregion) hbelow⟩
      rcases descAt_page zeroed calls va with ⟨d, hd, hq, b, hb, hb0, hload⟩ | ⟨hnone, -⟩
      · exact ⟨pageFrame b, (mapsPage_iff zeroed calls va _).mpr
          ⟨hupper, d, hd, hq, b, hb, hb0, rfl, hload⟩⟩
      · exact absurd hindex (hnone c hc hp a ha)
  · intro va frame h
    obtain ⟨hupper, c, hc, hp, a, ha, hindex, rfl, -⟩ := (mapsPage_iff zeroed calls va frame).mp h
    rw [pageFrame, pageFrame, hasked va hupper hc hp ha hindex]

/-- Exactly while the pages requested for the process lie in one 2 MiB region. -/
theorem user_maps_exactly_iff (zeroed : Zeroed t.mem p) (calls : List Call) :
    Exact (Run.run step t calls).mem p calls ↔ OneRegion p calls :=
  ⟨oneRegion_of_exact zeroed, exact_of_oneRegion zeroed⟩

end

def nearPages : List Call :=
  [⟨.one, .tenPages, 0x80001F38#64⟩, ⟨.two, .test, 0xC0001000#64⟩,
    ⟨.one, .test, 0x80005000#64⟩, ⟨.one, .test, 0x801FF000#64⟩]

theorem user_maps_exactly_near_pages :
    Exact (Run.run step zeroTables nearPages).mem .one nearPages := by
  have hregion : ∀ c ∈ nearPages, c.process = .one → ∀ a ∈ c.pages, pageOf a / 512 = 0x400 := by
    simp [nearPages, Call.pages, pageOf]
    intro a ha
    omega
  refine (user_maps_exactly_iff (zeroed_zeroTables .one) _).mpr ?_
  rintro _ _ ⟨c, hc, hp, a, ha, rfl⟩ ⟨d, hd, hq, b, hb, rfl⟩
  rw [hregion c hc hp a ha, hregion d hd hq b hb]

def writeAndStack : List Call :=
  [⟨.one, .tenPages, 0x80001F38#64⟩, ⟨.one, .test, 0xC0001000#64⟩]

theorem user_not_maps_exactly_two_regions :
    Zeroed zeroTables.mem .one ∧
      ¬ Exact (Run.run step zeroTables writeAndStack).mem .one writeAndStack := by
  refine ⟨zeroed_zeroTables .one, fun exact => ?_⟩
  have hwrite : Requested .one writeAndStack 0x80001 :=
    ⟨_, List.mem_cons_self, rfl, _, address_mem_pages _, by decide⟩
  have hstack : Requested .one writeAndStack 0xC0001 :=
    ⟨_, List.mem_cons_of_mem _ List.mem_cons_self, rfl, _, address_mem_pages _, by decide⟩
  exact absurd (oneRegion_of_exact (zeroed_zeroTables .one) exact _ _ hwrite hstack) (by decide)

end KernelFuzzing.Mmu.UserMapping
