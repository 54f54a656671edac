import KernelFuzzing.Foundation.Ownership
import KernelFuzzing.Foundation.Run
import KernelFuzzing.Mmu.FirstFit

/-! The bitmap against the page set it stands for: `allocateMem` hands free
pages to a new owner, `freePages` takes an owner's pages back. -/
namespace KernelFuzzing.Mmu.PageOwnership
open Foundation Ownership

structure Allocation where
  res : BitIndexArray
  count : Word
  entries : ∀ i < count.toNat, ∃ p < scanned, res i = .ofPosition p

def Allocation.pages (a : Allocation) : List Nat :=
  (List.range a.count.toNat).map fun i => (a.res i).position

/-- The allocator and the allocations not freed yet, oldest first. -/
structure Ledger where
  mem : AllocateMem
  live : List Allocation

def Ledger.pages (s : Ledger) : List (List Nat) := s.live.map Allocation.pages

inductive Call where
  /-- `allocateMem(mem, size, res)` with what `res` held before. -/
  | allocate (size : Word) (res : BitIndexArray)
  /-- `freePages` of the `k`-th live allocation's array and count. -/
  | free (k : Nat)

private theorem lt_of_scanned {p : Nat} (hp : p < scanned) : p < 2 ^ 64 := by
  rw [scanned_eq] at hp
  omega

private theorem granted_entries (mem : AllocateMem) (size : Word) (res : BitIndexArray) :
    ∀ i < (allocateMem mem size res).1.toNat,
      ∃ p < scanned, (allocateMem mem size res).2.2 i = .ofPosition p := by
  rw [allocateMem_eq]
  intro i hi
  dsimp only at hi ⊢
  split at hi
  · rename_i henough
    have hlen : i < (mem.available.take (pageCount size)).length := by
      rw [toNat_pageCount] at hi
      rw [List.length_take]
      omega
    refine ⟨(mem.available.take (pageCount size))[i], ?_, ?_⟩
    · exact (mem_available.mp (List.mem_of_mem_take (List.getElem_mem hlen))).1
    · simpa using storeAll_getElem res _ 0 i hlen
  · simp at hi

def granted (mem : AllocateMem) (size : Word) (res : BitIndexArray) : Allocation :=
  ⟨(allocateMem mem size res).2.2, (allocateMem mem size res).1, granted_entries mem size res⟩

def step (s : Ledger) : Call → Ledger
  | .allocate size res =>
      ⟨(allocateMem s.mem size res).2.1, s.live ++ [granted s.mem size res]⟩
  | .free k =>
      match s.live[k]? with
      | some a => ⟨freePages s.mem a.res a.count, s.live.eraseIdx k⟩
      | none => s

/-- Allocations succeed and only live allocations are freed. -/
def Legal (s : Ledger) : Call → Prop
  | .allocate size res => (allocateMem s.mem size res).1 ≠ 0
  | .free k => k < s.live.length

def boot : Ledger := ⟨.empty, []⟩

/-- The bits that are 1 are exactly the disjoint union of the live allocations'
pages, and with none of them left every byte is zero. -/
structure Refines (s : Ledger) : Prop where
  owns : Owns {p | s.mem.used p = true} s.pages
  allFreed : s.live = [] → ∀ i, s.mem.buffer i = 0

/-- No other live allocation has a page in a byte of the freed allocation. -/
def Separate (s : Ledger) : Call → Prop
  | .allocate _ _ => True
  | .free k => ∀ (hk : k < s.live.length) (j : Nat) (hj : j < s.live.length), j ≠ k →
      ∀ p ∈ s.live[k].pages, ∀ q ∈ s.live[j].pages, p / 8 ≠ q / 8

theorem granted_pages (mem : AllocateMem) (size : Word) (res : BitIndexArray)
    (h : (allocateMem mem size res).1 ≠ 0) :
    (granted mem size res).pages = mem.available.take (pageCount size) := by
  have enough : pageCount size ≤ mem.available.length := by
    by_contra hfew
    exact h ((FirstFit.allocate_eq_zero_iff res).mpr (Nat.lt_of_not_le hfew))
  have hcount : (allocateMem mem size res).1.toNat = pageCount size := by
    rw [allocateMem_eq, if_pos enough, toNat_pageCount]
  rw [Allocation.pages]
  change FirstFit.positions (allocateMem mem size res).2.2 (allocateMem mem size res).1.toNat = _
  rw [hcount]
  exact FirstFit.positions_eq enough res

theorem mem_allocate (mem : AllocateMem) (size : Word) (res : BitIndexArray) :
    (allocateMem mem size res).2.1 = mem.markAll (mem.available.take (pageCount size)) := by
  rw [allocateMem_eq]

private theorem mem_pages_lt {a : Allocation} {p : Nat} (hp : p ∈ a.pages) :
    p < scanned := by
  obtain ⟨i, hi, rfl⟩ := List.mem_map.mp hp
  obtain ⟨q, hq, hres⟩ := a.entries i (List.mem_range.mp hi)
  rw [hres, position_ofPosition (lt_of_scanned hq)]
  exact hq

/-- `deallocateMem` of the page at a position. -/
def release (mem : AllocateMem) (p : Nat) : AllocateMem :=
  (deallocateMem mem (BitIndex.ofPosition p).index (BitIndex.ofPosition p).bit).2

theorem release_buffer (mem : AllocateMem) {p : Nat} (hp : p < scanned) (i : Nat) :
    (release mem p).buffer i =
      if mem.used p = true ∧ p / 8 = i then 0 else mem.buffer i := by
  have hlt : p < 131088 := scanned_eq ▸ hp
  have hindex : (BitIndex.ofPosition p).index.toNat = p / 8 := by
    simp only [BitIndex.ofPosition, BitVec.toNat_ofNat]
    omega
  have hbit : (BitIndex.ofPosition p).bit.toNat = p % 8 := by
    simp only [BitIndex.ofPosition, BitVec.toNat_ofNat]
    omega
  unfold release deallocateMem
  rw [checkFree_eq _ _ _ (by omega), hindex, hbit, Nat.div_add_mod' p 8]
  cases mem.used p with
  | false => simp
  | true =>
    by_cases hi : p / 8 = i
    · simp [hi]
    · simp [hi, Function.update_of_ne (Ne.symm hi)]

theorem release_used (mem : AllocateMem) {p : Nat} (hp : p < scanned) (q : Nat) :
    (release mem p).used q = true ↔
      mem.used q = true ∧ ¬ (mem.used p = true ∧ p / 8 = q / 8) := by
  change ((release mem p).buffer (q / 8)).getLsbD (q % 8) = true ↔ _
  rw [release_buffer mem hp]
  by_cases h : mem.used p = true ∧ p / 8 = q / 8
  · simp [h]
  · rw [if_neg h]
    exact (and_iff_left h).symm

private theorem release_all_buffer (mem : AllocateMem) (ps : List Nat)
    (hps : ∀ p ∈ ps, p < scanned) (i : Nat) :
    (ps.foldl release mem).buffer i =
      if ∃ p ∈ ps, mem.used p = true ∧ p / 8 = i then 0 else mem.buffer i := by
  induction ps generalizing mem with
  | nil => simp
  | cons p ps ih =>
    have hp : p < scanned := hps p List.mem_cons_self
    rw [List.foldl_cons, ih _ fun q hq => hps q (List.mem_cons_of_mem p hq)]
    simp only [release_used mem hp, release_buffer mem hp, List.exists_mem_cons_iff]
    by_cases hhead : mem.used p = true ∧ p / 8 = i
    · simp [hhead]
    · by_cases htail : ∃ q ∈ ps, mem.used q = true ∧ q / 8 = i
      · obtain ⟨q, hq, hused, hqi⟩ := htail
        have hkept : ∃ q ∈ ps, (mem.used q = true ∧
            ¬ (mem.used p = true ∧ p / 8 = q / 8)) ∧ q / 8 = i :=
          ⟨q, hq, ⟨hused, fun h => hhead ⟨h.1, h.2.trans hqi⟩⟩, hqi⟩
        rw [if_pos hkept, if_pos (Or.inr ⟨q, hq, hused, hqi⟩)]
      · rw [if_neg fun ⟨q, hq, ⟨hused, _⟩, hqi⟩ => htail ⟨q, hq, hused, hqi⟩,
          if_neg hhead, if_neg (not_or.mpr ⟨hhead, htail⟩)]

theorem freePages_buffer (mem : AllocateMem) (a : Allocation) (i : Nat) :
    (freePages mem a.res a.count).buffer i =
      if ∃ p ∈ a.pages, mem.used p = true ∧ p / 8 = i then 0 else mem.buffer i := by
  have hfold : freePages mem a.res a.count = a.pages.foldl release mem := by
    unfold freePages Allocation.pages
    rw [List.foldl_map]
    apply List.foldl_ext
    intro m j hj
    obtain ⟨p, hp, hres⟩ := a.entries j (List.mem_range.mp hj)
    rw [hres, position_ofPosition (lt_of_scanned hp)]
    rfl
  rw [hfold]
  exact release_all_buffer mem a.pages (fun p hp => mem_pages_lt hp) i

theorem freePages_used (mem : AllocateMem) (a : Allocation) (q : Nat) :
    (freePages mem a.res a.count).used q = true ↔
      mem.used q = true ∧ ∀ p ∈ a.pages, mem.used p = true → p / 8 ≠ q / 8 := by
  change ((freePages mem a.res a.count).buffer (q / 8)).getLsbD (q % 8) = true ↔ _
  rw [freePages_buffer]
  by_cases h : ∃ p ∈ a.pages, mem.used p = true ∧ p / 8 = q / 8
  · rw [if_pos h]
    obtain ⟨p, hp, hused, hpq⟩ := h
    simp only [BitVec.ofNat_eq_ofNat, BitVec.getLsbD_zero, Bool.false_eq_true, false_iff]
    exact fun h => h.2 p hp hused hpq
  · rw [if_neg h]
    exact ⟨fun hq => ⟨hq, fun p hp hused hpq => h ⟨p, hp, hused, hpq⟩⟩, fun h => h.1⟩

private theorem buffer_eq_zero {mem : AllocateMem} (h : ∀ p, mem.used p = false) (i : Nat) :
    mem.buffer i = 0 := by
  apply BitVec.eq_of_getLsbD_eq
  intro k hk
  have hbit := h (i * 8 + k)
  unfold AllocateMem.used at hbit
  rw [show (i * 8 + k) / 8 = i by omega, show (i * 8 + k) % 8 = k by omega] at hbit
  simpa using hbit

private theorem refines_of_owns {s : Ledger}
    (h : Owns {p | s.mem.used p = true} s.pages) : Refines s where
  owns := h
  allFreed := by
    intro hnil
    apply buffer_eq_zero
    intro p
    have hp := h.exact p
    simp only [Ledger.pages, hnil, List.map_nil, List.flatten_nil, List.not_mem_nil,
      iff_false, Set.mem_ofPred_eq] at hp
    simpa using hp

theorem refines_boot : Refines boot :=
  refines_of_owns ⟨by simp [boot, Ledger.pages],
    by simp [boot, Ledger.pages, AllocateMem.used, AllocateMem.empty]⟩

theorem refines_allocate {s : Ledger} (h : Refines s) (size : Word) (res : BitIndexArray)
    (ok : (allocateMem s.mem size res).1 ≠ 0) : Refines (step s (.allocate size res)) := by
  apply refines_of_owns
  have hfree : ∀ p ∈ s.mem.available.take (pageCount size), s.mem.used p = false :=
    fun p hp => (mem_available.mp (List.mem_of_mem_take hp)).2
  have hnodup : (s.mem.available.take (pageCount size)).Nodup :=
    (available_nodup s.mem).sublist (List.take_sublist _ _)
  have hgrant := h.owns.grant hnodup fun p hp => by simp [hfree p hp]
  have hused : {p | (step s (.allocate size res)).mem.used p = true} =
      {p | s.mem.used p = true} ∪ {p | p ∈ s.mem.available.take (pageCount size)} := by
    ext p
    simp only [step, mem_allocate, used_markAll, Set.mem_union, Set.mem_ofPred_eq,
      Bool.or_eq_true, decide_eq_true_eq]
  have hpages : (step s (.allocate size res)).pages =
      s.pages ++ [s.mem.available.take (pageCount size)] := by
    simp [step, Ledger.pages, granted_pages _ _ _ ok]
  rw [hused, hpages]
  exact hgrant

private theorem step_free {s : Ledger} {k : Nat} (hk : k < s.live.length) :
    step s (.free k) =
      ⟨freePages s.mem s.live[k].res s.live[k].count, s.live.eraseIdx k⟩ := by
  simp [step, hk]

private theorem used_of_live {s : Ledger} (h : Refines s) {j : Nat}
    (hj : j < s.live.length) {q : Nat} (hq : q ∈ s.live[j].pages) : s.mem.used q = true :=
  (h.owns.exact q).mpr (List.mem_flatten.mpr
    ⟨s.live[j].pages, List.mem_map_of_mem (List.getElem_mem hj), hq⟩)

theorem refines_free {s : Ledger} (h : Refines s) {k : Nat} (hk : k < s.live.length)
    (separate : Separate s (.free k)) : Refines (step s (.free k)) := by
  apply refines_of_owns
  rw [step_free hk]
  have hkp : k < s.pages.length := by simpa [Ledger.pages] using hk
  have hrelease := h.owns.release hkp
  have hused : {p | (freePages s.mem s.live[k].res s.live[k].count).used p = true} =
      {p | s.mem.used p = true} \ {p | p ∈ s.pages[k]} := by
    ext q
    simp only [freePages_used, Set.mem_sdiff, Set.mem_ofPred_eq, Ledger.pages,
      List.getElem_map]
    constructor
    · rintro ⟨hq, hfar⟩
      exact ⟨hq, fun hmem => hfar q hmem hq rfl⟩
    · rintro ⟨hq, hnot⟩
      -- the page belongs to another owner, which the freed bytes do not touch
      obtain ⟨pages, hpages, hqp⟩ := List.mem_flatten.mp ((h.owns.exact q).mp hq)
      obtain ⟨j, hj, rfl⟩ := List.getElem_of_mem hpages
      have hj' : j < s.live.length := by simpa [Ledger.pages] using hj
      have hqj : q ∈ s.live[j].pages := by simpa [Ledger.pages] using hqp
      have hne : j ≠ k := by
        rintro rfl
        exact hnot hqj
      exact ⟨hq, fun p hp _ => separate hk j hj' hne p hp q hqj⟩
  have hpages : Ledger.pages ⟨freePages s.mem s.live[k].res s.live[k].count,
      s.live.eraseIdx k⟩ = s.pages.eraseIdx k := by
    simp [Ledger.pages, List.eraseIdx_map]
  rw [hused, hpages]
  exact hrelease

theorem not_refines_free {s : Ledger} (h : Refines s) {k : Nat} (hk : k < s.live.length)
    (shared : ¬ Separate s (.free k)) : ¬ Refines (step s (.free k)) := by
  intro hafter
  apply shared
  intro _ j hj hne p hp q hq hbyte
  rw [step_free hk] at hafter
  have hstill : (freePages s.mem s.live[k].res s.live[k].count).used q = true := by
    refine (hafter.owns.exact q).mpr (List.mem_flatten.mpr ⟨s.live[j].pages, ?_, hq⟩)
    exact List.mem_map_of_mem (List.mem_eraseIdx_iff_getElem.mpr ⟨j, hj, hne, rfl⟩)
  exact ((freePages_used _ _ _).mp hstill).2 p hp (used_of_live h hk hp) hbyte

/-- Along a run of the allocator the bitmap is the disjoint union of the live
allocations exactly when no freed allocation shares a byte with a live one. -/
theorem bitmap_refines_iff_separate (calls : List Call)
    (legal : Run.Guarded step Legal boot calls) :
    Run.Always step Refines boot calls ↔ Run.Guarded step Separate boot calls := by
  refine Run.always_iff_guarded (fun _ h => h) ?_ ?_ refines_boot legal
  · intro s call h hlegal hsep
    cases call with
    | allocate size res => exact refines_allocate h size res hlegal
    | free k => exact refines_free h hlegal hsep
  · intro s call h hlegal hshared
    cases call with
    | allocate size res => exact absurd trivial hshared
    | free k => exact not_refines_free h hlegal hshared

private theorem allocate_range {mem : AllocateMem} {f m : Nat}
    (h : mem.available = List.range' f m) (size : Word) (enough : pageCount size ≤ m)
    (res : BitIndexArray) :
    (allocateMem mem size res).1 ≠ 0 ∧
      (granted mem size res).pages = List.range' f (pageCount size) ∧
      (allocateMem mem size res).2.1.available =
        List.range' (f + pageCount size) (m - pageCount size) := by
  have hpos := pageCount_pos size
  have hok : (allocateMem mem size res).1 ≠ 0 := by
    rw [allocateMem_eq, h, List.length_range', if_pos enough]
    intro hzero
    have htoNat := congrArg BitVec.toNat hzero
    rw [toNat_pageCount] at htoNat
    exact absurd htoNat (Nat.ne_of_gt hpos)
  refine ⟨hok, ?_, ?_⟩
  · rw [granted_pages _ _ _ hok, h, List.take_range'_of_length_ge enough]
  · rw [mem_allocate, available_markAll_take, h, List.drop_range', Nat.mul_one]

private theorem available_boot : boot.mem.available = List.range' 0 131088 := by
  rw [show boot.mem.available = _ from available_empty, scanned_eq, List.range_eq_range']

def sharedByteCalls (res : BitIndexArray) : List Call :=
  [.allocate 4096 res, .allocate 4096 res, .free 0]

theorem bitmap_not_refines_shared_byte :
    Run.Guarded step Legal boot (sharedByteCalls fun _ => ⟨0, 0, false⟩) ∧
      ¬ Run.Always step Refines boot (sharedByteCalls fun _ => ⟨0, 0, false⟩) := by
  let res : BitIndexArray := fun _ => ⟨0, 0, false⟩
  let one := step boot (.allocate 4096 res)
  let two := step one (.allocate 4096 res)
  have hcount : pageCount 4096 = 1 := by simp [pageCount]
  obtain ⟨ok₁, pages₁, free₁⟩ := allocate_range available_boot 4096 (by omega) res
  rw [hcount] at pages₁ free₁
  obtain ⟨ok₂, pages₂, -⟩ := allocate_range free₁ 4096 (by omega) res
  rw [hcount] at pages₂
  have hlive : two.live = [granted boot.mem 4096 res, granted one.mem 4096 res] := rfl
  have hlength : 0 < two.live.length := by simp [hlive]
  refine ⟨⟨ok₁, ok₂, hlength, trivial⟩, fun always => ?_⟩
  have htwo : Refines two := refines_allocate (refines_allocate refines_boot _ _ ok₁) _ _ ok₂
  -- page 0 of the freed allocation and page 1 of the live one are bits of byte 0
  have hfreed : 0 ∈ two.live[0].pages := by
    exact pages₁.symm ▸ List.mem_singleton_self 0
  have hlater : 1 < two.live.length := by simp [hlive]
  have hkept : 1 ∈ two.live[1].pages := by
    exact pages₂.symm ▸ List.mem_singleton_self 1
  have shared : ¬ Separate two (.free 0) := fun separate =>
    separate hlength 1 hlater (by decide) 0 hfreed 1 hkept rfl
  exact not_refines_free htwo hlength shared always.last

def wholeByteCalls (res : BitIndexArray) : List Call :=
  [.allocate 32768 res, .allocate 36864 res, .free 0, .free 0]

theorem bitmap_refines_whole_bytes :
    Run.Always step Refines boot (wholeByteCalls fun _ => ⟨0, 0, false⟩) := by
  let res : BitIndexArray := fun _ => ⟨0, 0, false⟩
  let one := step boot (.allocate 32768 res)
  let two := step one (.allocate 36864 res)
  have height : pageCount 32768 = 8 := by simp [pageCount]
  have hnine : pageCount 36864 = 9 := by simp [pageCount]
  obtain ⟨ok₁, pages₁, free₁⟩ := allocate_range available_boot 32768 (by omega) res
  rw [height] at pages₁ free₁
  obtain ⟨ok₂, pages₂, -⟩ := allocate_range free₁ 36864 (by omega) res
  rw [hnine] at pages₂
  have hlive : two.live = [granted boot.mem 32768 res, granted one.mem 36864 res] := rfl
  have legal : Run.Guarded step Legal boot (wholeByteCalls res) :=
    ⟨ok₁, ok₂, Nat.zero_lt_succ 1, Nat.zero_lt_succ 0, trivial⟩
  refine (bitmap_refines_iff_separate _ legal).mpr ⟨trivial, trivial, ?_, ?_, trivial⟩
  · -- pages 0 to 7 lie in byte 0, pages 8 to 16 in the two bytes after it
    intro hk j hj hne p hp q hq
    have hj1 : j = 1 := by
      have : j < 2 := hj
      omega
    subst hj1
    have hp' := List.mem_range'_1.mp (pages₁ ▸ hp)
    have hq' := List.mem_range'_1.mp (pages₂ ▸ hq)
    omega
  · intro hk j hj hne
    have : j < 1 := hj
    omega

end KernelFuzzing.Mmu.PageOwnership
