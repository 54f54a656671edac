import KernelFuzzing.Mmu.HeapMemory

/-! What the kernel's C code does with the heap: calls of `kmalloc`, and loads and stores of
whole values through the addresses it returned. -/
namespace KernelFuzzing.Mmu.HeapMemory
open Foundation Memory

def stores {w : Nat} (a : Word) (n : Nat) (v : BitVec w) : List Event :=
  (List.range n).map fun i => .store (a + BitVec.ofNat 64 i) (v.extractLsb' (8 * i) 8)

def write {w : Nat} (link : Link) (t : State) (a : Word) (n : Nat) (v : BitVec w) : State :=
  Run.run (step link) t (stores a n v)

def kmalloc (link : Link) (t : State) (size : Word) (res : BitIndexArray) : Word × State :=
  ((Mmu.kmalloc link t.heap.kernel size res).1, step link t (.kmalloc ⟨size, res⟩))

theorem stores_succ {w : Nat} (a : Word) (n : Nat) (v : BitVec w) : stores a (n + 1) v =
    stores a n v ++ [.store (a + BitVec.ofNat 64 n) (v.extractLsb' (8 * n) 8)] := by
  simp [stores, List.range_succ]

theorem write_bytes {w : Nat} (link : Link) (t : State) (a : Word) {n : Nat} (hn : n ≤ 2 ^ 64)
    (v : BitVec w) :
    (write link t a n v).flat =
        (fun x => if Within a n x then v.extractLsb' (8 * (x - a).toNat) 8 else t.flat x) ∧
      (write link t a n v).heap.returned = t.heap.returned := by
  unfold write
  induction n with
  | zero => exact ⟨funext fun x => (if_neg (Nat.not_lt_zero _)).symm, rfl⟩
  | succ n ih =>
    obtain ⟨hflat, hreturned⟩ := ih (by omega)
    rw [stores_succ, Run.run_append]
    generalize Run.run (step link) t (stores a n v) = t' at hflat hreturned
    constructor
    · funext x
      change Function.update t'.flat _ _ x = _
      rw [hflat]
      by_cases hx : x = a + BitVec.ofNat 64 n
      · have hsub : (x - a).toNat = n := by bv_omega
        have hin : Within a (n + 1) x := by
          unfold Within
          omega
        rw [if_pos hin, hx, Function.update_self, ← hx, hsub]
      · have hiff : Within a (n + 1) x ↔ Within a n x := by
          unfold Within
          bv_omega
        rw [Function.update_of_ne hx]
        simp only [hiff]
    · rw [← hreturned]
      exact returned_store t'.heap _ _

theorem write_flat64 (link : Link) (t : State) (a v : Word) :
    (write link t a 8 v).flat = store64 t.flat a v := (write_bytes link t a (by decide) v).1

theorem write_flat32 (link : Link) (t : State) (a : Word) (v : BitVec 32) :
    (write link t a 4 v).flat = store32 t.flat a v := (write_bytes link t a (by decide) v).1

def Covered (ranges : List (Word × Nat)) (va : Word) : Prop :=
  ∃ range ∈ ranges, Within range.1 (4096 * range.2) va

def total (ranges : List (Word × Nat)) : Nat := (ranges.map Prod.snd).sum

theorem total_append (ranges : List (Word × Nat)) (va : Word) (n : Nat) :
    total (ranges ++ [(va, n)]) = total ranges + n := by
  simp [total]

theorem Covered.append_left {ranges : List (Word × Nat)} {va : Word} (h : Covered ranges va)
    (more : List (Word × Nat)) : Covered (ranges ++ more) va := by
  obtain ⟨range, hrange, hin⟩ := h
  exact ⟨range, List.mem_append_left more hrange, hin⟩

structure Sound (link : Link) (t : State) (ranges : List (Word × Nat)) : Prop where
  inv : Inv link t
  returned : t.heap.returned = ranges

section
variable {link : Link} {t : State} {ranges : List (Word × Nat)}

theorem Sound.pages (h : Sound link t ranges) : t.heap.pages = total ranges := by
  rw [total, ← h.returned]
  rfl

theorem Sound.map (near : Windows.InFirstWindow link) (h : Sound link t ranges)
    (c : UserTables.Call) : Sound link (step link t (.map c)) ranges :=
  ⟨inv_map near h.inv c, h.returned⟩

theorem Sound.kmalloc (near : Windows.InFirstWindow link) (h : Sound link t ranges) {size : Word}
    (small : pageCount size ≤ 20) (room : total ranges + pageCount size ≤ 512)
    (res : BitIndexArray) :
    (kmalloc link t size res).1 = pageAddress (total ranges) ∧
      Sound link (kmalloc link t size res).2
        (ranges ++ [(pageAddress (total ranges), pageCount size)]) := by
  have hpages := h.pages
  have hlegal : Legal t (.kmalloc ⟨size, res⟩) := ⟨small, by dsimp only; omega⟩
  have haddress := address_kmalloc h.inv hlegal
  have hreturned := returned_kmalloc h.inv hlegal
  rw [hpages] at haddress
  rw [h.returned, hpages] at hreturned
  exact ⟨haddress, inv_kmalloc near h.inv hlegal, hreturned⟩

theorem Sound.write {w : Nat} (near : Windows.InFirstWindow link) (h : Sound link t ranges)
    {a : Word} {n : Nat} (hn : n ≤ 2 ^ 64) (covered : ∀ x, Within a n x → Covered ranges x)
    (v : BitVec w) : Sound link (write link t a n v) ranges := by
  refine ⟨?_, (write_bytes link t a hn v).2.trans h.returned⟩
  have hlegal (k : Nat) (hk : k ≤ n) :
      Run.Guarded (step link) Legal t (stores a k v) := by
    induction k with
    | zero => trivial
    | succ k ih =>
      have hreturned := (write_bytes link t a (n := k) (by omega) v).2.trans h.returned
      rw [stores_succ, Run.guarded_append]
      refine ⟨ih (by omega), ?_, trivial⟩
      have hin : Within a n (a + BitVec.ofNat 64 k) := within_offset a (by omega) hn
      obtain ⟨range, hrange, hin⟩ := covered _ hin
      exact ⟨range, hreturned ▸ hrange, hin⟩
  have always : Run.Always (step link) (Inv link) t (stores a n v) :=
    Run.always_of_guarded (fun _ _ hinv ok => inv_step near hinv ok) h.inv
      (hlegal n (Nat.le_refl n))
  exact always.last

end

end KernelFuzzing.Mmu.HeapMemory
