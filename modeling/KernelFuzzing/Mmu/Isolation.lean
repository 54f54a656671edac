import KernelFuzzing.Mmu.UserTables

/-! What a call for one process leaves as it is: the other process's tables and those of
the kernel. -/
namespace KernelFuzzing.Mmu.Isolation
open Foundation Memory UserTables

def callsFor (p : Process) (calls : List Call) : List Call := calls.filter (·.process = p)

def InTables (p : Process) (x : Word) : Prop := ∃ below ≤ 3, Within (p.table below) 4096 x

def kernelTables : List Word := [l0BasePhys, l1BasePhys, l2BasePhys, l2Index3BasePhys]

theorem within_table {p : Process} {below : Nat} {x : Word} (h : Within (p.table below) 4096 x) :
    p.base + 0x10000 * (3 - below) ≤ x.toNat ∧
      x.toNat < p.base + 0x10000 * (3 - below) + 4096 := by
  have htable := toNat_table p below
  have hsmall : (p.table below).toNat + 4096 ≤ 2 ^ 64 := by
    cases p <;> simp only [Process.base] at htable <;> omega
  rw [← htable]
  exact (within_iff hsmall).mp h

theorem within_slot {p : Process} {below : Nat} {va x : Word}
    (h : Within (PageWalk.slot below va (p.table below)) 8 x) :
    p.base + 0x10000 * (3 - below) + 8 * PageWalk.index below va ≤ x.toNat ∧
      x.toNat < p.base + 0x10000 * (3 - below) + 8 * PageWalk.index below va + 8 := by
  have hslot := toNat_slot p below va
  have hindex := PageWalk.index_lt below va
  have hsmall : (PageWalk.slot below va (p.table below)).toNat + 8 ≤ 2 ^ 64 := by
    cases p <;> simp only [Process.base] at hslot <;> omega
  rw [← hslot]
  exact (within_iff hsmall).mp h

theorem not_within_other {p : Process} {c : Call} (hp : c.process ≠ p) {w : Word × Word}
    (hw : w ∈ c.entries) {x : Word} (hx : InTables p x) : ¬ Within w.1 8 x := by
  obtain ⟨below, hbelow, hx⟩ := hx
  obtain ⟨b, hb, va, hslot⟩ := slot_of_mem_entries hw
  have hindex := PageWalk.index_lt b va
  have hin := within_table hx
  rw [hslot]
  intro hstored
  have hat := within_slot hstored
  cases p <;> cases hc : c.process <;> simp only [hc, Process.base] at hp hin hat
  · exact hp rfl
  · omega
  · omega
  · exact hp rfl

theorem not_within_kernel {c : Call} {w : Word × Word} (hw : w ∈ c.entries) {table x : Word}
    (htable : table ∈ kernelTables) (hx : Within table 4096 x) : ¬ Within w.1 8 x := by
  obtain ⟨b, -, va, hslot⟩ := slot_of_mem_entries hw
  have hbelow : table.toNat + 4096 ≤ 0x80081000 := by
    simp only [kernelTables, List.mem_cons, List.not_mem_nil, or_false] at htable
    rcases htable with rfl | rfl | rfl | rfl <;> decide
  have hin := (within_iff (by omega)).mp hx
  rw [hslot]
  intro hstored
  have hat := within_slot hstored
  cases hc : c.process <;> simp only [hc, Process.base] at hat <;> omega

theorem mem_run_eq (t : Tables) {p : Process} (calls : List Call) {x : Word}
    (hx : InTables p x) :
    (Run.run step t calls).mem x = (Run.run step t (callsFor p calls)).mem x := by
  have hstores (m : Memory) : storeAll m (calls.flatMap Call.entries) x =
      storeAll m ((callsFor p calls).flatMap Call.entries) x := by
    induction calls generalizing m with
    | nil => rfl
    | cons c calls ih =>
      rw [List.flatMap_cons, storeAll_append, ih]
      by_cases hp : c.process = p
      · have hcons : callsFor p (c :: calls) = c :: callsFor p calls := by simp [callsFor, hp]
        rw [hcons, List.flatMap_cons, storeAll_append]
      · have hskip : callsFor p (c :: calls) = callsFor p calls := by simp [callsFor, hp]
        rw [hskip]
        exact storeAll_congr _ (storeAll_of_not_within fun w hw => not_within_other hp hw hx)
  rw [run_eq, run_eq]
  exact hstores t.mem

theorem descAt_run_eq (t : Tables) (p : Process) {calls calls' : List Call}
    (same : callsFor p calls = callsFor p calls') {below : Nat} (hbelow : below ≤ 3) (va : Word) :
    PageWalk.descAt (Run.run step t calls).mem p.table va below =
      PageWalk.descAt (Run.run step t calls').mem p.table va below := by
  apply load64_congr
  intro x hx
  have hat := within_slot hx
  have hindex := PageWalk.index_lt below va
  have htable := toNat_table p below
  have hin : InTables p x := by
    refine ⟨below, hbelow, (within_iff ?_).mpr ?_⟩
    · cases p <;> simp only [Process.base] at htable <;> omega
    · omega
  rw [mem_run_eq t calls hin, mem_run_eq t calls' hin, same]

/-- The interleaving with the calls for the other process does not matter for the
contents of a process's tables nor, where they lead only to one another at first as zeroed
tables do, for its translations; the kernel's tables stay as they are. -/
theorem processes_do_not_interfere (t : Tables) (p : Process) {calls calls' : List Call}
    (same : callsFor p calls = callsFor p calls') :
    (∀ x, InTables p x → (Run.run step t calls).mem x = (Run.run step t calls').mem x) ∧
      (∀ va, PageWalk.Chained t.mem p.table va →
        PageWalk.walk (Run.run step t calls).mem (p.table 3) va =
          PageWalk.walk (Run.run step t calls').mem (p.table 3) va) ∧
      ∀ table ∈ kernelTables, ∀ x, Within table 4096 x →
        (Run.run step t calls).mem x = t.mem x := by
  refine ⟨fun x hx => ?_, fun va chained => ?_, fun table htable x hx => ?_⟩
  · rw [mem_run_eq t calls hx, mem_run_eq t calls' hx, same]
  · exact PageWalk.walkFrom_congr (chained_run chained calls)
      (fun below hbelow => descAt_run_eq t p same hbelow va) (le_refl 3)
  · rw [run_eq]
    apply storeAll_of_not_within
    intro w hw
    obtain ⟨c, -, hw⟩ := List.mem_flatMap.mp hw
    exact not_within_kernel hw htable hx

def stackThenWrite : List Call :=
  [⟨.one, .test, 0xC0001000#64⟩, ⟨.two, .tenPages, 0x80001F38#64⟩]

theorem processes_do_not_interfere_two_orders :
    PageWalk.walk (Run.run step zeroTables stackThenWrite).mem (Process.one.table 3)
        0xC0001000#64 =
      PageWalk.walk (Run.run step zeroTables stackThenWrite.reverse).mem (Process.one.table 3)
        0xC0001000#64 := by
  have same : callsFor .one stackThenWrite = callsFor .one stackThenWrite.reverse := rfl
  have hwalk := (processes_do_not_interfere zeroTables .one same).2.1 0xC0001000#64
    ((zeroed_zeroTables .one).chained 0xC0001000#64)
  exact hwalk

end KernelFuzzing.Mmu.Isolation
