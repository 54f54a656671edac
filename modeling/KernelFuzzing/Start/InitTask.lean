import KernelFuzzing.Block.Backend
import KernelFuzzing.Mmu.HeapAccess
import KernelFuzzing.Scheduler.InMemory
import KernelFuzzing.Vectors.Switch

/-! `init_task` of core/kmain.c: the record, the kernel stack and the first context of a
task, made in memory that `kmalloc` hands out and that is reached through its tables. -/
namespace KernelFuzzing.Start.InitTask
open Foundation Memory Mmu Scheduler
open Block (kernalToUserSpace)
open HeapMemory (Event Sound Covered total total_append)
open UserTables (Process)
open Vectors (TaskPlan sizeofContext spsrEl0tDefault ctxSpEl0 ctxElr ctxSpsr ctxTtbr0El1)

/-- The functions that are mapped for every program. -/
structure Image where
  sysWrite : Word
  uartPrintf : Word

/-- The arguments of a call, and what the arrays `res` of its `kmalloc` calls hold before. -/
structure Args where
  id : BitVec 32
  name : Word
  entry : Word
  sz : Word
  res : Fin 3 → BitIndexArray

/-- Memory and the scheduler's static pointers, with the tasks so far and what each was
given. -/
structure State where
  memory : HeapMemory.State
  rqHead : Word
  rqTail : Word
  current : Word
  tasks : List Word
  plan : Word → TaskPlan

def userStackOf (t : Word) : Word := t + BitVec.ofNat 64 16
def kernelStackOf (t : Word) : Word := t + BitVec.ofNat 64 24
def nameOf (t : Word) : Word := t + BitVec.ofNat 64 40

/-- The process whose tables `id == 1` chooses. -/
def processOf (id : BitVec 32) : Process := if id = 1#32 then .one else .two

/-- `int id` is passed on as `uint64_t`. -/
def State.mapUserToPhysical (s : State) (id : BitVec 32) (address : Word) : State :=
  let m := s.memory
  { s with
    memory := { m with
      heap := HeapMemory.withTables m.heap
        (Mmu.mapUserToPhysical m.heap.kernel.tables (id.signExtend 64) address)
      calls := m.calls ++ [⟨processOf id, .tenPages, address⟩] } }

def State.mapUserToPhysicalTest (s : State) (id : BitVec 32) (address : Word) : State :=
  let m := s.memory
  { s with
    memory := { m with
      heap := HeapMemory.withTables m.heap
        (Mmu.mapUserToPhysicalTest m.heap.kernel.tables (id.signExtend 64) address)
      calls := m.calls ++ [⟨processOf id, .test, address⟩] } }

section
variable (link : Link)

def State.store64 (s : State) (a v : Word) : State :=
  { s with memory := HeapMemory.write link s.memory a 8 v }

def State.store32 (s : State) (a : Word) (v : BitVec 32) : State :=
  { s with memory := HeapMemory.write link s.memory a 4 v }

def State.kmalloc (s : State) (size : Word) (res : BitIndexArray) : Word × State :=
  let result := HeapMemory.kmalloc link s.memory size res
  (result.1, { s with memory := result.2 })

def schedReadyEnqueue (s : State) (t : Word) : State :=
  let s := s.store32 link (InMemory.stateOf t) InMemory.ready
  let s := s.store32 link (InMemory.sliceLeftOf t) 10#32
  if s.rqTail = 0#64 then { s with rqHead := t, rqTail := t }
  else { s.store64 link (InMemory.nextOf s.rqTail) t with rqTail := t }

def initTask (image : Image) (s : State) (a : Args) : Word × State :=
  let s := s.mapUserToPhysical a.id image.sysWrite
  let s := s.mapUserToPhysical a.id image.uartPrintf
  let (task, s) := s.kmalloc link (BitVec.ofNat 64 InMemory.sizeofTask) (a.res 0)
  let (kstack, s) := s.kmalloc link a.sz (a.res 1)
  let (ustackT, s) := s.kmalloc link a.sz (a.res 2)
  let ustack := kernalToUserSpace ustackT
  let s := s.mapUserToPhysicalTest a.id ustack
  let ustack := ustack + a.sz
  let s := s.store32 link task a.id
  let s := s.store64 link (nameOf task) a.name
  let s := s.store64 link (kernelStackOf task) kstack
  let s := s.store64 link (userStackOf task) ustack
  let ktop := kstack + a.sz
  let ctx := ktop - sizeofContext
  let entry := kernalToUserSpace a.entry
  let s := s.mapUserToPhysical a.id entry
  let s := s.store64 link (ctx + BitVec.ofNat 64 ctxSpEl0) ustack
  let s := s.store64 link (ctx + BitVec.ofNat 64 ctxElr) entry
  let s := s.store64 link (ctx + BitVec.ofNat 64 ctxSpsr) spsrEl0tDefault
  let table := if a.id = 1#32 then userProcess1TableStart else userProcess2TableStart
  let s := s.store64 link (ctx + BitVec.ofNat 64 ctxTtbr0El1) table
  let s := s.store64 link (InMemory.contextOf task) ctx
  let s := schedReadyEnqueue link s task
  (task, { s with
    tasks := s.tasks ++ [task]
    plan := Function.update s.plan task ⟨kstack, a.sz, entry, ustack, table⟩ })

end

theorem signExtend_eq_one_iff (id : BitVec 32) : id.signExtend 64 = 1#64 ↔ id = 1#32 := by
  constructor
  · intro h
    apply BitVec.eq_of_toInt_eq
    rw [← BitVec.toInt_signExtend_of_le (v := 64) (by decide), h]
    decide
  · rintro rfl
    decide

theorem id_processOf_eq_one_iff (id : BitVec 32) : (processOf id).id = 1#64 ↔ id = 1#32 := by
  unfold processOf
  split <;> simp [Process.id, *]

section
variable (link : Link) (s : State) (id : BitVec 32) (address : Word)

theorem mapUserToPhysical_eq : ∃ heap calls, s.mapUserToPhysical id address =
    { s with memory := { s.memory with heap := heap, calls := calls } } := ⟨_, _, rfl⟩

theorem mapUserToPhysicalTest_eq : ∃ heap calls, s.mapUserToPhysicalTest id address =
    { s with memory := { s.memory with heap := heap, calls := calls } } := ⟨_, _, rfl⟩

theorem mapUserToPhysical_memory : (s.mapUserToPhysical id address).memory =
    HeapMemory.step link s.memory (.map ⟨processOf id, .tenPages, address⟩) := by
  have htables (t : Tables) : Mmu.mapUserToPhysical t (id.signExtend 64) address =
      Mmu.mapUserToPhysical t (processOf id).id address := by
    simp only [Mmu.mapUserToPhysical, signExtend_eq_one_iff, id_processOf_eq_one_iff]
  rw [State.mapUserToPhysical, htables]
  rfl

theorem mapUserToPhysicalTest_memory : (s.mapUserToPhysicalTest id address).memory =
    HeapMemory.step link s.memory (.map ⟨processOf id, .test, address⟩) := by
  have htables (t : Tables) : Mmu.mapUserToPhysicalTest t (id.signExtend 64) address =
      Mmu.mapUserToPhysicalTest t (processOf id).id address := by
    simp only [Mmu.mapUserToPhysicalTest, signExtend_eq_one_iff, id_processOf_eq_one_iff]
  rw [State.mapUserToPhysicalTest, htables]
  rfl

end

def State.view (s : State) : InMemory.State := ⟨s.memory.flat, s.rqHead, s.rqTail, s.current⟩

section
variable (link : Link) (s : State) (a : Word)

theorem store64_view (v : Word) : (s.store64 link a v).view =
    { s.view with mem := Memory.store64 s.view.mem a v } := by
  rw [State.view, State.store64, HeapMemory.write_flat64]
  rfl

theorem store32_view (v : BitVec 32) : (s.store32 link a v).view =
    { s.view with mem := Memory.store32 s.view.mem a v } := by
  rw [State.view, State.store32, HeapMemory.write_flat32]
  rfl

theorem schedReadyEnqueue_view :
    (schedReadyEnqueue link s a).view = InMemory.schedReadyEnqueue s.view a := by
  have hview : ((s.store32 link (InMemory.stateOf a) InMemory.ready).store32 link
      (InMemory.sliceLeftOf a) 10#32).view = { s.view with
        mem := Memory.store32 (Memory.store32 s.view.mem (InMemory.stateOf a) InMemory.ready)
          (InMemory.sliceLeftOf a) 10#32 } := by rw [store32_view, store32_view]
  unfold schedReadyEnqueue InMemory.schedReadyEnqueue
  dsimp only
  rw [← hview]
  generalize (s.store32 link _ _).store32 link _ _ = s'
  unfold InMemory.rqPush
  split
  · rename_i hempty
    exact (if_pos hempty).symm
  · rename_i hne
    have hnext := store64_view link s' (InMemory.nextOf s'.rqTail) a
    exact (congrArg (fun v : InMemory.State => { v with rqTail := a }) hnext).trans
      (if_neg hne).symm

end

theorem sound_enqueue {link : Link} {s : State} {ranges : List (Word × Nat)}
    (near : Windows.InFirstWindow link) (h : Sound link s.memory ranges) {t : Word}
    (covered : ∀ x, Within t InMemory.sizeofTask x → Covered ranges x)
    (tail : s.rqTail ≠ 0#64 → ∀ x, Within s.rqTail InMemory.sizeofTask x → Covered ranges x) :
    Sound link (schedReadyEnqueue link s t).memory ranges := by
  have hstate := h.write near (a := InMemory.stateOf t) (n := 4) (by decide)
    (fun x hx => covered x (within_of_field (by decide) hx)) InMemory.ready
  have hslice := hstate.write near (a := InMemory.sliceLeftOf t) (n := 4) (by decide)
    (fun x hx => covered x (within_of_field (by decide) hx)) 10#32
  unfold schedReadyEnqueue
  dsimp only
  split
  · exact hslice
  · rename_i hne
    exact hslice.write near (a := InMemory.nextOf s.rqTail) (n := 8) (by decide)
      (fun x hx => tail hne x (within_of_field (by decide) hx)) t

/-- What a call gives a task when `f` is the first page that is free. -/
def planAt (a : Args) (f : Nat) : TaskPlan where
  kstack := pageAddress (f + 1)
  sz := a.sz
  entry := kernalToUserSpace a.entry
  ustack := kernalToUserSpace (pageAddress (f + 1 + pageCount a.sz)) + a.sz
  table := if a.id = 1#32 then userProcess1TableStart else userProcess2TableStart

/-- Memory after the stores of a call, up to that of `task->context`. -/
def written (m : Memory) (a : Args) (t : Word) (p : TaskPlan) : Memory :=
  let m := Memory.store32 m t a.id
  let m := Memory.store64 m (nameOf t) a.name
  let m := Memory.store64 m (kernelStackOf t) p.kstack
  let m := Memory.store64 m (userStackOf t) p.ustack
  let m := Vectors.buildInitialContext m p.ctx p.entry p.ustack
  Memory.store64 m (p.ctx + BitVec.ofNat 64 ctxTtbr0El1) p.table

def Args.pages (a : Args) : Nat := 1 + 2 * pageCount a.sz

def Args.ranges (a : Args) (f : Nat) : List (Word × Nat) :=
  [(pageAddress f, 1), (pageAddress (f + 1), pageCount a.sz),
    (pageAddress (f + 1 + pageCount a.sz), pageCount a.sz)]

structure Args.Fits (a : Args) (used : Nat) : Prop where
  context : 288 ≤ a.sz.toNat
  small : pageCount a.sz ≤ 20
  room : used + a.pages ≤ 512

structure Made (link : Link) (s s' : State) (a : Args) (ranges : List (Word × Nat)) : Prop where
  sound : Sound link s'.memory (ranges ++ a.ranges (total ranges))
  view : s'.view = InMemory.schedReadyEnqueue { s.view with
    mem := Memory.store64
      (written s.view.mem a (pageAddress (total ranges)) (planAt a (total ranges)))
      (InMemory.contextOf (pageAddress (total ranges))) (planAt a (total ranges)).ctx }
    (pageAddress (total ranges))
  tasks : s'.tasks = s.tasks ++ [pageAddress (total ranges)]
  plan : s'.plan = Function.update s.plan (pageAddress (total ranges)) (planAt a (total ranges))

/-- Part of a call is done: memory is `m`, the rest of the state as at first. -/
structure Reached (link : Link) (s s' : State) (ranges : List (Word × Nat)) (m : Memory) :
    Prop where
  sound : Sound link s'.memory ranges
  view : s'.view = { s.view with mem := m }
  tasks : s'.tasks = s.tasks
  plan : s'.plan = s.plan

section
variable {link : Link} {s s' : State} {ranges : List (Word × Nat)} {m : Memory}

theorem Reached.map (near : Windows.InFirstWindow link) (h : Reached link s s' ranges m)
    (id : BitVec 32) (address : Word) :
    Reached link s (s'.mapUserToPhysical id address) ranges m := by
  have hsound := h.sound.map near ⟨processOf id, .tenPages, address⟩
  rw [← mapUserToPhysical_memory link] at hsound
  obtain ⟨heap, calls, heq⟩ := mapUserToPhysical_eq s' id address
  rw [heq] at hsound ⊢
  exact ⟨hsound, h.view, h.tasks, h.plan⟩

theorem Reached.mapTest (near : Windows.InFirstWindow link) (h : Reached link s s' ranges m)
    (id : BitVec 32) (address : Word) :
    Reached link s (s'.mapUserToPhysicalTest id address) ranges m := by
  have hsound := h.sound.map near ⟨processOf id, .test, address⟩
  rw [← mapUserToPhysicalTest_memory link] at hsound
  obtain ⟨heap, calls, heq⟩ := mapUserToPhysicalTest_eq s' id address
  rw [heq] at hsound ⊢
  exact ⟨hsound, h.view, h.tasks, h.plan⟩

theorem Reached.kmalloc (near : Windows.InFirstWindow link) (h : Reached link s s' ranges m)
    {size : Word} (small : pageCount size ≤ 20) (room : total ranges + pageCount size ≤ 512)
    (res : BitIndexArray) :
    (s'.kmalloc link size res).1 = pageAddress (total ranges) ∧
      Reached link s (s'.kmalloc link size res).2
        (ranges ++ [(pageAddress (total ranges), pageCount size)]) m := by
  obtain ⟨haddress, hsound⟩ := h.sound.kmalloc near small room res
  exact ⟨haddress, hsound, h.view, h.tasks, h.plan⟩

theorem Reached.store64 (near : Windows.InFirstWindow link) (h : Reached link s s' ranges m)
    {a : Word} (covered : ∀ x, Within a 8 x → Covered ranges x) (v : Word) :
    Reached link s (s'.store64 link a v) ranges (Memory.store64 m a v) :=
  ⟨h.sound.write near (by decide) covered v, by rw [store64_view, h.view], h.tasks, h.plan⟩

theorem Reached.store32 (near : Windows.InFirstWindow link) (h : Reached link s s' ranges m)
    {a : Word} (covered : ∀ x, Within a 4 x → Covered ranges x) (v : BitVec 32) :
    Reached link s (s'.store32 link a v) ranges (Memory.store32 m a v) :=
  ⟨h.sound.write near (by decide) covered v, by rw [store32_view, h.view], h.tasks, h.plan⟩

theorem schedReadyEnqueue_tasks (link : Link) (s : State) (t : Word) :
    (schedReadyEnqueue link s t).tasks = s.tasks ∧ (schedReadyEnqueue link s t).plan = s.plan := by
  unfold schedReadyEnqueue
  dsimp only
  split <;> exact ⟨rfl, rfl⟩

theorem covered_record (a : Args) {i n : Nat} (hi : i + n ≤ InMemory.sizeofTask) (x : Word)
    (hx : Within (pageAddress (total ranges) + BitVec.ofNat 64 i) n x) :
    Covered (ranges ++ a.ranges (total ranges)) x := by
  refine ⟨_, List.mem_append_right _ List.mem_cons_self, ?_⟩
  have hin : (x - pageAddress (total ranges)).toNat < 56 := within_of_field hi hx
  unfold Within
  dsimp only
  omega

theorem sz_le (sz : Word) : sz.toNat ≤ 4096 * pageCount sz := by
  unfold pageCount
  omega

theorem covered_stack (a : Args) (x : Word)
    (hx : Within (planAt a (total ranges)).kstack a.sz.toNat x) :
    Covered (ranges ++ a.ranges (total ranges)) x := by
  refine ⟨_, List.mem_append_right _ (List.mem_cons_of_mem _ List.mem_cons_self), ?_⟩
  exact Nat.lt_of_lt_of_le hx (sz_le a.sz)

def userStack (p : TaskPlan) : Word := p.kstack + 4096#64 * BitVec.ofNat 64 (pageCount p.sz)

theorem userStack_planAt (a : Args) (f : Nat) :
    userStack (planAt a f) = pageAddress (f + 1 + pageCount a.sz) := pageAddress_add _ _

theorem covered_userStack (a : Args) (x : Word)
    (hx : Within (userStack (planAt a (total ranges))) a.sz.toNat x) :
    Covered (ranges ++ a.ranges (total ranges)) x := by
  rw [userStack_planAt] at hx
  refine ⟨_, List.mem_append_right _ (List.mem_cons_of_mem _ (List.mem_cons_of_mem _
    List.mem_cons_self)), ?_⟩
  exact Nat.lt_of_lt_of_le hx (sz_le a.sz)

theorem covered_frame {a : Args} (fits : a.Fits (total ranges)) {i : Nat} (hi : i + 8 ≤ 280)
    (x : Word)
    (hx : Within ((planAt a (total ranges)).ctx + BitVec.ofNat 64 i) 8 x) :
    Covered (ranges ++ a.ranges (total ranges)) x :=
  covered_stack a x (Vectors.within_stack fits.context (within_of_field hi hx)).1

theorem Reached.made (near : Windows.InFirstWindow link) {a : Args}
    (tail : s.rqTail ≠ 0#64 → ∀ x, Within s.rqTail InMemory.sizeofTask x → Covered ranges x)
    (h : Reached link s s' (ranges ++ a.ranges (total ranges)) (Memory.store64
      (written s.view.mem a (pageAddress (total ranges)) (planAt a (total ranges)))
      (InMemory.contextOf (pageAddress (total ranges))) (planAt a (total ranges)).ctx)) :
    Made link s
      { schedReadyEnqueue link s' (pageAddress (total ranges)) with
        tasks := (schedReadyEnqueue link s' (pageAddress (total ranges))).tasks ++
          [pageAddress (total ranges)]
        plan := Function.update (schedReadyEnqueue link s' (pageAddress (total ranges))).plan
          (pageAddress (total ranges)) (planAt a (total ranges)) } a ranges := by
  obtain ⟨htasks, hplan⟩ := schedReadyEnqueue_tasks link s' (pageAddress (total ranges))
  have htail : s'.rqTail = s.rqTail := congrArg InMemory.State.rqTail h.view
  have hsound := sound_enqueue near h.sound (t := pageAddress (total ranges))
    (fun x hx => covered_record a (i := 0) (n := InMemory.sizeofTask) (by decide) x
      (by rw [BitVec.add_zero]; exact hx))
    (fun hne x hx => by
      rw [htail] at hne hx
      exact (tail hne x hx).append_left _)
  exact {
    sound := hsound
    view := by
      rw [← h.view, ← schedReadyEnqueue_view link]
      rfl
    tasks := congrArg (· ++ [pageAddress (total ranges)]) (htasks.trans h.tasks)
    plan := congrArg (Function.update · _ _) (hplan.trans h.plan) }

theorem initTask_made (near : Windows.InFirstWindow link) (h : Sound link s.memory ranges)
    (tail : s.rqTail ≠ 0#64 → ∀ x, Within s.rqTail InMemory.sizeofTask x → Covered ranges x)
    (image : Image) {a : Args} (fits : a.Fits (total ranges)) :
    (initTask link image s a).1 = pageAddress (total ranges) ∧
      Made link s (initTask link image s a).2 a ranges := by
  have hone : pageCount (BitVec.ofNat 64 InMemory.sizeofTask) = 1 := by decide
  have hroom := fits.room
  unfold Args.pages at hroom
  have hstart : Reached link s s ranges s.view.mem := ⟨h, rfl, rfl, rfl⟩
  have h1 := (hstart.map near a.id image.sysWrite).map near a.id image.uartPrintf
  obtain ⟨htask, h2⟩ := h1.kmalloc near (hone.trans_le (by decide)) (by omega) (a.res 0)
  rw [hone] at h2
  have hnext2 := total_append ranges (pageAddress (total ranges)) 1
  obtain ⟨hkstack, h3⟩ := h2.kmalloc near fits.small (by omega) (a.res 1)
  rw [hnext2] at hkstack h3
  have hnext3 := total_append (ranges ++ [(pageAddress (total ranges), 1)])
    (pageAddress (total ranges + 1)) (pageCount a.sz)
  rw [hnext2] at hnext3
  obtain ⟨hustack, h4⟩ := h3.kmalloc near fits.small (by omega) (a.res 2)
  rw [hnext3] at hustack h4
  unfold initTask
  dsimp only
  rw [hustack, hkstack, htask]
  generalize (State.kmalloc link _ a.sz (a.res 2)).2 = s4 at h4 ⊢
  have hranges : ranges ++ [(pageAddress (total ranges), 1)] ++
      [(pageAddress (total ranges + 1), pageCount a.sz)] ++
      [(pageAddress (total ranges + 1 + pageCount a.sz), pageCount a.sz)] =
        ranges ++ a.ranges (total ranges) := by
    simp [Args.ranges]
  rw [hranges] at h4
  have hrecord {i n : Nat} (hi : i + n ≤ InMemory.sizeofTask) :
      ∀ x, Within (pageAddress (total ranges) + BitVec.ofNat 64 i) n x →
        Covered (ranges ++ a.ranges (total ranges)) x := covered_record a hi
  have hframe {i : Nat} (hi : i + 8 ≤ 280) :
      ∀ x, Within ((planAt a (total ranges)).ctx + BitVec.ofNat 64 i) 8 x →
        Covered (ranges ++ a.ranges (total ranges)) x := covered_frame fits hi
  have h5 := h4.mapTest near a.id
    (kernalToUserSpace (pageAddress (total ranges + 1 + pageCount a.sz)))
  have h6 := h5.store32 near (a := pageAddress (total ranges)) (fun x hx =>
    hrecord (i := 0) (n := 4) (by decide) x (by rw [BitVec.add_zero]; exact hx)) a.id
  have h7 := h6.store64 near (a := nameOf _) (hrecord (by decide)) a.name
  have h8 := h7.store64 near (a := kernelStackOf _) (hrecord (by decide))
    (planAt a (total ranges)).kstack
  have h9 := h8.store64 near (a := userStackOf _) (hrecord (by decide))
    (planAt a (total ranges)).ustack
  have h10 := h9.map near a.id (planAt a (total ranges)).entry
  have h11 := h10.store64 near (hframe (i := ctxSpEl0) (by decide)) (planAt a (total ranges)).ustack
  have h12 := h11.store64 near (hframe (i := ctxElr) (by decide)) (planAt a (total ranges)).entry
  have h13 := h12.store64 near (hframe (i := ctxSpsr) (by decide)) spsrEl0tDefault
  have h14 := h13.store64 near (hframe (i := ctxTtbr0El1) (by decide))
    (planAt a (total ranges)).table
  have h15 := h14.store64 near (a := InMemory.contextOf _) (hrecord (by decide))
    (planAt a (total ranges)).ctx
  exact ⟨rfl, h15.made near tail⟩

end

/-- The pages of a list of first pages: each task has its record, then its two stacks. -/
structure Laid (s : State) (fs : List Nat) (used : Nat) : Prop where
  tasks : s.tasks = fs.map pageAddress
  kstack : ∀ f ∈ fs, (s.plan (pageAddress f)).kstack = pageAddress (f + 1)
  context : ∀ f ∈ fs, 288 ≤ (s.plan (pageAddress f)).sz.toNat
  order : fs.Pairwise fun f g => f + 1 + 2 * pageCount (s.plan (pageAddress f)).sz ≤ g
  below : ∀ f ∈ fs, f + 1 + 2 * pageCount (s.plan (pageAddress f)).sz ≤ used
  few : used ≤ 512

theorem apart_pages {f g n k i j : Nat} (h : f + n ≤ g) (hi : i ≤ 4096 * n) (hj : j ≤ 4096 * k)
    (hg : g + k ≤ 512) : Apart (pageAddress f) i (pageAddress g) j := by
  by_cases hk : k = 0
  · intro x _ hx
    unfold Within at hx
    omega
  · have hf := toNat_pageAddress (p := f) (by omega)
    have hg' := toNat_pageAddress (p := g) (by omega)
    exact apart_of_le (by omega) (by omega)

section
variable {s : State} {fs : List Nat} {used : Nat}

theorem Laid.exists_page (h : Laid s fs used) {t : Word} (ht : t ∈ s.tasks) :
    ∃ f ∈ fs, t = pageAddress f := by
  rw [h.tasks] at ht
  obtain ⟨f, hf, rfl⟩ := List.mem_map.mp ht
  exact ⟨f, hf, rfl⟩

theorem Laid.apart (h : Laid s fs used) {f g : Nat} (hf : f ∈ fs) (hg : g ∈ fs)
    (hne : f ≠ g) :
    f + 1 + 2 * pageCount (s.plan (pageAddress f)).sz ≤ g ∨
      g + 1 + 2 * pageCount (s.plan (pageAddress g)).sz ≤ f := by
  let R (f g : Nat) : Prop := f + 1 + 2 * pageCount (s.plan (pageAddress f)).sz ≤ g ∨
    g + 1 + 2 * pageCount (s.plan (pageAddress g)).sz ≤ f
  have hsymm : Std.Symm R := ⟨fun _ _ => Or.symm⟩
  have hpairs : fs.Pairwise R := h.order.imp Or.inl
  exact hpairs.forall hf hg hne

theorem Laid.nodup (h : Laid s fs used) : s.tasks.Nodup := by
  have hlt : fs.Pairwise (· < ·) := h.order.imp fun hle => by omega
  have hnodup : fs.Nodup := hlt.imp Nat.ne_of_lt
  rw [h.tasks, List.nodup_map_iff_inj_on hnodup]
  intro f hf g hg heq
  have hbelow := h.below f hf
  have hbelow' := h.below g hg
  have hfew := h.few
  exact pageAddress_inj (by omega) (by omega) heq

theorem Laid.nonnull (h : Laid s fs used) : ∀ t ∈ s.tasks, t ≠ 0#64 := by
  intro t ht hzero
  obtain ⟨f, hf, rfl⟩ := h.exists_page ht
  have hbelow := h.below f hf
  have hfew := h.few
  have hpage := toNat_pageAddress (p := f) (by omega)
  rw [hzero, BitVec.toNat_ofNat] at hpage
  omega

theorem Laid.apart_parts (h : Laid s fs used) {f g i j n k a b : Nat} (hf : f ∈ fs) (hg : g ∈ fs)
    (hi : i + n ≤ 1 + 2 * pageCount (s.plan (pageAddress f)).sz)
    (hj : j + k ≤ 1 + 2 * pageCount (s.plan (pageAddress g)).sz)
    (same : f = g → i + n ≤ j ∨ j + k ≤ i) (ha : a ≤ 4096 * n) (hb : b ≤ 4096 * k) :
    Apart (pageAddress (f + i)) a (pageAddress (g + j)) b := by
  have hbelow := h.below f hf
  have hbelow' := h.below g hg
  have hfew := h.few
  have hcases : f + i + n ≤ g + j ∨ g + j + k ≤ f + i := by
    by_cases heq : f = g
    · have hsame := same heq
      omega
    · have hapart := h.apart hf hg heq
      omega
  rcases hcases with hle | hle
  · exact apart_pages hle ha hb (by omega)
  · exact (apart_pages hle hb ha (by omega)).symm

theorem Laid.placed (h : Laid s fs used) : Placed s.tasks InMemory.sizeofTask := by
  intro t ht u hu hne
  obtain ⟨f, hf, rfl⟩ := h.exists_page ht
  obtain ⟨g, hg, rfl⟩ := h.exists_page hu
  exact h.apart_parts (i := 0) (j := 0) (n := 1) (k := 1) hf hg (by omega) (by omega)
    (fun heq => absurd (congrArg pageAddress heq) hne) (by decide) (by decide)

theorem Laid.layout (h : Laid s fs used) : Vectors.Layout s.plan s.tasks where
  room t ht := by
    obtain ⟨f, hf, rfl⟩ := h.exists_page ht
    exact h.context f hf
  disjoint t ht u hu hne := by
    obtain ⟨f, hf, rfl⟩ := h.exists_page ht
    obtain ⟨g, hg, rfl⟩ := h.exists_page hu
    rw [h.kstack f hf, h.kstack g hg]
    exact h.apart_parts hf hg (by omega) (by omega)
      (fun heq => absurd (congrArg pageAddress heq) hne) (sz_le _) (sz_le _)

theorem Laid.records_apart (h : Laid s fs used) {t u : Word} (ht : t ∈ s.tasks)
    (hu : u ∈ s.tasks) :
    Apart t InMemory.sizeofTask (s.plan u).kstack (s.plan u).sz.toNat := by
  obtain ⟨f, hf, rfl⟩ := h.exists_page ht
  obtain ⟨g, hg, rfl⟩ := h.exists_page hu
  rw [h.kstack g hg]
  exact h.apart_parts (i := 0) (n := 1) hf hg (by omega) (by omega) (fun _ => by omega)
    (by decide) (sz_le _)

theorem Laid.userStack (h : Laid s fs used) {f : Nat} (hf : f ∈ fs) :
    userStack (s.plan (pageAddress f)) =
      pageAddress (f + (1 + pageCount (s.plan (pageAddress f)).sz)) := by
  rw [InitTask.userStack, h.kstack f hf, pageAddress_add, Nat.add_assoc]

structure UserStacksApart (s : State) : Prop where
  disjoint : ∀ t ∈ s.tasks, ∀ u ∈ s.tasks, t ≠ u →
    Apart (InitTask.userStack (s.plan t)) (s.plan t).sz.toNat
      (InitTask.userStack (s.plan u)) (s.plan u).sz.toNat
  records : ∀ t ∈ s.tasks, ∀ u ∈ s.tasks,
    Apart t InMemory.sizeofTask (InitTask.userStack (s.plan u)) (s.plan u).sz.toNat
  kstacks : ∀ t ∈ s.tasks, ∀ u ∈ s.tasks,
    Apart (s.plan t).kstack (s.plan t).sz.toNat
      (InitTask.userStack (s.plan u)) (s.plan u).sz.toNat

theorem Laid.userStacks (h : Laid s fs used) : UserStacksApart s where
  disjoint t ht u hu hne := by
    obtain ⟨f, hf, rfl⟩ := h.exists_page ht
    obtain ⟨g, hg, rfl⟩ := h.exists_page hu
    rw [h.userStack hf, h.userStack hg]
    exact h.apart_parts hf hg (by omega) (by omega)
      (fun heq => absurd (congrArg pageAddress heq) hne) (sz_le _) (sz_le _)
  records t ht u hu := by
    obtain ⟨f, hf, rfl⟩ := h.exists_page ht
    obtain ⟨g, hg, rfl⟩ := h.exists_page hu
    rw [h.userStack hg]
    exact h.apart_parts (i := 0) (n := 1) hf hg (by omega) (by omega) (fun _ => by omega)
      (by decide) (sz_le _)
  kstacks t ht u hu := by
    obtain ⟨f, hf, rfl⟩ := h.exists_page ht
    obtain ⟨g, hg, rfl⟩ := h.exists_page hu
    rw [h.kstack f hf, h.userStack hg]
    exact h.apart_parts hf hg (by omega) (by omega) (fun heq => .inl (by rw [heq]))
      (sz_le _) (sz_le _)

end

/-- The context of a task is the one it starts with, over what its stack held before. -/
def Initial (m : Memory) (p : TaskPlan) : Prop :=
  ∃ c, Vectors.Context.read m p.ctx = p.initial c

structure Ordered (s : State) : Prop where
  head : InMemory.pointer s.rqHead = s.tasks.head?
  tail : InMemory.pointer s.rqTail = s.tasks.getLast?
  next : ∀ (i : Nat) t u, s.tasks[i]? = some t → s.tasks[i + 1]? = some u →
    (InMemory.schedAt s.view).next t = some u

/-- What a task has from the arguments of its call. Its stack pointer is the end of its user
stack, as the program sees it. -/
structure Given (p : TaskPlan) (a : Args) : Prop where
  sz : p.sz = a.sz
  entry : p.entry = kernalToUserSpace a.entry
  ustack : p.ustack = kernalToUserSpace (userStack p) + a.sz
  table : p.table = if a.id = 1#32 then userProcess1TableStart else userProcess2TableStart

/-- The tasks that the calls `done` have made: their places in memory, their fields, the run
queue and their first contexts. -/
structure Inv (link : Link) (s : State) (done : List Args) (fs : List Nat)
    (ranges : List (Word × Nat)) : Prop where
  sound : Sound link s.memory ranges
  laid : Laid s fs (total ranges)
  covered : ∀ t ∈ s.tasks, ∀ x, Within t InMemory.sizeofTask x ∨
    Within (s.plan t).kstack (s.plan t).sz.toNat x ∨
    Within (userStack (s.plan t)) (s.plan t).sz.toNat x → Covered ranges x
  current : s.current = 0#64
  closed : Closed (InMemory.schedAt s.view) s.tasks
  fields : ∀ t ∈ s.tasks,
    (InMemory.schedAt s.view).fields t = (.ready, (s.plan t).ctx, rrSliceTicks)
  contexts : ∀ t ∈ s.tasks, Initial s.memory.flat (s.plan t)
  ordered : Ordered s
  length : s.tasks.length = done.length
  given : ∀ (i : Nat) t a, s.tasks[i]? = some t → done[i]? = some a → Given (s.plan t) a

section
variable {link : Link} {s s' : State} {fs : List Nat} {ranges : List (Word × Nat)} {a : Args}
  {used : Nat}

theorem written_of_not_within {m : Memory} {t x : Word} {p : TaskPlan}
    (record : ¬ Within t InMemory.sizeofTask x) (frame : ¬ Within p.ctx 280 x) :
    written m a t p x = m x := by
  have hrecord {i n : Nat} (hi : i + n ≤ InMemory.sizeofTask) :
      ¬ Within (t + BitVec.ofNat 64 i) n x := fun hx => record (within_of_field hi hx)
  have hframe {i : Nat} (hi : i + 8 ≤ 280) : ¬ Within (p.ctx + BitVec.ofNat 64 i) 8 x :=
    fun hx => frame (within_of_field hi hx)
  have hid : ¬ Within t 4 x := fun hx => record (Nat.lt_of_lt_of_le hx (by decide))
  unfold written Vectors.buildInitialContext nameOf kernelStackOf userStackOf
  dsimp only
  rw [store64_of_not_within (hframe (by decide)), store64_of_not_within (hframe (by decide)),
    store64_of_not_within (hframe (by decide)), store64_of_not_within (hframe (by decide)),
    store64_of_not_within (hrecord (by decide)), store64_of_not_within (hrecord (by decide)),
    store64_of_not_within (hrecord (by decide)), store32_of_not_within hid]

theorem initial_written (m : Memory) (t : Word) (p : TaskPlan) :
    Initial (written m a t p) p := by
  let m' := Memory.store64 (Memory.store64 (Memory.store64 (Memory.store32 m t a.id) (nameOf t)
    a.name) (kernelStackOf t) p.kstack) (userStackOf t) p.ustack
  let machine : AArch64.Machine := ⟨fun _ => 0, 0, fun _ => 0, 0, 0, m'⟩
  let k : Vectors.Kernel Unit := ⟨⟨fun _ => ⟨.ready, 0, 0, none⟩, none, none, none⟩, machine,
    fun _ => ⟨fun _ => 0, 0, 0, 0, 0⟩⟩
  exact ⟨_, Vectors.read_initTask k () p⟩

theorem Laid.initTask (h : Laid s fs (total ranges)) (fits : a.Fits (total ranges))
    (made : Made link s s' a ranges) : Laid s' (fs ++ [total ranges]) (total ranges + a.pages) := by
  have hroom := fits.room
  unfold Args.pages at hroom
  have hnew : s'.plan (pageAddress (total ranges)) = planAt a (total ranges) := by
    rw [made.plan, Function.update_self]
  have hold (f : Nat) (hf : f ∈ fs) : s'.plan (pageAddress f) = s.plan (pageAddress f) := by
    have hbelow := h.below f hf
    rw [made.plan, Function.update_of_ne]
    intro heq
    have hpage := pageAddress_inj (by omega) (by omega) heq
    omega
  have hsz : (planAt a (total ranges)).sz = a.sz := rfl
  refine ⟨?_, fun f hf => ?_, fun f hf => ?_, ?_, fun f hf => ?_, hroom⟩
  · rw [made.tasks, h.tasks, List.map_append]
    rfl
  · rcases List.mem_append.mp hf with hin | hin
    · rw [hold f hin]
      exact h.kstack f hin
    · obtain rfl := List.mem_singleton.mp hin
      rw [hnew]
      rfl
  · rcases List.mem_append.mp hf with hin | hin
    · rw [hold f hin]
      exact h.context f hin
    · obtain rfl := List.mem_singleton.mp hin
      rw [hnew]
      exact fits.context
  · rw [List.pairwise_append]
    refine ⟨?_, List.pairwise_singleton _ _, fun f hf g hg => ?_⟩
    · exact h.order.imp_of_mem fun hf _ hle => by rwa [hold _ hf]
    · obtain rfl := List.mem_singleton.mp hg
      rw [hold f hf]
      exact h.below f hf
  · unfold Args.pages
    rcases List.mem_append.mp hf with hin | hin
    · have hbelow := h.below f hin
      rw [hold f hin]
      omega
    · obtain rfl := List.mem_singleton.mp hin
      rw [hnew, hsz]
      omega

/-- The scheduler's view after a call that made the task `t`. -/
structure Added (s s' : State) (a : Args) (t : Word) (p : TaskPlan) : Prop where
  tasks : s'.tasks = s.tasks ++ [t]
  plan : s'.plan = Function.update s.plan t p
  simulates : InMemory.Simulates (written s.view.mem a t p) s'.tasks s'.view
    (Scheduler.schedReadyEnqueue
      ((InMemory.schedAt { s.view with mem := written s.view.mem a t p }).modify t
        ({ · with context := p.ctx })) t)

theorem Made.added (laid : Laid s' fs used) (closed : Closed (InMemory.schedAt s.view) s.tasks)
    (made : Made link s s' a ranges) :
    Added s s' a (pageAddress (total ranges)) (planAt a (total ranges)) where
  tasks := made.tasks
  plan := made.plan
  simulates := by
    have ht : pageAddress (total ranges) ∈ s'.tasks := by
      rw [made.tasks]
      exact List.mem_append_right _ (List.mem_singleton_self _)
    have hstored := (InMemory.simulates_schedAt s'.tasks { s.view with
      mem := written s.view.mem a (pageAddress (total ranges)) (planAt a (total ranges))
      }).store_context laid.placed ht (planAt a (total ranges)).ctx
    have henqueued := hstored.enqueue laid.placed ht (fun b hb => ?_) (laid.nonnull _ ht)
    · rw [made.view]
      exact henqueued
    · rw [made.tasks]
      exact List.mem_append_left _ (closed.tail b hb)

theorem Initial.congr {m m' : Memory} {p : TaskPlan} (h : Initial m p)
    (same : ∀ x, Within p.ctx 280 x → m' x = m x) : Initial m' p := by
  obtain ⟨c, hc⟩ := h
  exact ⟨c, (Vectors.Context.read_congr same).trans hc⟩

theorem total_ranges (a : Args) (ranges : List (Word × Nat)) :
    total (ranges ++ a.ranges (total ranges)) = total ranges + a.pages := by
  simp only [total, Args.ranges, Args.pages, List.map_append, List.sum_append, List.map_cons,
    List.map_nil, List.sum_cons, List.sum_nil]
  omega

theorem getElem?_concat {α : Type*} {l : List α} {t x : α} {i : Nat}
    (h : (l ++ [t])[i]? = some x) : l[i]? = some x ∨ i = l.length ∧ x = t := by
  by_cases hi : i < l.length
  · rw [List.getElem?_append_left hi] at h
    exact .inl h
  · rw [List.getElem?_append_right (Nat.le_of_not_lt hi)] at h
    obtain ⟨hlt, heq⟩ := List.getElem?_eq_some_iff.mp h
    rw [List.length_singleton] at hlt
    rw [List.getElem_singleton] at heq
    exact .inr ⟨by omega, heq.symm⟩

theorem enqueue_of_none {b : Sched Word Word} {t : Word} (h : b.rqTail = none) :
    (Scheduler.schedReadyEnqueue b t).rqHead = some t ∧
      (Scheduler.schedReadyEnqueue b t).rqTail = some t := by
  have hpush := rqPush_of_none
    (s := b.modify t ({ · with state := .ready, sliceLeft := rrSliceTicks })) h t
  rw [Scheduler.schedReadyEnqueue, hpush]
  exact ⟨rfl, rfl⟩

theorem enqueue_of_tail {b : Sched Word Word} {t u : Word} (h : b.rqTail = some u) :
    (Scheduler.schedReadyEnqueue b t).next = Function.update b.next u (some t) ∧
      (Scheduler.schedReadyEnqueue b t).rqHead = b.rqHead ∧
      (Scheduler.schedReadyEnqueue b t).rqTail = some t := by
  have hpush := rqPush_of_tail
    (s := b.modify t ({ · with state := .ready, sliceLeft := rrSliceTicks })) h t
  rw [modify_next] at hpush
  exact hpush

section
variable {t u x : Word} {p : TaskPlan}

theorem Added.mem_new (h : Added s s' a t p) : t ∈ s'.tasks := by
  rw [h.tasks]
  exact List.mem_append_right _ (List.mem_singleton_self _)

theorem Added.mem_old (h : Added s s' a t p) (hu : u ∈ s.tasks) : u ∈ s'.tasks := by
  rw [h.tasks]
  exact List.mem_append_left _ hu

theorem Added.mem (h : Added s s' a t p) (hu : u ∈ s'.tasks) : u ∈ s.tasks ∨ u = t := by
  rw [h.tasks] at hu
  exact (List.mem_append.mp hu).imp_right List.mem_singleton.mp

theorem Added.ne (h : Added s s' a t p) (laid : Laid s' fs used) (hu : u ∈ s.tasks) : u ≠ t := by
  have hnodup := laid.nodup
  rw [h.tasks] at hnodup
  exact (List.nodup_append.mp hnodup).2.2 u hu t (List.mem_singleton_self t)

theorem Added.plan_new (h : Added s s' a t p) : s'.plan t = p := by
  rw [h.plan, Function.update_self]

theorem Added.plan_old (h : Added s s' a t p) (laid : Laid s' fs used) (hu : u ∈ s.tasks) :
    s'.plan u = s.plan u := by
  rw [h.plan, Function.update_of_ne (h.ne laid hu)]

theorem Laid.frame (laid : Laid s fs used) (hu : u ∈ s.tasks) (hx : Within (s.plan u).ctx 280 x) :
    Within (s.plan u).kstack (s.plan u).sz.toNat x ∧
      ∀ r ∈ s.tasks, ¬ Within r InMemory.sizeofTask x := by
  have hstack := (Vectors.within_stack (laid.layout.room u hu) hx).1
  exact ⟨hstack, fun r hr hrecord => laid.records_apart hr hu x hrecord hstack⟩

theorem Added.record_kept (h : Added s s' a t p) (laid : Laid s' fs used) (hu : u ∈ s.tasks)
    (hx : Within u InMemory.sizeofTask x) : written s.view.mem a t p x = s.view.mem x := by
  apply written_of_not_within
  · exact laid.placed u (h.mem_old hu) t h.mem_new (h.ne laid hu) x hx
  · intro hin
    rw [← h.plan_new] at hin
    exact (laid.frame h.mem_new hin).2 u (h.mem_old hu) hx

theorem Added.frame_kept (h : Added s s' a t p) (laid : Laid s' fs used) (hu : u ∈ s.tasks)
    (hx : Within (s.plan u).ctx 280 x) : written s.view.mem a t p x = s.view.mem x := by
  rw [← h.plan_old laid hu] at hx
  obtain ⟨hstack, hrecord⟩ := laid.frame (h.mem_old hu) hx
  apply written_of_not_within
  · exact hrecord t h.mem_new
  · intro hin
    rw [← h.plan_new] at hin
    exact laid.layout.disjoint u (h.mem_old hu) t h.mem_new (h.ne laid hu) x hstack
      (laid.frame h.mem_new hin).1

theorem Added.old (h : Added s s' a t p) (laid : Laid s' fs used) :
    InMemory.Simulates (written s.view.mem a t p) s.tasks
      { s.view with mem := written s.view.mem a t p } (InMemory.schedAt s.view) where
  tasks _ hu := InMemory.taskAt_congr fun _ hx => h.record_kept laid hu hx
  head := rfl
  tail := rfl
  current := rfl
  elsewhere _ _ := rfl

theorem Added.closed (h : Added s s' a t p) (laid : Laid s' fs used)
    (closed : Closed (InMemory.schedAt s.view) s.tasks) :
    Closed (InMemory.schedAt s'.view) s'.tasks := by
  have hold := (h.old laid).closed closed
  have hmodified : Closed ((InMemory.schedAt
      { s.view with mem := written s.view.mem a t p }).modify t
        ({ · with context := p.ctx })) s.tasks := hold.congr rfl rfl (modify_next _ t)
  have henqueued := hmodified.enqueue t
  rw [← h.tasks] at henqueued
  exact h.simulates.closed henqueued

theorem Added.fields (h : Added s s' a t p) (laid : Laid s' fs used)
    (fields : ∀ u ∈ s.tasks,
      (InMemory.schedAt s.view).fields u = (.ready, (s.plan u).ctx, rrSliceTicks)) :
    ∀ u ∈ s'.tasks,
      (InMemory.schedAt s'.view).fields u = (.ready, (s'.plan u).ctx, rrSliceTicks) := by
  intro u hu
  have htask := congrArg (fun k => (k.state, k.context, k.sliceLeft)) (h.simulates.tasks u hu)
  refine htask.trans ?_
  rcases h.mem hu with hold | rfl
  · have hne := h.ne laid hold
    have hkept := congrArg (fun k => (k.state, k.context, k.sliceLeft))
      ((h.old laid).tasks u hold)
    rw [h.plan_old laid hold, ← fields u hold]
    exact (enqueue_fields_of_ne _ hne).trans ((modify_fields_of_ne _ _ hne).trans hkept)
  · rw [h.plan_new]
    refine (enqueue_fields _ u).trans ?_
    rw [modify_task_self]

theorem Added.ordered (h : Added s s' a t p) (laid : Laid s' fs used) (ordered : Ordered s) :
    Ordered s' := by
  have hold := h.old laid
  have hsim := h.simulates
  have hnodup := laid.nodup
  rw [h.tasks] at hsim hnodup
  generalize hb : (InMemory.schedAt { s.view with mem := written s.view.mem a t p }).modify t
    ({ · with context := p.ctx }) = before at hsim
  have hhead : before.rqHead = s.tasks.head? := by
    rw [← hb]
    exact ordered.head
  have htail : before.rqTail = s.tasks.getLast? := by
    rw [← hb]
    exact ordered.tail
  have hnext (u : Word) (hu : u ∈ s.tasks) :
      before.next u = (InMemory.schedAt s.view).next u := by
    rw [← hb, modify_next]
    exact congrArg Task.next (hold.tasks u hu)
  have hafter (u : Word) (hu : u ∈ s.tasks) : (InMemory.schedAt s'.view).next u =
      (Scheduler.schedReadyEnqueue before t).next u :=
    congrArg Task.next (hsim.tasks u (List.mem_append_left _ hu))
  cases hlast : s.tasks.getLast? with
  | none =>
    have hempty := List.getLast?_eq_none_iff.mp hlast
    obtain ⟨hfirst, hpushed⟩ := enqueue_of_none (t := t) (htail.trans hlast)
    refine ⟨?_, ?_, fun i u v hu hv => ?_⟩
    · rw [h.tasks, hempty]
      exact hsim.head.trans hfirst
    · rw [h.tasks, hempty]
      exact hsim.tail.trans hpushed
    · rw [h.tasks, hempty] at hv
      exact absurd hv (by simp)
  | some b =>
    obtain ⟨hlink, hkept, hpushed⟩ := enqueue_of_tail (t := t) (htail.trans hlast)
    have hne : s.tasks ≠ [] := fun hempty => by
      rw [hempty] at hlast
      exact Option.some_ne_none b hlast.symm
    have hback : s.tasks[s.tasks.length - 1]? = some b := by
      rw [← List.getLast?_eq_getElem?, hlast]
    refine ⟨?_, ?_, fun i u v hu hv => ?_⟩
    · rw [h.tasks, List.head?_append_of_ne_nil _ hne]
      exact hsim.head.trans (hkept.trans hhead)
    · rw [h.tasks, List.getLast?_append]
      exact hsim.tail.trans hpushed
    · rw [h.tasks] at hu hv
      rcases getElem?_concat hv with hv | ⟨hi, rfl⟩
      · -- the last task is not followed by one of `s`
        have hlt := (List.getElem?_eq_some_iff.mp hv).1
        rw [List.getElem?_append_left (by omega)] at hu
        have hub : u ≠ b := fun heq => by
          rw [heq, ← hback] at hu
          have hi := (List.getElem?_inj (by omega) (List.nodup_append.mp hnodup).1).mp hu
          omega
        rw [hafter u (List.mem_of_getElem? hu), hlink, Function.update_of_ne hub,
          hnext u (List.mem_of_getElem? hu)]
        exact ordered.next i u v hu hv
      · rw [List.getElem?_append_left (by omega)] at hu
        obtain rfl : i = s.tasks.length - 1 := by omega
        obtain rfl := Option.some.inj (hu.symm.trans hback)
        rw [hafter u (List.mem_of_getElem? hu), hlink, Function.update_self]

theorem Added.contexts (h : Added s s' a t p) (laid : Laid s' fs used)
    (contexts : ∀ u ∈ s.tasks, Initial s.memory.flat (s.plan u)) :
    ∀ u ∈ s'.tasks, Initial s'.memory.flat (s'.plan u) := by
  intro u hu
  have hafter (x : Word) (hx : Within (s'.plan u).ctx 280 x) :
      s'.memory.flat x = written s.view.mem a t p x :=
    h.simulates.elsewhere x (laid.frame hu hx).2
  rcases h.mem hu with hold | rfl
  · rw [h.plan_old laid hold] at hafter ⊢
    exact (contexts u hold).congr fun x hx =>
      (hafter x hx).trans (h.frame_kept laid hold hx)
  · rw [h.plan_new] at hafter ⊢
    exact (initial_written s.view.mem u p).congr hafter

end

theorem Inv.initTask (near : Windows.InFirstWindow link) {done : List Args}
    (h : Inv link s done fs ranges) (image : Image) (fits : a.Fits (total ranges)) :
    Inv link (initTask link image s a).2 (done ++ [a]) (fs ++ [total ranges])
      (ranges ++ a.ranges (total ranges)) := by
  have htail (hne : s.rqTail ≠ 0#64) (x : Word)
      (hx : Within s.rqTail InMemory.sizeofTask x) : Covered ranges x :=
    h.covered _ (h.closed.tail _ (InMemory.pointer_eq_some.mpr ⟨rfl, hne⟩)) x (.inl hx)
  obtain ⟨-, made⟩ := initTask_made near h.sound htail image fits
  generalize (InitTask.initTask link image s a).2 = s' at made ⊢
  have hlaid := h.laid.initTask fits made
  have hadded := made.added hlaid h.closed
  exact {
    sound := made.sound
    laid := by
      rw [total_ranges]
      exact hlaid
    covered := fun t ht x hx => by
      rcases hadded.mem ht with hold | rfl
      · rw [hadded.plan_old hlaid hold] at hx
        exact (h.covered t hold x hx).append_left _
      · rw [hadded.plan_new] at hx
        rcases hx with hrecord | hstack | hstack
        · exact covered_record a (i := 0) (n := InMemory.sizeofTask) (by decide) x
            (by rw [BitVec.add_zero]; exact hrecord)
        · exact covered_stack a x hstack
        · exact covered_userStack a x hstack
    current := by
      have hcurrent := hadded.simulates.current
      rw [enqueue_current, modify_current] at hcurrent
      exact InMemory.pointer_eq_none.mp (hcurrent.trans (InMemory.pointer_eq_none.mpr h.current))
    closed := hadded.closed hlaid h.closed
    fields := hadded.fields hlaid h.fields
    contexts := hadded.contexts hlaid h.contexts
    ordered := hadded.ordered hlaid h.ordered
    length := by
      rw [hadded.tasks, List.length_append, List.length_append, h.length]
      rfl
    given := fun i t b ht hb => by
      have hlength := h.length
      rw [hadded.tasks] at ht
      rcases getElem?_concat ht with hold | ⟨hi, rfl⟩
      · have hlt := (List.getElem?_eq_some_iff.mp hold).1
        rw [hadded.plan_old hlaid (List.mem_of_getElem? hold)]
        rw [List.getElem?_append_left (by omega)] at hb
        exact h.given i t b hold hb
      · rw [hi, hlength, List.getElem?_concat_length] at hb
        obtain rfl := Option.some.inj hb
        rw [hadded.plan_new]
        exact ⟨rfl, rfl, by rw [userStack_planAt]; rfl, rfl⟩ }

end

def boot (m : HeapMemory.State) : State where
  memory := m
  rqHead := 0#64
  rqTail := 0#64
  current := 0#64
  tasks := []
  plan _ := ⟨0#64, 0#64, 0#64, 0#64, 0#64⟩

def initTasks (link : Link) (image : Image) (s : State) (calls : List Args) : State :=
  calls.foldl (fun s a => (initTask link image s a).2) s

/-- Kernel stacks have room for a context and at most 20 pages, and there are pages for all. -/
structure Room (used : Nat) (calls : List Args) : Prop where
  context : ∀ a ∈ calls, 288 ≤ a.sz.toNat
  small : ∀ a ∈ calls, pageCount a.sz ≤ 20
  room : used + (calls.map Args.pages).sum ≤ 512

/-- The tasks of the calls: each has a record and two stacks of its own in memory that was
handed out, and they stand in the run queue with the contexts they start with. -/
structure Ready (s : State) (calls : List Args) : Prop where
  length : s.tasks.length = calls.length
  given : ∀ (i : Nat) t a, s.tasks[i]? = some t → calls[i]? = some a → Given (s.plan t) a
  nonnull : ∀ t ∈ s.tasks, t ≠ 0#64
  nodup : s.tasks.Nodup
  placed : Placed s.tasks InMemory.sizeofTask
  layout : Vectors.Layout s.plan s.tasks
  apart : ∀ t ∈ s.tasks, ∀ u ∈ s.tasks,
    Apart t InMemory.sizeofTask (s.plan u).kstack (s.plan u).sz.toNat
  userStacks : UserStacksApart s
  allocated : ∀ t ∈ s.tasks, ∀ x, Within t InMemory.sizeofTask x ∨
    Within (s.plan t).kstack (s.plan t).sz.toNat x ∨
    Within (userStack (s.plan t)) (s.plan t).sz.toNat x → HeapMemory.Allocated s.memory.heap x
  agrees : HeapMemory.Agrees s.memory
  ordered : Ordered s
  closed : Closed (InMemory.schedAt s.view) s.tasks
  fields : ∀ t ∈ s.tasks,
    (InMemory.schedAt s.view).fields t = (.ready, (s.plan t).ctx, rrSliceTicks)
  contexts : ∀ t ∈ s.tasks, Initial s.memory.flat (s.plan t)

section
variable {link : Link} {s : State} {done : List Args} {fs : List Nat}
  {ranges : List (Word × Nat)}

theorem Inv.ready (h : Inv link s done fs ranges) : Ready s done where
  length := h.length
  given := h.given
  nonnull := h.laid.nonnull
  nodup := h.laid.nodup
  placed := h.laid.placed
  layout := h.laid.layout
  apart _ ht _ hu := h.laid.records_apart ht hu
  userStacks := h.laid.userStacks
  allocated t ht x hx := by
    unfold HeapMemory.Allocated
    rw [h.sound.returned]
    exact h.covered t ht x hx
  agrees := h.sound.inv.agrees
  ordered := h.ordered
  closed := h.closed
  fields := h.fields
  contexts := h.contexts

theorem Inv.initTasks (near : Windows.InFirstWindow link) (h : Inv link s done fs ranges)
    (image : Image) {calls : List Args} (room : Room (total ranges) calls) :
    ∃ fs ranges, Inv link (initTasks link image s calls) (done ++ calls) fs ranges := by
  induction calls generalizing s done fs ranges with
  | nil => exact ⟨fs, ranges, by rw [List.append_nil]; exact h⟩
  | cons a calls ih =>
    have htotal := room.room
    rw [List.map_cons, List.sum_cons] at htotal
    have hnext := h.initTask near image (a := a) {
      context := room.context a List.mem_cons_self
      small := room.small a List.mem_cons_self
      room := by omega }
    have hrest := ih hnext {
      context := fun b hb => room.context b (List.mem_cons_of_mem a hb)
      small := fun b hb => room.small b (List.mem_cons_of_mem a hb)
      room := by rw [total_ranges]; omega }
    rw [List.append_assoc] at hrest
    exact hrest

theorem inv_boot {m : HeapMemory.State} (h : HeapMemory.Inv link m) :
    Inv link (boot m) [] [] m.heap.returned where
  sound := ⟨h, rfl⟩
  laid := {
    tasks := rfl
    kstack := nofun
    context := nofun
    order := List.Pairwise.nil
    below := nofun
    few := h.tables.few }
  covered := nofun
  current := rfl
  closed := ⟨nofun, nofun, nofun⟩
  fields := nofun
  contexts := nofun
  ordered := ⟨rfl, rfl, nofun⟩
  length := rfl
  given := nofun

end

/-- After any use of the heap, `init_task` calls for which there are pages leave every task
ready: the records and stacks do not meet, each context is what its call asked for, the run
queue holds the tasks in order, and all of it is read back through the kernel's tables. -/
theorem init_tasks_ready (link : Link) (near : Windows.InFirstWindow link) (m : Memory)
    (events : List Event)
    (legal : Run.Guarded (HeapMemory.step link) HeapMemory.Legal (HeapMemory.boot link m) events)
    (image : Image) (calls : List Args)
    (room : Room (Run.run (HeapMemory.step link) (HeapMemory.boot link m) events).heap.pages
      calls) :
    Ready (initTasks link image
      (boot (Run.run (HeapMemory.step link) (HeapMemory.boot link m) events)) calls) calls := by
  have hinv := (HeapMemory.always_inv link near m legal).last
  obtain ⟨fs, ranges, h⟩ := (inv_boot hinv).initTasks near image room
  exact h.ready

/-! The two tasks of `kmain`, behind its first `kmalloc`. -/

def firstKmalloc : List Event := [.kmalloc (Translation.requestOf 16000#64)]

def kmainImage : Image := ⟨0x80001F38#64, 0x80002A40#64⟩

def kmainCalls : List Args :=
  let res : Fin 3 → BitIndexArray := fun _ _ => ⟨0#64, 0#8, false⟩
  [⟨1#32, 0x80005000#64, 0xFFFF000080001E00#64, 4096#64, res⟩,
    ⟨2#32, 0x80005010#64, 0xFFFF000080001E80#64, 4096#64, res⟩]

private theorem pageCount_first : pageCount (Translation.requestOf 16000#64).size = 4 := by
  simp [Translation.requestOf, pageCount]

theorem legal_firstKmalloc : Run.Guarded (HeapMemory.step imageLink) HeapMemory.Legal
    (HeapMemory.boot imageLink fun _ => 0#8) firstKmalloc := by
  refine ⟨⟨?_, ?_⟩, trivial⟩
  · rw [pageCount_first]
    decide
  · rw [pageCount_first]
    decide

theorem room_kmainCalls : Room (Run.run (HeapMemory.step imageLink)
    (HeapMemory.boot imageLink fun _ => 0#8) firstKmalloc).heap.pages kmainCalls where
  context := by decide
  small := by decide
  room := by
    have hpages : (Run.run (HeapMemory.step imageLink) (HeapMemory.boot imageLink fun _ => 0#8)
        firstKmalloc).heap.pages = 4 :=
      (Translation.pages_step imageLink _ _).trans (congrArg (0 + ·) pageCount_first)
    rw [hpages]
    decide

theorem init_tasks_ready_kmain : Ready (initTasks imageLink kmainImage
    (boot (Run.run (HeapMemory.step imageLink) (HeapMemory.boot imageLink fun _ => 0#8)
      firstKmalloc)) kmainCalls) kmainCalls :=
  init_tasks_ready imageLink Windows.inFirstWindow_imageLink _ firstKmalloc legal_firstKmalloc
    kmainImage kmainCalls room_kmainCalls

end KernelFuzzing.Start.InitTask
