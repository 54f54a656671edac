import KernelFuzzing.Foundation.Code

/-! The boot loader of kernel-boot-minimal/start.s: it masks interrupts, sets the stack
pointer, clears .bss, copies the kernel image to its load address and jumps there. Both
loops count down by 8 and go on while the count is positive. -/
namespace KernelFuzzing.Start.Boot
open Foundation AArch64 Memory Code

inductive Instr where
  | msrDaifset (imm : Nat)
  | ldrLiteral (d : Reg) (v : Word)
  | movToSp (s : Reg)
  | movXzr (d : Reg)
  | sub (d a b : Reg)
  | subs (d a : Reg) (imm : Nat)
  | cbz (a : Reg) (target : Nat)
  | bGt (target : Nat)
  | b (target : Nat)
  | br (s : Reg)
  | ldrPost (d a : Reg) (imm : Nat)
  | strPost (s a : Reg) (imm : Nat)
  | strXzrPost (a : Reg) (imm : Nat)
  | wfe
deriving DecidableEq

/-- The address of the instruction with the given number, in code that starts at `base`. -/
def target (base : Word) (k : Nat) : Word := base + BitVec.ofNat 64 (4 * k)

def exec (base : Word) (m : Machine) : Instr → Machine
  | .msrDaifset imm =>
      { m with pstate := m.pstate ||| BitVec.ofNat 64 (imm <<< 6), pc := m.pc + 4#64 }
  | .ldrLiteral d v => { m.set d v with pc := m.pc + 4#64 }
  | .movToSp s => { m with sp := m.x s, pc := m.pc + 4#64 }
  | .movXzr d => { m.set d 0 with pc := m.pc + 4#64 }
  | .sub d a b => { m.set d (m.x a - m.x b) with pc := m.pc + 4#64 }
  | .subs d a imm =>
      { m.set d (m.x a - BitVec.ofNat 64 imm) with
        pstate := withFlags m.pstate (m.x a) (BitVec.ofNat 64 imm)
        pc := m.pc + 4#64 }
  | .cbz a k => { m with pc := if m.x a = 0 then target base k else m.pc + 4#64 }
  | .bGt k => { m with pc := if condGt m.pstate then target base k else m.pc + 4#64 }
  | .b k => { m with pc := target base k }
  | .br s => { m with pc := m.x s }
  | .ldrPost d a imm =>
      { (m.set a (m.x a + BitVec.ofNat 64 imm)).set d (load64 m.mem (m.x a)) with
        pc := m.pc + 4#64 }
  | .strPost s a imm =>
      { m.set a (m.x a + BitVec.ofNat 64 imm) with
        mem := store64 m.mem (m.x a) (m.x s)
        pc := m.pc + 4#64 }
  | .strXzrPost a imm =>
      { m.set a (m.x a + BitVec.ofNat 64 imm) with
        mem := store64 m.mem (m.x a) 0
        pc := m.pc + 4#64 }
  | .wfe => { m with pc := m.pc + 4#64 }

def kernelLoadAddr : Word := 0x40080000

/-- What the linker fills in: where `_start` lies and the symbols that it uses. -/
structure Symbols where
  base : Word
  stackTop : Word
  bssStart : Word
  bssEnd : Word
  kernelStart : Word
  kernelEnd : Word

def start (s : Symbols) : List Instr :=
  [.msrDaifset 0xf,
    .ldrLiteral 0 s.stackTop,
    .movToSp 0,
    .ldrLiteral 1 s.bssStart,
    .ldrLiteral 2 s.bssEnd,
    .sub 2 2 1,
    .cbz 2 10,
    -- 1:
    .strXzrPost 1 8,
    .subs 2 2 8,
    .bGt 7,
    -- 2:
    .ldrLiteral 3 s.kernelStart,
    .ldrLiteral 4 s.kernelEnd,
    .sub 5 4 3,
    .ldrLiteral 6 kernelLoadAddr,
    .cbz 5 19,
    -- mem_copy:
    .ldrPost 7 3 8,
    .strPost 7 6 8,
    .subs 5 5 8,
    .bGt 15,
    -- 3:
    .movXzr 0,
    .movXzr 1,
    .movXzr 2,
    .ldrLiteral 3 kernelLoadAddr,
    .br 3,
    -- loop:
    .wfe,
    .b 24]

def code (s : Symbols) : Code Instr := ⟨s.base, start s, exec s.base⟩

def Symbols.bssSize (s : Symbols) : Nat := (s.bssEnd - s.bssStart).toNat

def Symbols.kernelSize (s : Symbols) : Nat := (s.kernelEnd - s.kernelStart).toNat

/-- How many bytes a loop over `n` bytes covers. -/
def covered (n : Nat) : Nat := (n + 7) / 8 * 8

/-- Sizes that are not negative; clearing .bss does not reach the image, and the image does
not run into its destination from below. -/
structure Layout (s : Symbols) : Prop where
  bss : s.bssSize < 2 ^ 63
  kernel : s.kernelSize < 2 ^ 63
  apart : Apart s.bssStart (covered s.bssSize) s.kernelStart (covered s.kernelSize)
  forward : (s.kernelStart - kernelLoadAddr).toNat + covered s.kernelSize ≤ 2 ^ 64

/-- D, A, I and F are set. -/
def Masked (pstate : Word) : Prop := ∀ i, 6 ≤ i → i < 10 → pstate.getLsbD i = true

private theorem daifset : ∀ i, 6 ≤ i → i < 10 →
    (BitVec.ofNat 64 (0xf <<< 6)).getLsbD i = true := by
  intro i hlow hhigh
  obtain rfl | rfl | rfl | rfl : i = 6 ∨ i = 7 ∨ i = 8 ∨ i = 9 := by omega
  all_goals rfl

theorem le_covered (n : Nat) : n ≤ covered n := by
  unfold covered
  omega

theorem covered_bound {n : Nat} (h : n < 2 ^ 63) : covered n ≤ 2 ^ 63 := by
  unfold covered
  omega

/-- The image of `n` bytes at `src`, copied to `dst`. -/
def copied (mem : Memory) (src dst : Word) (n : Nat) : Memory :=
  fill mem dst n fun i => mem (src + BitVec.ofNat 64 i)

theorem copied_succ (mem : Memory) {src dst : Word} {n : Nat}
    (forward : (src - dst).toNat + (n + 8) ≤ 2 ^ 64) :
    copied (store64 mem dst (load64 mem src)) (src + 8#64) (dst + 8#64) n =
      copied mem src dst (n + 8) := by
  have hword (k : Nat) (hk : k < 8) :
      (load64 mem src).extractLsb' (8 * k) 8 = mem (src + BitVec.ofNat 64 k) :=
    extractLsb'_load64 mem src hk
  rw [copied, copied, ← fill_store64 mem dst (load64 mem src) (by omega) hword]
  apply fill_congr
  intro k hk
  have hfrom : src + 8#64 + BitVec.ofNat 64 k = src + BitVec.ofNat 64 (k + 8) := by bv_omega
  rw [hfrom]
  apply store64_of_not_within
  unfold Within
  bv_omega

theorem copied_zero (mem : Memory) (src dst : Word) : copied mem src dst 0 = mem := by
  funext x
  simp [copied, fill, Within]

def cleared (mem : Memory) (a : Word) (n : Nat) : Memory := fill mem a n fun _ => 0

theorem cleared_zero (mem : Memory) (a : Word) : cleared mem a 0 = mem := by
  funext x
  simp [cleared, fill, Within]

theorem cleared_succ (mem : Memory) (a : Word) {n : Nat} (hn : n + 8 ≤ 2 ^ 64) :
    cleared (store64 mem a 0) (a + 8#64) n = cleared mem a (n + 8) := by
  have hword (k : Nat) (_ : k < 8) : (0 : Word).extractLsb' (8 * k) 8 = 0 := by simp
  exact fill_store64 mem a 0 hn hword

def Instr.falls : Instr → Bool
  | .cbz _ _ | .bGt _ | .b _ | .br _ => false
  | _ => true

structure Same (m m' : Machine) : Prop where
  sp : m'.sp = m.sp
  pstate : ∀ i < 28, m'.pstate.getLsbD i = m.pstate.getLsbD i

theorem Same.trans {m m' m'' : Machine} (h : Same m m') (h' : Same m' m'') : Same m m'' :=
  ⟨h'.sp.trans h.sp, fun i hi => (h'.pstate i hi).trans (h.pstate i hi)⟩

theorem Same.masked {m m' : Machine} (h : Same m m') (masked : Masked m.pstate) :
    Masked m'.pstate := by
  intro i hlow hhigh
  rw [h.pstate i (by omega), masked i hlow hhigh]

section
variable {s : Symbols} {m : Machine} {j : Nat}

theorem exec_falls {i : Instr} (h : i.falls) (base : Word) (m : Machine) :
    (exec base m i).pc = m.pc + 4#64 := by
  cases i <;> first | rfl | cases h

theorem leads_falls {block : List Instr} {k n : Nat} (hpc : m.pc = (code s).label k)
    (hblock : block <+: (start s).drop k) (hlength : block.length = n)
    (small : 4 * (k + n) < 2 ^ 64) (falls : block.all Instr.falls = true) :
    (code s).Leads m (block.foldl (exec s.base) m) ∧
      (block.foldl (exec s.base) m).pc = (code s).label (k + n) := by
  subst hlength
  exact leads_block (p := code s) hpc hblock small fun i hi m =>
    exec_falls (List.all_eq_true.mp falls i hi) s.base m

theorem pc_bGt {x : Word} {k head : Nat} (hend : m.pc = (code s).label k)
    (hflags : ∃ p, m.pstate = withFlags p x 8) (small : x.toNat < 2 ^ 63) :
    (exec s.base m (.bGt head)).pc = (code s).label (if 8 < x.toNat then head else k + 1) := by
  obtain ⟨p, hp⟩ := hflags
  have hcond : condGt m.pstate = decide (8 < x.toNat) := by
    rw [hp]
    exact condGt_withFlags p small (by decide)
  rw [exec, hcond]
  by_cases hmore : 8 < x.toNat
  · rw [if_pos (decide_eq_true hmore), if_pos hmore]
    rfl
  · rw [if_neg (by rw [decide_eq_true_eq]; exact hmore), if_neg hmore, hend, label_succ]

theorem clear_round (hpc : m.pc = (code s).label 7) (small : (m.x 2).toNat < 2 ^ 63) :
    ∃ m', (code s).Leads m m' ∧ Same m m' ∧
      m'.pc = (code s).label (if 8 < (m.x 2).toNat then 7 else 10) ∧
      m'.x 1 = m.x 1 + 8#64 ∧ m'.x 2 = m.x 2 - 8#64 ∧ m'.mem = store64 m.mem (m.x 1) 0 := by
  have hblock : [.strXzrPost 1 8, .subs 2 2 8] <+: (start s).drop 7 := ⟨_, rfl⟩
  obtain ⟨hleads, hend⟩ := leads_falls hpc hblock rfl (by decide) rfl
  have hbranch := leads_step (p := code s) (i := .bGt 7) hend (by decide) rfl
  exact ⟨_, hleads.trans hbranch, ⟨rfl, fun i hi => getLsbD_withFlags_of_lt m.pstate _ _ hi⟩,
    pc_bGt hend ⟨m.pstate, rfl⟩ small, rfl, rfl, rfl⟩

theorem copy_round (hpc : m.pc = (code s).label 15) (small : (m.x 5).toNat < 2 ^ 63) :
    ∃ m', (code s).Leads m m' ∧ Same m m' ∧
      m'.pc = (code s).label (if 8 < (m.x 5).toNat then 15 else 19) ∧
      m'.x 3 = m.x 3 + 8#64 ∧ m'.x 6 = m.x 6 + 8#64 ∧ m'.x 5 = m.x 5 - 8#64 ∧
      m'.mem = store64 m.mem (m.x 6) (load64 m.mem (m.x 3)) := by
  have hblock : [.ldrPost 7 3 8, .strPost 7 6 8, .subs 5 5 8] <+: (start s).drop 15 := ⟨_, rfl⟩
  obtain ⟨hleads, hend⟩ := leads_falls hpc hblock rfl (by decide) rfl
  have hbranch := leads_step (p := code s) (i := .bGt 15) hend (by decide) rfl
  exact ⟨_, hleads.trans hbranch, ⟨rfl, fun i hi => getLsbD_withFlags_of_lt m.pstate _ _ hi⟩,
    pc_bGt hend ⟨m.pstate, rfl⟩ small, rfl, rfl, rfl, rfl⟩

/-- The induction is on the words that are left behind the next one. -/
theorem clear_loop (hpc : m.pc = (code s).label 7) (hlow : 8 * j < (m.x 2).toNat)
    (hhigh : (m.x 2).toNat ≤ 8 * (j + 1)) (small : (m.x 2).toNat < 2 ^ 63) :
    ∃ m', (code s).Leads m m' ∧ Same m m' ∧ m'.pc = (code s).label 10 ∧
      m'.mem = cleared m.mem (m.x 1) (8 * (j + 1)) := by
  induction j generalizing m with
  | zero =>
    obtain ⟨m', hround, hsame, hpc', -, -, hmem⟩ := clear_round hpc small
    rw [if_neg (by omega)] at hpc'
    refine ⟨m', hround, hsame, hpc', ?_⟩
    rw [hmem, ← cleared_succ m.mem (m.x 1) (by decide), cleared_zero]
  | succ j ih =>
    obtain ⟨m', hround, hsame, hpc', hx1, hx2, hmem⟩ := clear_round hpc small
    rw [if_pos (by omega)] at hpc'
    have hleft : (m'.x 2).toNat = (m.x 2).toNat - 8 := by
      rw [hx2]
      bv_omega
    obtain ⟨last, hleads, hlast, hend, hcleared⟩ :=
      ih hpc' (by omega) (by omega) (by omega)
    refine ⟨last, hround.trans hleads, hsame.trans hlast, hend, ?_⟩
    rw [hcleared, hmem, hx1, cleared_succ _ _ (by omega)]
    rfl

theorem copy_loop (hpc : m.pc = (code s).label 15) (hlow : 8 * j < (m.x 5).toNat)
    (hhigh : (m.x 5).toNat ≤ 8 * (j + 1)) (small : (m.x 5).toNat < 2 ^ 63)
    (forward : (m.x 3 - m.x 6).toNat + 8 * (j + 1) ≤ 2 ^ 64) :
    ∃ m', (code s).Leads m m' ∧ Same m m' ∧ m'.pc = (code s).label 19 ∧
      m'.mem = copied m.mem (m.x 3) (m.x 6) (8 * (j + 1)) := by
  induction j generalizing m with
  | zero =>
    obtain ⟨m', hround, hsame, hpc', -, -, -, hmem⟩ := copy_round hpc small
    rw [if_neg (by omega)] at hpc'
    refine ⟨m', hround, hsame, hpc', ?_⟩
    rw [hmem, ← copied_succ m.mem forward, copied_zero]
  | succ j ih =>
    obtain ⟨m', hround, hsame, hpc', hx3, hx6, hx5, hmem⟩ := copy_round hpc small
    rw [if_pos (by omega)] at hpc'
    have hleft : (m'.x 5).toNat = (m.x 5).toNat - 8 := by
      rw [hx5]
      bv_omega
    have hdistance : m'.x 3 - m'.x 6 = m.x 3 - m.x 6 := by
      rw [hx3, hx6]
      bv_omega
    obtain ⟨last, hleads, hlast, hend, hcopied⟩ :=
      ih hpc' (by omega) (by omega) (by omega) (by rw [hdistance]; omega)
    refine ⟨last, hround.trans hleads, hsame.trans hlast, hend, ?_⟩
    rw [hcopied, hmem, hx3, hx6, copied_succ m.mem (by omega)]
    rfl

theorem clears (hpc : m.pc = (code s).label 6) (small : (m.x 2).toNat < 2 ^ 63) :
    ∃ m', (code s).Leads m m' ∧ Same m m' ∧ m'.pc = (code s).label 10 ∧
      m'.mem = cleared m.mem (m.x 1) (covered (m.x 2).toNat) := by
  have hbranch := leads_step (p := code s) (i := .cbz 2 10) hpc (by decide) rfl
  by_cases hzero : m.x 2 = 0
  · have hnone : covered (m.x 2).toNat = 0 := by
      rw [hzero]
      rfl
    refine ⟨_, hbranch, ⟨rfl, fun _ _ => rfl⟩, if_pos hzero, ?_⟩
    rw [hnone, cleared_zero]
    rfl
  · have hpos : 0 < (m.x 2).toNat := Nat.pos_of_ne_zero fun h => hzero (BitVec.eq_of_toNat_eq h)
    have hpc' : (exec s.base m (.cbz 2 10)).pc = (code s).label 7 := by
      refine (if_neg hzero).trans ?_
      rw [hpc, label_succ]
    obtain ⟨m', hleads, hsame, hend, hcleared⟩ := clear_loop (m := exec s.base m (.cbz 2 10))
      (j := ((m.x 2).toNat - 1) / 8) hpc'
      (by change 8 * (((m.x 2).toNat - 1) / 8) < (m.x 2).toNat; omega)
      (by change (m.x 2).toNat ≤ 8 * (((m.x 2).toNat - 1) / 8 + 1); omega) small
    have hcovered : 8 * (((m.x 2).toNat - 1) / 8 + 1) = covered (m.x 2).toNat := by
      unfold covered
      omega
    rw [hcovered] at hcleared
    exact ⟨m', hbranch.trans hleads, ⟨hsame.sp, hsame.pstate⟩, hend, hcleared⟩

theorem copies (hpc : m.pc = (code s).label 14) (small : (m.x 5).toNat < 2 ^ 63)
    (forward : (m.x 3 - m.x 6).toNat + covered (m.x 5).toNat ≤ 2 ^ 64) :
    ∃ m', (code s).Leads m m' ∧ Same m m' ∧ m'.pc = (code s).label 19 ∧
      m'.mem = copied m.mem (m.x 3) (m.x 6) (covered (m.x 5).toNat) := by
  have hbranch := leads_step (p := code s) (i := .cbz 5 19) hpc (by decide) rfl
  by_cases hzero : m.x 5 = 0
  · have hnone : covered (m.x 5).toNat = 0 := by
      rw [hzero]
      rfl
    refine ⟨_, hbranch, ⟨rfl, fun _ _ => rfl⟩, if_pos hzero, ?_⟩
    rw [hnone, copied_zero]
    rfl
  · have hpos : 0 < (m.x 5).toNat := Nat.pos_of_ne_zero fun h => hzero (BitVec.eq_of_toNat_eq h)
    have hpc' : (exec s.base m (.cbz 5 19)).pc = (code s).label 15 := by
      refine (if_neg hzero).trans ?_
      rw [hpc, label_succ]
    have hcovered : 8 * (((m.x 5).toNat - 1) / 8 + 1) = covered (m.x 5).toNat := by
      unfold covered
      omega
    obtain ⟨m', hleads, hsame, hend, hcopied⟩ := copy_loop (m := exec s.base m (.cbz 5 19))
      (j := ((m.x 5).toNat - 1) / 8) hpc'
      (by change 8 * (((m.x 5).toNat - 1) / 8) < (m.x 5).toNat; omega)
      (by change (m.x 5).toNat ≤ 8 * (((m.x 5).toNat - 1) / 8 + 1); omega) small
      (by rw [hcovered]; exact forward)
    rw [hcovered] at hcopied
    exact ⟨m', hbranch.trans hleads, ⟨hsame.sp, hsame.pstate⟩, hend, hcopied⟩

/-- Whatever the sizes of .bss and of the image, the loader gets to the load address with
interrupts masked, the stack pointer set, x0 to x2 zero, .bss zero and the image in place,
and has written nothing else than the last words of the two ranges in full. -/
theorem boots (layout : Layout s) (hpc : m.pc = s.base) :
    ∃ m', (code s).Leads m m' ∧ m'.pc = kernelLoadAddr ∧ m'.sp = s.stackTop ∧
      m'.x 0 = 0 ∧ m'.x 1 = 0 ∧ m'.x 2 = 0 ∧ Masked m'.pstate ∧
      (∀ i < s.kernelSize, m'.mem (kernelLoadAddr + BitVec.ofNat 64 i) =
        m.mem (s.kernelStart + BitVec.ofNat 64 i)) ∧
      (∀ a, Within s.bssStart s.bssSize a →
        ¬ Within kernelLoadAddr (covered s.kernelSize) a → m'.mem a = 0) ∧
      ∀ a, ¬ Within s.bssStart (covered s.bssSize) a →
        ¬ Within kernelLoadAddr (covered s.kernelSize) a → m'.mem a = m.mem a := by
  have hentry : m.pc = (code s).label 0 := by rw [hpc, label_zero]; rfl
  obtain ⟨hsetup, hpc6⟩ := leads_falls (n := 6) hentry
    (List.take_prefix 6 (start s)) rfl (by decide) rfl
  obtain ⟨m1, hclears, hsame1, hpc10, hmem1⟩ := clears hpc6 layout.bss
  obtain ⟨himage, hpc14⟩ := leads_falls (n := 4) hpc10
    (List.take_prefix 4 ((start s).drop 10)) rfl (by decide) rfl
  obtain ⟨m2, hcopies, hsame2, hpc19, hmem2⟩ := copies hpc14 layout.kernel layout.forward
  obtain ⟨hregs, hpc23⟩ := leads_falls (n := 4) hpc19
    (List.take_prefix 4 ((start s).drop 19)) rfl (by decide) rfl
  have hjump := leads_step (p := code s) (i := .br 3) hpc23 (by decide) rfl
  have hmem : m2.mem = copied (cleared m.mem s.bssStart (covered s.bssSize)) s.kernelStart
      kernelLoadAddr (covered s.kernelSize) := by
    rw [hmem2]
    change copied m1.mem _ _ _ = _
    rw [hmem1]
    rfl
  refine ⟨_, hsetup.trans (hclears.trans (himage.trans (hcopies.trans (hregs.trans hjump)))),
    rfl, ?_, rfl, rfl, rfl, ?_, fun i hi => ?_, fun a hbss hout => ?_, fun a hbss hout => ?_⟩
  · exact hsame2.sp.trans hsame1.sp
  · have hset : Masked (m.pstate ||| BitVec.ofNat 64 (0xf <<< 6)) := fun i hlow hhigh => by
      rw [BitVec.getLsbD_or, daifset i hlow hhigh, Bool.or_true]
    exact hsame2.masked (hsame1.masked hset)
  · have hin : i < covered s.kernelSize := Nat.lt_of_lt_of_le hi (le_covered _)
    have hsmall := covered_bound layout.kernel
    change m2.mem _ = _
    rw [hmem, copied, fill_of_lt _ _ _ hin (by omega)]
    refine if_neg fun hbss => layout.apart _ hbss ?_
    exact within_offset _ hin (by omega)
  · change m2.mem a = _
    rw [hmem, copied, fill, if_neg hout]
    exact if_pos (Nat.lt_of_lt_of_le hbss (le_covered _))
  · change m2.mem a = _
    rw [hmem, copied, fill, if_neg hout]
    exact if_neg hbss

def smallImage : Symbols := ⟨0, 0x40010000, 0x3000, 0x300C, 0x2000, 0x2014⟩

theorem boots_small_image :
    ∃ m', (code smallImage).Leads ⟨fun _ => 0, 0, fun _ => 0, 0, 0, fun a => a.setWidth 8⟩ m' ∧
      m'.pc = kernelLoadAddr ∧ m'.mem 0x40080013 = 0x13 ∧ m'.mem 0x300B = 0 := by
  have layout : Layout smallImage :=
    ⟨by decide, by decide, (apart_of_le (by decide) (by decide)).symm, by decide⟩
  obtain ⟨m', hleads, hpc, -, -, -, -, -, himage, hbss, -⟩ := boots layout
    (m := ⟨fun _ => 0, 0, fun _ => 0, 0, 0, fun a => a.setWidth 8⟩) rfl
  exact ⟨m', hleads, hpc, himage 19 (by decide), hbss 0x300B (by decide) (by decide)⟩

end

end KernelFuzzing.Start.Boot
