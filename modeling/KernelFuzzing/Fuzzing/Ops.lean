import Mathlib.Data.Vector.Basic
import KernelFuzzing.Foundation.Memory

/-! The operations of fuzzing/fuzz_nsim.c: what `do_op` reads of its slice and does to the
netdevsim devices, and the runner that goes through a sequence of them. -/
namespace KernelFuzzing.Fuzzing
open Foundation

inductive Op where
  | create
  | addrAdd
  | addrDel
  | linkUp
  | linkDown
  | del
  | doubleDel
  | chgMtu
  | chgMac
deriving DecidableEq

def Op.byte : Op → Byte
  | create => 0#8
  | addrAdd => 1#8
  | addrDel => 2#8
  | linkUp => 3#8
  | linkDown => 4#8
  | del => 5#8
  | doubleDel => 6#8
  | chgMtu => 7#8
  | chgMac => 8#8

/-- The `case` that a byte selects, if there is one. -/
def Op.ofByte (b : Byte) : Option Op :=
  [create, addrAdd, addrDel, linkUp, linkDown, del, doubleDel, chgMtu, chgMac].find?
    fun op => op.byte = b

abbrev IfName := List Byte

/-- What is written to sysfs or run as an `ip` command. -/
inductive Command where
  | nsimNew (id ports : Nat)
  | nsimDel (id : Nat)
  | ipAdd (ifn : IfName) (a b c d : Byte) (pre : Nat)
  | ipDel (ifn : IfName) (a b c d : Byte) (pre : Nat)
  | linkSet (ifn : IfName) (up : Bool)
  | setMtu (ifn : IfName) (mtu : Nat)
  | changeMac (ifn : IfName) (mac : Vector Byte 6)

/-- The calls of `first_nsim_if` made so far, and the commands issued. -/
structure Log where
  globs : Nat
  commands : List Command

abbrev Exec := StateT Log Option

/-- `p[i]` in a slice of length `n`. -/
def load (p : List Byte) (n i : Nat) : Exec Byte := fun log =>
  if i < n then p[i]?.map (·, log) else none

def command (c : Command) : Exec Unit := fun log =>
  some ((), { log with commands := log.commands ++ [c] })

/-- The interface found depends on what else has gone on in the system. -/
def firstNsimIf (found : Nat → IfName) : Exec IfName := fun log =>
  some (found log.globs, { log with globs := log.globs + 1 })

/-- `n > i ? f(p[i]) : otherwise` -/
def param {α : Type} (p : List Byte) (n i : Nat) (f : Byte → α) (otherwise : α) : Exec α :=
  if n > i then do
    let v ← load p n i
    return f v
  else pure otherwise

/-- The device that `do_op` addresses. -/
def doOp.id (p : List Byte) (n : Nat) (defaultId : Nat) : Exec Nat := do
  let b ← param p n 1 (fun v => v) (BitVec.ofNat 8 defaultId)
  return b.toNat % 32

def doOp.addrParams (p : List Byte) (n : Nat) : Exec (Byte × Byte × Byte × Byte × Nat) := do
  let a ← param p n 2 (fun v => v) 192#8
  let b ← param p n 3 (fun v => v) 0#8
  let c ← param p n 4 (fun v => v) 2#8
  let d ← param p n 5 (fun v => v) 1#8
  let pr ← param p n 6 (fun v => v.toNat % 30 + 1) 24
  return (a, b, c, d, pr)

/-- The interface that `OP_ADDR_ADD` works on, from a device it makes if there is none. -/
def doOp.addrIf (found : Nat → IfName) (id : Nat) : Exec IfName := do
  let ifn ← firstNsimIf found
  if ifn = [] then
    command (.nsimNew id 1)
    firstNsimIf found
  else return ifn

/-- The loop that fills `mac` from its entry `i + 1` on; `n` is compared as an `int`. -/
def doOp.fillMac (p : List Byte) (n i : Nat) (mac : Vector Byte 6) : Exec (Vector Byte 6) := do
  if h : i < 5 ∧ ((3 + i : Nat) : Int) < (BitVec.ofNat 32 n).toInt then
    let v ← load p n (3 + i)
    doOp.fillMac p n (i + 1) (mac.set (i + 1) v (by omega))
  else
    return mac
termination_by 5 - i

def doOp (found : Nat → IfName) (p : List Byte) (n defaultId : Nat) : Exec Unit := do
  if n < 1 then return
  let op ← load p n 0
  let id ← doOp.id p n defaultId
  match Op.ofByte op with
  | some .create =>
    let ports ← param p n 2 (fun v => v.toNat % 4) 0
    command (.nsimNew id (1 + ports))
  | some .addrAdd =>
    let ifn ← doOp.addrIf found id
    if ifn = [] then return
    let (a, b, c, d, pr) ← doOp.addrParams p n
    command (.ipAdd ifn a b c d pr)
  | some .addrDel =>
    let ifn ← firstNsimIf found
    if ifn = [] then return
    let (a, b, c, d, pr) ← doOp.addrParams p n
    command (.ipDel ifn a b c d pr)
  | some .linkUp =>
    let ifn ← firstNsimIf found
    if ifn ≠ [] then command (.linkSet ifn true)
  | some .linkDown =>
    let ifn ← firstNsimIf found
    if ifn ≠ [] then command (.linkSet ifn false)
  | some .del => command (.nsimDel id)
  | some .doubleDel =>
    command (.nsimDel id)
    command (.nsimDel id)
  | some .chgMtu =>
    let ifn ← firstNsimIf found
    if ifn = [] then return
    let v ← param p n 2 (fun v => v.toNat * 16) 1000
    command (.setMtu ifn (500 + v))
  | some .chgMac =>
    let ifn ← firstNsimIf found
    if ifn = [] then return
    let mac ← doOp.fillMac p n 0 #v[0x02#8, 0#8, 0#8, 0#8, 0#8, 0#8]
    command (.changeMac ifn mac)
  | none => return

/-- An operation: the bytes of its allocation and its length. -/
structure Slice where
  bytes : List Byte
  len : Nat
deriving DecidableEq

structure RunnerArgs where
  seq : List Slice
  nseq : Nat
  skewMs : Int

/-- The loop of `runner` from index `i` on, without its sleeps. -/
def runner.loop (found : Nat → IfName) (a : RunnerArgs) (i : Nat) : Exec Unit := do
  if i < a.nseq then
    let s ← a.seq[i]?
    doOp found s.bytes s.len 1
    runner.loop found a (i + 1)
termination_by a.nseq - i

def runner (found : Nat → IfName) (a : RunnerArgs) : Exec Unit :=
  let a := if a.skewMs < 0 then { a with skewMs := 0 } else a
  runner.loop found a 0

def Command.On (id : Nat) : Command → Prop
  | nsimNew i _ | nsimDel i => i = id
  | _ => True

/-- The code stays within its slice, and its commands are for the device. -/
def Safe {α : Type} (id : Nat) (x : Exec α) : Prop :=
  ∀ log, (∀ c ∈ log.commands, c.On id) →
    ∃ a log', x.run log = some (a, log') ∧ ∀ c ∈ log'.commands, c.On id

section
variable {α β : Type} {id : Nat} {p : List Byte} {n : Nat}

theorem Safe.pure (a : α) : Safe id (pure a) := fun log h => ⟨a, log, rfl, h⟩

theorem Safe.bind {x : Exec α} {f : α → Exec β} (hx : Safe id x) (hf : ∀ a, Safe id (f a)) :
    Safe id (x >>= f) := by
  intro log h
  obtain ⟨a, log', hrun, h'⟩ := hx log h
  obtain ⟨b, log'', hrun', h''⟩ := hf a log' h'
  refine ⟨b, log'', ?_, h''⟩
  rw [StateT.run_bind, hrun]
  exact hrun'

theorem Safe.ite {P : Prop} [Decidable P] {x y : Exec α} (hx : P → Safe id x)
    (hy : ¬ P → Safe id y) : Safe id (if P then x else y) := by
  split
  · exact hx ‹_›
  · exact hy ‹_›

theorem safe_load {i : Nat} (hi : i < n) (hn : n ≤ p.length) : Safe id (load p n i) := by
  intro log h
  refine ⟨p[i], log, ?_, h⟩
  change load p n i log = _
  rw [load, if_pos hi, List.getElem?_eq_getElem (by omega)]
  rfl

theorem safe_param (hn : n ≤ p.length) (i : Nat) (f : Byte → α) (otherwise : α) :
    Safe id (param p n i f otherwise) :=
  Safe.ite (fun hi => (safe_load hi hn).bind fun _ => Safe.pure _) fun _ => Safe.pure _

theorem safe_command {c : Command} (hc : c.On id) : Safe id (command c) := by
  intro log h
  refine ⟨(), _, rfl, fun d hd => ?_⟩
  rw [List.mem_append, List.mem_singleton] at hd
  rcases hd with hd | rfl
  · exact h d hd
  · exact hc

theorem safe_firstNsimIf (found : Nat → IfName) : Safe id (firstNsimIf found) :=
  fun _ h => ⟨_, _, rfl, h⟩

theorem safe_addrParams (hn : n ≤ p.length) : Safe id (doOp.addrParams p n) :=
  (safe_param hn _ _ _).bind fun _ => (safe_param hn _ _ _).bind fun _ =>
    (safe_param hn _ _ _).bind fun _ => (safe_param hn _ _ _).bind fun _ =>
    (safe_param hn _ _ _).bind fun _ => Safe.pure _

theorem safe_addrIf (found : Nat → IfName) : Safe id (doOp.addrIf found id) :=
  (safe_firstNsimIf found).bind fun _ =>
    Safe.ite (fun _ => (safe_command (c := .nsimNew id 1) rfl).bind fun _ => safe_firstNsimIf found)
      fun _ => Safe.pure _

theorem toInt_ofNat_le (n : Nat) : (BitVec.ofNat 32 n).toInt ≤ n := by
  rw [BitVec.toInt_eq_toNat_cond, BitVec.toNat_ofNat]
  split <;> omega

theorem safe_fillMac (hn : n ≤ p.length) (i : Nat) (mac : Vector Byte 6) :
    Safe id (doOp.fillMac p n i mac) := by
  have hint := toInt_ofNat_le n
  fun_induction doOp.fillMac p n i mac with
  | case1 i mac h ih => exact (safe_load (by omega) hn).bind ih
  | case2 i mac h => exact Safe.pure _

theorem id_run (hn : n ≤ p.length) (hid : 1 < n) (defaultId : Nat) (log : Log) :
    (doOp.id p n defaultId).run log = some ((p.getD 1 0).toNat % 32, log) := by
  have hload : load p n 1 log = some (p.getD 1 0, log) := by
    rw [load, if_pos hid, List.getElem?_eq_getElem (by omega),
      List.getD_eq_getElem _ _ (by omega)]
    rfl
  rw [doOp.id, param, if_pos hid, StateT.run_bind, StateT.run_bind, StateT.run, hload]
  rfl

theorem Safe.step {x : Exec α} {f : α → Exec β} {a : α} (hx : ∀ log, x.run log = some (a, log))
    (hf : Safe id (f a)) : Safe id (x >>= f) := by
  intro log h
  rw [StateT.run_bind, hx]
  exact hf log h

theorem safe_doOp (found : Nat → IfName) (hn : n ≤ p.length) (hid : 1 < n)
    (hdevice : (p.getD 1 0).toNat % 32 = id) (defaultId : Nat) :
    Safe id (doOp found p n defaultId) := by
  unfold doOp
  refine Safe.ite (fun _ => Safe.pure ()) fun _ => ?_
  refine (safe_load (by omega) hn).bind fun op => ?_
  refine Safe.step (id_run hn hid defaultId) ?_
  rw [hdevice]
  split
  · exact (safe_param hn _ _ _).bind fun _ => safe_command rfl
  · refine (safe_addrIf found).bind fun ifn => Safe.ite (fun _ => Safe.pure ()) fun _ => ?_
    exact (safe_addrParams hn).bind fun _ => safe_command trivial
  · refine (safe_firstNsimIf found).bind fun ifn => Safe.ite (fun _ => Safe.pure ()) fun _ => ?_
    exact (safe_addrParams hn).bind fun _ => safe_command trivial
  · exact (safe_firstNsimIf found).bind fun ifn =>
      Safe.ite (fun _ => safe_command trivial) fun _ => Safe.pure ()
  · exact (safe_firstNsimIf found).bind fun ifn =>
      Safe.ite (fun _ => safe_command trivial) fun _ => Safe.pure ()
  · exact safe_command rfl
  · exact (safe_command (c := .nsimDel id) rfl).bind fun _ => safe_command rfl
  · refine (safe_firstNsimIf found).bind fun ifn => Safe.ite (fun _ => Safe.pure ()) fun _ => ?_
    exact (safe_param hn _ _ _).bind fun _ => safe_command trivial
  · refine (safe_firstNsimIf found).bind fun ifn => Safe.ite (fun _ => Safe.pure ()) fun _ => ?_
    exact (safe_fillMac hn _ _).bind fun _ => safe_command trivial
  · exact Safe.pure ()

end

structure Slice.Names (s : Slice) (id : Nat) : Prop where
  device : (s.bytes.getD 1 0).toNat % 32 = id
  len : s.len = s.bytes.length
  two : 2 ≤ s.len

theorem safe_runner_loop (found : Nat → IfName) {id : Nat} {a : RunnerArgs}
    (hall : ∀ i < a.nseq, ∃ s, a.seq[i]? = some s ∧ s.Names id) (i : Nat) :
    Safe id (runner.loop found a i) := by
  fun_induction runner.loop found a i with
  | case1 i hi ih =>
    obtain ⟨s, hget, hnames⟩ := hall i hi
    refine Safe.step (a := s) (fun log => by rw [hget]; rfl) ?_
    exact (safe_doOp found (Nat.le_of_eq hnames.len) hnames.two hnames.device 1).bind
      fun _ => ih
  | case2 i hi => exact Safe.pure ()

theorem safe_runner (found : Nat → IfName) {id : Nat} {a : RunnerArgs}
    (hall : ∀ i < a.nseq, ∃ s, a.seq[i]? = some s ∧ s.Names id) : Safe id (runner found a) := by
  unfold runner
  split
  · exact safe_runner_loop found (a := { a with skewMs := 0 }) hall 0
  · exact safe_runner_loop found hall 0

end KernelFuzzing.Fuzzing
