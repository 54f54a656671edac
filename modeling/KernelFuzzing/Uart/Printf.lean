import KernelFuzzing.Uart.Digits

/-! `uart_printf` of drivers/char/uart.c: the format string is read one character at a
time, and each specifier takes an argument. -/
namespace KernelFuzzing.Uart
open Foundation

inductive Arg where
  | int (d : BitVec 32)
  | uint64 (l : Word)
  | string (s : List Byte)
deriving DecidableEq

/-- `va_arg(fmt_args, int)`; an argument of another type has no value. -/
def vaArg.int : List Arg → Option (BitVec 32 × List Arg)
  | .int d :: args => some (d, args)
  | _ => none

def vaArg.uint64 : List Arg → Option (Word × List Arg)
  | .uint64 l :: args => some (l, args)
  | _ => none

def vaArg.string : List Arg → Option (List Byte × List Arg)
  | .string s :: args => some (s, args)
  | _ => none

/-- How far `p` gets from `s`. -/
def strulen.count : List Byte → Option Nat
  | [] => none
  | c :: s => if c ≠ 0 then (strulen.count s).map (· + 1) else some 0

/-- The distance is returned as an `int`. -/
def strulen (s : List Byte) : Option Int :=
  (strulen.count s).map fun n => (BitVec.ofNat 32 n).toInt

/-- The `switch` of `uart_printf`, with the arguments it leaves. -/
def uartPrintf.specifier (fr : FlagRegister) (buf : DigitBuffer) (formatSpecifier : Byte)
    (args : List Arg) : Code (List Arg) := do
  if formatSpecifier = 0x63#8 then
    let (c, args) ← vaArg.int args
    uartPutc fr (c.setWidth 8)
    return args
  else if formatSpecifier = 0x64#8 then
    let (d, args) ← vaArg.int args
    int2str fr buf d
    return args
  else if formatSpecifier = 0x6C#8 then
    let (l, args) ← vaArg.uint64 args
    uint2str fr buf l
    return args
  else
    -- `%s`, and by `default` every other character
    let (s, args) ← vaArg.string args
    uartPuts fr s
    return args

/-- The loop of `uart_printf`. The digit buffers are what the stack holds when the
specifier at `i` is handled. -/
def uartPrintf.loop (fr : FlagRegister) (stack : Int → DigitBuffer) (fmt : List Byte)
    (full i : Int) (args : List Arg) : Code (List Arg) := do
  if h : i < full then
    let current ← fmt[i.toNat]?
    if current ≠ 0x25#8 then
      uartPutc fr current
      uartPrintf.loop fr stack fmt full (i + 1) args
    else
      let formatSpecifier ← fmt[(i + 1).toNat]?
      let args ← uartPrintf.specifier fr (stack i) formatSpecifier args
      uartPrintf.loop fr stack fmt full (i + 1 + 1) args
  else
    return args
termination_by (full - i).toNat

/-- The arguments that are left when `va_end` is reached. -/
def uartPrintf (fr : FlagRegister) (stack : Int → DigitBuffer) (fmt : List Byte)
    (args : List Arg) : Code (List Arg) := do
  let full ← strulen fmt
  uartPrintf.loop fr stack fmt full 0 args

/-- A string in an object that goes on behind its NUL. -/
structure CString where
  text : List Byte
  behind : List Byte
  terminated : ∀ c ∈ text, c ≠ 0

def CString.object (s : CString) : List Byte := s.text ++ 0 :: s.behind

abbrev Literal := {c : Byte // c ≠ 0 ∧ c ≠ 0x25#8}

/-- A literal character of a format, or a specifier with its argument. -/
inductive Item where
  | literal (c : Literal)
  | char (c : BitVec 32)
  | int (d : BitVec 32)
  | uint64 (l : Word)
  | string (s : CString)

namespace Item

def format : Item → List Byte
  | literal c => [c.val]
  | char _ => [0x25#8, 0x63#8]
  | int _ => [0x25#8, 0x64#8]
  | uint64 _ => [0x25#8, 0x6C#8]
  | string _ => [0x25#8, 0x73#8]

def args : Item → List Arg
  | literal _ => []
  | char c => [.int c]
  | int d => [.int d]
  | uint64 l => [.uint64 l]
  | string s => [.string s.object]

def text : Item → List Byte
  | literal c => [c.val]
  | char c => [c.setWidth 8]
  | int d => signedDecimal d.toInt
  | uint64 l => decimal l.toNat
  | string s => s.text

def sent : Item → List Byte
  | int d => int2str.text d
  | item => item.text

end Item

/-- The items that the loop reaches from index `i` on. -/
def reached (full : Int) : Int → List Item → List Item
  | _, [] => []
  | i, item :: items =>
    if i < full then item :: reached full (i + item.format.length) items else []

section
variable {fr : FlagRegister} {stack : Int → DigitBuffer}

theorem Item.format_cases (item : Item) :
    (∃ c : Literal, item = .literal c) ∨
      ∃ formatSpecifier, item.format = [0x25#8, formatSpecifier] := by
  cases item with
  | literal c => exact .inl ⟨c, rfl⟩
  | char _ => exact .inr ⟨_, rfl⟩
  | int _ => exact .inr ⟨_, rfl⟩
  | uint64 _ => exact .inr ⟨_, rfl⟩
  | string _ => exact .inr ⟨_, rfl⟩

theorem Item.ne_zero_of_mem_format {item : Item} {c : Byte} (h : c ∈ item.format) : c ≠ 0 := by
  cases item with
  | literal l =>
    rw [Item.format, List.mem_singleton] at h
    exact h ▸ l.property.1
  | char _ | int _ | uint64 _ | string _ =>
    rw [Item.format, List.mem_pair] at h
    rcases h with rfl | rfl <;> decide

theorem sends_specifier (fr : FlagRegister) (buf : DigitBuffer) (item : Item) (rest : List Arg)
    {formatSpecifier : Byte} (h : item.format = [0x25#8, formatSpecifier]) :
    Sends (uartPrintf.specifier fr buf formatSpecifier (item.args ++ rest)) item.sent rest := by
  have hend {text : List Byte} {x : Code Unit} (hx : Sends x text ()) :
      Sends (do x; return rest) text rest := by
    simpa using hx.bind (f := fun _ => pure rest) (Sends.pure rest)
  unfold uartPrintf.specifier
  cases item with
  | literal c => simp [Item.format] at h
  | char c =>
    obtain rfl : 0x63#8 = formatSpecifier := by simpa [Item.format] using h
    exact Sends.lift rfl (hend (sends_uartPutc fr _))
  | int d =>
    obtain rfl : 0x64#8 = formatSpecifier := by simpa [Item.format] using h
    exact Sends.lift rfl (hend (sends_int2str fr buf d))
  | uint64 l =>
    obtain rfl : 0x6C#8 = formatSpecifier := by simpa [Item.format] using h
    exact Sends.lift rfl (hend (sends_uint2str fr buf l))
  | string s =>
    obtain rfl : 0x73#8 = formatSpecifier := by simpa [Item.format] using h
    exact Sends.lift rfl (hend (sends_uartPuts fr s.terminated s.behind))

theorem sends_loop (items : List Item) (before behind : List Byte) (full : Int)
    (hfull : full ≤ before.length + (items.flatMap Item.format).length) (rest : List Arg) :
    Sends
      (uartPrintf.loop fr stack (before ++ items.flatMap Item.format ++ behind) full
        before.length (items.flatMap Item.args ++ rest))
      ((reached full before.length items).flatMap Item.sent)
      ((items.drop (reached full before.length items).length).flatMap Item.args ++ rest) := by
  induction items generalizing before with
  | nil =>
    rw [uartPrintf.loop, dif_neg (by simpa using hfull)]
    exact Sends.pure _
  | cons item items ih =>
    by_cases hstop : (before.length : Int) < full
    · have hreached : reached full before.length (item :: items) =
          item :: reached full (before.length + item.format.length) items := by
        rw [reached, if_pos hstop]
      have next := ih (before ++ item.format) (by simpa [Int.add_assoc] using hfull)
      rw [List.length_append, Nat.cast_add, List.append_assoc before] at next
      rw [hreached, List.length_cons, List.drop_succ_cons, List.flatMap_cons, List.flatMap_cons,
        List.flatMap_cons, List.append_assoc item.args, uartPrintf.loop, dif_pos hstop]
      rcases item.format_cases with ⟨c, rfl⟩ | ⟨formatSpecifier, hformat⟩
      · have hget : (before ++ ((Item.literal c).format ++ items.flatMap Item.format) ++
            behind)[(before.length : Int).toNat]? = some c.val := by
          simp [Item.format]
        refine Sends.lift hget ?_
        rw [if_pos c.property.2]
        exact (sends_uartPutc fr c.val).bind next
      · have hget : (before ++ (item.format ++ items.flatMap Item.format) ++
            behind)[(before.length : Int).toNat]? = some 0x25#8 := by
          simp [hformat]
        have hspecifier : (before ++ (item.format ++ items.flatMap Item.format) ++
            behind)[((before.length : Int) + 1).toNat]? = some formatSpecifier := by
          have hindex : ((before.length : Int) + 1).toNat = before.length + 1 := by omega
          simp [hindex, hformat]
        refine Sends.lift hget ?_
        rw [if_neg (by decide)]
        refine Sends.lift hspecifier ((sends_specifier fr _ item _ hformat).bind ?_)
        rw [hformat] at next ⊢
        exact next
    · rw [reached, if_neg hstop, uartPrintf.loop, dif_neg hstop]
      exact Sends.pure _

theorem count_append {s : List Byte} (hs : ∀ c ∈ s, c ≠ 0) (behind : List Byte) :
    strulen.count (s ++ 0 :: behind) = some s.length := by
  induction s with
  | nil => rfl
  | cons c s ih =>
    rw [List.cons_append, strulen.count, if_pos (hs c List.mem_cons_self),
      ih fun d hd => hs d (List.mem_cons_of_mem _ hd)]
    rfl

def fullLength (items : List Item) : Int :=
  (BitVec.ofNat 32 (items.flatMap Item.format).length).toInt

theorem fullLength_le (items : List Item) :
    fullLength items ≤ (items.flatMap Item.format).length := by
  rw [fullLength, BitVec.toInt_eq_toNat_cond, BitVec.toNat_ofNat]
  split <;> omega

theorem fullLength_of_lt {items : List Item} (h : (items.flatMap Item.format).length < 2 ^ 31) :
    fullLength items = (items.flatMap Item.format).length := by
  rw [fullLength, BitVec.toInt_eq_toNat_cond, BitVec.toNat_ofNat]
  split <;> omega

theorem fullLength_of_ge {items : List Item} (h : 2 ^ 31 ≤ (items.flatMap Item.format).length) :
    fullLength items + 1 < (items.flatMap Item.format).length := by
  rw [fullLength, BitVec.toInt_eq_toNat_cond, BitVec.toNat_ofNat]
  split <;> omega

variable (fr stack) in
theorem sends_printf (items : List Item) (behind : List Byte) (rest : List Arg) :
    Sends
      (uartPrintf fr stack (items.flatMap Item.format ++ 0 :: behind)
        (items.flatMap Item.args ++ rest))
      ((reached (fullLength items) 0 items).flatMap Item.sent)
      ((items.drop (reached (fullLength items) 0 items).length).flatMap Item.args ++ rest) := by
  have hnul : ∀ c ∈ items.flatMap Item.format, c ≠ 0 := by
    intro c hc
    obtain ⟨item, -, hmem⟩ := List.mem_flatMap.mp hc
    exact item.ne_zero_of_mem_format hmem
  have hlength : strulen (items.flatMap Item.format ++ 0 :: behind) =
      some (fullLength items) := by
    rw [strulen, count_append hnul]
    rfl
  have hle := fullLength_le items
  exact Sends.lift hlength
    (sends_loop items [] (0 :: behind) (fullLength items) (by simpa using hle) rest)

end

theorem Item.sent_eq_text {item : Item} (h : item ≠ .int (BitVec.intMin 32)) :
    item.sent = item.text := by
  cases item with
  | int d => exact if_neg fun hd => h (congrArg Item.int hd)
  | literal _ | char _ | uint64 _ | string _ => rfl

theorem Item.length_sent_intMin :
    (Item.int (BitVec.intMin 32)).sent.length <
      (Item.int (BitVec.intMin 32)).text.length := by
  have hpos := List.length_pos_iff.mpr (Decimal.decimal_ne_nil (BitVec.intMin 32).toInt.natAbs)
  rw [Item.sent, Item.text, int2str.text, if_pos rfl, signedDecimal, if_pos (by decide)]
  simpa using hpos

theorem Item.text_ne_nil {item : Item} (h : item.args = []) : item.text ≠ [] := by
  cases item with
  | literal c => exact List.cons_ne_nil _ _
  | char _ | int _ | uint64 _ | string _ => exact absurd h (List.cons_ne_nil _ _)

theorem Item.format_length_le (item : Item) : item.format.length ≤ 2 := by
  cases item <;> simp [Item.format]

theorem Item.format_length_pos (item : Item) : 0 < item.format.length := by
  cases item <;> simp [Item.format]

theorem length_sent_le (items : List Item) :
    (items.flatMap Item.sent).length ≤ (items.flatMap Item.text).length ∧
      ((items.flatMap Item.sent).length = (items.flatMap Item.text).length →
        Item.int (BitVec.intMin 32) ∉ items) := by
  induction items with
  | nil => simp
  | cons item items ih =>
    simp only [List.flatMap_cons, List.length_append, List.mem_cons, not_or]
    by_cases hmin : item = .int (BitVec.intMin 32)
    · have hlt := Item.length_sent_intMin
      rw [hmin]
      omega
    · rw [Item.sent_eq_text hmin]
      exact ⟨by omega, fun h => ⟨Ne.symm hmin, ih.2 (by omega)⟩⟩

theorem reached_append_drop (full i : Int) (items : List Item) :
    reached full i items ++ items.drop (reached full i items).length = items := by
  induction items generalizing i with
  | nil => rfl
  | cons item items ih =>
    rw [reached]
    split
    · rw [List.length_cons, List.drop_succ_cons, List.cons_append, ih]
    · rfl

theorem reached_eq_self {full i : Int} {items : List Item}
    (h : i + (items.flatMap Item.format).length ≤ full) : reached full i items = items := by
  induction items generalizing i with
  | nil => rfl
  | cons item items ih =>
    have hpos := item.format_length_pos
    rw [List.flatMap_cons, List.length_append] at h
    rw [reached, if_pos (by omega), ih (by omega)]

theorem le_of_reached_eq_self {full i : Int} {items : List Item} (hne : items ≠ [])
    (h : reached full i items = items) : i + (items.flatMap Item.format).length ≤ full + 1 := by
  induction items generalizing i with
  | nil => exact absurd rfl hne
  | cons item items ih =>
    have hitem := item.format_length_le
    rw [reached] at h
    split at h
    · have hrest := List.tail_eq_of_cons_eq h
      rw [List.flatMap_cons, List.length_append]
      by_cases hnil : items = []
      · subst hnil
        simp
        omega
      · have next := ih hnil hrest
        omega
    · exact absurd h (by simp)

theorem eq_nil_of_text_args {items : List Item} (htext : items.flatMap Item.text = [])
    (hargs : items.flatMap Item.args = []) : items = [] := by
  rw [List.flatMap_eq_nil_iff] at htext hargs
  rw [List.eq_nil_iff_forall_not_mem]
  exact fun item hitem => Item.text_ne_nil (hargs item hitem) (htext item hitem)

/-- `uart_printf` prints what its format and arguments stand for, and takes one argument
for each specifier, exactly when no `%d` is given the smallest `int` and the length of
the format is an `int`. -/
theorem printf_prints_iff (fr : FlagRegister) (stack : Int → DigitBuffer) (items : List Item)
    (behind : List Byte) (rest : List Arg) :
    Sends
        (uartPrintf fr stack (items.flatMap Item.format ++ 0 :: behind)
          (items.flatMap Item.args ++ rest))
        (items.flatMap Item.text) rest ↔
      Item.int (BitVec.intMin 32) ∉ items ∧ (items.flatMap Item.format).length < 2 ^ 31 := by
  have hsends := sends_printf fr stack items behind rest
  have happend := reached_append_drop (fullLength items) 0 items
  constructor
  · intro hmeant
    obtain ⟨htext, hargs⟩ := hmeant.unique hsends
    have hlengths := length_sent_le (reached (fullLength items) 0 items)
    have hsplit := congrArg (fun l => (l.flatMap Item.text).length) happend
    simp only [List.flatMap_append, List.length_append, htext] at hsplit
    have hleft : items.drop (reached (fullLength items) 0 items).length = [] := by
      refine eq_nil_of_text_args ?_ (List.append_left_eq_self.mp hargs.symm)
      rw [← List.length_eq_zero_iff]
      omega
    have hreached : reached (fullLength items) 0 items = items := by
      rw [hleft, List.append_nil] at happend
      exact happend
    rw [hreached] at hlengths htext
    refine ⟨hlengths.2 (by rw [htext]), ?_⟩
    by_contra hlong
    have hne : items ≠ [] := by
      rintro rfl
      exact hlong (by decide)
    have hfull := fullLength_of_ge (Nat.le_of_not_lt hlong)
    have hle := le_of_reached_eq_self hne hreached
    omega
  · rintro ⟨hmin, hlength⟩
    have hreached : reached (fullLength items) 0 items = items :=
      reached_eq_self (by rw [fullLength_of_lt hlength]; omega)
    have hsent : items.flatMap Item.sent = items.flatMap Item.text :=
      List.flatMap_congr fun item hitem => Item.sent_eq_text (fun h => hmin (h ▸ hitem))
    rw [hreached, List.drop_length, hsent] at hsends
    exact hsends

def idleFlags : FlagRegister := ⟨fun _ => 0, fun n => ⟨n, Nat.le_refl n, rfl⟩⟩

def clearStack : Int → DigitBuffer := fun _ => Vector.replicate 2048 0

theorem not_printf_prints_int_min :
    ¬ Sends (uartPrintf idleFlags clearStack [0x25#8, 0x64#8, 0] [.int 0x80000000#32])
      (signedDecimal (-2147483648)) [] := by
  intro hmeant
  have hsends := sends_printf idleFlags clearStack [.int 0x80000000#32] [] []
  have htext := (hmeant.unique hsends).1
  exact absurd (congrArg List.length htext) (by decide +kernel)

end KernelFuzzing.Uart
