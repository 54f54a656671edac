import KernelFuzzing.Dtd.Walkers

/-! What one round of each walk does with the token that `p` points at. -/
namespace KernelFuzzing.Dtd
open Foundation Memory Reading DeviceTree

abbrev string (dtStrings : Word) (q : Property) : Word := dtStrings + q.nameOff.setWidth 64

/-- The sum of the size cells of the entries of a `reg` property. -/
def sizes (value : List Byte) : Word :=
  ((List.range (value.length / 16)).map fun i =>
    cells (be32At value (16 * i + 8)) (be32At value (16 * i + 12))).sum

def getTotalRam.effect (m : Memory) (dtStrings : Word) (s : RamState) (t : Token) :
    RamState ⊕ Word :=
  let p := s.p + BitVec.ofNat 64 t.size
  match t with
  | .beginNode _ => .inl ⟨p, looksMemory m (s.p + 4)⟩
  | .endNode => .inl ⟨p, false⟩
  | .prop q =>
    if s.insideMemoryNode && looksReg m (string dtStrings q) then .inr (sizes q.value)
    else .inl ⟨p, s.insideMemoryNode⟩
  | .nop => .inl ⟨p, s.insideMemoryNode⟩
  | .unknown _ _ => .inr 0

def storeRegAt (m : Memory) (value : Word) (result : Nat → Word) : Nat → Word :=
  storeReg result (cells (loadBe32 m value) (loadBe32 m (value + 4)))
    (cells (loadBe32 m (value + 8)) (loadBe32 m (value + 12)))

def storeInterruptAt (m : Memory) (value : Word) (result : Nat → Word) : Nat → Word :=
  storeInterrupt result (cells 0 (loadBe32 m value)) (cells 0 (loadBe32 m (value + 4)))
    (cells 0 (loadBe32 m (value + 8)))

def getDriveInfo.effect (m : Memory) (dtStrings : Word) (s : DriveState) (t : Token) :
    DriveState ⊕ (Nat → Word) :=
  let p := s.p + BitVec.ofNat 64 t.size
  match t with
  | .beginNode _ => .inl { s with p := p, insideVirtio := looksVirtio m (s.p + 4) }
  | .endNode => .inl { s with p := p, insideVirtio := false }
  | .prop q =>
    if s.insideVirtio && looksReg m (string dtStrings q) then
      if q.value = [] then .inl { s with p := p }
      else .inr (storeRegAt m (s.p + 12) s.result)
    else if s.insideVirtio && looksInterrupts m (string dtStrings q) then
      if q.value = [] then .inl { s with p := p }
      else .inl { s with p := p, result := storeInterruptAt m (s.p + 12) s.result }
    else .inl { s with p := p }
  | .nop => .inl { s with p := p }
  | .unknown _ _ => .inl { s with p := p }

variable {m : Memory} {S : Set Word} {p dtStrings : Word}

theorem gives_skipName_token {name : Name} (hname : Holds m p (name.val ++ [0]))
    (h : Spans S p (name.val.length + 1)) :
    Gives m S (skipName p) (p + BitVec.ofNat 64 name.val.length) := by
  rw [holds_append] at hname
  apply gives_skipName _ _ h
  · intro i hi
    rw [hname.1 i hi]
    intro hzero
    have hmem := List.getElem_mem hi
    rw [hzero] at hmem
    exact name.property hmem
  · simpa using hname.2 0 (by simp)

theorem terminated_token {name : Name} (hname : Holds m p (name.val ++ [0]))
    (h : Spans S p (name.val.length + 1)) : Terminated m S p := by
  rw [holds_append] at hname
  exact ⟨_, by simpa using hname.2 0 (by simp), h⟩

theorem gives_skipZero_token {name : Name} (hname : Holds m p (name.val ++ [0]))
    (h : Spans S p (name.val.length + 1)) :
    Gives m S (skipZero (p + BitVec.ofNat 64 name.val.length))
      (p + BitVec.ofNat 64 name.val.length + 1) := by
  rw [holds_append] at hname
  refine .bind (.read (h _ (by omega))) (.ite (fun _ => .pure _) fun hne => ?_)
  exact absurd (by simpa using hname.2 0 (by simp)) hne

theorem gives_sumSizes {value : List Byte} (hvalue : Holds m p value)
    (h : Spans S p value.length) (n j : Nat) (hn : 16 * (j + n) ≤ value.length) (total : Word) :
    Gives m S (sumSizes n (p + BitVec.ofNat 64 (16 * j)) total)
      (total + ((List.range' j n).map fun i =>
        cells (be32At value (16 * i + 8)) (be32At value (16 * i + 12))).sum) := by
  induction n generalizing j total with
  | zero => simpa [sumSizes] using Gives.pure (m := m) (S := S) total
  | succ n ih =>
    have hword (k : Nat) (hk : k + 4 ≤ 16) : Gives m S
        (readB32 (p + BitVec.ofNat 64 (16 * j) + BitVec.ofNat 64 k))
        (be32At value (16 * j + k)) := by
      rw [add_ofNat_add, ← hvalue.loadBe32 (by omega)]
      exact gives_readB32 ((h.drop (16 * j + k)).mono (by omega))
    have hnext := ih (j + 1) (by omega)
      (total + cells (be32At value (16 * j + 8)) (be32At value (16 * j + 12)))
    have hword0 := hword 0 (by omega)
    rw [BitVec.add_zero] at hword0
    rw [show 16 * (j + 1) = 16 * j + 16 by omega, ← add_ofNat_add] at hnext
    rw [List.range'_succ, List.map_cons, List.sum_cons, ← BitVec.add_assoc]
    exact .bind hword0 (.bind (hword 4 (by omega)) (.bind (hword 8 (by omega))
      (.bind (hword 12 (by omega)) hnext)))

theorem ofNat_length (q : Property) :
    (BitVec.ofNat 32 q.value.length).setWidth 64 = BitVec.ofNat 64 q.value.length := by
  have hsmall := q.small
  apply BitVec.eq_of_toNat_eq
  simp only [BitVec.toNat_setWidth, BitVec.toNat_ofNat]
  omega

theorem length_eq_zero (q : Property) :
    BitVec.ofNat 32 q.value.length = 0 ↔ q.value = [] := by
  have hsmall := q.small
  rw [← List.length_eq_zero_iff, BitVec.toNat_eq]
  simp only [BitVec.ofNat_eq_ofNat, BitVec.toNat_ofNat]
  omega

theorem gives_sizes {q : Property} (htoken : (Token.prop q).At m p)
    (hspans : Spans S p ((Token.prop q).size + 4)) :
    Gives m S (sumSizes (BitVec.ofNat 32 q.value.length / 16).toNat (p + 4 + 8) 0)
      (sizes q.value) := by
  have hsmall := q.small
  have hbehind := hspans.drop 12
  simp only [Token.size] at hbehind
  have hsum := gives_sumSizes htoken.2.2.2 (hbehind.mono (by omega)) (q.value.length / 16) 0
    (by omega) 0
  rw [Nat.mul_zero, BitVec.add_zero, zero_add, ← List.range_eq_range'] at hsum
  rw [BitVec.add_assoc, BitVec.toNat_udiv, BitVec.toNat_ofNat, Nat.mod_eq_of_lt hsmall]
  exact hsum

theorem gives_align_value (hp : p.toNat % 4 = 0) (q : Property) :
    Gives m S (align (p + 4 + 8 + (BitVec.ofNat 32 q.value.length).setWidth 64))
      (p + BitVec.ofNat 64 (Token.prop q).size) := by
  have halign := gives_align (m := m) (S := S) hp (12 + q.value.length)
  rw [ofNat_length, show p + 4 + 8 = p + BitVec.ofNat 64 12 by rw [BitVec.add_assoc]; rfl,
    add_ofNat_add]
  rwa [show 12 + q.value.length + pad (12 + q.value.length) = (Token.prop q).size by
    simp only [Token.size, pad]; omega] at halign

theorem gives_align_name (hp : p.toNat % 4 = 0) (name : Name) :
    Gives m S (align (p + 4 + BitVec.ofNat 64 name.val.length + 1))
      (p + BitVec.ofNat 64 (Token.beginNode name).size) := by
  have halign := gives_align (m := m) (S := S) hp (4 + (name.val.length + 1))
  rw [show p + 4 + BitVec.ofNat 64 name.val.length + 1 =
    p + BitVec.ofNat 64 (4 + (name.val.length + 1)) by
      rw [← add_ofNat_add, ← add_ofNat_add]
      rfl]
  rwa [show 4 + (name.val.length + 1) + pad (4 + (name.val.length + 1)) =
    (Token.beginNode name).size by simp only [Token.size, pad]; omega] at halign

variable {t : Token} {ts : List Token}

theorem gives_prop_words {q : Property} (htoken : (Token.prop q).At m p)
    (hspans : Spans S p ((Token.prop q).size + 4)) :
    Gives m S (readB32 (p + 4)) (BitVec.ofNat 32 q.value.length) ∧
      Gives m S (readB32 (p + 4 + 4)) q.nameOff := by
  simp only [Token.size] at hspans
  obtain ⟨-, hlength, hoffset, -⟩ := htoken
  rw [← hlength, ← hoffset, BitVec.add_assoc]
  exact ⟨gives_readB32 ((hspans.drop 4).mono (by omega)),
    gives_readB32 ((hspans.drop 8).mono (by omega))⟩

theorem gives_getTotalRam_prop {s : RamState} {q : Property} (h : Block m S s.p (.prop q :: ts))
    (hname : s.insideMemoryNode → string dtStrings q ∈ S ∧
      (m (string dtStrings q) = chr 'r' → string dtStrings q + 2 ∈ S)) :
    Gives m S (getTotalRam.prop dtStrings (s.p + 4) s.insideMemoryNode)
      (getTotalRam.effect m dtStrings s (.prop q)) := by
  have hspans := h.spans_token
  obtain ⟨hlength, hoffset⟩ := gives_prop_words h.token hspans
  refine .bind hlength (.bind hoffset ?_)
  refine .bind (gives_both fun hinside =>
    gives_isReg (hname hinside).1 (hname hinside).2) ?_
  refine .ite (fun hreg => ?_) fun hreg => ?_
  · rw [getTotalRam.effect, if_pos hreg]
    refine .ite (fun hnone => ?_) fun _ => .bind (gives_sizes h.token hspans) (.pure _)
    rw [(length_eq_zero q).mp hnone]
    exact .pure _
  · rw [getTotalRam.effect, if_neg hreg]
    exact .bind (gives_align_value h.aligned q) (.pure _)

theorem word_ne (word : {w : BitVec 32 // w ∉ tokenWords}) :
    word.val ≠ 1 ∧ word.val ≠ 2 ∧ word.val ≠ 3 ∧ word.val ≠ 4 ∧ word.val ≠ 9 := by
  simpa [tokenWords] using word.property

theorem gives_getTotalRam_body {s : RamState} (h : Block m S s.p (t :: ts))
    (hname : ∀ q, t = .prop q → s.insideMemoryNode → string dtStrings q ∈ S ∧
      (m (string dtStrings q) = chr 'r' → string dtStrings q + 2 ∈ S)) :
    Gives m S (getTotalRam.body dtStrings s) (getTotalRam.effect m dtStrings s t) := by
  have htoken := h.token
  have hspans := h.spans_token
  refine .bind (gives_readB32 (hspans.mono (by omega))) ?_
  cases t with
  | beginNode name =>
    have hlength := (pad_spec (name.val.length + 1)).1
    have hbehind := hspans.drop 4
    simp only [Token.size, Nat.add_assoc, Nat.add_sub_cancel_left] at hbehind
    rw [htoken.1]
    -- the sixth byte of a short name is in the word of the next token
    refine .bind (gives_isMemoryNode (hbehind.mono ?_)) ?_
    · unfold pad
      omega
    refine .bind (gives_skipName_token htoken.2 (hbehind.mono (by omega))) ?_
    exact .bind (gives_align_name h.aligned name) (.pure _)
  | endNode =>
    rw [show loadBe32 m s.p = 2 from htoken]
    exact .pure _
  | prop q =>
    rw [htoken.1]
    exact gives_getTotalRam_prop h (hname q rfl)
  | nop =>
    rw [show loadBe32 m s.p = 4 from htoken]
    exact .pure _
  | unknown word behind =>
    have hword := word_ne word
    rw [show loadBe32 m s.p = word.val from htoken]
    refine .ite (fun hbegin => absurd hbegin hword.1) fun _ => ?_
    refine .ite (fun hprop => absurd hprop hword.2.2.1) fun _ => ?_
    refine .ite (fun hend => absurd hend hword.2.1) fun _ => ?_
    exact .ite (fun hnop => absurd hnop hword.2.2.2.1) fun _ => .pure _

/-- What `get_drive_info` reads of a property in a node that it takes for `virtio_mmio`. -/
structure Property.Readable (m : Memory) (S : Set Word) (dtStrings value : Word) (q : Property) :
    Prop where
  second : m (string dtStrings q) = chr 'r' → string dtStrings q + 2 ∈ S
  reg : q.value ≠ [] → looksReg m (string dtStrings q) → Spans S value 16
  interrupts : q.value ≠ [] → looksInterrupts m (string dtStrings q) → Spans S value 12

theorem behind_empty {q : Property} (hnone : q.value = []) :
    p + 4 + 8 = p + BitVec.ofNat 64 (Token.prop q).size := by
  rw [Token.size, hnone, BitVec.add_assoc]
  rfl

theorem gives_getDriveInfo_reg {s : DriveState} {q : Property}
    (hterm : Terminated m S (string dtStrings q))
    (hspans : q.value ≠ [] → Spans S (s.p + 12) 16) :
    Gives m S (getDriveInfo.reg s (string dtStrings q) (s.p + 4 + 8)
        (BitVec.ofNat 32 q.value.length))
      (if q.value = [] then .inl { s with p := s.p + BitVec.ofNat 64 (Token.prop q).size }
        else .inr (storeRegAt m (s.p + 12) s.result)) := by
  refine .bind (gives_uartPuts hterm) (.ite (fun hzero => ?_) fun hzero => ?_)
  · have hnone := (length_eq_zero q).mp hzero
    rw [if_pos hnone, behind_empty hnone]
    exact .pure _
  · have hnone := mt (length_eq_zero q).mpr hzero
    have hvalue := hspans hnone
    rw [if_neg hnone, BitVec.add_assoc]
    exact .bind (gives_readB32 (hvalue.mono (by omega)))
      (.bind (gives_readB32 ((hvalue.drop 4).mono (by omega)))
      (.bind (gives_readB32 ((hvalue.drop 8).mono (by omega)))
      (.bind (gives_readB32 ((hvalue.drop 12).mono (by omega))) (.pure _))))

theorem gives_getDriveInfo_interrupts {s : DriveState} {q : Property}
    (haligned : s.p.toNat % 4 = 0) (hterm : Terminated m S (string dtStrings q))
    (hspans : q.value ≠ [] → Spans S (s.p + 12) 12) :
    Gives m S (getDriveInfo.interrupts s (string dtStrings q) (s.p + 4 + 8)
        (BitVec.ofNat 32 q.value.length))
      (if q.value = [] then .inl { s with p := s.p + BitVec.ofNat 64 (Token.prop q).size }
        else .inl { s with
          p := s.p + BitVec.ofNat 64 (Token.prop q).size
          result := storeInterruptAt m (s.p + 12) s.result }) := by
  refine .ite (fun hzero => ?_) fun hzero => ?_
  · have hnone := (length_eq_zero q).mp hzero
    rw [if_pos hnone, behind_empty hnone]
    exact .pure _
  · have hnone := mt (length_eq_zero q).mpr hzero
    have hvalue := hspans hnone
    have halign := gives_align_value (m := m) (S := S) haligned q
    rw [show s.p + 4 + 8 = s.p + 12 from BitVec.add_assoc s.p 4 8] at halign ⊢
    rw [if_neg hnone]
    exact .bind (gives_uartPuts hterm) (.bind (gives_readB32 ((hvalue.drop 4).mono (by omega)))
      (.bind (gives_readB32 (hvalue.mono (by omega)))
      (.bind (gives_readB32 ((hvalue.drop 8).mono (by omega))) (.bind halign (.pure _)))))

theorem terminated_value {q : Property} (h : Block m S p (.prop q :: ts)) :
    Terminated m S (p + 4 + 8) := by
  have hspans := h.spans_token.drop 12
  have hnext := h.next.terminated
  rw [show (Token.prop q).size = 12 + (q.value.length + pad q.value.length) from rfl]
    at hnext hspans
  rw [← add_ofNat_add] at hnext
  rw [BitVec.add_assoc]
  exact hnext.back (hspans.mono (by omega))

theorem gives_getDriveInfo_prop {s : DriveState} {q : Property}
    (h : Block m S s.p (.prop q :: ts)) (hterm : Terminated m S (string dtStrings q))
    (hread : s.insideVirtio → Property.Readable m S dtStrings (s.p + 12) q) :
    Gives m S (getDriveInfo.prop dtStrings (s.p + 4) s)
      (getDriveInfo.effect m dtStrings s (.prop q)) := by
  obtain ⟨hlength, hoffset⟩ := gives_prop_words h.token h.spans_token
  have hputs (c : Bool) : Gives m S (putsWhen c (s.p + 4 + 8)) () :=
    .ite (fun _ => gives_uartPuts (terminated_value h)) fun _ => .pure _
  refine .bind hlength (.bind hoffset ?_)
  refine .bind (gives_both fun _ => gives_startsWith hterm (by decide) (by decide)) ?_
  refine .bind (hputs _) (.bind (gives_uartPuts hterm) ?_)
  refine .bind (gives_both fun hinside => gives_isReg hterm.mem (hread hinside).second) ?_
  refine .ite (fun hreg => ?_) fun hreg => ?_
  · obtain ⟨hinside, hlooks⟩ := (Bool.and_eq_true _ _).mp hreg
    rw [getDriveInfo.effect, if_pos hreg]
    exact gives_getDriveInfo_reg hterm fun hnone => (hread hinside).reg hnone hlooks
  rw [getDriveInfo.effect, if_neg hreg]
  have hstarts : Gives m S (startsWith (string dtStrings q) _ _ _)
      (looksInterrupts m (string dtStrings q)) :=
    gives_startsWith hterm (by decide) (by decide)
  refine .bind (gives_both fun _ => hstarts) ?_
  refine .ite (fun hinterrupts => ?_) fun hinterrupts => ?_
  · obtain ⟨hinside, hlooks⟩ := (Bool.and_eq_true _ _).mp hinterrupts
    rw [if_pos hinterrupts]
    exact gives_getDriveInfo_interrupts h.aligned hterm
      fun hnone => (hread hinside).interrupts hnone hlooks
  · rw [if_neg hinterrupts]
    exact .bind (gives_align_value h.aligned q) (.pure _)

theorem gives_getDriveInfo_body {s : DriveState} (h : Block m S s.p (t :: ts))
    (hterm : ∀ q, t = .prop q → Terminated m S (string dtStrings q))
    (hread : ∀ q, t = .prop q → s.insideVirtio →
      Property.Readable m S dtStrings (s.p + 12) q) :
    Gives m S (getDriveInfo.body dtStrings s) (getDriveInfo.effect m dtStrings s t) := by
  have htoken := h.token
  have hspans := h.spans_token
  refine .bind (gives_readB32 (hspans.mono (by omega))) ?_
  cases t with
  | beginNode name =>
    have hbehind := hspans.drop 4
    simp only [Token.size, Nat.add_assoc, Nat.add_sub_cancel_left] at hbehind
    have hname := terminated_token htoken.2 (hbehind.mono (by omega))
    rw [htoken.1]
    refine .bind (gives_uartPuts hname) (.bind (gives_isVirtioNode hname) ?_)
    refine .bind (gives_skipName_token htoken.2 (hbehind.mono (by omega))) ?_
    refine .bind (gives_skipZero_token htoken.2 (hbehind.mono (by omega))) ?_
    exact .bind (gives_align_name h.aligned name) (.pure _)
  | endNode =>
    rw [show loadBe32 m s.p = 2 from htoken]
    exact .pure _
  | prop q =>
    rw [htoken.1]
    exact gives_getDriveInfo_prop h (hterm q rfl) (hread q rfl)
  | nop =>
    rw [show loadBe32 m s.p = 4 from htoken]
    exact .pure _
  | unknown word behind =>
    have hword := word_ne word
    rw [show loadBe32 m s.p = word.val from htoken]
    refine .ite (fun hbegin => absurd hbegin hword.1) fun _ => ?_
    refine .ite (fun hprop => absurd hprop hword.2.2.1) fun _ => ?_
    refine .ite (fun hend => absurd hend hword.2.1) fun _ => ?_
    refine .ite (fun hnop => absurd hnop hword.2.2.2.1) fun _ => ?_
    refine .ite (fun hlast => absurd hlast hword.2.2.2.2) fun _ => ?_
    rw [BitVec.add_assoc]
    exact .pure _

theorem gives_getTotalRam_last {s : RamState} (h : Block m S s.p []) :
    Gives m S (getTotalRam.body dtStrings s) (.inr 0) := by
  have hlast := h.last
  have hspans := h.spans
  refine .bind (gives_readB32 hspans) ?_
  rw [hlast]
  exact .pure _

theorem gives_getDriveInfo_last {s : DriveState} (h : Block m S s.p []) :
    Gives m S (getDriveInfo.body dtStrings s) (.inr s.result) := by
  have hlast := h.last
  have hspans := h.spans
  refine .bind (gives_readB32 hspans) ?_
  rw [hlast]
  exact .pure _

end KernelFuzzing.Dtd
