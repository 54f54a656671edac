import Mathlib.Data.BitVec
import Mathlib.Data.List.GetD
import Mathlib.Tactic.Common

/-! Byte-addressed memory with little-endian 64-bit accesses. Distances between
addresses are taken modulo the address space, so that whether two ranges
overlap does not depend on where they lie. -/
namespace KernelFuzzing.Foundation

abbrev Word := BitVec 64
abbrev Byte := BitVec 8
abbrev Memory := Word → Byte

namespace Memory

/-- `x` is one of the `n` bytes that start at `a`. -/
def Within (a : Word) (n : Nat) (x : Word) : Prop := (x - a).toNat < n

instance (a : Word) (n : Nat) (x : Word) : Decidable (Within a n x) :=
  inferInstanceAs (Decidable (_ < _))

/-- The `n` bytes from `a` and the `k` bytes from `b` have none in common. -/
def Apart (a : Word) (n : Nat) (b : Word) (k : Nat) : Prop :=
  ∀ x, Within a n x → ¬ Within b k x

def load64 (m : Memory) (a : Word) : Word :=
  (m (a + 7) ++ m (a + 6) ++ m (a + 5) ++ m (a + 4) ++
    m (a + 3) ++ m (a + 2) ++ m (a + 1) ++ m a).cast rfl

def store64 (m : Memory) (a v : Word) : Memory := fun x =>
  if Within a 8 x then v.extractLsb' (8 * (x - a).toNat) 8 else m x

def store8 (m : Memory) (a : Word) (v : Byte) : Memory := fun x =>
  if x = a then v else m x

theorem Apart.symm (h : Apart a n b k) : Apart b k a n := fun x hb ha => h x ha hb

theorem Apart.mono (h : Apart a n b k) (hn : n' ≤ n) (hk : k' ≤ k) : Apart a n' b k' :=
  fun x ha hb => h x (Nat.lt_of_lt_of_le ha hn) (Nat.lt_of_lt_of_le hb hk)

theorem apart_of_le {a b : Word} (h : a.toNat + n ≤ b.toNat)
    (hb : b.toNat + k ≤ 2 ^ 64) : Apart a n b k := by
  intro x ha hx
  unfold Within at ha hx
  bv_omega

theorem within_iff {a x : Word} (h : a.toNat + n ≤ 2 ^ 64) :
    Within a n x ↔ a.toNat ≤ x.toNat ∧ x.toNat < a.toNat + n := by
  unfold Within
  bv_omega

theorem apart_of_offsets {a : Word} {i j : Nat} (h : i + n ≤ j)
    (hj : j + k ≤ 2 ^ 64) :
    Apart (a + BitVec.ofNat 64 i) n (a + BitVec.ofNat 64 j) k := by
  intro x hi hx
  unfold Within at hi hx
  bv_omega

theorem not_apart_self (a : Word) (hn : 0 < n) : ¬ Apart a n a n := by
  intro h
  have hself : Within a n a := by simpa [Within] using hn
  exact h a hself hself

private theorem store64_at (m : Memory) (a v : Word) (k : Nat) (hk : k < 8) :
    store64 m a v (a + BitVec.ofNat 64 k) = v.extractLsb' (8 * k) 8 := by
  have hsub : (a + BitVec.ofNat 64 k - a).toNat = k := by bv_omega
  have hin : Within a 8 (a + BitVec.ofNat 64 k) := by
    unfold Within
    omega
  rw [store64, if_pos hin, hsub]

@[simp] theorem load64_store64 (m : Memory) (a v : Word) :
    load64 (store64 m a v) a = v := by
  have h0 := store64_at m a v 0 (by decide)
  have h1 := store64_at m a v 1 (by decide)
  have h2 := store64_at m a v 2 (by decide)
  have h3 := store64_at m a v 3 (by decide)
  have h4 := store64_at m a v 4 (by decide)
  have h5 := store64_at m a v 5 (by decide)
  have h6 := store64_at m a v 6 (by decide)
  have h7 := store64_at m a v 7 (by decide)
  rw [BitVec.add_zero] at h0
  unfold load64
  rw [h0]
  simp only [BitVec.ofNat_eq_ofNat, h1, h2, h3, h4, h5, h6, h7]
  repeat rw [BitVec.extractLsb'_append_extractLsb'_eq_extractLsb' (by rfl)]
  simp

theorem store64_of_not_within {m : Memory} {a v x : Word} (h : ¬ Within a 8 x) :
    store64 m a v x = m x := if_neg h

theorem store8_of_ne {m : Memory} {a x : Word} {v : Byte} (h : x ≠ a) :
    store8 m a v x = m x := if_neg h

theorem within_offset (a : Word) {k n : Nat} (hk : k < n) (hn : n ≤ 2 ^ 64) :
    Within a n (a + BitVec.ofNat 64 k) := by
  unfold Within
  bv_omega

theorem load64_congr {m m' : Memory} {a : Word} (h : ∀ x, Within a 8 x → m x = m' x) :
    load64 m a = load64 m' a := by
  have byte (k : Nat) (hk : k < 8) :
      m (a + BitVec.ofNat 64 k) = m' (a + BitVec.ofNat 64 k) :=
    h _ (within_offset a hk (by decide))
  have h0 := byte 0 (by decide)
  rw [BitVec.add_zero] at h0
  unfold load64
  rw [h0]
  simp only [BitVec.ofNat_eq_ofNat, byte 1 (by decide), byte 2 (by decide),
    byte 3 (by decide), byte 4 (by decide), byte 5 (by decide), byte 6 (by decide),
    byte 7 (by decide)]

theorem load64_store64_apart {m : Memory} {a b v : Word} (h : Apart a 8 b 8) :
    load64 (store64 m a v) b = load64 m b :=
  load64_congr fun x hx => store64_of_not_within fun ha => h x ha hx

def load32 (m : Memory) (a : Word) : BitVec 32 :=
  (m (a + 3) ++ m (a + 2) ++ m (a + 1) ++ m a).cast rfl

def store32 (m : Memory) (a : Word) (v : BitVec 32) : Memory := fun x =>
  if Within a 4 x then v.extractLsb' (8 * (x - a).toNat) 8 else m x

theorem store32_of_not_within {m : Memory} {a x : Word} {v : BitVec 32} (h : ¬ Within a 4 x) :
    store32 m a v x = m x := if_neg h

theorem load32_congr {m m' : Memory} {a : Word} (h : ∀ x, Within a 4 x → m x = m' x) :
    load32 m a = load32 m' a := by
  have byte (k : Nat) (hk : k < 4) :
      m (a + BitVec.ofNat 64 k) = m' (a + BitVec.ofNat 64 k) :=
    h _ (within_offset a hk (by decide))
  have h0 := byte 0 (by decide)
  have h1 := byte 1 (by decide)
  have h2 := byte 2 (by decide)
  have h3 := byte 3 (by decide)
  rw [BitVec.add_zero] at h0
  unfold load32
  rw [h0]
  simp only [BitVec.ofNat_eq_ofNat] at h1 h2 h3 ⊢
  rw [h1, h2, h3]

@[simp] theorem load32_store32 (m : Memory) (a : Word) (v : BitVec 32) :
    load32 (store32 m a v) a = v := by
  have at' (k : Nat) (hk : k < 4) :
      store32 m a v (a + BitVec.ofNat 64 k) = v.extractLsb' (8 * k) 8 := by
    have hsub : (a + BitVec.ofNat 64 k - a).toNat = k := by bv_omega
    rw [store32, if_pos (within_offset a hk (by decide)), hsub]
  have h0 := at' 0 (by decide)
  have h1 := at' 1 (by decide)
  have h2 := at' 2 (by decide)
  have h3 := at' 3 (by decide)
  rw [BitVec.add_zero] at h0
  unfold load32
  rw [h0]
  simp only [BitVec.ofNat_eq_ofNat, h1, h2, h3]
  repeat rw [BitVec.extractLsb'_append_extractLsb'_eq_extractLsb' (by rfl)]
  simp

theorem load32_store32_apart {m : Memory} {a b : Word} {v : BitVec 32} (h : Apart a 4 b 4) :
    load32 (store32 m a v) b = load32 m b :=
  load32_congr fun x hx => store32_of_not_within fun ha => h x ha hx

theorem load32_store64_apart {m : Memory} {a b v : Word} (h : Apart a 8 b 4) :
    load32 (store64 m a v) b = load32 m b :=
  load32_congr fun x hx => store64_of_not_within fun ha => h x ha hx

theorem load64_store32_apart {m : Memory} {a b : Word} {v : BitVec 32} (h : Apart a 4 b 8) :
    load64 (store32 m a v) b = load64 m b :=
  load64_congr fun x hx => store32_of_not_within fun ha => h x ha hx

/-- Records of one size at addresses where no two of them meet. -/
def Placed (T : List Word) (size : Nat) : Prop :=
  ∀ t ∈ T, ∀ u ∈ T, t ≠ u → Apart t size u size

theorem within_of_field {t x : Word} {i size : Nat} (hi : i + n ≤ size)
    (h : Within (t + BitVec.ofNat 64 i) n x) : Within t size x := by
  unfold Within at *
  bv_omega

theorem apart_of_aligned {a b : Word} (ha : a.toNat % 8 = 0) (hb : b.toNat % 8 = 0)
    (h : a ≠ b) : Apart a 8 b 8 := by
  intro x hx hxb
  unfold Within at hx hxb
  bv_omega

private theorem byte_zero (high : BitVec n) (low : Byte) :
    (high ++ low).extractLsb' (8 * 0) 8 = low := by
  apply BitVec.eq_of_getLsbD_eq
  intro i hi
  simp [BitVec.getLsbD_append, hi]

private theorem byte_succ (high : BitVec n) (low : Byte) (k : Nat) :
    (high ++ low).extractLsb' (8 * (k + 1)) 8 = high.extractLsb' (8 * k) 8 := by
  apply BitVec.eq_of_getLsbD_eq
  intro i hi
  simp only [BitVec.getLsbD_extractLsb', BitVec.getLsbD_append, hi, decide_true,
    Bool.true_and]
  rw [if_neg (by omega)]
  congr 1
  omega

theorem extractLsb'_load64 (m : Memory) (a : Word) {k : Nat} (hk : k < 8) :
    (load64 m a).extractLsb' (8 * k) 8 = m (a + BitVec.ofNat 64 k) := by
  unfold load64
  rw [BitVec.extractLsb'_cast]
  match k, hk with
  | 0, _ => simp only [byte_zero, BitVec.add_zero]
  | 1, _ | 2, _ | 3, _ | 4, _ | 5, _ | 6, _ =>
    simp only [byte_succ, byte_zero, BitVec.ofNat_eq_ofNat]
  | 7, _ =>
    simp only [byte_succ, BitVec.ofNat_eq_ofNat]
    exact BitVec.extractLsb'_eq_self

theorem load64_eq_iff {m m' : Memory} {a : Word} :
    load64 m a = load64 m' a ↔ ∀ x, Within a 8 x → m x = m' x := by
  constructor
  · intro h x hx
    have hsplit : x = a + BitVec.ofNat 64 (x - a).toNat := by
      rw [BitVec.ofNat_toNat, BitVec.setWidth_eq, BitVec.add_comm, BitVec.sub_add_cancel]
    rw [hsplit, ← extractLsb'_load64 m a hx, h, extractLsb'_load64 m' a hx]
  · exact load64_congr

def storeAll (m : Memory) (words : List (Word × Word)) : Memory :=
  words.foldl (fun m w => store64 m w.1 w.2) m

@[simp] theorem storeAll_nil (m : Memory) : storeAll m [] = m := rfl

@[simp] theorem storeAll_cons (m : Memory) (w : Word × Word) (ws : List (Word × Word)) :
    storeAll m (w :: ws) = storeAll (store64 m w.1 w.2) ws := rfl

@[simp] theorem storeAll_append (m : Memory) (ws vs : List (Word × Word)) :
    storeAll m (ws ++ vs) = storeAll (storeAll m ws) vs := by
  simp [storeAll]

theorem storeAll_of_not_within {m : Memory} {ws : List (Word × Word)} {x : Word}
    (h : ∀ w ∈ ws, ¬ Within w.1 8 x) : storeAll m ws x = m x := by
  induction ws generalizing m with
  | nil => rfl
  | cons w ws ih =>
    rw [storeAll_cons, ih fun v hv => h v (List.mem_cons_of_mem w hv),
      store64_of_not_within (h w List.mem_cons_self)]

theorem storeAll_congr {m m' : Memory} (ws : List (Word × Word)) {x : Word} (h : m x = m' x) :
    storeAll m ws x = storeAll m' ws x := by
  induction ws generalizing m m' with
  | nil => exact h
  | cons w ws ih =>
    rw [storeAll_cons, storeAll_cons]
    apply ih
    unfold store64
    rw [h]

theorem load64_storeAll_apart {m : Memory} {ws : List (Word × Word)} {b : Word}
    (h : ∀ w ∈ ws, Apart w.1 8 b 8) : load64 (storeAll m ws) b = load64 m b :=
  load64_congr fun x hx => storeAll_of_not_within fun w hw ha => h w hw x ha hx

theorem load64_storeAll_of_mem {m : Memory} {ws : List (Word × Word)} {b v : Word}
    (hmem : (b, v) ∈ ws) (h : ∀ w ∈ ws, w = (b, v) ∨ Apart w.1 8 b 8) :
    load64 (storeAll m ws) b = v := by
  induction ws generalizing m with
  | nil => simp at hmem
  | cons w ws ih =>
    have rest : ∀ u ∈ ws, u = (b, v) ∨ Apart u.1 8 b 8 :=
      fun u hu => h u (List.mem_cons_of_mem w hu)
    rw [storeAll_cons]
    by_cases hagain : (b, v) ∈ ws
    · exact ih hagain rest
    · have hw : w = (b, v) := by simpa [hagain, eq_comm] using hmem
      have apart : ∀ u ∈ ws, Apart u.1 8 b 8 := fun u hu =>
        (rest u hu).resolve_left fun heq => hagain (heq ▸ hu)
      rw [load64_storeAll_apart apart, hw, load64_store64]

theorem load64_storeAll_cases {m : Memory} {ws : List (Word × Word)} {b : Word}
    (h : ∀ w ∈ ws, w.1 = b ∨ Apart w.1 8 b 8) :
    (∃ v, (b, v) ∈ ws ∧ load64 (storeAll m ws) b = v) ∨
      (∀ v, (b, v) ∉ ws) ∧ load64 (storeAll m ws) b = load64 m b := by
  induction ws generalizing m with
  | nil => exact .inr ⟨by simp, rfl⟩
  | cons w ws ih =>
    have rest : ∀ u ∈ ws, u.1 = b ∨ Apart u.1 8 b 8 :=
      fun u hu => h u (List.mem_cons_of_mem w hu)
    rw [storeAll_cons]
    rcases ih (m := store64 m w.1 w.2) rest with ⟨v, hmem, hload⟩ | ⟨hnone, hload⟩
    · exact .inl ⟨v, List.mem_cons_of_mem w hmem, hload⟩
    · rw [hload]
      rcases h w List.mem_cons_self with rfl | happart
      · exact .inl ⟨w.2, List.mem_cons_self, load64_store64 m w.1 w.2⟩
      · right
        refine ⟨fun v hv => ?_, load64_store64_apart happart⟩
        rcases List.mem_cons.mp hv with rfl | hmem
        · exact not_apart_self b (by decide) happart
        · exact hnone v hmem

/-- Words at consecutive addresses, the first at `base`. -/
def wordsAt (base : Word) (ws : List Word) : List (Word × Word) :=
  ws.zipIdx.map fun w => (base + BitVec.ofNat 64 (8 * w.2), w.1)

theorem mem_wordsAt {base : Word} {ws : List Word} {w : Word × Word} :
    w ∈ wordsAt base ws ↔
      ∃ i, ∃ hi : i < ws.length, w = (base + BitVec.ofNat 64 (8 * i), ws[i]) := by
  unfold wordsAt
  rw [List.mem_map]
  constructor
  · rintro ⟨⟨v, i⟩, hv, rfl⟩
    obtain ⟨hi, hget⟩ := List.getElem?_eq_some_iff.mp (List.mem_zipIdx_iff_getElem?.mp hv)
    exact ⟨i, hi, by rw [hget]⟩
  · rintro ⟨i, hi, rfl⟩
    exact ⟨(ws[i], i), List.mem_zipIdx_iff_getElem?.mpr (List.getElem?_eq_getElem hi), rfl⟩

theorem storeAll_wordsAt_of_not_within {m : Memory} {base x : Word} {ws : List Word}
    (small : 8 * ws.length ≤ 2 ^ 64) (h : ¬ Within base (8 * ws.length) x) :
    storeAll m (wordsAt base ws) x = m x := by
  apply storeAll_of_not_within
  intro w hw hx
  obtain ⟨i, hi, rfl⟩ := mem_wordsAt.mp hw
  apply h
  unfold Within at hx ⊢
  dsimp only at hx
  bv_omega

theorem load64_storeAll_wordsAt (m : Memory) (base : Word) {ws : List Word} {i : Nat}
    (small : 8 * ws.length ≤ 2 ^ 64) (hi : i < ws.length) :
    load64 (storeAll m (wordsAt base ws)) (base + BitVec.ofNat 64 (8 * i)) = ws[i] := by
  apply load64_storeAll_of_mem
  · exact mem_wordsAt.mpr ⟨i, hi, rfl⟩
  · intro w hw
    obtain ⟨j, hj, rfl⟩ := mem_wordsAt.mp hw
    by_cases heq : j = i
    · subst heq
      exact .inl rfl
    · cases Nat.lt_or_gt_of_ne heq with
      | inl hlt => exact .inr (apart_of_offsets (by omega) (by omega))
      | inr hgt => exact .inr (apart_of_offsets (by omega) (by omega)).symm

def fill (m : Memory) (a : Word) (n : Nat) (bytes : Nat → Byte) : Memory := fun x =>
  if Within a n x then bytes (x - a).toNat else m x

theorem fill_of_lt (m : Memory) (a : Word) {n k : Nat} (bytes : Nat → Byte) (hk : k < n)
    (hn : k < 2 ^ 64) : fill m a n bytes (a + BitVec.ofNat 64 k) = bytes k := by
  have hsub : (a + BitVec.ofNat 64 k - a).toNat = k := by bv_omega
  have hin : Within a n (a + BitVec.ofNat 64 k) := by
    unfold Within
    omega
  rw [fill, if_pos hin, hsub]

theorem fill_of_le (m : Memory) (a : Word) {n k : Nat} (bytes : Nat → Byte) (hk : n ≤ k)
    (hn : k < 2 ^ 64) :
    fill m a n bytes (a + BitVec.ofNat 64 k) = m (a + BitVec.ofNat 64 k) := by
  have hsub : (a + BitVec.ofNat 64 k - a).toNat = k := by bv_omega
  have hout : ¬ Within a n (a + BitVec.ofNat 64 k) := by
    unfold Within
    omega
  rw [fill, if_neg hout]

theorem fill_congr (m : Memory) (a : Word) {n : Nat} {bytes bytes' : Nat → Byte}
    (h : ∀ k < n, bytes k = bytes' k) : fill m a n bytes = fill m a n bytes' := by
  funext x
  unfold fill
  split
  · rename_i hx
    exact h _ hx
  · rfl

theorem fill_store64 (m : Memory) (a v : Word) {n : Nat} {bytes : Nat → Byte}
    (hn : n + 8 ≤ 2 ^ 64) (hv : ∀ k < 8, v.extractLsb' (8 * k) 8 = bytes k) :
    fill (store64 m a v) (a + 8#64) n (fun k => bytes (k + 8)) = fill m a (n + 8) bytes := by
  funext x
  unfold fill
  by_cases hfirst : Within a 8 x
  · have hout : ¬ Within (a + 8#64) n x := by
      unfold Within at hfirst ⊢
      bv_omega
    have hin : Within a (n + 8) x := by
      unfold Within at hfirst ⊢
      omega
    rw [if_neg hout, if_pos hin, store64, if_pos hfirst]
    exact hv _ hfirst
  · rw [store64_of_not_within hfirst]
    by_cases hrest : Within a (n + 8) x
    · have hin : Within (a + 8#64) n x := by
        unfold Within at hfirst hrest ⊢
        bv_omega
      have hindex : (x - (a + 8#64)).toNat + 8 = (x - a).toNat := by
        unfold Within at hfirst
        bv_omega
      rw [if_pos hin, if_pos hrest]
      exact congrArg bytes hindex
    · have hout : ¬ Within (a + 8#64) n x := by
        unfold Within at hfirst hrest ⊢
        bv_omega
      rw [if_neg hout, if_neg hrest]

/-- The bytes from `a` on are the given ones. -/
def Holds (m : Memory) (a : Word) (bs : List Byte) : Prop :=
  ∀ i (h : i < bs.length), m (a + BitVec.ofNat 64 i) = bs[i]

instance (m : Memory) (a : Word) (bs : List Byte) : Decidable (Holds m a bs) :=
  inferInstanceAs (Decidable (∀ i, ∀ _ : i < bs.length, _ = _))

def place (a : Word) (bs : List Byte) : Memory := fun x => bs.getD (x - a).toNat 0#8

theorem add_ofNat_add (a : Word) (i j : Nat) :
    a + BitVec.ofNat 64 i + BitVec.ofNat 64 j = a + BitVec.ofNat 64 (i + j) := by
  rw [BitVec.add_assoc, ← BitVec.ofNat_add]

theorem holds_append (m : Memory) (a : Word) (xs ys : List Byte) :
    Holds m a (xs ++ ys) ↔ Holds m a xs ∧ Holds m (a + BitVec.ofNat 64 xs.length) ys := by
  constructor
  · intro h
    constructor
    · intro i hi
      rw [h i (by rw [List.length_append]; omega), List.getElem_append_left hi]
    · intro i hi
      rw [add_ofNat_add, h (xs.length + i) (by rw [List.length_append]; omega),
        List.getElem_append_right (by omega)]
      simp
  · rintro ⟨hxs, hys⟩ i hi
    rw [List.length_append] at hi
    by_cases hlt : i < xs.length
    · rw [hxs i hlt, List.getElem_append_left hlt]
    · have hat := hys (i - xs.length) (by omega)
      rw [add_ofNat_add, Nat.add_sub_cancel' (Nat.le_of_not_lt hlt)] at hat
      rw [hat, List.getElem_append_right (Nat.le_of_not_lt hlt)]

theorem Holds.first {m : Memory} {a : Word} {b : Byte} {bs : List Byte}
    (h : Holds m a (b :: bs)) : m a = b := by
  have hzero := h 0 (by simp)
  rwa [BitVec.add_zero] at hzero

theorem Holds.of_prefix_drop {m : Memory} {a : Word} {bs xs : List Byte} (h : Holds m a bs)
    {k : Nat} (hfrom : xs <+: bs.drop k) : Holds m (a + BitVec.ofNat 64 k) xs := by
  intro i hi
  have hlength := hfrom.length_le
  rw [List.length_drop] at hlength
  rw [add_ofNat_add, h (k + i) (by omega), hfrom.getElem hi, List.getElem_drop]

theorem holds_place (a : Word) {bs : List Byte} (h : bs.length ≤ 2 ^ 64) :
    Holds (place a bs) a bs := by
  intro i hi
  have hsub : (a + BitVec.ofNat 64 i - a).toNat = i := by bv_omega
  rw [place, hsub, List.getD_eq_getElem _ _ hi]

theorem four_bytes : 8 + 8 + 8 + 8 = 32 := rfl

def loadBe32 (m : Memory) (a : Word) : BitVec 32 :=
  (m a ++ m (a + 1) ++ m (a + 2) ++ m (a + 3)).cast rfl

def be32 (w : BitVec 32) : List Byte :=
  [w.extractLsb' 24 8, w.extractLsb' 16 8, w.extractLsb' 8 8, w.extractLsb' 0 8]

def be32At (bs : List Byte) (i : Nat) : BitVec 32 :=
  (bs.getD i 0 ++ bs.getD (i + 1) 0 ++ bs.getD (i + 2) 0 ++ bs.getD (i + 3) 0).cast rfl

@[simp] theorem be32_length (w : BitVec 32) : (be32 w).length = 4 := rfl

theorem loadBe32_eq (m : Memory) (a : Word) (i : Nat) :
    loadBe32 m (a + BitVec.ofNat 64 i) =
      (m (a + BitVec.ofNat 64 i) ++ m (a + BitVec.ofNat 64 (i + 1)) ++
        m (a + BitVec.ofNat 64 (i + 2)) ++ m (a + BitVec.ofNat 64 (i + 3))).cast rfl := by
  have hstep (k : Nat) :
      a + BitVec.ofNat 64 i + BitVec.ofNat 64 k = a + BitVec.ofNat 64 (i + k) :=
    add_ofNat_add a i k
  rw [loadBe32, ← hstep 1, ← hstep 2, ← hstep 3]
  rfl

theorem Holds.loadBe32 {m : Memory} {a : Word} {bs : List Byte} (h : Holds m a bs) {i : Nat}
    (hi : i + 4 ≤ bs.length) : loadBe32 m (a + BitVec.ofNat 64 i) = be32At bs i := by
  rw [loadBe32_eq, h i (by omega), h (i + 1) (by omega), h (i + 2) (by omega),
    h (i + 3) (by omega), be32At, List.getD_eq_getElem _ _ (by omega),
    List.getD_eq_getElem _ _ (by omega), List.getD_eq_getElem _ _ (by omega),
    List.getD_eq_getElem _ _ (by omega)]

theorem loadBe32_of_holds {m : Memory} {a : Word} {w : BitVec 32} (h : Holds m a (be32 w)) :
    loadBe32 m a = w := by
  have hload := h.loadBe32 (i := 0) (by simp)
  rw [BitVec.add_zero] at hload
  rw [hload]
  change ((w.extractLsb' 24 8 ++ w.extractLsb' 16 8 ++ w.extractLsb' 8 8 ++
    w.extractLsb' 0 8).cast rfl : BitVec 32) = w
  repeat rw [BitVec.extractLsb'_append_extractLsb'_eq_extractLsb' (by rfl)]
  simp

end Memory
end KernelFuzzing.Foundation
