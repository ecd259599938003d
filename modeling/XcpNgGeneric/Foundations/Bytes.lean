import Mathlib.Algebra.Group.Nat.Defs

/-!
# The bytes of a word

A bit vector is read as bytes, the least significant first. A lane is moved by a mask and a shift;
the disjunction of all lanes, each moved to the opposite place, reverses the bytes
(`reverses_swap`). What two reversals do and how a reversed word is stored follows from the bytes
alone.
-/

namespace XcpNgGeneric.Bytes

variable {v w : ℕ}

/-! ## Bytes -/

/-- Byte `i`, counted from the least significant one. -/
def byte (x : BitVec w) (i : ℕ) : UInt8 := UInt8.ofBitVec (x.extractLsb' (8 * i) 8)

theorem byte_eq_iff {x : BitVec v} {y : BitVec w} {i j : ℕ} :
    byte x i = byte y j ↔ ∀ b < 8, x.getLsbD (8 * i + b) = y.getLsbD (8 * j + b) := by
  rw [byte, byte, UInt8.ofBitVec.injEq, BitVec.eq_of_getLsbD_eq_iff]
  apply forall₂_congr
  intro b hb
  simp [hb]

theorem byte_eq_zero_iff {x : BitVec w} {i : ℕ} :
    byte x i = 0 ↔ ∀ b < 8, x.getLsbD (8 * i + b) = false := by
  have hzero : byte (0#8) 0 = 0 := rfl
  rw [← hzero, byte_eq_iff]
  simp

/-- A word is determined by its bytes. -/
theorem eq_of_bytes {n : ℕ} {x y : BitVec w} (hw : w ≤ 8 * n)
    (h : ∀ i < n, byte x i = byte y i) : x = y := by
  apply BitVec.eq_of_getLsbD_eq
  intro k hk
  have hbit := byte_eq_iff.1 (h (k / 8) (by omega)) (k % 8) (by omega)
  rwa [Nat.div_add_mod] at hbit

theorem byte_or (x y : BitVec w) (i : ℕ) : byte (x ||| y) i = byte x i ||| byte y i := by
  rw [byte, BitVec.extractLsb'_or]
  rfl

theorem byte_setWidth {x : BitVec v} {i : ℕ} (hi : 8 * i + 8 ≤ w) :
    byte (x.setWidth w) i = byte x i := by
  apply byte_eq_iff.2
  intro b hb
  rw [BitVec.getLsbD_setWidth, decide_eq_true (by omega), Bool.true_and]

/-- A byte is a digit in base 256. -/
theorem byte_eq_ofNat (x : BitVec w) (i : ℕ) : byte x i = UInt8.ofNat (x.toNat / 256 ^ i) := by
  have hpow : (2 : ℕ) ^ (8 * i) = 256 ^ i := Nat.pow_mul 2 8 i
  apply UInt8.toNat_inj.1
  change (x.extractLsb' (8 * i) 8).toNat = x.toNat / 256 ^ i % 2 ^ 8
  rw [BitVec.extractLsb'_toNat, Nat.shiftRight_eq_div_pow, hpow]

/-! ## Lanes -/

/-- The ones of byte `i`. -/
def mask (w i : ℕ) : BitVec w := 255#w <<< (8 * i)

/-- The mask keeps its byte, and nothing else. -/
theorem getLsbD_and_mask (x : BitVec w) (i k : ℕ) :
    (x &&& mask w i).getLsbD k = (decide (8 * i ≤ k ∧ k < 8 * i + 8) && x.getLsbD k) := by
  have hbit : Nat.testBit 255 (k - 8 * i) = decide (k - 8 * i < 8) :=
    Nat.testBit_two_pow_sub_one 8 _
  rw [BitVec.getLsbD_and, mask, BitVec.getLsbD_shiftLeft, BitVec.getLsbD_ofNat, hbit,
    Bool.eq_iff_iff]
  simp only [Bool.and_eq_true, Bool.not_eq_true', decide_eq_true_eq, decide_eq_false_iff_not]
  have hbound : x.getLsbD k = true → k < w := BitVec.lt_of_getLsbD
  constructor
  · rintro ⟨hx, ⟨-, hle⟩, -, hlt⟩
    exact ⟨by omega, hx⟩
  · rintro ⟨hlane, hx⟩
    have hk := hbound hx
    exact ⟨hx, ⟨by omega, by omega⟩, by omega, by omega⟩

/-- Byte `i` alone, moved to `j`. -/
def move (x : BitVec w) (i j : ℕ) : BitVec w :=
  if i ≤ j then (x &&& mask w i) <<< (8 * (j - i)) else (x &&& mask w i) >>> (8 * (i - j))

theorem getLsbD_move {x : BitVec w} {i j k : ℕ} (hk : k < w) :
    (move x i j).getLsbD k =
      (decide (8 * j ≤ k ∧ k < 8 * j + 8) && x.getLsbD (8 * i + (k - 8 * j))) := by
  unfold move
  split
  next hij =>
    rw [BitVec.getLsbD_shiftLeft, getLsbD_and_mask, decide_eq_true hk, Bool.true_and]
    by_cases hlane : 8 * j ≤ k ∧ k < 8 * j + 8
    · have hpos : k - 8 * (j - i) = 8 * i + (k - 8 * j) := by omega
      rw [decide_eq_false (by omega), decide_eq_true (by omega), decide_eq_true hlane, hpos]
      rfl
    · by_cases hlow : k < 8 * (j - i)
      · simp [hlow, hlane]
      · rw [decide_eq_false hlane, decide_eq_false (p := _ ∧ _) (by omega), Bool.false_and,
          Bool.and_false]
        rfl
  next hij =>
    rw [BitVec.getLsbD_ushiftRight, getLsbD_and_mask]
    by_cases hlane : 8 * j ≤ k ∧ k < 8 * j + 8
    · have hpos : 8 * (i - j) + k = 8 * i + (k - 8 * j) := by omega
      rw [decide_eq_true hlane, decide_eq_true (by omega), hpos]
    · rw [decide_eq_false hlane, decide_eq_false (by omega), Bool.false_and, Bool.false_and]

theorem byte_move {x : BitVec w} {i j l : ℕ} (hl : 8 * l + 8 ≤ w) :
    byte (move x i j) l = if l = j then byte x i else 0 := by
  split
  next h =>
    subst h
    apply byte_eq_iff.2
    intro b hb
    rw [getLsbD_move (by omega), decide_eq_true (by omega), Bool.true_and, Nat.add_sub_cancel_left]
  next h =>
    apply byte_eq_zero_iff.2
    intro b hb
    rw [getLsbD_move (by omega), decide_eq_false (by omega), Bool.false_and]

/-! ## Reversal -/

/-- The first `n` bytes of `y` are those of `x` in the reverse order. -/
def Reverses (n : ℕ) (x : BitVec v) (y : BitVec w) : Prop :=
  ∀ i < n, byte y i = byte x (n - 1 - i)

/-- The disjunction of the first `n` bytes, each moved to the opposite place. -/
def swap (n : ℕ) (x : BitVec w) : BitVec w :=
  (List.range n).foldl (fun y i => y ||| move x i (n - 1 - i)) 0#w

theorem swap_succ (n : ℕ) (x : BitVec w) :
    swap (n + 1) x = (List.range' 1 n).foldl (fun y i => y ||| move x i (n - i)) (move x 0 n) := by
  rw [swap, List.range_eq_range', List.range'_succ, List.foldl_cons, BitVec.zero_or]
  rfl

/-- The first `k` bytes have been moved. -/
theorem byte_swap_loop {n : ℕ} {x : BitVec w} {l : ℕ} (hw : 8 * n ≤ w) (hl : l < n) {k : ℕ}
    (hk : k ≤ n) :
    byte ((List.range k).foldl (fun y i => y ||| move x i (n - 1 - i)) 0#w) l =
      if n - 1 - l < k then byte x (n - 1 - l) else 0 := by
  induction k with
  | zero =>
    apply byte_eq_zero_iff.2
    simp
  | succ k ih =>
    rw [List.range_succ, List.foldl_append]
    change byte (_ ||| move x k (n - 1 - k)) l = _
    rw [byte_or, ih (by omega), byte_move (by omega)]
    rcases Nat.lt_trichotomy (n - 1 - l) k with hlt | rfl | hgt
    · rw [if_pos hlt, if_neg (by omega), if_pos (by omega), UInt8.or_zero]
    · rw [if_neg (by omega), if_pos (by omega), if_pos (by omega), UInt8.zero_or]
    · rw [if_neg (by omega), if_neg (by omega), if_neg (by omega), UInt8.or_zero]

theorem reverses_swap {n : ℕ} {x : BitVec w} (hw : 8 * n ≤ w) : Reverses n x (swap n x) := by
  intro i hi
  rw [swap, byte_swap_loop hw hi (Nat.le_refl n), if_pos (by omega)]

/-- Two reversals give back the word. -/
theorem Reverses.eq {n u : ℕ} {x z : BitVec u} {y : BitVec w} (hu : u ≤ 8 * n)
    (hxy : Reverses n x y) (hyz : Reverses n y z) : z = x := by
  apply eq_of_bytes hu
  intro i hi
  rw [hyz i hi, hxy _ (by omega)]
  congr 1
  omega

/-! ## Storage -/

/-- The `n` bytes at which a word is stored, the least significant first. -/
def littleEndian (n : ℕ) (x : BitVec w) : List UInt8 := (List.range n).map (byte x)

/-- The `n` digits of a number in base 256, the most significant first. -/
def bigEndian (n m : ℕ) : List UInt8 :=
  (List.range n).map fun i => UInt8.ofNat (m / 256 ^ (n - 1 - i))

@[simp] theorem length_littleEndian (n : ℕ) (x : BitVec w) : (littleEndian n x).length = n := by
  simp [littleEndian]

section Storage

variable {n : ℕ} {x : BitVec v} {y : BitVec w}

theorem Reverses.littleEndian_eq_reverse (h : Reverses n x y) :
    littleEndian n y = (littleEndian n x).reverse := by
  apply List.ext_getElem
  · simp
  · intro i hi _
    simp only [length_littleEndian] at hi
    simp [littleEndian, h i hi]

theorem Reverses.littleEndian_eq_bigEndian (h : Reverses n x y) :
    littleEndian n y = bigEndian n x.toNat := by
  apply List.map_congr_left
  intro i hi
  rw [h i (List.mem_range.1 hi), byte_eq_ofNat]

end Storage

end XcpNgGeneric.Bytes
