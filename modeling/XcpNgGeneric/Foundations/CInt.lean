import Mathlib.Algebra.Group.Int.Defs
import Mathlib.Data.Int.Bitwise
import Mathlib.Order.Bounds.Basic
import Mathlib.Tactic.Linarith

/-!
# The integer arithmetic of C

The types on which no promotion happens, those that are not narrower than an `int` of 32 bits, with
two's complement. A value is an integer in the range of its type. Arithmetic on an unsigned type is
modulo `2 ^ width`; on a signed type a result out of range is an error (`none`). Division truncates
toward zero.

The multiples of an integer that are next to another one are at the end, with the masks that cut
off the low bits.
-/

namespace XcpNgGeneric.CInt

/-- The remainder has the sign of the dividend. -/
theorem tmod_nonpos {x : ℤ} (h : x ≤ 0) (y : ℤ) : x.tmod y ≤ 0 := by
  have := Int.tmod_nonneg y (Int.neg_nonneg_of_nonpos h)
  rw [Int.neg_tmod] at this
  omega

/-- An integer type of `width` bits. -/
structure IntType where
  width : ℕ
  signed : Bool
  wide : 32 ≤ width

namespace IntType

/-- `int`. -/
def int : IntType := ⟨32, true, by decide⟩

/-- `unsigned int`. -/
def uint : IntType := ⟨32, false, by decide⟩

variable (T : IntType)

def minVal : ℤ := if T.signed then -2 ^ (T.width - 1) else 0

def maxVal : ℤ := if T.signed then 2 ^ (T.width - 1) - 1 else 2 ^ T.width - 1

/-- `v` is a value of the type. -/
def Has (v : ℤ) : Prop := T.minVal ≤ v ∧ v ≤ T.maxVal

instance (v : ℤ) : Decidable (T.Has v) := inferInstanceAs (Decidable (_ ∧ _))

/-- Conversion to the type, modulo `2 ^ width`. -/
def ofInt (v : ℤ) : ℤ := T.minVal + (v - T.minVal) % 2 ^ T.width

/-- The result of an operation whose exact result is `v`. -/
def arith (v : ℤ) : Option ℤ := if T.signed ∧ ¬T.Has v then none else some (T.ofInt v)

/-- `x + y`. -/
def add (x y : ℤ) : Option ℤ := T.arith (x + y)

/-- `x - y`. -/
def sub (x y : ℤ) : Option ℤ := T.arith (x - y)

/-- `x * y`. -/
def mul (x y : ℤ) : Option ℤ := T.arith (x * y)

/-- `x / y`. -/
def div (x y : ℤ) : Option ℤ := if y = 0 then none else T.arith (x.tdiv y)

/-- `x % y`, which is an error if `x / y` is one. -/
def mod (x y : ℤ) : Option ℤ := if y = 0 ∨ ¬T.Has (x.tdiv y) then none else some (x.tmod y)

/-- `x | y`. -/
def or (x y : ℤ) : ℤ := T.ofInt (x.lor y)

/-- `x & y`. -/
def and (x y : ℤ) : ℤ := T.ofInt (x.land y)

/-- `~x`. -/
def not (x : ℤ) : ℤ := T.ofInt x.lnot

/-! ## Ranges -/

variable {T} {v x y : ℤ}

theorem two_pow_pos (n : ℕ) : (0 : ℤ) < 2 ^ n := by positivity

theorem two_pow_width (T : IntType) : (2 : ℤ) ^ T.width = 2 * 2 ^ (T.width - 1) := by
  rw [← pow_succ', Nat.sub_add_cancel (Nat.le_trans (by decide) T.wide)]

theorem maxVal_eq (T : IntType) : T.maxVal = T.minVal + 2 ^ T.width - 1 := by
  have hw := T.two_pow_width
  unfold maxVal minVal
  cases T.signed with
  | true =>
    simp only [if_true]
    omega
  | false => simp

theorem minVal_nonpos (T : IntType) : T.minVal ≤ 0 := by
  have := two_pow_pos (T.width - 1)
  unfold minVal
  split <;> omega

theorem maxVal_nonneg (T : IntType) : 0 ≤ T.maxVal := by
  have := two_pow_pos (T.width - 1)
  have := two_pow_pos T.width
  unfold maxVal
  split <;> omega

/-- The range reaches at most one further below zero than above. -/
theorem neg_minVal_le (T : IntType) : -T.minVal ≤ T.maxVal + 1 := by
  have := two_pow_pos T.width
  unfold maxVal minVal
  split <;> omega

/-- The range holds that of an `int`. -/
theorem int_max_le (T : IntType) : 2 ^ 31 - 1 ≤ T.maxVal := by
  have hw : (2 : ℤ) ^ 31 ≤ 2 ^ (T.width - 1) :=
    pow_le_pow_right₀ (by decide) (Nat.le_sub_of_add_le T.wide)
  have := T.two_pow_width
  unfold maxVal
  split <;> omega

theorem Has.of_unsigned (hT : T.signed = false) (hv : T.Has v) : 0 ≤ v ∧ v < 2 ^ T.width := by
  simp only [Has, minVal, maxVal, hT, Bool.false_eq_true, if_false] at hv
  omega

theorem has_of_lt (hT : T.signed = false) (h0 : 0 ≤ v) (hv : v < 2 ^ T.width) : T.Has v := by
  simp only [Has, minVal, maxVal, hT, Bool.false_eq_true, if_false]
  omega

/-- Between two values everything is a value. -/
theorem Has.between (hx : T.Has x) (hy : T.Has y) (h₁ : x ≤ v) (h₂ : v ≤ y) : T.Has v :=
  ⟨hx.1.trans h₁, h₂.trans hy.2⟩

/-- A signed type holds the values of the narrower ones. -/
theorem Has.wider {T U : IntType} (hT : T.signed = true) (hU : U.signed = true)
    (hw : T.width ≤ U.width) (hv : T.Has v) : U.Has v := by
  have hpow : (2 : ℤ) ^ (T.width - 1) ≤ 2 ^ (U.width - 1) :=
    pow_le_pow_right₀ (by decide) (Nat.sub_le_sub_right hw 1)
  simp only [Has, minVal, maxVal, hT, hU, if_true] at *
  omega

theorem has_zero (T : IntType) : T.Has 0 := ⟨T.minVal_nonpos, T.maxVal_nonneg⟩

/-! ## Conversion -/

theorem has_ofInt (T : IntType) (v : ℤ) : T.Has (T.ofInt v) := by
  have hpos := two_pow_pos T.width
  have h0 := Int.emod_nonneg (v - T.minVal) hpos.ne'
  have h1 := Int.emod_lt_of_pos (v - T.minVal) hpos
  refine ⟨by unfold ofInt; omega, ?_⟩
  rw [maxVal_eq]
  unfold ofInt
  omega

theorem ofInt_of_has (hv : T.Has v) : T.ofInt v = v := by
  obtain ⟨h0, h1⟩ := hv
  rw [maxVal_eq] at h1
  unfold ofInt
  rw [Int.emod_eq_of_lt (by omega) (by omega)]
  omega

/-- Conversion is the identity exactly on the values of the type. -/
theorem ofInt_eq_self_iff : T.ofInt v = v ↔ T.Has v :=
  ⟨fun h => h ▸ T.has_ofInt v, ofInt_of_has⟩

theorem ofInt_unsigned (hT : T.signed = false) (v : ℤ) : T.ofInt v = v % 2 ^ T.width := by
  simp [ofInt, minVal, hT]

/-! ## Arithmetic -/

theorem arith_of_has (hv : T.Has v) : T.arith v = some v := by
  simp [arith, hv, ofInt_of_has hv]

theorem arith_unsigned (hT : T.signed = false) (v : ℤ) : T.arith v = some (v % 2 ^ T.width) := by
  simp [arith, hT, ofInt_unsigned hT]

theorem arith_overflow (hT : T.signed = true) (hv : ¬T.Has v) : T.arith v = none := by
  simp [arith, hT, hv]

/-- A result is the exact one, if the exact one is a value. -/
theorem eq_of_arith {w : ℤ} (hv : T.arith v = some w) (hT : T.signed = true) :
    T.Has v ∧ w = v := by
  by_cases h : T.Has v
  · exact ⟨h, Option.some.inj (hv.symm.trans (arith_of_has h))⟩
  · cases hv.symm.trans (arith_overflow hT h)

/-- The quotient of two values is a value, except for the least value divided by `-1`. -/
theorem has_tdiv (hx : T.Has x) (hy : T.Has y) (h0 : y ≠ 0) (hmin : ¬(x = T.minVal ∧ y = -1)) :
    T.Has (x.tdiv y) := by
  cases hT : T.signed with
  | false =>
    have hx0 := (hx.of_unsigned hT).1
    have hy0 := (hy.of_unsigned hT).1
    exact T.has_zero.between hx (Int.tdiv_nonneg hx0 hy0) (Int.tdiv_le_self y hx0)
  | true =>
    have hpos := two_pow_pos (T.width - 1)
    simp only [Has, minVal, maxVal, hT, if_true] at *
    rcases (by omega : y = 1 ∨ y = -1 ∨ 2 ≤ y.natAbs) with rfl | rfl | h2
    · rwa [Int.tdiv_one]
    · rw [Int.tdiv_neg, Int.tdiv_one]
      omega
    · have hq := Int.natAbs_tdiv x y
      have hhalf : x.natAbs.div y.natAbs ≤ x.natAbs / 2 := Nat.div_le_div_left h2 (by decide)
      omega

/-- So is the remainder. -/
theorem has_tmod (hx : T.Has x) (y : ℤ) : T.Has (x.tmod y) := by
  have hle : (x.tmod y).natAbs ≤ x.natAbs := by
    rw [Int.natAbs_tmod]
    exact Nat.mod_le _ _
  rcases Int.le_total 0 x with h0 | h0
  · exact T.has_zero.between hx (Int.tmod_nonneg y h0) (by omega)
  · have hneg := tmod_nonpos h0 y
    exact hx.between T.has_zero (by omega) hneg

theorem div_of_has (hx : T.Has x) (hy : T.Has y) (h0 : y ≠ 0)
    (hmin : ¬(x = T.minVal ∧ y = -1)) : T.div x y = some (x.tdiv y) := by
  rw [div, if_neg h0, arith_of_has (has_tdiv hx hy h0 hmin)]

theorem mod_of_has (hx : T.Has x) (hy : T.Has y) (h0 : y ≠ 0)
    (hmin : ¬(x = T.minVal ∧ y = -1)) : T.mod x y = some (x.tmod y) := by
  rw [mod, if_neg fun h => h.elim h0 fun hn => hn (has_tdiv hx hy h0 hmin)]

/-- A positive divisor is not `-1`. -/
theorem div_of_pos (hx : T.Has x) (hy : T.Has y) (h0 : 0 < y) : T.div x y = some (x.tdiv y) :=
  div_of_has hx hy h0.ne' fun h => by omega

end IntType

/-! ## Multiples -/

theorem ediv_mul_eq (x y : ℤ) : x / y * y = x - x % y := by
  linarith [Int.mul_ediv_add_emod x y, mul_comm y (x / y)]

theorem sub_emod_nonneg {x y : ℤ} (hx : 0 ≤ x) (hy : 0 < y) : 0 ≤ x - x % y := by
  rw [← ediv_mul_eq]
  exact mul_nonneg (Int.ediv_nonneg hx hy.le) hy.le

/-- Rounding down commutes with the reduction modulo a multiple of `y`. -/
theorem emod_sub_emod_of_dvd {y n : ℤ} (hn : 0 < n) (hy : 0 < y) (hdvd : y ∣ n) (x : ℤ) :
    x % n - x % n % y = (x - x % y) % n := by
  have hlt := Int.emod_lt_of_pos x hn
  have hr := Int.emod_nonneg (x % n) hy.ne'
  have hnn := sub_emod_nonneg (Int.emod_nonneg x hn.ne') hy
  calc x % n - x % n % y = (x % n - x % n % y) % n :=
        (Int.emod_eq_of_lt hnn (by omega)).symm
    _ = (x - x % n % y) % n := Int.emod_sub_emod x n _
    _ = (x - x % y) % n := by rw [Int.emod_emod_of_dvd x hdvd]

/-- The least multiple of `y` that is not less than `x`. -/
theorem isLeast_multiple {y : ℤ} (hy : 0 < y) (x : ℤ) :
    IsLeast {m : ℤ | y ∣ m ∧ x ≤ m} ((x + y - 1) / y * y) := by
  have hdiv := Int.mul_ediv_add_emod (x + y - 1) y
  have hmod := Int.emod_lt_of_pos (x + y - 1) hy
  have hmod0 := Int.emod_nonneg (x + y - 1) hy.ne'
  refine ⟨⟨Dvd.intro_left _ rfl, by linarith [mul_comm y ((x + y - 1) / y)]⟩, ?_⟩
  rintro m ⟨⟨k, rfl⟩, hx⟩
  rw [mul_comm]
  apply mul_le_mul_of_nonneg_left _ hy.le
  apply Int.le_of_lt_add_one
  apply Int.ediv_lt_of_lt_mul hy
  linarith [mul_comm y k, add_mul k 1 y]

theorem lt_of_isLeast_multiple {x y m : ℤ} (hm : IsLeast {m : ℤ | y ∣ m ∧ x ≤ m} m)
    (hy : 0 < y) : m < x + y := by
  by_contra h
  have := hm.2 ⟨Int.dvd_sub hm.1.1 (Int.dvd_refl y), show x ≤ m - y by omega⟩
  omega

/-- The least multiple is the least factor times `y`. -/
theorem isLeast_mul {x y q : ℤ} (hy : 0 < y) (hq : IsLeast {q : ℤ | x ≤ q * y} q) :
    IsLeast {m : ℤ | y ∣ m ∧ x ≤ m} (q * y) := by
  refine ⟨⟨Dvd.intro_left q rfl, hq.1⟩, ?_⟩
  rintro m ⟨⟨k, rfl⟩, hx⟩
  rw [mul_comm y k] at hx ⊢
  exact mul_le_mul_of_nonneg_right (hq.2 hx) hy.le

/-- Truncation rounds a positive quotient down and a negative one up. -/
theorem isLeast_tdiv {y : ℤ} (hy : 0 < y) (x : ℤ) :
    IsLeast {q : ℤ | x ≤ q * y} (x.tdiv y + if x.tmod y ≠ 0 ∧ 0 < x then 1 else 0) := by
  have hx := Int.tdiv_mul_add_tmod x y
  have hlt := Int.tmod_lt_of_pos x hy
  have hneg := Int.lt_tmod_of_pos x hy
  split
  next h =>
    -- the remainder is positive
    have hpos : 0 < x.tmod y := lt_of_le_of_ne (Int.tmod_nonneg y h.2.le) (Ne.symm h.1)
    refine ⟨show x ≤ _ by linarith [add_mul (x.tdiv y) 1 y], fun k hk => ?_⟩
    have hmul : x.tdiv y * y < k * y := by linarith [show x ≤ k * y from hk]
    have := lt_of_mul_lt_mul_right hmul hy.le
    omega
  next h =>
    have h0 : x.tmod y ≤ 0 := by
      rcases Int.le_total x 0 with hx0 | hx0
      · exact tmod_nonpos hx0 y
      · rcases hx0.eq_or_lt with rfl | hpos
        · exact tmod_nonpos le_rfl y
        · exact (not_ne_iff.1 fun hne => h ⟨hne, hpos⟩).le
    refine ⟨show x ≤ _ by linarith, fun k hk => ?_⟩
    have hmul : (x.tdiv y - 1) * y < k * y := by
      linarith [show x ≤ k * y from hk, sub_mul (x.tdiv y) 1 y]
    have := lt_of_mul_lt_mul_right hmul hy.le
    omega

/-- The greatest multiple of `y` that is not greater than `x`. -/
theorem isGreatest_multiple {y : ℤ} (hy : 0 < y) (x : ℤ) :
    IsGreatest {m : ℤ | y ∣ m ∧ m ≤ x} (x - x % y) := by
  have hmod0 := Int.emod_nonneg x hy.ne'
  refine ⟨⟨Int.dvd_self_sub_emod, by omega⟩, ?_⟩
  rintro m ⟨⟨k, rfl⟩, hx⟩
  have hk : k ≤ x / y := Int.le_ediv_of_mul_le hy (by linarith [mul_comm y k])
  have := mul_le_mul_of_nonneg_left hk hy.le
  linarith [Int.mul_ediv_add_emod x y]

/-! ## Masks -/

/-- The bits from `k` on. -/
theorem testBit_high (a k i : ℕ) :
    (2 ^ k * (a / 2 ^ k)).testBit i = (decide (k ≤ i) && a.testBit i) := by
  rw [Nat.testBit_two_pow_mul]
  by_cases h : k ≤ i
  · rw [Nat.testBit_div_two_pow, Nat.sub_add_cancel h]
  · simp [h]

/-- Setting the low `k` bits. -/
theorem lor_mask (a k : ℕ) : a ||| (2 ^ k - 1) = 2 ^ k * (a / 2 ^ k) + (2 ^ k - 1) := by
  rw [Nat.two_pow_add_eq_or_of_lt (Nat.sub_lt (Nat.two_pow_pos k) (by decide))]
  apply Nat.eq_of_testBit_eq
  intro i
  rw [Nat.testBit_or, Nat.testBit_or, testBit_high, Nat.testBit_two_pow_sub_one]
  by_cases h : i < k
  · simp [h]
  · simp [Nat.le_of_not_lt h]

/-- Clearing the low `k` of `w` bits. -/
theorem land_not_mask {a k w : ℕ} (hk : k < w) (ha : a < 2 ^ w) :
    a &&& (2 ^ w - 2 ^ k) = 2 ^ k * (a / 2 ^ k) := by
  have hsucc : 2 ^ k - 1 + 1 = 2 ^ k := Nat.sub_add_cancel (Nat.two_pow_pos k)
  have hlt : 2 ^ k - 1 < 2 ^ w :=
    Nat.lt_of_lt_of_le (Nat.sub_lt (Nat.two_pow_pos k) (by decide))
      (Nat.pow_le_pow_right (by decide) hk.le)
  apply Nat.eq_of_testBit_eq
  intro i
  rw [testBit_high, ← hsucc, Nat.testBit_and, Nat.testBit_two_pow_sub_succ hlt,
    Nat.testBit_two_pow_sub_one]
  rcases Nat.lt_or_ge i w with hi | hi
  · by_cases h : k ≤ i
    · simp [hi, h, Nat.not_lt_of_le h]
    · simp [hi, h, Nat.lt_of_not_le h]
  · simp [Nat.testBit_lt_two_pow (Nat.lt_of_lt_of_le ha (Nat.pow_le_pow_right (by decide) hi))]

theorem cast_mask (k : ℕ) : ((2 ^ k - 1 : ℕ) : ℤ) = 2 ^ k - 1 := by
  rw [Nat.cast_sub Nat.one_le_two_pow]
  simp

namespace IntType

variable {T : IntType} {x : ℤ} {k : ℕ}

theorem has_two_pow (hT : T.signed = false) (hk : k < T.width) : T.Has (2 ^ k) :=
  has_of_lt hT (two_pow_pos k).le (pow_lt_pow_right₀ (by decide) hk)

/-- Setting the low bits leads to the value before the next multiple. -/
theorem or_mask (hT : T.signed = false) (hk : k < T.width) (hx : T.Has x) :
    T.or x (2 ^ k - 1) = x - x % 2 ^ k + 2 ^ k - 1 := by
  have hy := two_pow_pos k
  obtain ⟨hx0, hxlt⟩ := hx.of_unsigned hT
  have hdown := sub_emod_nonneg hx0 hy
  have hlor : x.lor (2 ^ k - 1) = x - x % 2 ^ k + 2 ^ k - 1 := by
    obtain ⟨a, rfl⟩ := Int.eq_ofNat_of_zero_le hx0
    rw [← cast_mask]
    have hmul := Int.mul_ediv_add_emod a (2 ^ k)
    refine (congrArg Nat.cast (lor_mask a k)).trans ?_
    push_cast [cast_mask]
    omega
  -- the next multiple does not lie beyond `2 ^ width`
  have hnext : 2 ^ k ≤ 2 ^ T.width - (x - x % 2 ^ k) := by
    have hr := Int.emod_nonneg x hy.ne'
    exact Int.le_of_dvd (by omega) (Int.dvd_sub (pow_dvd_pow 2 hk.le) Int.dvd_self_sub_emod)
  rw [or, hlor, ofInt_of_has (has_of_lt hT (by omega) (by omega))]

/-- Clearing the low bits leads to the multiple before. -/
theorem and_not_mask (hT : T.signed = false) (hk : k < T.width) (hx : T.Has x) :
    T.and x (T.not (2 ^ k - 1)) = x - x % 2 ^ k := by
  have hy := two_pow_pos k
  obtain ⟨hx0, hxlt⟩ := hx.of_unsigned hT
  have hnot : T.not (2 ^ k - 1) = (2 ^ T.width - 2 ^ k : ℕ) := by
    have hlt : (2 : ℤ) ^ k < 2 ^ T.width := pow_lt_pow_right₀ (by decide) hk
    rw [not, ofInt_unsigned hT, ← cast_mask]
    change -(((2 ^ k - 1 : ℕ) : ℤ) + 1) % _ = _
    rw [cast_mask, Nat.cast_sub (Nat.pow_le_pow_right (by decide) hk.le), ← Int.add_emod_right,
      Int.emod_eq_of_lt (by omega) (by omega)]
    push_cast
    omega
  have hland : x.land (2 ^ T.width - 2 ^ k : ℕ) = x - x % 2 ^ k := by
    obtain ⟨a, rfl⟩ := Int.eq_ofNat_of_zero_le hx0
    have hmul := Int.mul_ediv_add_emod a (2 ^ k)
    refine (congrArg Nat.cast (land_not_mask hk (by exact_mod_cast hxlt))).trans ?_
    push_cast
    omega
  have hr := Int.emod_nonneg x hy.ne'
  rw [and, hnot, hland, ofInt_of_has (has_of_lt hT (sub_emod_nonneg hx0 hy) (by omega))]

end IntType

end XcpNgGeneric.CInt
