import XcpNgGeneric.Foundations.CInt
import Mathlib.Algebra.Order.Field.Rat

/-!
# The rounding macros

The macros of `math.h` that round to a multiple, on two operands of one integer type.

## Main results

* `div_round_up_ceil`: `XCP_DIV_ROUND_UP` is the ceiling of the quotient, for all signs.
* `round_up_iff`: `XCP_ROUND_UP` is the least multiple exactly if the sum of its operands stays in
  range and truncation does not move the quotient of a negative sum.
* `round_two_pow`: the macros for powers of two agree with the general ones on unsigned types.
-/

namespace XcpNgGeneric.Math

open CInt

/-! ## The macros -/

section Macros

variable (T : IntType)

/-- `__XCP_ROUND_MASK_2`. -/
def XCP_ROUND_MASK_2 (Y : ℤ) : Option ℤ := do
  let mask ← T.sub Y 1
  return T.ofInt mask

def XCP_ROUND_UP_2 (X Y : ℤ) : Option ℤ := do
  let x ← T.sub X 1
  let mask ← XCP_ROUND_MASK_2 T Y
  T.add (T.or x mask) 1

def XCP_ROUND_DOWN_2 (X Y : ℤ) : Option ℤ := do
  let mask ← XCP_ROUND_MASK_2 T Y
  return T.and X (T.not mask)

def XCP_ROUND_UP (X Y : ℤ) : Option ℤ := do
  let sum ← T.add X Y
  let x ← T.sub sum 1
  let q ← T.div x Y
  T.mul q Y

/-- What `XCP_DIV_ROUND_UP` adds to the quotient, `r` being the remainder. -/
def increment (X Y r : ℤ) : ℤ :=
  if r ≠ 0 then if !(decide (X > 0) ^^ decide (Y > 0)) then 1 else 0 else 0

def XCP_DIV_ROUND_UP (X Y : ℤ) : Option ℤ := do
  let q ← T.div X Y
  let r ← T.mod X Y
  T.add q (increment X Y r)

end Macros

variable {T : IntType} {X Y : ℤ}

/-! ## The ceiling -/

theorem increment_of_pos (hY : 0 < Y) (r : ℤ) :
    increment X Y r = if r ≠ 0 ∧ 0 < X then 1 else 0 := by
  unfold increment
  split <;> simp_all

/-- Changing both signs changes nothing, unless the quotient is exact. -/
theorem increment_neg (hY : Y ≠ 0) :
    increment (-X) (-Y) (-X.tmod Y) = increment X Y (X.tmod Y) := by
  unfold increment
  by_cases hr : X.tmod Y = 0
  · simp [hr]
  · have hX : X ≠ 0 := by
      rintro rfl
      simp at hr
    rcases lt_or_gt_of_ne hX with h₁ | h₁ <;> rcases lt_or_gt_of_ne hY with h₂ | h₂ <;>
      simp [hr, h₁, h₂, not_lt.2 h₁.le, not_lt.2 h₂.le]

/-- **The quotient with its increment is the ceiling**, for all signs. -/
theorem isLeast_increment (h0 : Y ≠ 0) (X : ℤ) :
    IsLeast {q : ℤ | (X : ℚ) / Y ≤ q} (X.tdiv Y + increment X Y (X.tmod Y)) := by
  have hpos : ∀ {Y : ℤ}, 0 < Y → ∀ X : ℤ,
      IsLeast {q : ℤ | (X : ℚ) / Y ≤ q} (X.tdiv Y + increment X Y (X.tmod Y)) := fun {Y} hY X => by
    have hset : {q : ℤ | (X : ℚ) / Y ≤ q} = {q : ℤ | X ≤ q * Y} := by
      ext q
      change (X : ℚ) / Y ≤ q ↔ X ≤ q * Y
      rw [div_le_iff₀ (by exact_mod_cast hY)]
      exact_mod_cast Iff.rfl
    rw [hset, increment_of_pos hY]
    exact isLeast_tdiv hY X
  rcases lt_or_gt_of_ne h0 with hY | hY
  · have h := hpos (Int.neg_pos_of_neg hY) (-X)
    rw [Int.neg_tmod, Int.tmod_neg, increment_neg h0, Int.neg_tdiv_neg] at h
    simpa using h
  · exact hpos hY X

/-- The increment does not leave the range: where it is `1`, the quotient is at most half as large
as the dividend. -/
theorem has_increment (hX : T.Has X) (hY : T.Has Y) (h0 : Y ≠ 0)
    (hmin : ¬(X = T.minVal ∧ Y = -1)) : T.Has (X.tdiv Y + increment X Y (X.tmod Y)) := by
  have hq := IntType.has_tdiv hX hY h0 hmin
  rcases eq_or_ne (increment X Y (X.tmod Y)) 0 with hi | hi
  · rwa [hi, add_zero]
  · have hr : X.tmod Y ≠ 0 := fun hr => hi (by simp [increment, hr])
    have h1 : increment X Y (X.tmod Y) = 1 := by
      unfold increment at hi ⊢
      split_ifs at hi ⊢ <;> simp_all
    have hY2 : 2 ≤ Y.natAbs := by
      by_contra h
      have hY1 : Y.natAbs = 1 := by omega
      exact hr (Int.tmod_eq_zero_of_dvd (Int.natAbs_dvd.1 (by simp [hY1])))
    have hhalf : (X.tdiv Y).natAbs ≤ X.natAbs / 2 := by
      rw [Int.natAbs_tdiv]
      exact Nat.div_le_div_left hY2 (by decide)
    have hX0 : X ≠ 0 := by
      rintro rfl
      simp at hr
    rw [h1]
    refine ⟨by have := hq.1; omega, ?_⟩
    obtain ⟨hlo, hhi⟩ := hX
    have hneg := T.neg_minVal_le
    have hbig := T.int_max_le
    omega

/-- **`XCP_DIV_ROUND_UP` is the ceiling**: the least integer that is not less than the rational
quotient. The exact results of its operations are values of the type, so that none of them is an
error and none is reduced. -/
theorem div_round_up_ceil (hX : T.Has X) (hY : T.Has Y) (h0 : Y ≠ 0)
    (hmin : ¬(X = T.minVal ∧ Y = -1)) :
    ∃ q, XCP_DIV_ROUND_UP T X Y = some q ∧ IsLeast {q : ℤ | (X : ℚ) / Y ≤ q} q ∧
      T.Has (X.tdiv Y) ∧ T.Has (X.tmod Y) ∧ q = X.tdiv Y + increment X Y (X.tmod Y) ∧ T.Has q := by
  have hsum := has_increment hX hY h0 hmin
  refine ⟨_, ?_, isLeast_increment h0 X, IntType.has_tdiv hX hY h0 hmin, IntType.has_tmod hX Y, rfl,
    hsum⟩
  unfold XCP_DIV_ROUND_UP
  rw [IntType.div_of_has hX hY h0 hmin, IntType.mod_of_has hX hY h0 hmin]
  exact IntType.arith_of_has hsum

/-- The ceiling of `-7 / 2`. -/
theorem div_round_up_ceil_negative : XCP_DIV_ROUND_UP .int (-7) 2 = some (-3) ∧
    IsLeast {q : ℤ | ((-7 : ℤ) : ℚ) / (2 : ℤ) ≤ q} (-3) := by
  obtain ⟨q, hq, hleast, -⟩ := div_round_up_ceil (T := .int) (X := -7) (Y := 2) (by decide)
    (by decide) (by decide) (by decide)
  have hval : XCP_DIV_ROUND_UP .int (-7) 2 = some (-3) := by decide
  obtain rfl := Option.some.inj (hval.symm.trans hq)
  exact ⟨hval, hleast⟩

/-! ## The least multiple -/

theorem round_up_signed (hT : T.signed = true) (hX : T.Has X) (hY : T.Has Y) (h0 : 0 < Y) :
    XCP_ROUND_UP T X Y =
      if X + Y ≤ T.maxVal then T.mul ((X + Y - 1).tdiv Y) Y else none := by
  unfold XCP_ROUND_UP
  split
  next h =>
    have hsum : T.Has (X + Y) := ⟨by have := hX.1; omega, h⟩
    have hsub : T.Has (X + Y - 1) := hX.between hsum (by omega) (by omega)
    have hadd : T.add X Y = some (X + Y) := IntType.arith_of_has hsum
    have hsub' : T.sub (X + Y) 1 = some (X + Y - 1) := IntType.arith_of_has hsub
    rw [hadd]
    simp only [Option.bind_eq_bind, Option.bind_some, hsub', IntType.div_of_pos hsub hY h0]
  next h =>
    rw [show T.add X Y = none from IntType.arith_overflow hT fun hsum => h hsum.2]
    rfl

/-- On an unsigned type the sum may wrap, and is reduced once only. -/
theorem round_up_unsigned (hT : T.signed = false) (hY : T.Has Y) (h0 : 0 < Y) :
    XCP_ROUND_UP T X Y =
      some ((X + Y - 1) % 2 ^ T.width - (X + Y - 1) % 2 ^ T.width % Y) := by
  have hpos := IntType.two_pow_pos T.width
  set s := (X + Y - 1) % 2 ^ T.width with hs
  have hs0 : 0 ≤ s := Int.emod_nonneg _ hpos.ne'
  have hslt : s < 2 ^ T.width := Int.emod_lt_of_pos _ hpos
  have hsub : T.sub ((X + Y) % 2 ^ T.width) 1 = some s := by
    rw [IntType.sub, IntType.arith_unsigned hT, Int.emod_sub_emod]
  have hdiv : T.div s Y = some (s / Y) := by
    rw [IntType.div_of_pos (IntType.has_of_lt hT hs0 hslt) hY h0, Int.tdiv_eq_ediv_of_nonneg hs0]
  have hdown : 0 ≤ s / Y * Y := mul_nonneg (Int.ediv_nonneg hs0 h0.le) h0.le
  have hle : s / Y * Y ≤ s := Int.ediv_mul_le s h0.ne'
  unfold XCP_ROUND_UP
  rw [show T.add X Y = _ from IntType.arith_unsigned hT _]
  simp only [Option.bind_eq_bind, Option.bind_some, hsub, hdiv]
  rw [IntType.mul, IntType.arith_of_has (IntType.has_of_lt hT hdown (hle.trans_lt hslt)),
    ediv_mul_eq]

/-- The condition under which `XCP_ROUND_UP` rounds as it says. On a signed type the sum of the
operands is no error and, where it is not positive, truncation does not move the quotient; on an
unsigned type the sum does not wrap by more than the `1` that is taken off again. -/
def SumFits (T : IntType) (X Y : ℤ) : Prop :=
  if T.signed then X + Y ≤ T.maxVal ∧ (1 ≤ X + Y ∨ Y ∣ X - 1) else X + Y ≤ 2 ^ T.width

instance (T : IntType) (X Y : ℤ) : Decidable (SumFits T X Y) :=
  inferInstanceAs (Decidable (if T.signed = true then _ ∧ _ else _ ≤ _))

/-- The least multiple from `X + Y - 1` on is the one from `X` on, if one is hit by the other. -/
theorem isLeast_shift_iff {m n : ℤ} (h0 : 0 < Y) (hm : IsLeast {m : ℤ | Y ∣ m ∧ X ≤ m} m)
    (hn : IsLeast {m : ℤ | Y ∣ m ∧ X + Y - 1 ≤ m} n) : n = m ↔ Y ∣ X - 1 := by
  have hlt := lt_of_isLeast_multiple hm h0
  have hdvd : Y ∣ X + Y - 1 ↔ Y ∣ X - 1 := by
    rw [show X + Y - 1 = X - 1 + Y by omega,
      Int.dvd_add_left (Int.dvd_refl Y)]
  rw [← hdvd]
  constructor
  · rintro rfl
    have : n = X + Y - 1 := le_antisymm (by omega) hn.1.2
    exact this ▸ hm.1.1
  · intro h
    have hn' : n = X + Y - 1 := le_antisymm (hn.2 ⟨h, le_rfl⟩) hn.1.2
    -- both are multiples, less than `Y` apart
    have hsub : Y ∣ n - m := Int.dvd_sub hn.1.1 hm.1.1
    have := Int.eq_zero_of_dvd_of_nonneg_of_lt (by omega) (by have := hm.1.2; omega) hsub
    omega

theorem round_up_signed_iff {m : ℤ} (hT : T.signed = true) (hX : T.Has X) (hY : T.Has Y)
    (h0 : 0 < Y) (hm : IsLeast {m : ℤ | Y ∣ m ∧ X ≤ m} m) (hmT : T.Has m) :
    XCP_ROUND_UP T X Y = some m ↔ SumFits T X Y := by
  rw [round_up_signed hT hX hY h0]
  simp only [SumFits, hT, if_true]
  split
  next hsum =>
    have hmul : T.mul ((X + Y - 1).tdiv Y) Y = some m ↔ (X + Y - 1).tdiv Y * Y = m :=
      ⟨fun h => (IntType.eq_of_arith h hT).2.symm, fun h => by
        rw [IntType.mul, h, IntType.arith_of_has hmT]⟩
    rw [hmul, and_iff_right hsum]
    rcases lt_or_ge (X + Y - 1) 0 with hneg | hpos
    · have hn := isLeast_mul h0 (isLeast_tdiv h0 (X + Y - 1))
      rw [if_neg fun h => by omega, add_zero] at hn
      rw [isLeast_shift_iff h0 hm hn, or_iff_right (by omega)]
    · rw [Int.tdiv_eq_ediv_of_nonneg hpos]
      exact iff_of_true ((isLeast_multiple h0 X).unique hm) (Or.inl (by omega))
  next hsum => simp [hsum]

theorem round_up_unsigned_iff {m : ℤ} (hT : T.signed = false) (hX : T.Has X) (hY : T.Has Y)
    (h0 : 0 < Y) (hm : IsLeast {m : ℤ | Y ∣ m ∧ X ≤ m} m) :
    XCP_ROUND_UP T X Y = some m ↔ SumFits T X Y := by
  rw [round_up_unsigned hT hY h0, Option.some.injEq]
  simp only [SumFits, hT, Bool.false_eq_true, if_false]
  obtain ⟨hX0, hXlt⟩ := hX.of_unsigned hT
  obtain ⟨hY0, hYlt⟩ := hY.of_unsigned hT
  rcases lt_or_ge (2 ^ T.width) (X + Y) with hwrap | hfits
  · -- what is rounded down is less than `X`
    have hmod : (X + Y - 1) % 2 ^ T.width = X + Y - 1 - 2 ^ T.width := by
      rw [← Int.sub_emod_right, Int.emod_eq_of_lt (by omega) (by omega)]
    have hr := Int.emod_nonneg (X + Y - 1 - 2 ^ T.width) h0.ne'
    have hXm := hm.1.2
    rw [hmod]
    omega
  · rw [Int.emod_eq_of_lt (by omega) (by omega)]
    rw [← ediv_mul_eq]
    exact iff_of_true ((isLeast_multiple h0 X).unique hm) hfits

/-- The ceiling times the divisor is the least multiple. -/
theorem div_round_up_mul {m : ℤ} (hX : T.Has X) (hY : T.Has Y) (h0 : 0 < Y)
    (hm : IsLeast {m : ℤ | Y ∣ m ∧ X ≤ m} m) (hmT : T.Has m) :
    (XCP_DIV_ROUND_UP T X Y).bind (T.mul · Y) = some m := by
  have hmin : ¬(X = T.minVal ∧ Y = -1) := fun h => by omega
  have hsum := has_increment hX hY h0.ne' hmin
  have hq := isLeast_mul h0 (isLeast_tdiv h0 X)
  rw [← increment_of_pos h0] at hq
  unfold XCP_DIV_ROUND_UP
  rw [IntType.div_of_pos hX hY h0, IntType.mod_of_has hX hY h0.ne' hmin]
  simp only [Option.bind_eq_bind, Option.bind_some]
  rw [IntType.add, IntType.arith_of_has hsum, Option.bind_some, IntType.mul, hq.unique hm,
    IntType.arith_of_has hmT]

/-- **When `XCP_ROUND_UP` is the least multiple**, and so agrees with `XCP_DIV_ROUND_UP`, given that
the least multiple is a value of the type. -/
theorem round_up_iff {m : ℤ} (hX : T.Has X) (hY : T.Has Y) (h0 : 0 < Y)
    (hm : IsLeast {m : ℤ | Y ∣ m ∧ X ≤ m} m) (hmT : T.Has m) :
    (XCP_ROUND_UP T X Y = some m ∧
      XCP_ROUND_UP T X Y = (XCP_DIV_ROUND_UP T X Y).bind (T.mul · Y)) ↔ SumFits T X Y := by
  rw [div_round_up_mul hX hY h0 hm hmT, and_self]
  cases hT : T.signed with
  | true => exact round_up_signed_iff hT hX hY h0 hm hmT
  | false => exact round_up_unsigned_iff hT hX hY h0 hm

/-- `5` is rounded up to a multiple of `4`. -/
theorem round_up_five : XCP_ROUND_UP .int 5 4 = some 8 ∧
    XCP_ROUND_UP .int 5 4 = (XCP_DIV_ROUND_UP .int 5 4).bind (IntType.int.mul · 4) :=
  (round_up_iff (by decide) (by decide) (by decide) (isLeast_multiple (by decide) 5)
    (by decide)).2 (by decide)

/-- `-5` is rounded to `0`, not to `-4`: the sum is negative and truncated toward zero. -/
theorem round_up_negative : ∃ m : ℤ, IsLeast {m : ℤ | 4 ∣ m ∧ -5 ≤ m} m ∧ IntType.int.Has m ∧
    XCP_ROUND_UP .int (-5) 4 ≠ some m ∧
    (XCP_DIV_ROUND_UP .int (-5) 4).bind (IntType.int.mul · 4) = some m :=
  ⟨-4, isLeast_multiple (by decide) (-5), by decide, by decide, by decide⟩

/-! ## Powers of two -/

section TwoPow

variable {k : ℕ}

theorem round_mask_2 (hT : T.signed = false) (hk : k < T.width) :
    XCP_ROUND_MASK_2 T (2 ^ k) = some (2 ^ k - 1) := by
  have hmask : T.Has (2 ^ k - 1) := T.has_zero.between (IntType.has_two_pow hT hk)
    (by have := IntType.two_pow_pos k; omega) (by omega)
  unfold XCP_ROUND_MASK_2
  rw [IntType.sub, IntType.arith_of_has hmask]
  simp [IntType.ofInt_of_has hmask]

/-- Both ways to round up end in the least multiple, reduced modulo `2 ^ width`. -/
theorem round_up_2_eq (hT : T.signed = false) (hk : k < T.width) (X : ℤ) :
    XCP_ROUND_UP_2 T X (2 ^ k) =
      some ((X + 2 ^ k - 1 - (X + 2 ^ k - 1) % 2 ^ k) % 2 ^ T.width) := by
  have hW := IntType.two_pow_pos T.width
  have hdvd : (2 : ℤ) ^ k ∣ 2 ^ T.width := pow_dvd_pow 2 hk.le
  have hX : T.Has ((X - 1) % 2 ^ T.width) :=
    IntType.has_of_lt hT (Int.emod_nonneg _ hW.ne') (Int.emod_lt_of_pos _ hW)
  unfold XCP_ROUND_UP_2
  rw [round_mask_2 hT hk, IntType.sub, IntType.arith_unsigned hT]
  simp only [Option.bind_eq_bind, Option.bind_some]
  rw [IntType.or_mask hT hk hX, IntType.add, IntType.arith_unsigned hT]
  have hmod : (X + 2 ^ k - 1) % 2 ^ k = (X - 1) % 2 ^ k := by
    rw [show X + 2 ^ k - 1 = X - 1 + 2 ^ k by omega, Int.add_emod_right]
  rw [hmod, emod_sub_emod_of_dvd hW (IntType.two_pow_pos k) hdvd]
  rw [show (X - 1 - (X - 1) % 2 ^ k) % 2 ^ T.width + 2 ^ k - 1 + 1 =
      (X - 1 - (X - 1) % 2 ^ k) % 2 ^ T.width + 2 ^ k by omega, Int.emod_add_emod]
  congr 2
  omega

theorem round_up_eq (hT : T.signed = false) (hk : k < T.width) (X : ℤ) :
    XCP_ROUND_UP T X (2 ^ k) =
      some ((X + 2 ^ k - 1 - (X + 2 ^ k - 1) % 2 ^ k) % 2 ^ T.width) := by
  rw [round_up_unsigned hT (IntType.has_two_pow hT hk) (IntType.two_pow_pos k),
    emod_sub_emod_of_dvd (IntType.two_pow_pos _) (IntType.two_pow_pos k) (pow_dvd_pow 2 hk.le)]

theorem round_down_2_eq (hT : T.signed = false) (hk : k < T.width) (hX : T.Has X) :
    XCP_ROUND_DOWN_2 T X (2 ^ k) = some (X - X % 2 ^ k) := by
  unfold XCP_ROUND_DOWN_2
  rw [round_mask_2 hT hk]
  exact congrArg some (IntType.and_not_mask hT hk hX)

/-- The multiples around `X` are the same or next to each other. -/
theorem isLeast_sub_isGreatest {m : ℤ} (h0 : 0 < Y) (hm : IsLeast {m : ℤ | Y ∣ m ∧ X ≤ m} m) :
    m - (X - X % Y) = if Y ∣ X then 0 else Y := by
  have hr := Int.emod_nonneg X h0.ne'
  have hlt := Int.emod_lt_of_pos X h0
  have hX := hm.1.2
  split
  next h =>
    rw [Int.emod_eq_zero_of_dvd h, sub_zero, le_antisymm (hm.2 ⟨h, le_rfl⟩) hX, sub_self]
  next h =>
    have hdvd : Y ∣ X - X % Y := Int.dvd_self_sub_emod
    have hle : m ≤ X - X % Y + Y := hm.2 ⟨Int.dvd_add hdvd (Int.dvd_refl Y), by omega⟩
    have hne : m ≠ X := fun he => h (he ▸ hm.1.1)
    have := Int.le_of_dvd (by omega) (Int.dvd_sub hm.1.1 hdvd)
    omega

/-- **The macros for powers of two.** On an unsigned type they agree with the general one for every
`X`, those at the ends of the range included. -/
theorem round_two_pow (hT : T.signed = false) (hX : T.Has X) (hk : k < T.width) :
    ∃ u d m, XCP_ROUND_UP_2 T X (2 ^ k) = some u ∧ XCP_ROUND_UP T X (2 ^ k) = some u ∧
      IsLeast {m : ℤ | 2 ^ k ∣ m ∧ X ≤ m} m ∧ u = (if m < 2 ^ T.width then m else 0) ∧
      XCP_ROUND_DOWN_2 T X (2 ^ k) = some d ∧ IsGreatest {m : ℤ | 2 ^ k ∣ m ∧ m ≤ X} d ∧
      T.sub u d = some (if 2 ^ k ∣ X then 0 else 2 ^ k) := by
  have hY := IntType.two_pow_pos k
  obtain ⟨hX0, hXlt⟩ := hX.of_unsigned hT
  have hm := isLeast_multiple hY X
  rw [ediv_mul_eq] at hm
  refine ⟨_, _, _, round_up_2_eq hT hk X, round_up_eq hT hk X, hm, ?_, round_down_2_eq hT hk hX,
    isGreatest_multiple hY X, ?_⟩
  · -- `2 ^ width` is a multiple itself
    have hle := hm.2 ⟨pow_dvd_pow 2 hk.le, hXlt.le⟩
    have hge := hX0.trans hm.1.2
    split
    next h => exact Int.emod_eq_of_lt hge h
    next h => rw [le_antisymm hle (not_lt.1 h), Int.emod_self]
  · rw [IntType.sub, IntType.arith_unsigned hT, Int.emod_sub_emod, isLeast_sub_isGreatest hY hm]
    split
    · simp
    · rw [Int.emod_eq_of_lt hY.le (pow_lt_pow_right₀ (by decide) hk)]

/-- `2 ^ 32 - 1` is rounded up to `2 ^ 32`, that is to `0`. -/
theorem round_two_pow_wraps : XCP_ROUND_UP_2 .uint 4294967295 4 = some 0 ∧
    XCP_ROUND_UP .uint 4294967295 4 = some 0 ∧
    XCP_ROUND_DOWN_2 .uint 4294967295 4 = some 4294967292 := by
  obtain ⟨u, d, m, hu, hu', -, -, hd, -⟩ := round_two_pow (T := .uint) (X := 4294967295) (k := 2)
    rfl (by decide) (by decide)
  have hval : XCP_ROUND_UP_2 .uint 4294967295 (2 ^ 2) = some 0 := by decide
  have hval' : XCP_ROUND_DOWN_2 .uint 4294967295 (2 ^ 2) = some 4294967292 := by decide
  obtain rfl := Option.some.inj (hval.symm.trans hu)
  obtain rfl := Option.some.inj (hval'.symm.trans hd)
  exact ⟨hu, hu', hd⟩

end TwoPow

end XcpNgGeneric.Math
