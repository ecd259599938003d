import XcpNgGeneric.Memory.Format

/-!
# Reading numerals back

The number at the beginning of a text, in base 2 to 16 with the letters that `%x` prints, and the
lines of a text. What the conversions of `Memory.Format` print is read back as the number that was
printed.

## Main results

* `readNumber_numeral`: a numeral and what follows it.
* `readHexadecimal_hexadecimal`: the digits of `%#0*x`.
* `lines_flatMap`: the lines that were printed one after another.
-/

namespace XcpNgGeneric.Memory

/-- The value of a digit. -/
def digitValue (c : UInt8) : Option ℕ :=
  if 48 ≤ c ∧ c ≤ 57 then some (c.toNat - 48)
  else if 97 ≤ c ∧ c ≤ 102 then some (c.toNat - 87)
  else none

/-- The digits at the beginning are added to the number, and the rest of the text is left. -/
def readNumber (base acc : ℕ) : List UInt8 → ℕ × List UInt8
  | [] => (acc, [])
  | c :: cs =>
    match digitValue c with
    | some d => if d < base then readNumber base (acc * base + d) cs else (acc, c :: cs)
    | none => (acc, c :: cs)

/-- A text that does not begin with a digit. -/
def NoDigit (base : ℕ) (cs : List UInt8) : Prop :=
  ∀ c ∈ cs.head?, ∀ d ∈ digitValue c, base ≤ d

theorem readNumber_of_noDigit {base acc : ℕ} {cs : List UInt8} (h : NoDigit base cs) :
    readNumber base acc cs = (acc, cs) := by
  cases cs with
  | nil => rfl
  | cons c cs =>
    rw [readNumber]
    cases hd : digitValue c with
    | none => rfl
    | some d =>
      have hle : base ≤ d := h c rfl d hd
      simp only [if_neg (Nat.not_lt.2 hle)]

theorem digitValue_digitChar {d : ℕ} (hd : d < 16) :
    digitValue (UInt8.ofNat (Nat.digitChar d).toNat) = some d := by
  have hall : ∀ d < 16, digitValue (UInt8.ofNat (Nat.digitChar d).toNat) = some d := by decide
  exact hall d hd

theorem readNumber_digit {base acc d : ℕ} (hle : base ≤ 16) (hd : d < base) (cs : List UInt8) :
    readNumber base acc (UInt8.ofNat (Nat.digitChar d).toNat :: cs) =
      readNumber base (acc * base + d) cs := by
  rw [readNumber, digitValue_digitChar (by omega)]
  simp only [if_pos hd]

theorem numeral_of_lt {base n : ℕ} (hbase : 1 < base) (h : n < base) :
    numeral base n = [UInt8.ofNat (Nat.digitChar n).toNat] := by
  rw [numeral, Nat.toDigits_eq_if hbase, if_pos h]
  rfl

theorem numeral_of_le {base n : ℕ} (hbase : 1 < base) (h : base ≤ n) :
    numeral base n = numeral base (n / base) ++ [UInt8.ofNat (Nat.digitChar (n % base)).toNat] := by
  rw [numeral, Nat.toDigits_eq_if hbase, if_neg (Nat.not_lt.2 h), ascii, List.map_append]
  rfl

/-- **A numeral is read back**, by induction on the digits that are left. -/
theorem readNumber_numeral {base : ℕ} (hbase : 1 < base) (hle : base ≤ 16) (acc n : ℕ)
    (rest : List UInt8) : readNumber base acc (numeral base n ++ rest) =
      readNumber base (acc * base ^ (numeral base n).length + n) rest := by
  induction n using Nat.strongRecOn generalizing rest with
  | ind n ih =>
    rcases Nat.lt_or_ge n base with hlt | hge
    · rw [numeral_of_lt hbase hlt, List.singleton_append, readNumber_digit hle hlt,
        List.length_singleton, Nat.pow_one]
    · have hdiv : n / base < n := Nat.div_lt_self (by omega) hbase
      have hmod : n % base < base := Nat.mod_lt n (by omega)
      have hvalue : (acc * base ^ (numeral base (n / base)).length + n / base) * base + n % base =
          acc * base ^ ((numeral base (n / base)).length + 1) + n := by
        rw [Nat.pow_succ, Nat.add_mul, Nat.mul_assoc, Nat.add_assoc, Nat.div_add_mod']
      rw [numeral_of_le hbase hge, List.append_assoc, ih _ hdiv, List.singleton_append,
        readNumber_digit hle hmod, List.length_append, List.length_singleton, hvalue]

theorem readNumber_zero {base : ℕ} (hbase : 1 < base) (hle : base ≤ 16) (n : ℕ)
    {rest : List UInt8} (hrest : NoDigit base rest) :
    readNumber base 0 (numeral base n ++ rest) = (n, rest) := by
  rw [readNumber_numeral hbase hle, Nat.zero_mul, Nat.zero_add, readNumber_of_noDigit hrest]

theorem readNumber_zeros {base : ℕ} (hbase : 1 < base) (k : ℕ) (cs : List UInt8) :
    readNumber base 0 (List.replicate k 48 ++ cs) = readNumber base 0 cs := by
  induction k with
  | zero => rfl
  | succ k ih =>
    have hzero : digitValue 48 = some 0 := by decide
    rw [List.replicate_succ, List.cons_append, readNumber, hzero]
    simp only [if_pos (Nat.lt_trans Nat.zero_lt_one hbase), Nat.zero_mul, Nat.zero_add]
    exact ih

/-- A numeral has digits only. -/
theorem digitValue_of_mem {base n : ℕ} (hbase : 1 < base) (hle : base ≤ 16) {c : UInt8}
    (hc : c ∈ numeral base n) : digitValue c ≠ none := by
  obtain ⟨ch, hch, rfl⟩ := List.mem_map.1 hc
  obtain ⟨d, hd, rfl⟩ := mem_toDigits hbase hch
  rw [digitValue_digitChar (by omega)]
  exact Option.some_ne_none d

theorem length_hexadecimal (width n : ℕ) : width ≤ (hexadecimal width n).length := by
  rw [hexadecimal]
  split
  · rw [List.length_replicate]
    exact Nat.le_max_left _ _
  · simp only [List.length_append, List.length_replicate, List.length_cons, List.length_nil]
    omega

/-- What `%#0*x` prints has digits only, and the letter of its prefix. -/
theorem digitValue_of_mem_hexadecimal {width n : ℕ} {c : UInt8} (hc : c ∈ hexadecimal width n) :
    digitValue c ≠ none ∨ c = 120 := by
  rw [hexadecimal] at hc
  split at hc
  · rw [List.eq_of_mem_replicate hc]
    exact Or.inl (by decide)
  · rcases List.mem_append.1 hc with hc | hc
    · rcases List.mem_append.1 hc with hc | hc
      · rcases List.mem_cons.1 hc with rfl | hc
        · exact Or.inl (by decide)
        · exact Or.inr (List.mem_singleton.1 hc)
      · rw [List.eq_of_mem_replicate hc]
        exact Or.inl (by decide)
    · exact Or.inl (digitValue_of_mem (by decide) (by decide) hc)

/-- The number after the prefix `0x`, which `%#x` does not print for zero. -/
def readHexadecimal : List UInt8 → ℕ × List UInt8
  | 48 :: 120 :: cs => readNumber 16 0 cs
  | cs => readNumber 16 0 cs

theorem readHexadecimal_of_ne {cs : List UInt8} (h : ∀ ds, cs ≠ 48 :: 120 :: ds) :
    readHexadecimal cs = readNumber 16 0 cs := by
  unfold readHexadecimal
  split
  · exact absurd rfl (h _)
  · rfl

/-- What `%#0*x` prints is read back. -/
theorem readHexadecimal_hexadecimal (width n : ℕ) {rest : List UInt8} (hrest : NoDigit 16 rest)
    (hx : rest.head? ≠ some 120) : readHexadecimal (hexadecimal width n ++ rest) = (n, rest) := by
  rw [hexadecimal]
  by_cases hn : n = 0
  · subst hn
    obtain ⟨k, hk⟩ : ∃ k, max width 1 = k + 1 := ⟨max width 1 - 1, by omega⟩
    have hprefix : ∀ cs, List.replicate (k + 1) 48 ++ rest ≠ 48 :: 120 :: cs := by
      intro cs h
      rw [List.replicate_succ, List.cons_append] at h
      have htail := (List.cons.inj h).2
      cases k with
      | zero => exact hx (by rw [← List.nil_append rest]; exact congrArg List.head? htail)
      | succ k => cases htail
    rw [if_pos rfl, hk, readHexadecimal_of_ne hprefix, readNumber_zeros (by decide),
      readNumber_of_noDigit hrest]
  · rw [if_neg hn]
    show readNumber 16 0 (List.replicate (width - (2 + (numeral 16 n).length)) 48 ++ numeral 16 n ++
      rest) = _
    rw [List.append_assoc, readNumber_zeros (by decide), readNumber_zero (by decide) (by decide) n
      hrest]

/-! ## Lines -/

/-- The lines of a text in which every line ends with `sep`. -/
def lines (sep : UInt8) (text : List UInt8) : List (List UInt8) := (text.splitOn sep).dropLast

theorem lines_flatMap {ι : Type*} (sep : UInt8) (xs : List ι) {line : ι → List UInt8}
    (h : ∀ x ∈ xs, sep ∉ line x) :
    lines sep (xs.flatMap fun x => line x ++ [sep]) = xs.map line := by
  induction xs with
  | nil => rfl
  | cons x xs ih =>
    have hx : sep ∉ line x := h x List.mem_cons_self
    have hxs := ih fun y hy => h y (List.mem_cons_of_mem _ hy)
    rw [lines] at hxs ⊢
    rw [List.flatMap_cons, List.append_assoc, List.singleton_append,
      List.splitOn_append_cons_self_of_not_mem hx,
      List.dropLast_cons_of_ne_nil (List.splitOn_ne_nil _ _), hxs, List.map_cons]

end XcpNgGeneric.Memory
