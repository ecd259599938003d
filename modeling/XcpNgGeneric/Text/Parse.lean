import Mathlib.Data.Nat.Digits.Defs
import XcpNgGeneric.Foundations.CInt
import XcpNgGeneric.Memory.Strings

/-!
# Parsing integers

`xcp_str_to_int`, `xcp_str_to_long` and `xcp_str_to_longlong` of `string.c`, over a `strtoll` in
base 10 that saturates. What a string denotes (`Denotes`) is said without reference to how it is
scanned: the value of its longest prefix that is a numeral.

## Main results

* `scan_longest`: the scan of `strtoll` stops at the end of the longest such prefix.
* `str_to_accepts`: each function accepts exactly the strings that denote a value of its type.
-/

namespace XcpNgGeneric.Text

open Memory CInt

/-! ## Numerals -/

/-- `'+'`. -/
def PLUS : UInt8 := 43

/-- `'-'`. -/
def MINUS : UInt8 := 45

/-- The number denoted by decimal digits. -/
def decimal (ds : List UInt8) : ℕ := Nat.ofDigits 10 (ds.map fun d => d.toNat - 48).reverse

/-- The integer denoted by a sign and digits. -/
def signed (sign ds : List UInt8) : ℤ := if sign = [MINUS] then -decimal ds else decimal ds

/-- `p` consists of white space, a sign and digits, of which only the digits must be there, and
denotes `v`. -/
def IsNumeral (p : List UInt8) (v : ℤ) : Prop :=
  ∃ ws sign ds, p = ws ++ (sign ++ ds) ∧ (∀ c ∈ ws, isspace c) ∧
    (sign = [] ∨ sign = [PLUS] ∨ sign = [MINUS]) ∧ ds ≠ [] ∧ (∀ c ∈ ds, isdigit c) ∧
    v = signed sign ds

/-- `v` is the value of the longest prefix of the string that is a numeral. -/
def Denotes (s : CString) (v : ℤ) : Prop :=
  ∃ p, p <+: s.bytes ∧ IsNumeral p v ∧ ∀ p' v', p' <+: s.bytes → IsNumeral p' v' →
    p'.length ≤ p.length

/-- What a parser for `T` returns, and stores at an `ok` that is not `NULL`: it accepts the string
if and only if this denotes a value of the type, which it then returns. -/
def Parses (T : IntType) (s : CString) (r : ℤ × Option Bool) : Prop :=
  (r.2 = some true ↔ ∃ v, Denotes s v ∧ T.Has v) ∧ ∀ v, Denotes s v → T.Has v → r.1 = v

/-! ## The functions -/

/-- The sign that the bytes begin with, if any. -/
def leadingSign : List UInt8 → List UInt8
  | c :: _ => if c = PLUS ∨ c = MINUS then [c] else []
  | [] => []

/-- The length and the value of the numeral that the bytes begin with. -/
def scan (s : List UInt8) : Option (ℕ × ℤ) :=
  let ws := s.takeWhile isspace
  let s := s.dropWhile isspace
  let sign := leadingSign s
  let ds := (s.drop sign.length).takeWhile isdigit
  if ds = [] then none else some (ws.length + sign.length + ds.length, signed sign ds)

/-- What `strtoll` leaves behind: its result, the offset `end - str`, and whether it has set `errno`
to `ERANGE`. -/
structure Strtoll where
  value : ℤ
  stop : ℕ
  erange : Bool

/-- `longlong`. -/
def longlong : IntType := ⟨64, true, by decide⟩

/-- `strtoll(str, &end, 10)`. -/
def strtoll (str : CString) : Strtoll :=
  match scan str.bytes with
  | none => ⟨0, 0, false⟩
  | some (n, v) =>
    if longlong.Has v then ⟨v, n, false⟩
    else if v < 0 then ⟨longlong.minVal, n, true⟩
    else ⟨longlong.maxVal, n, true⟩

/-- The result and, unless `ok` is `NULL`, the value of `*ok`. -/
def xcp_str_to_longlong (str : CString) (ok : Option Bool) : ℤ × Option Bool :=
  let r := strtoll str
  (r.value, ok.map fun _ => r.stop != 0 && !r.erange)

/-- The conversion to a type, which is undone in a comparison. -/
def xcp_str_to (T : IntType) (str : CString) (ok : Option Bool) : ℤ × Option Bool :=
  let r := xcp_str_to_longlong str ok
  (T.ofInt r.1, r.2.map fun b => if r.1 ≠ T.ofInt r.1 then false else b)

def xcp_str_to_int (str : CString) (ok : Option Bool) : ℤ × Option Bool :=
  xcp_str_to .int str ok

/-- `long` is a parameter: it has 32 or 64 bits. -/
def xcp_str_to_long (long : IntType) (str : CString) (ok : Option Bool) : ℤ × Option Bool :=
  xcp_str_to long str ok

/-! ## The scan -/

/-- The bytes that satisfy `p` end where the first one does not. -/
theorem span_eq {p : UInt8 → Bool} {xs ys : List UInt8} (hxs : ∀ c ∈ xs, p c)
    (hys : ∀ c ∈ ys.head?, p c = false) :
    (xs ++ ys).takeWhile p = xs ∧ (xs ++ ys).dropWhile p = ys := by
  rw [List.takeWhile_append_of_pos hxs, List.dropWhile_append_of_pos hxs]
  cases ys with
  | nil => simp
  | cons y ys =>
    have hy := hys y rfl
    simp [hy]

theorem isdigit_not_isspace {c : UInt8} (h : isdigit c) : isspace c = false := by
  simp only [isdigit, isspace, Bool.and_eq_true, decide_eq_true_eq, UInt8.le_iff_toNat_le] at *
  have h48 : (48 : UInt8).toNat = 48 := rfl
  have h13 : (13 : UInt8).toNat = 13 := rfl
  have hne : c ≠ 32 := by
    rintro rfl
    exact absurd h.1 (by decide)
  simp only [Bool.or_eq_false_iff, Bool.and_eq_false_iff, beq_eq_false_iff_ne,
    decide_eq_false_iff_not]
  exact ⟨hne, Or.inr (by omega)⟩

theorem isdigit_not_sign {c : UInt8} (h : isdigit c) : ¬(c = PLUS ∨ c = MINUS) := by
  rintro (rfl | rfl) <;> exact absurd h (by decide)

/-- What comes before a digit ends the white space. -/
theorem head_not_isspace {sign ds r : List UInt8}
    (hsign : sign = [] ∨ sign = [PLUS] ∨ sign = [MINUS]) (hne : ds ≠ [])
    (hds : ∀ c ∈ ds, isdigit c) : ∀ c ∈ (sign ++ (ds ++ r)).head?, isspace c = false := by
  intro c hc
  rcases hsign with rfl | rfl | rfl
  · obtain ⟨d, ds, rfl⟩ := List.exists_cons_of_ne_nil hne
    obtain rfl : d = c := by simpa using hc
    exact isdigit_not_isspace (hds d (by simp))
  · obtain rfl : PLUS = c := by simpa using hc
    decide
  · obtain rfl : MINUS = c := by simpa using hc
    decide

theorem leadingSign_append {sign ds r : List UInt8}
    (hsign : sign = [] ∨ sign = [PLUS] ∨ sign = [MINUS]) (hne : ds ≠ [])
    (hds : ∀ c ∈ ds, isdigit c) : leadingSign (sign ++ (ds ++ r)) = sign := by
  rcases hsign with rfl | rfl | rfl
  · obtain ⟨d, ds, rfl⟩ := List.exists_cons_of_ne_nil hne
    exact if_neg (isdigit_not_sign (hds d (by simp)))
  · rfl
  · rfl

/-- A numeral at the beginning is continued by the digits that follow it. -/
theorem scan_append {ws sign ds : List UInt8} (r : List UInt8) (hws : ∀ c ∈ ws, isspace c)
    (hsign : sign = [] ∨ sign = [PLUS] ∨ sign = [MINUS]) (hne : ds ≠ [])
    (hds : ∀ c ∈ ds, isdigit c) :
    scan (ws ++ (sign ++ ds) ++ r) =
      some (ws.length + sign.length + (ds ++ r.takeWhile isdigit).length,
        signed sign (ds ++ r.takeWhile isdigit)) := by
  obtain ⟨htake, hdrop⟩ := span_eq hws (head_not_isspace hsign hne hds (r := r))
  rw [List.append_assoc, List.append_assoc]
  simp only [scan, htake, hdrop, leadingSign_append hsign hne hds, List.drop_left,
    List.takeWhile_append_of_pos hds]
  rw [if_neg (by simp [hne])]

theorem leadingSign_spec (s : List UInt8) :
    (leadingSign s = [] ∨ leadingSign s = [PLUS] ∨ leadingSign s = [MINUS]) ∧
      leadingSign s ++ s.drop (leadingSign s).length = s := by
  cases s with
  | nil => exact ⟨Or.inl rfl, rfl⟩
  | cons c s =>
    by_cases h : c = PLUS ∨ c = MINUS
    · have hc : leadingSign (c :: s) = [c] := if_pos h
      rw [hc]
      rcases h with rfl | rfl
      · exact ⟨Or.inr (Or.inl rfl), rfl⟩
      · exact ⟨Or.inr (Or.inr rfl), rfl⟩
    · have hc : leadingSign (c :: s) = [] := if_neg h
      rw [hc]
      exact ⟨Or.inl rfl, rfl⟩

/-- What is scanned is a numeral. -/
theorem scan_sound {s : List UInt8} {n : ℕ} {v : ℤ} (h : scan s = some (n, v)) :
    ∃ p r, s = p ++ r ∧ p.length = n ∧ IsNumeral p v := by
  simp only [scan] at h
  split at h
  next => cases h
  next hne =>
    obtain ⟨hsign, hsplit⟩ := leadingSign_spec (s.dropWhile isspace)
    have hws := s.takeWhile_append_dropWhile (p := isspace)
    generalize hr : s.dropWhile isspace = s₁ at *
    have hds := (s₁.drop (leadingSign s₁).length).takeWhile_append_dropWhile (p := isdigit)
    obtain ⟨rfl, rfl⟩ := Prod.mk.inj (Option.some.inj h)
    refine ⟨_, (s₁.drop (leadingSign s₁).length).dropWhile isdigit, ?_, ?_, s.takeWhile isspace,
      leadingSign s₁, (s₁.drop (leadingSign s₁).length).takeWhile isdigit, rfl, ?_, hsign, hne, ?_,
      rfl⟩
    · rw [List.append_assoc, List.append_assoc, hds, hsplit, hws]
    · simp only [List.length_append]
      omega
    · exact List.all_eq_true.1 List.all_takeWhile
    · exact List.all_eq_true.1 List.all_takeWhile

/-- **The scan finds the longest numeral** that the bytes begin with, and its value. -/
theorem scan_longest {s : List UInt8} {p : List UInt8} {v : ℤ} (hp : p <+: s)
    (hv : IsNumeral p v) :
    ∃ n w, scan s = some (n, w) ∧ p.length ≤ n ∧ (n ≤ p.length → w = v) := by
  obtain ⟨r, rfl⟩ := hp
  obtain ⟨ws, sign, ds, rfl, hws, hsign, hne, hds, rfl⟩ := hv
  refine ⟨_, _, scan_append r hws hsign hne hds, ?_, fun hle => ?_⟩
  · simp only [List.length_append]
    omega
  · simp only [List.length_append] at hle
    have hnil : r.takeWhile isdigit = [] := List.length_eq_zero_iff.1 (by omega)
    rw [hnil, List.append_nil]

/-- What a string denotes is what is scanned. -/
theorem denotes_iff {s : CString} {v : ℤ} : Denotes s v ↔ ∃ n, scan s.bytes = some (n, v) := by
  constructor
  · rintro ⟨p, hp, hv, hmax⟩
    obtain ⟨n, w, hscan, hle, heq⟩ := scan_longest hp hv
    obtain ⟨p', r, hs, hlength, hnum⟩ := scan_sound hscan
    have := hmax p' w ⟨r, hs.symm⟩ hnum
    exact ⟨n, heq (by omega) ▸ hscan⟩
  · rintro ⟨n, hscan⟩
    obtain ⟨p, r, hs, hlength, hnum⟩ := scan_sound hscan
    refine ⟨p, ⟨r, hs.symm⟩, hnum, fun p' v' hp' hv' => ?_⟩
    obtain ⟨n', w, hscan', hle, -⟩ := scan_longest hp' hv'
    obtain ⟨rfl, -⟩ := Prod.mk.inj (Option.some.inj (hscan.symm.trans hscan'))
    omega

theorem Denotes.unique {s : CString} {v w : ℤ} (hv : Denotes s v) (hw : Denotes s w) : v = w := by
  obtain ⟨n, hn⟩ := denotes_iff.1 hv
  obtain ⟨n', hn'⟩ := denotes_iff.1 hw
  exact (Prod.mk.inj (Option.some.inj (hn.symm.trans hn'))).2

/-! ## The conversions -/

/-- What `strtoll` returns: the value if it is one of the type, else the end of the range on its
side; no prefix is a numeral if it stops at the beginning. -/
theorem strtoll_spec (s : CString) :
    ((strtoll s).stop = 0 ∧ ∀ v, ¬Denotes s v) ∨
      ∃ v, Denotes s v ∧ (strtoll s).stop ≠ 0 ∧
        ((strtoll s).erange = false ∧ longlong.Has v ∧ (strtoll s).value = v ∨
          (strtoll s).erange = true ∧ ¬longlong.Has v) := by
  cases hscan : scan s.bytes with
  | none =>
    refine Or.inl ⟨by simp [strtoll, hscan], fun v hv => ?_⟩
    obtain ⟨n, hn⟩ := denotes_iff.1 hv
    cases hscan.symm.trans hn
  | some r =>
    obtain ⟨n, v⟩ := r
    refine Or.inr ⟨v, denotes_iff.2 ⟨n, hscan⟩, ?_⟩
    have hstop : (strtoll s).stop = n := by
      simp only [strtoll, hscan]
      split_ifs <;> rfl
    have hpos : n ≠ 0 := by
      obtain ⟨p, r, -, rfl, ws, sign, ds, rfl, -, -, hne, -⟩ := scan_sound hscan
      simp [hne]
    refine ⟨hstop ▸ hpos, ?_⟩
    by_cases hv : longlong.Has v
    · exact Or.inl (by simp [strtoll, hscan, hv])
    · refine Or.inr ⟨?_, hv⟩
      simp only [strtoll, hscan, hv, if_false]
      split_ifs <;> rfl

/-- The parser for `longlong`. -/
theorem str_to_longlong_parses (s : CString) (b : Bool) :
    Parses longlong s (xcp_str_to_longlong s (some b)) := by
  rcases strtoll_spec s with ⟨hstop, hnone⟩ | ⟨w, hw, hstop, ⟨he, hT, hvalue⟩ | ⟨he, hT⟩⟩
  · refine ⟨iff_of_false (by simp [xcp_str_to_longlong, hstop]) ?_, fun v hv => absurd hv (hnone v)⟩
    exact fun ⟨v, hv, _⟩ => hnone v hv
  · refine ⟨iff_of_true (by simp [xcp_str_to_longlong, hstop, he]) ⟨w, hw, hT⟩, fun v hv _ => ?_⟩
    exact hvalue.trans (hw.unique hv)
  · have hnot : ∀ v, Denotes s v → ¬longlong.Has v := fun v hv => hv.unique hw ▸ hT
    refine ⟨iff_of_false (by simp [xcp_str_to_longlong, he]) ?_, fun v hv h => absurd h (hnot v hv)⟩
    exact fun ⟨v, hv, h⟩ => hnot v hv h

/-- What passes the comparison of the narrowing parsers is what the conversion leaves alone. -/
theorem str_to_ok_iff (T : IntType) (s : CString) (b : Bool) :
    (xcp_str_to T s (some b)).2 = some true ↔
      (xcp_str_to_longlong s (some b)).2 = some true ∧
        T.Has (xcp_str_to_longlong s (some b)).1 := by
  rw [← IntType.ofInt_eq_self_iff]
  simp only [xcp_str_to, Option.map_eq_some_iff]
  constructor
  · rintro ⟨ok, hok, h⟩
    split at h
    next => cases h
    next heq => exact ⟨h ▸ hok, (not_ne_iff.1 heq).symm⟩
  · rintro ⟨hok, heq⟩
    exact ⟨true, hok, by rw [if_neg (not_ne_iff.2 heq.symm)]⟩

/-- The parsers for types that are not wider than `longlong`. -/
theorem str_to_parses {T : IntType} (hT : T.signed = true) (hw : T.width ≤ 64) (s : CString)
    (b : Bool) : Parses T s (xcp_str_to T s (some b)) := by
  obtain ⟨hok, hvalue⟩ := str_to_longlong_parses s b
  have hwide : ∀ v, T.Has v → longlong.Has v := fun v => IntType.Has.wider hT rfl hw
  refine ⟨(str_to_ok_iff T s b).trans ⟨fun ⟨h, hr⟩ => ?_, fun ⟨v, hv, h⟩ => ?_⟩, fun v hv h => ?_⟩
  · obtain ⟨v, hv, hll⟩ := hok.1 h
    exact ⟨v, hv, hvalue v hv hll ▸ hr⟩
  · exact ⟨hok.2 ⟨v, hv, hwide v h⟩, (hvalue v hv (hwide v h)).symm ▸ h⟩
  · rw [xcp_str_to, hvalue v hv (hwide v h)]
    exact IntType.ofInt_of_has h

/-- **The parsers accept what fits their types**, and return it; what the parser for `int` accepts,
the others accept with the same value. -/
theorem str_to_accepts {long : IntType} (hlong : long.signed = true)
    (hwidth : long.width = 32 ∨ long.width = 64) (s : CString) (b : Bool) :
    Parses .int s (xcp_str_to_int s (some b)) ∧
      Parses long s (xcp_str_to_long long s (some b)) ∧
      Parses longlong s (xcp_str_to_longlong s (some b)) ∧
      ((xcp_str_to_int s (some b)).2 = some true →
        xcp_str_to_long long s (some b) = xcp_str_to_int s (some b) ∧
          xcp_str_to_longlong s (some b) = xcp_str_to_int s (some b)) := by
  have hint : Parses .int s (xcp_str_to_int s (some b)) := str_to_parses rfl (by decide) s b
  have hl : Parses long s (xcp_str_to_long long s (some b)) := str_to_parses hlong (by omega) s b
  have hll := str_to_longlong_parses s b
  refine ⟨hint, hl, hll, fun hok => ?_⟩
  obtain ⟨v, hv, h⟩ := hint.1.1 hok
  have h' : long.Has v := IntType.Has.wider rfl hlong (by change 32 ≤ _; omega) h
  have h'' : longlong.Has v := IntType.Has.wider rfl rfl (by decide) h
  have hv' := hint.2 v hv h
  refine ⟨Prod.ext ((hl.2 v hv h').trans hv'.symm) ((hl.1.2 ⟨v, hv, h'⟩).trans hok.symm),
    Prod.ext ((hll.2 v hv h'').trans hv'.symm) ((hll.1.2 ⟨v, hv, h''⟩).trans hok.symm)⟩

/-- The string `" -42x"`. -/
def minus42 : CString := ⟨[32, 45, 52, 50, 120], by decide, by decide⟩

theorem str_to_minus42 : xcp_str_to_long longlong minus42 (some false) = (-42, some true) := by
  have hint : xcp_str_to_int minus42 (some false) = (-42, some true) := by decide
  have hagree := (@str_to_accepts longlong rfl (by decide) minus42 false).2.2.2 (by rw [hint])
  rw [hagree.1, hint]

end XcpNgGeneric.Text
