import Mathlib.Data.List.DropRight
import XcpNgGeneric.Memory.Strings

/-!
# Removing white space at the end

`xcp_str_trim_end` of `string.c`. Pointers are offsets from the string, which may be negative; only
the string and its terminator can be read and written. A `char` is signed, and `isspace` is defined
on the values of an `unsigned char` and on `EOF`.

The loop stops at the last byte that is not white space, after having handed it to `isspace`. It is
this byte that decides whether the function is sound (`trim_end_iff`): without a conversion to
`unsigned char` it is negative from `0x80` on.
-/

namespace XcpNgGeneric.Text

open Memory

/-! ## The function -/

/-- How the function goes wrong. -/
inductive TrimFault
  | outOfBounds
  /-- `isspace` is called with an argument that is neither an `unsigned char` nor `EOF`. -/
  | domain
  deriving DecidableEq

def EOF : ℤ := -1

/-- The value of a `char`, which is signed. -/
def charVal (c : UInt8) : ℤ := c.toInt8.toInt

/-- `isspace` of an `int`. -/
def isspaceInt (c : ℤ) : Except TrimFault Bool :=
  if 0 ≤ c ∧ c ≤ 255 then .ok (isspace (UInt8.ofNat c.toNat))
  else if c = EOF then .ok false
  else .error .domain

/-- `*pos`. -/
def load (m : List UInt8) (pos : ℤ) : Except TrimFault UInt8 :=
  if pos < 0 then .error .outOfBounds
  else
    match m[pos.toNat]? with
    | none => .error .outOfBounds
    | some c => .ok c

/-- `*pos = c`. -/
def assign (m : List UInt8) (pos : ℤ) (c : UInt8) : Except TrimFault (List UInt8) :=
  if pos < 0 ∨ (m.length : ℤ) ≤ pos then .error .outOfBounds else .ok (m.set pos.toNat c)

/-- The loop from `end = str + n - 1` on; the result is the last value of `end - str`. -/
def trimLoop (m : List UInt8) : ℕ → Except TrimFault ℤ
  | 0 => .ok (-1)
  | n + 1 => do
    let c ← load m n
    let space ← isspaceInt (charVal c)
    if space then trimLoop m n else .ok n

/-- The bytes at `str` after the call. -/
def xcp_str_trim_end (str : CString) : Except TrimFault (List UInt8) := do
  let last ← trimLoop str.image str.strlen
  assign str.image (last + 1) NUL

/-! ## The purpose -/

/-- `t` is `s` without the white space at its end. -/
def TrimOf (s t : CString) : Prop :=
  ∃ w, s.bytes = t.bytes ++ w ∧ (∀ c ∈ w, isspace c) ∧ ∀ c ∈ t.bytes.getLast?, isspace c = false

/-- The call leaves the one string `t` that is `s` without the white space at its end, writes
nothing but its terminator, and changes nothing if it is repeated. -/
def Trims (s : CString) : Prop :=
  ∃ t, TrimOf s t ∧ (∀ t', TrimOf s t' → t' = t) ∧
    xcp_str_trim_end s = .ok (s.image.set t.strlen NUL) ∧
    t.image <+: s.image.set t.strlen NUL ∧ xcp_str_trim_end t = .ok t.image

/-- The last byte, if any, is one whose `char` is a value for `isspace`. -/
def LastPlain (bs : List UInt8) : Prop := ∀ c ∈ bs.getLast?, c < 0x80 ∨ c = 0xFF

instance (bs : List UInt8) : Decidable (LastPlain bs) :=
  inferInstanceAs (Decidable (∀ c ∈ bs.getLast?, c < 0x80 ∨ c = 0xFF))

/-! ## Characters -/

theorem charVal_eq (c : UInt8) :
    charVal c = if c.toNat < 128 then (c.toNat : ℤ) else c.toNat - 256 := by
  have h : charVal c = c.toBitVec.toInt := rfl
  rw [h, BitVec.toInt_eq_toNat_cond]
  change (if 2 * c.toNat < 2 ^ 8 then (c.toNat : ℤ) else (c.toNat : ℤ) - (2 ^ 8 : ℕ)) = _
  split_ifs <;> omega

/-- The two ways for a byte to be a value for `isspace`. -/
theorem plain_iff {c : UInt8} : c < 0x80 ∨ c = 0xFF ↔ c.toNat < 128 ∨ c.toNat = 255 := by
  rw [UInt8.lt_iff_toNat_lt, ← UInt8.toNat_inj]
  rfl

theorem plain_of_isspace {c : UInt8} (h : isspace c) : c < 0x80 := by
  rw [UInt8.lt_iff_toNat_lt]
  simp only [isspace, Bool.or_eq_true, Bool.and_eq_true, beq_iff_eq, decide_eq_true_eq,
    UInt8.le_iff_toNat_le] at h
  rcases h with rfl | ⟨-, h⟩
  · decide
  · exact Nat.lt_of_le_of_lt h (by decide)

theorem isspaceInt_plain {c : UInt8} (h : c < 0x80 ∨ c = 0xFF) :
    isspaceInt (charVal c) = .ok (isspace c) := by
  rcases h with h | rfl
  · rw [UInt8.lt_iff_toNat_lt] at h
    replace h : c.toNat < 128 := h
    rw [charVal_eq, if_pos h, isspaceInt, if_pos ⟨by omega, by omega⟩, Int.toNat_natCast,
      UInt8.ofNat_toNat]
  · rfl

theorem isspaceInt_other {c : UInt8} (h : ¬(c < 0x80 ∨ c = 0xFF)) :
    isspaceInt (charVal c) = .error .domain := by
  rw [plain_iff] at h
  have hlt := c.toNat_lt
  rw [charVal_eq, if_neg (by omega), isspaceInt, if_neg (by omega), EOF, if_neg (by omega)]

/-! ## The loop -/

section Loop

variable {m : List UInt8} {n : ℕ} {c : UInt8}

theorem load_ok (h : m[n]? = some c) : load m n = .ok c := by
  rw [load, if_neg (by omega), Int.toNat_natCast, h]

/-- One iteration. -/
theorem trimLoop_succ (h : m[n]? = some c) :
    trimLoop m (n + 1) =
      isspaceInt (charVal c) >>= fun space => if space then trimLoop m n else .ok n := by
  rw [trimLoop, load_ok h]
  rfl

/-- White space is passed over. -/
theorem trimLoop_space {k : ℕ}
    (h : ∀ i, n ≤ i → i < n + k → ∃ c, m[i]? = some c ∧ isspace c) :
    trimLoop m (n + k) = trimLoop m n := by
  induction k with
  | zero => rfl
  | succ k ih =>
    obtain ⟨c, hget, hc⟩ := h (n + k) (by omega) (by omega)
    rw [← Nat.add_assoc, trimLoop_succ hget, isspaceInt_plain (Or.inl (plain_of_isspace hc))]
    change (if isspace c = true then _ else _) = _
    rw [if_pos hc]
    exact ih fun i hi hlt => h i hi (by omega)

/-- The loop stops at a byte that is not white space, or fails there. -/
theorem trimLoop_stop (hget : m[n]? = some c) (hc : isspace c = false) :
    trimLoop m (n + 1) = if c < 0x80 ∨ c = 0xFF then .ok n else .error .domain := by
  rw [trimLoop_succ hget]
  split
  next h =>
    rw [isspaceInt_plain h, hc]
    rfl
  next h =>
    rw [isspaceInt_other h]
    rfl

end Loop

/-! ## The call -/

section Trim

variable {s t : CString}

theorem getElem?_image (h : TrimOf s t) {i : ℕ} (hi : i < t.strlen) :
    s.image[i]? = t.bytes[i]? := by
  obtain ⟨w, hw, -⟩ := h
  rw [CString.image, hw, List.append_assoc]
  exact List.getElem?_append_left hi

/-- **What the call does**, in terms of the string that it should leave. -/
theorem trim_end_eq (h : TrimOf s t) :
    xcp_str_trim_end s =
      if LastPlain t.bytes then .ok (s.image.set t.strlen NUL) else .error .domain := by
  obtain ⟨w, hw, hspace, hlast⟩ := h
  have hlength : s.strlen = t.strlen + w.length := by
    simp [CString.strlen, hw]
  have hpass : trimLoop s.image s.strlen = trimLoop s.image t.strlen := by
    rw [hlength]
    apply trimLoop_space
    intro i hi hlt
    have hiw : i - t.strlen < w.length := by omega
    refine ⟨w[i - t.strlen], ?_, hspace _ (List.getElem_mem hiw)⟩
    rw [CString.image, hw, List.append_assoc, List.getElem?_append_right hi]
    change (w ++ [NUL])[i - t.strlen]? = _
    rw [List.getElem?_append_left hiw]
    exact List.getElem?_eq_getElem hiw
  have hassign : assign s.image t.strlen NUL = .ok (s.image.set t.strlen NUL) := by
    rw [assign, if_neg, Int.toNat_natCast]
    rw [CString.length_image]
    omega
  unfold xcp_str_trim_end
  rw [hpass]
  rcases List.eq_nil_or_concat t.bytes with hnil | ⟨ts, c, hts⟩
  · have hzero : t.strlen = 0 := by simp [CString.strlen, hnil]
    rw [hzero] at hassign ⊢
    rw [if_pos (by simp [LastPlain, hnil])]
    exact hassign
  · rw [List.concat_eq_append] at hts
    have hgetLast : t.bytes.getLast? = some c := by simp [hts]
    have hsucc : t.strlen = ts.length + 1 := by simp [CString.strlen, hts]
    have hget : s.image[ts.length]? = some c := by
      rw [getElem?_image ⟨w, hw, hspace, hlast⟩ (by omega), hts]
      simp
    rw [hsucc] at hassign
    have hplain : LastPlain t.bytes ↔ c < 0x80 ∨ c = 0xFF := by
      simp only [LastPlain, hgetLast, Option.mem_some_iff, forall_eq']
    rw [hsucc, trimLoop_stop hget (hlast c hgetLast)]
    by_cases hc : c < 0x80 ∨ c = 0xFF
    · rw [if_pos hc, if_pos (hplain.mpr hc)]
      exact hassign
    · rw [if_neg hc, if_neg (fun h => hc (hplain.mp h))]
      rfl

/-! ## The string without the white space at its end -/

/-- The string that the call should leave. -/
def trimmed (s : CString) : CString where
  bytes := s.bytes.rdropWhile isspace
  nul_free h := s.nul_free ((List.rdropWhile_prefix isspace s.bytes).subset h)
  fits := Nat.lt_of_le_of_lt (List.rdropWhile_prefix isspace s.bytes).length_le s.fits

theorem rdropWhile_append_spaces {bs w : List UInt8} (hw : ∀ c ∈ w, isspace c) :
    (bs ++ w).rdropWhile isspace = bs.rdropWhile isspace := by
  induction w using List.reverseRecOn with
  | nil => rw [List.append_nil]
  | append_singleton w c ih =>
    rw [← List.append_assoc, List.rdropWhile_concat_pos isspace _ c (hw c (by simp))]
    exact ih fun c' hc' => hw c' (by simp [hc'])

theorem trimOf_trimmed (s : CString) : TrimOf s (trimmed s) := by
  refine ⟨s.bytes.rtakeWhile isspace, List.rdropWhile_append_rtakeWhile.symm,
    fun _ hc => List.mem_rtakeWhile_imp hc, fun c hc => ?_⟩
  obtain ⟨hne, rfl⟩ := List.mem_getLast?_eq_getLast hc
  exact Bool.eq_false_iff.mpr (List.rdropWhile_last_not isspace _ hne)

/-- There is only one such string. -/
theorem TrimOf.eq_trimmed (h : TrimOf s t) : t = trimmed s := by
  obtain ⟨w, hw, hspace, hlast⟩ := h
  apply CString.ext
  change t.bytes = s.bytes.rdropWhile isspace
  rw [hw, rdropWhile_append_spaces hspace, List.rdropWhile_eq_self_iff.mpr]
  intro hne
  rw [hlast _ (List.getLast_mem_getLast? hne)]
  exact Bool.false_ne_true

/-- Nothing is left to remove. -/
theorem TrimOf.self (h : TrimOf s t) : TrimOf t t := by
  obtain ⟨-, -, -, hlast⟩ := h
  exact ⟨[], by simp, by simp, hlast⟩

/-- The terminator is written over the terminator. -/
theorem image_set_strlen (t : CString) : t.image.set t.strlen NUL = t.image := by
  rw [CString.image, CString.strlen, List.set_append_right _ _ (Nat.le_refl _), Nat.sub_self]
  rfl

/-- The terminator ends the string `t` in the memory of `s`. -/
theorem TrimOf.image_prefix (h : TrimOf s t) : t.image <+: s.image.set t.strlen NUL := by
  obtain ⟨w, hw, -⟩ := h
  have himage : s.image = t.bytes ++ (w ++ [NUL]) := by
    rw [CString.image, hw, List.append_assoc]
  rw [himage, CString.strlen, List.set_append_right _ _ (Nat.le_refl _), Nat.sub_self]
  cases w with
  | nil => exact ⟨[], by simp [CString.image]⟩
  | cons c w => exact ⟨w ++ [NUL], by simp [CString.image]⟩

/-- **`xcp_str_trim_end` is sound exactly if** the last byte that is not white space is below
`0x80`, or is `0xFF`. -/
theorem trim_end_iff (s : CString) : Trims s ↔ LastPlain (s.bytes.rdropWhile isspace) := by
  have htrim : TrimOf s (trimmed s) := trimOf_trimmed s
  change Trims s ↔ LastPlain (trimmed s).bytes
  constructor
  · rintro ⟨t, ht, -, hcall, -⟩
    by_contra hplain
    rw [trim_end_eq htrim, if_neg hplain] at hcall
    cases hcall
  · intro hplain
    have hcall := trim_end_eq htrim
    rw [if_pos hplain] at hcall
    have hagain := trim_end_eq htrim.self
    rw [if_pos hplain, image_set_strlen] at hagain
    exact ⟨trimmed s, htrim, fun t' h => h.eq_trimmed, hcall, htrim.image_prefix, hagain⟩

/-- `é` in UTF-8: its second byte is negative as a `char`. -/
theorem trim_end_e_acute :
    ∃ s : CString, s.bytes = [0xC3, 0xA9] ∧ xcp_str_trim_end s = .error .domain ∧ ¬Trims s := by
  have hcall : xcp_str_trim_end ⟨[0xC3, 0xA9], by decide, by decide⟩ = .error .domain := by
    decide +kernel
  refine ⟨_, rfl, hcall, ?_⟩
  rintro ⟨t, -, -, hok, -⟩
  rw [hcall] at hok
  cases hok

end Trim

end XcpNgGeneric.Text
