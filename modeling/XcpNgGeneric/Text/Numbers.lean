import XcpNgGeneric.Memory.Numerals
import XcpNgGeneric.Text.Parse
import XcpNgGeneric.Text.Trim

/-!
# Numbers on a line

A number that is read from a file comes with the white space around it. `xcp_str_trim_end` removes
what is behind it, in place, and the parsers skip what is in front.

## Main results

* `scan_append_spaces`: white space at the end is neither a numeral nor part of one.
* `parse_after_trim`: the parsers return the same after the white space has been removed.
* `printed_read_back`: a printed number is read back.
-/

namespace XcpNgGeneric.Text

open Memory CInt

/-! ## White space at the end -/

theorem takeWhile_append_of_head {p : UInt8 → Bool} {w : List UInt8}
    (hw : ∀ c ∈ w.head?, p c = false) (xs : List UInt8) :
    (xs ++ w).takeWhile p = xs.takeWhile p := by
  induction xs with
  | nil =>
    cases w with
    | nil => rfl
    | cons c w => rw [List.nil_append, List.takeWhile_cons, hw c rfl]; rfl
  | cons x xs ih => rw [List.cons_append, List.takeWhile_cons, List.takeWhile_cons, ih]

theorem isspace_not_isdigit {c : UInt8} (h : isspace c) : isdigit c = false := by
  by_contra hdigit
  rw [Bool.not_eq_false] at hdigit
  rw [isdigit_not_isspace hdigit] at h
  cases h

/-- A numeral ends with a digit. -/
theorem IsNumeral.isdigit_last {p : List UInt8} {c : UInt8} {v : ℤ} (h : IsNumeral (p ++ [c]) v) :
    isdigit c := by
  obtain ⟨ws, sign, ds, heq, -, -, hne, hds, -⟩ := h
  obtain rfl | ⟨ds, d, rfl⟩ := List.eq_nil_or_concat ds
  · exact absurd rfl hne
  · rw [List.concat_eq_append, ← List.append_assoc, ← List.append_assoc] at heq
    obtain rfl := (List.append_singleton_inj.1 heq).2
    exact hds c (by simp)

/-- It does not reach into the white space behind a text. -/
theorem IsNumeral.prefix_of_spaces {bs w p : List UInt8} {v : ℤ} (hv : IsNumeral p v)
    (hw : ∀ c ∈ w, isspace c) (hp : p <+: bs ++ w) : p <+: bs := by
  induction w using List.reverseRecOn with
  | nil => rwa [List.append_nil] at hp
  | append_singleton w c ih =>
    rw [← List.append_assoc] at hp
    rcases List.prefix_concat_iff.1 hp with rfl | hp
    · have hspace : isspace c := hw c (by simp)
      rw [isdigit_not_isspace hv.isdigit_last] at hspace
      cases hspace
    · exact ih (fun c' hc' => hw c' (by simp [hc'])) hp

/-- **White space at the end** is neither a numeral nor part of one. -/
theorem scan_append_spaces {bs w : List UInt8} (hw : ∀ c ∈ w, isspace c) :
    scan (bs ++ w) = scan bs := by
  have hhead : ∀ c ∈ w.head?, isdigit c = false := fun c hc =>
    isspace_not_isdigit (hw c (List.mem_of_mem_head? hc))
  cases hscan : scan bs with
  | some r =>
    obtain ⟨n, v⟩ := r
    obtain ⟨p, r, rfl, -, ws, sign, ds, rfl, hws, hsign, hne, hds, -⟩ := scan_sound hscan
    rw [scan_append r hws hsign hne hds] at hscan
    rw [List.append_assoc, scan_append (r ++ w) hws hsign hne hds, takeWhile_append_of_head hhead,
      hscan]
  | none =>
    cases hscan' : scan (bs ++ w) with
    | none => rfl
    | some r =>
      obtain ⟨n, v⟩ := r
      obtain ⟨p, r, hp, -, hv⟩ := scan_sound hscan'
      -- the numeral is one at the beginning of `bs` already
      obtain ⟨n', v', hscan'', -⟩ := scan_longest (hv.prefix_of_spaces hw ⟨r, hp.symm⟩) hv
      cases hscan.symm.trans hscan''

theorem scan_of_trimOf {s t : CString} (h : TrimOf s t) : scan t.bytes = scan s.bytes := by
  obtain ⟨w, hw, hspace, -⟩ := h
  rw [hw, scan_append_spaces hspace]

theorem strtoll_of_trimOf {s t : CString} (h : TrimOf s t) : strtoll t = strtoll s := by
  rw [strtoll, scan_of_trimOf h, strtoll]

/-! ## Parsing in place -/

/-- The memory begins with one string at most. -/
theorem image_prefix_unique {s t : CString} {m : List UInt8} (hs : s.image <+: m)
    (ht : t.image <+: m) : s = t := by
  have hcells : ∀ u : CString, u.image <+: m → IsString (m.map some) u := by
    rintro u ⟨r, rfl⟩
    exact (Buffer.Holds.map_some (u.image ++ r)).left
  exact (hcells s hs).unique (hcells t ht)

/-- **Removing the white space at the end** of a string leaves one string in its place, for which
every parser returns what it returned for the string, and stores the same at `ok`. -/
theorem parse_after_trim {s : CString} {m : List UInt8} (h : xcp_str_trim_end s = .ok m) :
    ∃ t : CString, t.image <+: m ∧ (∀ t' : CString, t'.image <+: m → t' = t) ∧ ∀ ok,
      xcp_str_to_int t ok = xcp_str_to_int s ok ∧
        (∀ long, xcp_str_to_long long t ok = xcp_str_to_long long s ok) ∧
        xcp_str_to_longlong t ok = xcp_str_to_longlong s ok := by
  have htrim : TrimOf s (trimmed s) := trimOf_trimmed s
  have hm : m = s.image.set (trimmed s).strlen NUL := by
    rw [trim_end_eq htrim] at h
    split at h
    · exact (Except.ok.inj h).symm
    · cases h
  have hprefix : (trimmed s).image <+: m := hm ▸ htrim.image_prefix
  have hlonglong : ∀ ok, xcp_str_to_longlong (trimmed s) ok = xcp_str_to_longlong s ok := by
    intro ok
    rw [xcp_str_to_longlong, strtoll_of_trimOf htrim, xcp_str_to_longlong]
  have hto : ∀ T ok, xcp_str_to T (trimmed s) ok = xcp_str_to T s ok := by
    intro T ok
    rw [xcp_str_to, hlonglong, xcp_str_to]
  exact ⟨trimmed s, hprefix, fun t' ht' => image_prefix_unique ht' hprefix, fun ok =>
    ⟨hto .int ok, fun long => hto long ok, hlonglong ok⟩⟩

/-- The line `"42\n"`. -/
def line42 : CString := ⟨[52, 50, 10], by decide, by decide⟩

theorem parse_after_trim_line42 : ∃ t : CString, t.image <+: [52, 50, 0, 0] ∧
    (∀ t' : CString, t'.image <+: [52, 50, 0, 0] → t' = t) ∧ ∀ ok,
      xcp_str_to_int t ok = xcp_str_to_int line42 ok ∧
        (∀ long, xcp_str_to_long long t ok = xcp_str_to_long long line42 ok) ∧
        xcp_str_to_longlong t ok = xcp_str_to_longlong line42 ok :=
  @parse_after_trim line42 _ (by decide +kernel)

/-! ## Printed numbers -/

/-- What `%d` and `%lld` print for `v`. -/
def printed (v : ℤ) : List UInt8 := (if v < 0 then [MINUS] else []) ++ numeral 10 v.natAbs

theorem decimal_concat (ds : List UInt8) (d : UInt8) :
    decimal (ds ++ [d]) = 10 * decimal ds + (d.toNat - 48) := by
  rw [decimal, List.map_append, List.reverse_append]
  change Nat.ofDigits 10 ((d.toNat - 48) :: _) = _
  rw [Nat.ofDigits_cons, Nat.add_comm]
  rfl

theorem digit_spec {d : ℕ} (hd : d < 10) :
    isdigit (UInt8.ofNat (Nat.digitChar d).toNat) ∧
      (UInt8.ofNat (Nat.digitChar d).toNat).toNat - 48 = d := by
  have hall : ∀ d < 10, isdigit (UInt8.ofNat (Nat.digitChar d).toNat) ∧
      (UInt8.ofNat (Nat.digitChar d).toNat).toNat - 48 = d := by decide
  exact hall d hd

/-- A numeral in base 10 consists of decimal digits, which denote its number. -/
theorem numeral_spec (n : ℕ) : numeral 10 n ≠ [] ∧ (∀ c ∈ numeral 10 n, isdigit c) ∧
    decimal (numeral 10 n) = n := by
  induction n using Nat.strongRecOn with
  | ind n ih =>
    rcases Nat.lt_or_ge n 10 with hlt | hge
    · obtain ⟨hdigit, hvalue⟩ := digit_spec hlt
      rw [numeral_of_lt (by decide) hlt]
      refine ⟨List.cons_ne_nil _ _, fun c hc => List.mem_singleton.1 hc ▸ hdigit, ?_⟩
      have hone := decimal_concat [] (UInt8.ofNat (Nat.digitChar n).toNat)
      rw [hvalue] at hone
      exact hone.trans (Nat.zero_add n)
    · obtain ⟨-, hdigits, hvalue⟩ := ih (n / 10) (by omega)
      obtain ⟨hdigit, hlast⟩ := digit_spec (Nat.mod_lt n (by decide : 10 > 0))
      rw [numeral_of_le (by decide) hge]
      refine ⟨by simp, fun c hc => ?_, ?_⟩
      · rcases List.mem_append.1 hc with hc | hc
        · exact hdigits c hc
        · exact List.mem_singleton.1 hc ▸ hdigit
      · rw [decimal_concat, hvalue, hlast, Nat.div_add_mod]

/-- White space in front belongs to a printed number. -/
theorem isNumeral_printed {ws : List UInt8} (hws : ∀ c ∈ ws, isspace c) (v : ℤ) :
    IsNumeral (ws ++ printed v) v := by
  obtain ⟨hne, hdigits, hvalue⟩ := numeral_spec v.natAbs
  refine ⟨ws, if v < 0 then [MINUS] else [], numeral 10 v.natAbs, rfl, hws, ?_, hne, hdigits, ?_⟩
  · split
    · exact Or.inr (Or.inr rfl)
    · exact Or.inl rfl
  · rw [signed, hvalue]
    by_cases hv : v < 0
    · rw [if_pos hv, if_pos rfl]
      omega
    · rw [if_neg hv, if_neg (by decide)]
      omega

/-- What a parser for `T` returns for the number `v`. -/
def Reads (T : IntType) (v : ℤ) (r : ℤ × Option Bool) : Prop :=
  r.2 = some (decide (T.Has v)) ∧ (T.Has v → r.1 = v)

theorem Parses.reads {T : IntType} {t : CString} {v : ℤ} {r : ℤ × Option Bool} {b : Bool}
    (h : Parses T t r) (hr : r.2 = some b) (hv : Denotes t v) : Reads T v r := by
  obtain ⟨hok, hvalue⟩ := h
  rw [hr, Option.some.injEq] at hok
  refine ⟨?_, fun hT => hvalue v hv hT⟩
  have hiff : b = true ↔ T.Has v := by
    constructor
    · intro hb
      obtain ⟨w, hw, hT⟩ := hok.1 hb
      exact hw.unique hv ▸ hT
    · exact fun hT => hok.2 ⟨v, hv, hT⟩
  rw [hr, Option.some.injEq, Bool.eq_iff_iff, hiff, decide_eq_true_iff]

/-- A string that is a numeral denotes its number. -/
theorem IsNumeral.denotes {t : CString} {v : ℤ} (h : IsNumeral t.bytes v) : Denotes t v :=
  ⟨t.bytes, List.prefix_rfl, h, fun _ _ hp _ => hp.length_le⟩

/-- A numeral with white space behind it is left by the removal, which is sound. -/
theorem IsNumeral.trim {s : CString} {p w : List UInt8} {v : ℤ} (hv : IsNumeral p v)
    (hs : s.bytes = p ++ w) (hw : ∀ c ∈ w, isspace c) :
    (trimmed s).bytes = p ∧ LastPlain p := by
  obtain rfl | ⟨p, c, rfl⟩ := List.eq_nil_or_concat p
  · obtain ⟨ws, sign, ds, heq, -, -, hne, -⟩ := hv
    simp [hne] at heq
  · rw [List.concat_eq_append] at hv hs ⊢
    have hdigit := hv.isdigit_last
    refine ⟨?_, fun d hd => ?_⟩
    · change s.bytes.rdropWhile isspace = p ++ [c]
      rw [hs, rdropWhile_append_spaces hw, List.rdropWhile_concat_neg]
      rw [isdigit_not_isspace hdigit]
      exact Bool.false_ne_true
    · obtain rfl : c = d := by simpa using hd
      simp only [isdigit, Bool.and_eq_true, decide_eq_true_eq] at hdigit
      exact Or.inl (UInt8.lt_of_le_of_lt hdigit.2 (by decide))

/-- **A number that has been printed** on a line, with white space around it, is read back: removing
the white space behind it is sound and leaves it as the end of the string, and each parser returns
the number, unless it is not one of its type. -/
theorem printed_read_back {long : IntType} (hlong : long.signed = true)
    (hwidth : long.width = 32 ∨ long.width = 64) {s : CString} {v : ℤ} {ws ws' : List UInt8}
    (hs : s.bytes = ws ++ printed v ++ ws') (hws : ∀ c ∈ ws, isspace c)
    (hws' : ∀ c ∈ ws', isspace c) :
    ∃ m, ∃ t : CString, xcp_str_trim_end s = .ok m ∧ t.image <+: m ∧ t.bytes = ws ++ printed v ∧
      ∀ b, Reads .int v (xcp_str_to_int t (some b)) ∧
        Reads long v (xcp_str_to_long long t (some b)) ∧
        Reads longlong v (xcp_str_to_longlong t (some b)) := by
  have hnumeral := isNumeral_printed hws v
  obtain ⟨hbytes, hplain⟩ := hnumeral.trim hs hws'
  have htrim : TrimOf s (trimmed s) := trimOf_trimmed s
  have hcall := trim_end_eq htrim
  rw [if_pos (hbytes ▸ hplain)] at hcall
  refine ⟨_, trimmed s, hcall, htrim.image_prefix, hbytes, fun b => ?_⟩
  have hv : Denotes (trimmed s) v := (hbytes ▸ hnumeral : IsNumeral _ v).denotes
  exact ⟨(str_to_parses rfl (by decide) _ b).reads rfl hv,
    (str_to_parses hlong (by omega) _ b).reads rfl hv, (str_to_longlong_parses _ b).reads rfl hv⟩

theorem printed_read_back_line42 : ∃ m, ∃ t : CString, xcp_str_trim_end line42 = .ok m ∧
    t.image <+: m ∧ t.bytes = [] ++ printed 42 ∧
      ∀ b, Reads .int 42 (xcp_str_to_int t (some b)) ∧
        Reads longlong 42 (xcp_str_to_long longlong t (some b)) ∧
        Reads longlong 42 (xcp_str_to_longlong t (some b)) := by
  have hnewline : ∀ c ∈ ([10] : List UInt8), isspace c := List.forall_mem_singleton.2 rfl
  exact @printed_read_back longlong rfl (by decide) line42 42 [] [10] (by decide)
    (List.forall_mem_nil _) hnewline

end XcpNgGeneric.Text
