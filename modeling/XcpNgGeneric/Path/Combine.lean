import Mathlib.Data.List.DropRight
import XcpNgGeneric.Path.ParentDir

/-!
# Combining pathnames

What `xcp_path_combine` writes into its buffer, and how it goes together with itself and with
`xcp_path_parent_dir`.

## Main results

* `combine_eq`: the buffer is filled with the combined pathname and its terminator.
* `combine_assoc`: combining is associative.
* `parent_combine`: the directory of a combined pathname.
-/

namespace XcpNgGeneric.Path

open Memory Words

/-- What is put between a pathname and a subpath. -/
def separator (p : List UInt8) : List UInt8 := if p.getLast? = some SLASH then [] else [SLASH]

/-- The combined pathname. -/
def join (p s : List UInt8) : List UInt8 :=
  if p = [] ∨ s.head? = some SLASH then s else p ++ separator p ++ s

theorem join_nil (s : List UInt8) : join [] s = s := if_pos (Or.inl rfl)

theorem join_abs (p : List UInt8) {s : List UInt8} (hs : s.head? = some SLASH) : join p s = s :=
  if_pos (Or.inr hs)

theorem join_rel {p s : List UInt8} (hp : p ≠ []) (hs : s.head? ≠ some SLASH) :
    join p s = p ++ separator p ++ s :=
  if_neg (not_or.2 ⟨hp, hs⟩)

theorem separator_append (p : List UInt8) {s : List UInt8} (hs : s ≠ []) :
    separator (p ++ s) = separator s := by
  rw [separator, separator, List.getLast?_append_of_ne_nil _ hs]

/-- A pathname that ends with a separator needs no other. -/
theorem separator_separator (p : List UInt8) : separator (p ++ separator p) = [] := by
  by_cases hp : p.getLast? = some SLASH
  · simp [separator, hp]
  · simp [separator, hp]

theorem head?_join {p : List UInt8} (hp : p ≠ []) {s : List UInt8} (hs : s.head? ≠ some SLASH) :
    (join p s).head? = p.head? := by
  rw [join_rel hp hs, List.append_assoc, List.head?_append_of_ne_nil _ hp]

theorem join_assoc (a b c : List UInt8) : join (join a b) c = join a (join b c) := by
  by_cases hc : c.head? = some SLASH
  · rw [join_abs _ hc, join_abs _ hc, join_abs _ hc]
  by_cases ha : a = []
  · rw [ha, join_nil, join_nil]
  by_cases hb : b.head? = some SLASH
  · have hne : b ≠ [] := by
      rintro rfl
      cases hb
    rw [join_abs _ hb, join_abs a ((head?_join hne hc).trans hb)]
  have hne : a ++ separator a ++ b ≠ [] := by simp [ha]
  rw [join_rel ha hb, join_rel hne hc]
  by_cases hnil : b = []
  · rw [hnil, join_nil, join_rel ha hc, List.append_nil, separator_separator, List.append_nil]
  · rw [separator_append _ hnil, join_rel ha (by rwa [head?_join hnil hc]), join_rel hnil hc]
    simp

/-! ## The buffer -/

theorem get_zero_eq_nul (s : CString) : s.get 0 = NUL ↔ s.bytes = [] := by
  rw [CString.get_eq_nul (Nat.zero_le _), CString.strlen, eq_comm, List.length_eq_zero_iff]

/-- The bytes that `xcp_path_combine` allocates: those of both strings, of the terminator and of the
separator if there is one, or those of a copy. -/
def allocated (pathname subpath : CString) : ℕ :=
  if pathname.get 0 = NUL ∨ xcp_path_is_abs subpath then subpath.strlen + 1
  else pathname.strlen + subpath.strlen + 1 +
    (pathname.get (pathname.strlen - 1) != SLASH).toNat

/-- The condition of the first branch. -/
theorem early_iff (p s : CString) : (p.get 0 = NUL ∨ xcp_path_is_abs s = true) ↔
    (p.bytes = [] ∨ s.bytes.head? = some SLASH) := by
  rw [get_zero_eq_nul, is_abs_iff_head?]

/-- `addSeparator`. -/
theorem separator_eq {p : CString} (hp : p.bytes ≠ []) :
    separator p.bytes = if p.get (p.strlen - 1) != SLASH then [SLASH] else [] := by
  have hpos : 0 < p.strlen := List.length_pos_iff.2 hp
  have hlast : p.bytes.getLast? = some (p.get (p.strlen - 1)) := by
    rw [List.getLast?_eq_getElem?]
    exact CString.get_of_lt (Nat.sub_lt hpos Nat.one_pos)
  by_cases h : p.get (p.strlen - 1) = SLASH <;> simp [separator, hlast, h]

theorem length_join (p s : CString) : (join p.bytes s.bytes).length + 1 = allocated p s := by
  by_cases h : p.get 0 = NUL ∨ xcp_path_is_abs s = true
  · rw [allocated, if_pos h, join, if_pos ((early_iff p s).1 h), CString.strlen]
  · have hrel := (early_iff p s).not.1 h
    rw [allocated, if_neg h, join, if_neg hrel, separator_eq (not_or.1 hrel).1]
    cases p.get (p.strlen - 1) != SLASH with
    | false =>
      simp only [Bool.false_eq_true, if_false, List.append_nil, List.length_append,
        Bool.toNat_false, CString.strlen, Nat.add_zero]
    | true =>
      simp only [if_true, List.length_append, List.length_singleton, Bool.toNat_true,
        CString.strlen]
      omega

theorem join_nul_free (p s : CString) : NUL ∉ join p.bytes s.bytes := by
  have hp := p.nul_free
  have hs := s.nul_free
  unfold join separator
  split
  · exact hs
  · split <;> simp_all [NUL, SLASH]

theorem combine_early (mem : Bool) {p s : CString}
    (h : p.get 0 = NUL ∨ xcp_path_is_abs s = true) : xcp_path_combine mem p s =
    .ok (if mem ∧ allocated p s ≤ PTRDIFF_MAX then
      some ((join p.bytes s.bytes ++ [NUL]).map some) else none) := by
  have hfits : allocated p s ≤ PTRDIFF_MAX := by
    rw [allocated, if_pos h]
    exact s.fits
  rw [xcp_path_combine, if_pos h, join, if_pos ((early_iff p s).1 h)]
  cases mem with
  | false => rfl
  | true =>
    rw [strdup_ok, if_pos ⟨rfl, hfits⟩]
    rfl

/-- The size of the buffer does not overflow. -/
theorem size_eq {p s : CString} (h : ¬(p.get 0 = NUL ∨ xcp_path_is_abs s = true)) :
    sizeT (p.strlen + s.strlen + 1 + (p.get (p.strlen - 1) != SLASH).toNat) = allocated p s := by
  have hp := p.fits
  have hs := s.fits
  have hbool : (p.get (p.strlen - 1) != SLASH).toNat ≤ 1 := Bool.toNat_le _
  rw [allocated, if_neg h, sizeT, Nat.mod_eq_of_lt]
  simp only [PTRDIFF_MAX, CString.strlen] at *
  omega

/-- The parts of the combined pathname are written one after the other. -/
theorem combine_parts {p s : CString} (h : ¬(p.get 0 = NUL ∨ xcp_path_is_abs s = true))
    (hfits : allocated p s ≤ PTRDIFF_MAX) : xcp_path_combine true p s =
    .ok (some ((join p.bytes s.bytes ++ [NUL]).map some)) := by
  have hrel := (early_iff p s).not.1 h
  have himage : p.image.take p.strlen = p.bytes := by
    rw [CString.image, CString.strlen, List.take_left]
  have himage' : s.image.take (s.strlen + 1) = s.bytes ++ [NUL] := by
    rw [← CString.length_image, List.take_length, CString.image]
  -- one store of the whole is split into those of the parts
  have hfull := store_fresh (join p.bytes s.bytes ++ [NUL])
  rw [List.length_append, List.length_singleton, length_join, join, if_neg hrel,
    separator_eq (not_or.1 hrel).1] at hfull
  rw [xcp_path_combine, if_neg h]
  simp only [size_eq h]
  rw [malloc_ok hfits, himage, himage', join, if_neg hrel, separator_eq (not_or.1 hrel).1]
  cases hsep : p.get (p.strlen - 1) != SLASH with
  | false =>
    rw [hsep] at hfull
    simp only [Bool.false_eq_true, if_false, List.append_nil, List.append_assoc] at hfull ⊢
    rw [← store_store, Nat.zero_add] at hfull
    obtain ⟨res, hpathname, hsubpath⟩ := bind_ok hfull
    simp only [hpathname, pure_bind, ok_bind, CString.strlen, Bool.toNat_false, Nat.add_zero,
      hsubpath]
    rfl
  | true =>
    rw [hsep] at hfull
    simp only [if_true, List.append_assoc] at hfull ⊢
    rw [← List.append_assoc, ← store_store, ← store_store, Nat.zero_add, Nat.zero_add] at hfull
    obtain ⟨res, hboth, hsubpath⟩ := bind_ok hfull
    obtain ⟨res', hpathname, hseparator⟩ := bind_ok hboth
    rw [List.length_append, List.length_singleton] at hsubpath
    simp only [hpathname, ok_bind, CString.strlen, Bool.toNat_true, hseparator, hsubpath,
      List.append_assoc]
    rfl

/-- **Combining.** The buffer has the size that `allocated` says, and all of its bytes are written:
those of the combined pathname and one terminator after them. -/
theorem combine_eq (mem : Bool) (p s : CString) : xcp_path_combine mem p s =
    .ok (if mem ∧ allocated p s ≤ PTRDIFF_MAX then
      some ((join p.bytes s.bytes ++ [NUL]).map some) else none) := by
  by_cases h : p.get 0 = NUL ∨ xcp_path_is_abs s = true
  · exact combine_early mem h
  by_cases hmem : mem = true ∧ allocated p s ≤ PTRDIFF_MAX
  · obtain ⟨rfl, hfits⟩ := hmem
    rw [combine_parts h hfits, if_pos ⟨rfl, hfits⟩]
  · have hnone : malloc mem (allocated p s) = none := by
      rw [malloc, if_neg (by simpa using hmem)]
    rw [xcp_path_combine, if_neg h, if_neg hmem]
    simp only [size_eq h, hnone]

/-- The combined pathname, as what the function returns. -/
theorem combine_yields_iff {p s t : CString} :
    Yields (xcp_path_combine true p s) t ↔ t.bytes = join p.bytes s.bytes := by
  have hlength := length_join p s
  have ht := t.fits
  constructor
  · rintro ⟨b, hb, hstring⟩
    rw [combine_eq] at hb
    split at hb <;> cases hb
    next hfits =>
      have hjoin : (join p.bytes s.bytes).length < PTRDIFF_MAX := by omega
      exact congrArg CString.bytes
        (hstring.unique (isString_map ⟨join p.bytes s.bytes, join_nul_free p s, hjoin⟩))
  · intro hbytes
    refine ⟨t.image.map some, ?_, isString_map t⟩
    rw [combine_eq, if_pos ⟨rfl, by rw [← hlength, ← hbytes]; exact ht⟩, CString.image, hbytes]

/-- Combining succeeds where there is memory for the result. -/
theorem combine_yields {p s : CString} (h : allocated p s ≤ PTRDIFF_MAX) :
    ∃ t, Yields (xcp_path_combine true p s) t ∧ t.bytes = join p.bytes s.bytes := by
  have hlength := length_join p s
  let t : CString := ⟨join p.bytes s.bytes, join_nul_free p s, by omega⟩
  exact ⟨t, combine_yields_iff.2 rfl, rfl⟩

/-- **Combining is associative**, and every combined pathname is written within its buffer: the
buffer has the size `allocated`, its last byte is the terminator, and it has no other. There is no
result if and only if the allocation fails or no object can be that large. -/
theorem combine_assoc {a b c ab bc l r : CString} (hab : Yields (xcp_path_combine true a b) ab)
    (hl : Yields (xcp_path_combine true ab c) l) (hbc : Yields (xcp_path_combine true b c) bc)
    (hr : Yields (xcp_path_combine true a bc) r) : l = r ∧
      ∀ mem p s, (¬(mem = true ∧ allocated p s ≤ PTRDIFF_MAX) ∧
          xcp_path_combine mem p s = .ok none) ∨
        ((mem = true ∧ allocated p s ≤ PTRDIFF_MAX) ∧
          ∃ t : CString, xcp_path_combine mem p s = .ok (some (t.image.map some)) ∧
            (t.image.map some).length = allocated p s ∧ t.bytes = join p.bytes s.bytes) := by
  rw [combine_yields_iff] at hab hl hbc hr
  constructor
  · apply CString.ext
    rw [hl, hab, hr, hbc]
    exact join_assoc a.bytes b.bytes c.bytes
  · intro mem p s
    have hlength := length_join p s
    by_cases hmem : mem = true ∧ allocated p s ≤ PTRDIFF_MAX
    · refine Or.inr ⟨hmem, ⟨join p.bytes s.bytes, join_nul_free p s, by omega⟩, ?_, ?_, rfl⟩
      · rw [combine_eq, if_pos hmem]
        rfl
      · rw [List.length_map, CString.length_image]
        exact hlength
    · rw [combine_eq, if_neg hmem]
      exact Or.inl ⟨hmem, rfl⟩

/-- A string of a few bytes. -/
def short (bytes : List UInt8) (h : NUL ∉ bytes ∧ bytes.length < PTRDIFF_MAX) : CString :=
  ⟨bytes, h.1, h.2⟩

/-- `a`, the empty pathname and `b`. -/
theorem combine_assoc_short : ∃ ab bc l r : CString,
    Yields (xcp_path_combine true (short [97] (by decide)) (short [] (by decide))) ab ∧
    Yields (xcp_path_combine true ab (short [98] (by decide))) l ∧
    Yields (xcp_path_combine true (short [] (by decide)) (short [98] (by decide))) bc ∧
    Yields (xcp_path_combine true (short [97] (by decide)) bc) r ∧
    ab.bytes = [97, 47] ∧ bc.bytes = [98] ∧ l.bytes = [97, 47, 98] ∧ l = r := by
  obtain ⟨ab, hab, hab'⟩ := combine_yields (p := short [97] (by decide)) (s := short [] (by decide))
    (by decide)
  obtain ⟨bc, hbc, hbc'⟩ := combine_yields (p := short [] (by decide)) (s := short [98] (by decide))
    (by decide)
  obtain ⟨l, hl, hl'⟩ := combine_yields (p := ab) (s := short [98] (by decide)) (by
    rw [← length_join, hab']
    decide)
  obtain ⟨r, hr, -⟩ := combine_yields (p := short [97] (by decide)) (s := bc) (by
    rw [← length_join, hbc']
    decide)
  exact ⟨ab, bc, l, r, hab, hl, hbc, hr, hab', hbc', hl'.trans (by rw [hab']; rfl),
    (combine_assoc hab hl hbc hr).1⟩

/-! ## The directory of a combined pathname -/

/-- The trailing slashes. -/
theorem rdropWhile_seps {xs : List UInt8} (hxs : xs.getLast? ≠ some SLASH) (n : ℕ) :
    (xs ++ seps SLASH n).rdropWhile (· == SLASH) = xs := by
  induction n with
  | zero =>
    rw [seps_zero, List.append_nil, List.rdropWhile_eq_self_iff]
    intro hne hlast
    rw [beq_iff_eq] at hlast
    exact hxs (by rw [List.getLast?_eq_getLast_of_ne_nil hne, hlast])
  | succ n ih => rw [seps_succ, ← List.append_assoc, List.rdropWhile_concat_pos _ _ _ (by simp), ih]

theorem seps_eq_double (n : ℕ) : seps SLASH n = [SLASH, SLASH] ↔ n = 2 := by
  constructor
  · intro h
    simpa using congrArg List.length h
  · rintro rfl
    rfl

/-- A pathname that ends with a component, and what follows it before a subpath. -/
theorem append_separator {u : List UInt8} (hu : u.getLast? ≠ some SLASH) (trail : ℕ) :
    u ++ seps SLASH trail ++ separator (u ++ seps SLASH trail) =
      u ++ seps SLASH (if trail = 0 then 1 else trail) := by
  cases trail with
  | zero => simp [separator, hu, seps]
  | succ trail =>
    have hsep : separator (u ++ seps SLASH (trail + 1)) = [] := by
      rw [seps_succ, ← List.append_assoc, separator, List.getLast?_concat, if_pos rfl]
    rw [hsep, List.append_nil, if_neg (Nat.succ_ne_zero trail)]

section Combined

variable {p s : List UInt8} (hs : s ≠ []) (hfree : SLASH ∉ s)
include hs hfree

/-- A subpath of one component, after slashes. -/
theorem parse_blank_join {n : ℕ} (hp : seps SLASH (n + 1) = p) :
    parse SLASH (p ++ separator p ++ s) = .words (n + 1) [] ⟨s, hs, hfree⟩ 0 := by
  have hlast : p.getLast? = some SLASH := by rw [← hp, seps_succ, List.getLast?_concat]
  apply parse_eq
  rw [separator, if_pos hlast, ← hp]
  simp [Spelling.render, body]

/-- A subpath of one component, after components. -/
theorem parse_words_join {lead trail : ℕ} {before : List (Spaced SLASH)} {last : Word SLASH}
    (hgap : 0 < if trail = 0 then 1 else trail)
    (hp : seps SLASH lead ++ body before ++ last.letters ++ seps SLASH trail = p) :
    parse SLASH (p ++ separator p ++ s) =
      .words lead (⟨last, _, hgap⟩ :: before) ⟨s, hs, hfree⟩ 0 := by
  apply parse_eq
  rw [← hp, append_separator (getLast_body lead before last)]
  simp [Spelling.render, body]

end Combined

/-- **The directory of a combined pathname** is the pathname that was combined, without its trailing
slashes; if it has nothing but slashes, it is `//` if the pathname is, and `/` otherwise. -/
theorem parent_combine {p s q : CString} (hp : p.bytes ≠ []) (hs : s.bytes ≠ [])
    (hfree : SLASH ∉ s.bytes) (hq : Yields (xcp_path_combine true p s) q) : ∃ dir,
      Yields (xcp_path_parent_dir true (some q)) dir ∧
      ((∃ c ∈ p.bytes, c ≠ SLASH) → dir.bytes = p.bytes.rdropWhile (· == SLASH)) ∧
      ((∀ c ∈ p.bytes, c = SLASH) →
        dir.bytes = if p.bytes = [SLASH, SLASH] then [SLASH, SLASH] else [SLASH]) ∧
      (p.bytes.getLast? ≠ some SLASH → dir.bytes = p.bytes) := by
  have hrel : s.bytes.head? ≠ some SLASH := fun h => hfree (List.mem_of_mem_head? h)
  have hbytes : q.bytes = p.bytes ++ separator p.bytes ++ s.bytes := by
    rw [combine_yields_iff.1 hq, join_rel hp hrel]
  obtain ⟨dir, hyields, hdir⟩ := parent_dir_yields q
  refine ⟨dir, hyields, ?_⟩
  have hrender := render_parse SLASH p.bytes
  cases hP : parse SLASH p.bytes with
  | blank n =>
    rw [hP, Spelling.render] at hrender
    obtain ⟨n, rfl⟩ : ∃ k, n = k + 1 := by
      cases n with
      | zero => exact absurd hrender.symm hp
      | succ n => exact ⟨n, rfl⟩
    rw [hdir, hbytes, parse_blank_join hs hfree hrender, parent]
    refine ⟨?_, fun _ => ?_, fun hlast => ?_⟩
    · rintro ⟨c, hc, hne⟩
      rw [← hrender] at hc
      exact absurd (eq_of_mem_seps hc) hne
    · rw [← hrender, root, if_neg (Nat.succ_ne_zero n)]
      simp only [seps_eq_double]
    · rw [← hrender, seps_succ, List.getLast?_concat] at hlast
      exact absurd rfl hlast
  | words lead before last trail =>
    rw [hP, Spelling.render] at hrender
    have hu := getLast_body lead before last
    have hgap : 0 < if trail = 0 then 1 else trail := by
      split <;> omega
    rw [hdir, hbytes, parse_words_join hs hfree hgap hrender, parent, ← hrender]
    refine ⟨fun _ => (rdropWhile_seps hu trail).symm, fun hall => ?_, fun hlast => ?_⟩
    · obtain ⟨c, letters, hletters⟩ := List.exists_cons_of_ne_nil last.ne_nil
      have hc : c = SLASH := hall c (by simp [hletters])
      exact absurd (by simp [hletters, hc]) last.sep_free
    · cases trail with
      | zero => rw [seps_zero, List.append_nil]
      | succ trail =>
        rw [seps_succ, ← List.append_assoc, List.getLast?_concat] at hlast
        exact absurd rfl hlast

theorem parent_combine_short : ∃ dir,
    Yields (xcp_path_parent_dir true (some (short [97, 47, 98] (by decide)))) dir ∧
    ((∃ c ∈ [97, 47], c ≠ SLASH) → dir.bytes = [97, 47].rdropWhile (· == SLASH)) ∧
    ((∀ c ∈ [97, 47], c = SLASH) →
      dir.bytes = if [97, 47] = [SLASH, SLASH] then [SLASH, SLASH] else [SLASH]) ∧
    ([97, 47].getLast? ≠ some SLASH → dir.bytes = [97, 47]) :=
  parent_combine (p := short [97, 47] (by decide)) (s := short [98] (by decide)) (by decide)
    (by decide) (by decide) (combine_yields_iff.2 rfl)

end XcpNgGeneric.Path
