import XcpNgGeneric.Foundations.Words
import XcpNgGeneric.Path.Functions

/-!
# The directory of a pathname

A pathname is a number of leading slashes and components with slashes between them: a
`Words.Spelling` with the slash as its separator. On this view `xcp_path_parent_dir` removes the
last component.

## Main results

* `parent_dir_yields`: what the scans of `xcp_path_parent_dir` find.
* `parent_dir_eq`: the function on every pathname, in terms of its components.
-/

namespace XcpNgGeneric.Path

open Memory Words

abbrev Pathname := Spelling SLASH

/-- What is left of a pathname with `n` leading slashes when it has no component to remove, or only
one. -/
def root (n : ℕ) : List UInt8 :=
  if n = 0 then [DOT] else if n = 2 then [SLASH, SLASH] else [SLASH]

/-- The pathname up to the component before the last one. -/
def parent : Pathname → List UInt8
  | .blank n => root n
  | .words lead [] _ _ => root lead
  | .words lead (x :: before) _ _ => seps SLASH lead ++ body before ++ x.word.letters

/-! ## Scanning -/

theorem get_eq {s : CString} {i : ℕ} {c : UInt8} (h : s.bytes[i]? = some c) : s.get i = c := by
  obtain ⟨hi, -⟩ := List.getElem?_eq_some_iff.1 h
  exact Option.some.inj ((CString.get_of_lt hi).symm.trans h)

theorem is_abs_iff_head? (s : CString) :
    xcp_path_is_abs s = true ↔ s.bytes.head? = some SLASH := by
  rw [xcp_path_is_abs, beq_iff_eq, List.head?_eq_getElem?]
  constructor
  · intro h
    have hlt : 0 < s.strlen := by
      by_contra hzero
      rw [(CString.get_eq_nul (Nat.zero_le _)).2 (by omega)] at h
      cases h
    rw [CString.get_of_lt hlt, h]
  · exact get_eq

/-- The scan stops after `u`, which does not end with a slash. -/
theorem get_first_slash_eq {s : CString} {u v : List UInt8} {n : ℕ}
    (hs : s.bytes = u ++ seps SLASH n ++ v) (hu : u.getLast? ≠ some SLASH) {j : ℕ} (hj : j ≤ n) :
    get_first_slash s (u.length + j) = u.length := by
  induction j with
  | zero =>
    rcases List.eq_nil_or_concat' u with rfl | ⟨v, c, rfl⟩
    · rfl
    · have hc : c ≠ SLASH := by simpa using hu
      have hget : s.get v.length = c := get_eq (by simp [hs])
      rw [Nat.add_zero, List.length_append, List.length_singleton, get_first_slash, hget, if_pos hc]
  | succ j ih =>
    have hget : s.get (u.length + j) = SLASH := by
      apply get_eq
      rw [hs, List.append_assoc, List.getElem?_append_right (by omega), Nat.add_sub_cancel_left,
        List.getElem?_append_left (by rw [length_seps]; omega)]
      exact List.getElem?_replicate_of_lt (by omega)
    rw [← Nat.add_assoc, get_first_slash, hget, if_neg (by simp)]
    exact ih (by omega)

/-- Only slashes: the last one. -/
theorem parentSlash_seps {s : CString} {n : ℕ} (hs : s.bytes = seps SLASH (n + 1)) :
    parentSlash s = some n := by
  have hfind : strrchr s SLASH = some n := by
    rw [strrchr, hs, seps_succ, lastIndex_concat, length_seps]
  have hfirst : get_first_slash s n = 0 := by
    have h := get_first_slash_eq (s := s) (u := []) (v := []) (n := n + 1) (j := n) (by simp [hs])
      (by simp) (by omega)
    simpa using h
  simp [parentSlash, hfind, hfirst]

theorem lastIndex_word (w : List UInt8) (last : Word SLASH) :
    lastIndex SLASH (w ++ last.letters) = lastIndex SLASH w :=
  lastIndex_append w last.sep_free

/-- No slash follows the last component: the last slash is before it. -/
theorem parentSlash_bare {s : CString} {w : List UInt8} {last : Word SLASH}
    (hs : s.bytes = w ++ last.letters) : parentSlash s = lastIndex SLASH w := by
  have hpos : 0 < last.letters.length := List.length_pos_iff.2 last.ne_nil
  have hfind : strrchr s SLASH = lastIndex SLASH w := by rw [strrchr, hs, lastIndex_word]
  rw [parentSlash, hfind]
  cases hw : lastIndex SLASH w with
  | none => rfl
  | some slash =>
    have hlt : slash < w.length := lastIndex_lt hw
    have hstrlen : s.strlen = w.length + last.letters.length := by simp [CString.strlen, hs]
    have hnext : s.get (slash + 1) ≠ NUL := by
      rw [Ne, CString.get_eq_nul (by omega)]
      omega
    simp [hnext]

/-- Slashes follow the last component: the search begins anew before them. -/
theorem parentSlash_trailing {s : CString} {w : List UInt8} {last : Word SLASH} {trail : ℕ}
    (hs : s.bytes = w ++ last.letters ++ seps SLASH (trail + 1)) :
    parentSlash s = lastIndex SLASH w := by
  have hpos : 0 < last.letters.length := List.length_pos_iff.2 last.ne_nil
  have hstrlen : s.strlen = w.length + last.letters.length + (trail + 1) := by
    simp [CString.strlen, hs, Nat.add_assoc]
  have hfind : strrchr s SLASH = some (w.length + last.letters.length + trail) := by
    rw [strrchr, hs, seps_succ, ← List.append_assoc, lastIndex_concat]
    simp [Nat.add_assoc]
  have hnext : s.get (w.length + last.letters.length + trail + 1) = NUL := by
    rw [CString.get_eq_nul (by omega)]
    omega
  have hlast : (w ++ last.letters).getLast? ≠ some SLASH := by
    rw [List.getLast?_append_of_ne_nil _ last.ne_nil]
    intro h
    exact last.sep_free (List.mem_of_getLast? h)
  have hfirst : get_first_slash s (w.length + last.letters.length + trail) =
      w.length + last.letters.length := by
    have h := get_first_slash_eq (s := s) (v := []) (n := trail + 1) (j := trail)
      (by simp [hs]) hlast (by omega)
    simpa using h
  have htake : s.bytes.take (w.length + last.letters.length) = w ++ last.letters := by
    rw [hs, ← List.length_append, List.take_left]
  have hne : w.length + last.letters.length + trail ≠ 0 := by omega
  have hne' : w.length + last.letters.length ≠ 0 := by omega
  simp only [parentSlash, hfind, hfirst, hnext, memrchr, htake, lastIndex_word]
  rw [if_pos ⟨hne, trivial⟩, if_pos hne']

/-- The last slash before the last component, whether or not slashes follow it. -/
theorem parentSlash_words {s : CString} {w : List UInt8} {last : Word SLASH} {trail : ℕ}
    (hs : s.bytes = w ++ last.letters ++ seps SLASH trail) :
    parentSlash s = lastIndex SLASH w := by
  cases trail with
  | zero =>
    rw [seps_zero, List.append_nil] at hs
    exact parentSlash_bare hs
  | succ trail => exact parentSlash_trailing hs

/-- The directory ends where the slashes before the last component begin, unless the pathname begins
with them. -/
theorem dirLen_eq {s : CString} {u rest : List UInt8} {n : ℕ}
    (hs : s.bytes = u ++ seps SLASH (n + 1) ++ rest) (hu : u.getLast? ≠ some SLASH) :
    dirLen s (u.length + n) = if u = [] then (if n = 1 then 2 else 1) else u.length := by
  have hfirst := get_first_slash_eq hs hu (j := n) (by omega)
  rw [dirLen, hfirst]
  cases u with
  | nil => by_cases h : n = 1 <;> simp [h]
  | cons c u => simp

/-! ## Copying -/

theorem copyDir_ok {s : CString} {len : ℕ} (hlen : len ≤ s.strlen) :
    Yields (copyDir true s len) (s.take len) := by
  have hlen' : len ≤ s.bytes.length := hlen
  have htake : (s.take (len + 1)).image.take len = s.bytes.take len := by
    rw [CString.image, CString.take,
      List.take_append_of_le_length (by rw [List.length_take]; omega), List.take_take,
      Nat.min_eq_left (by omega)]
  have hcopy : Buffer.Holds ((s.take (len + 1)).image.map some) 0 (s.bytes.take len) := by
    have h := Buffer.Holds.map_some (s.take (len + 1)).image
    nth_rewrite 2 [← List.take_append_drop len (s.take (len + 1)).image] at h
    rw [htake] at h
    exact h.left
  obtain ⟨b, hstore, hwrite⟩ := store_ok ((s.take (len + 1)).image.map some) len
    [NUL] (by
      rw [List.length_map, CString.length_image, List.length_singleton]
      simp only [CString.strlen, CString.take, List.length_take]
      omega)
  refine ⟨b, ?_, ?_⟩
  · rw [copyDir, strndup_ok]
    show (do let dir ← store _ len [NUL]; pure (some dir)) = _
    rw [hstore]
    rfl
  · apply (hcopy.write hwrite (Or.inl _)).append
    · rw [List.length_take, Nat.min_eq_left hlen', Nat.zero_add]
      exact .of_write hwrite
    · rw [List.length_take]
      omega

/-- The default path. -/
def dot : CString := ⟨[DOT], by decide, by decide⟩

theorem defaultDir_ok : Yields (defaultDir true) dot := by
  refine ⟨[some DOT, some NUL], rfl, ?_⟩
  exact isString_map dot

/-! ## The function -/

/-- The words before a component do not end with a slash. -/
theorem getLast_body (lead : ℕ) (before : List (Spaced SLASH)) (w : Word SLASH) :
    (seps SLASH lead ++ body before ++ w.letters).getLast? ≠ some SLASH := by
  rw [List.getLast?_append_of_ne_nil _ w.ne_nil]
  intro h
  exact w.sep_free (List.mem_of_getLast? h)

/-- The slashes that a directory ends with, and what it is cut to. -/
theorem take_dirLen {s : CString} {u rest : List UInt8} {n : ℕ}
    (hs : s.bytes = u ++ seps SLASH (n + 1) ++ rest) (hu : u.getLast? ≠ some SLASH) :
    dirLen s (u.length + n) ≤ s.strlen ∧ s.bytes.take (dirLen s (u.length + n)) =
      if u = [] then root (n + 1) else u := by
  have hstrlen : s.strlen = u.length + (n + 1) + rest.length := by
    simp only [CString.strlen, hs, List.length_append, length_seps]
  rw [dirLen_eq hs hu]
  by_cases hnil : u = []
  · subst hnil
    rw [if_pos rfl, if_pos rfl]
    by_cases hn : n = 1
    · subst hn
      exact ⟨by rw [if_pos rfl]; omega, by rw [hs]; rfl⟩
    · rw [if_neg hn]
      refine ⟨by omega, ?_⟩
      rw [hs, root, if_neg (by omega), if_neg (by omega)]
      rfl
  · rw [if_neg hnil, if_neg hnil]
    refine ⟨by omega, ?_⟩
    rw [hs, List.append_assoc, List.take_left]

/-- **The directory** that `xcp_path_parent_dir` returns, if there is memory for it. -/
theorem parent_dir_yields (s : CString) : ∃ dir,
    Yields (xcp_path_parent_dir true (some s)) dir ∧ dir.bytes = parent (parse SLASH s.bytes) := by
  have hdot (hfind : parentSlash s = none) : Yields (xcp_path_parent_dir true (some s)) dot := by
    rw [xcp_path_parent_dir, hfind]
    exact defaultDir_ok
  have hcut {u rest : List UInt8} {n : ℕ} (hs : s.bytes = u ++ seps SLASH (n + 1) ++ rest)
      (hu : u.getLast? ≠ some SLASH) (hfind : parentSlash s = some (u.length + n)) : ∃ dir,
      Yields (xcp_path_parent_dir true (some s)) dir ∧
        dir.bytes = if u = [] then root (n + 1) else u := by
    obtain ⟨hle, htake⟩ := take_dirLen hs hu
    refine ⟨s.take (dirLen s (u.length + n)), ?_, htake⟩
    rw [xcp_path_parent_dir, hfind]
    exact copyDir_ok hle
  have hbytes := render_parse SLASH s.bytes
  cases hP : parse SLASH s.bytes with
  | blank n =>
    rw [hP, Spelling.render] at hbytes
    cases n with
    | zero => exact ⟨dot, hdot (by rw [parentSlash, strrchr, ← hbytes]; rfl), rfl⟩
    | succ n =>
      have hfind := parentSlash_seps hbytes.symm
      have hs : s.bytes = [] ++ seps SLASH (n + 1) ++ [] := by rw [← hbytes]; simp
      obtain ⟨dir, hyields, hdir⟩ := hcut hs (by simp) (by simpa using hfind)
      exact ⟨dir, hyields, hdir⟩
  | words lead before last trail =>
    rw [hP, Spelling.render] at hbytes
    have hfind := parentSlash_words hbytes.symm
    cases before with
    | nil =>
      cases lead with
      | zero => exact ⟨dot, hdot hfind, rfl⟩
      | succ n =>
        have hs : s.bytes = [] ++ seps SLASH (n + 1) ++ (last.letters ++ seps SLASH trail) := by
          rw [← hbytes]
          simp [body]
        obtain ⟨dir, hyields, hdir⟩ := hcut hs (by simp) (by
          rw [hfind, body, List.append_nil, seps_succ, lastIndex_concat, length_seps]
          simp)
        exact ⟨dir, hyields, hdir⟩
    | cons x before =>
      obtain ⟨word, gap, hgap⟩ := x
      obtain ⟨n, rfl⟩ : ∃ k, gap = k + 1 := ⟨gap - 1, by omega⟩
      have hs : s.bytes = (seps SLASH lead ++ body before ++ word.letters) ++ seps SLASH (n + 1) ++
          (last.letters ++ seps SLASH trail) := by
        rw [← hbytes]
        simp [body]
      obtain ⟨dir, hyields, hdir⟩ := hcut hs (getLast_body lead before word) (by
        rw [hfind, body, seps_succ, ← List.append_assoc, ← List.append_assoc, ← List.append_assoc,
          lastIndex_concat]
        simp [Nat.add_assoc])
      refine ⟨dir, hyields, ?_⟩
      rw [hdir, if_neg (by simp [word.ne_nil])]
      rfl

/-- **`xcp_path_parent_dir` removes the last component.** Every pathname has one decomposition, and
the directory is the pathname up to the component before the last one, or what `root` leaves. -/
theorem parent_dir_eq (pathname : CString) : ∃ P : Pathname, P.render = pathname.bytes ∧
    (∀ Q : Pathname, Q.render = pathname.bytes → Q = P) ∧
    ∃ dir, Yields (xcp_path_parent_dir true (some pathname)) dir ∧ dir.bytes = parent P := by
  refine ⟨parse SLASH pathname.bytes, render_parse _ _, ?_, parent_dir_yields pathname⟩
  intro Q hQ
  exact (parse_eq hQ).symm

end XcpNgGeneric.Path
