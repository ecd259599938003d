import Mathlib.Logic.Function.Iterate
import Mathlib.Tactic.Choose
import XcpNgGeneric.Path.ParentDir

/-!
# Walking up a pathname

What repeated calls of `xcp_path_parent_dir` return, the result of one being the argument of the
next. On the components of the pathname one call is `up`, and `up` comes to rest at a root.

## Main results

* `parse_dir`: `xcp_path_parent_dir` on the components.
* `up_iterate_words`: the components that are left after some calls.
* `walk_up`: where the calls end, and what they return on the way.
-/

namespace XcpNgGeneric.Path

open Memory Words

/-! ## One call -/

/-- The pathname `.`. -/
def dotWord : Word SLASH := Word.single DOT (by decide)

/-- The pathname that `root n` is. -/
def rootName (n : ℕ) : Pathname :=
  if n = 0 then .words 0 [] dotWord 0 else if n = 2 then .blank 2 else .blank 1

/-- The pathname without its last component. -/
def up : Pathname → Pathname
  | .blank n => rootName n
  | .words lead [] _ _ => rootName lead
  | .words lead (x :: before) _ _ => .words lead before x.word 0

theorem render_rootName (n : ℕ) : (rootName n).render = root n := by
  unfold rootName root
  split
  · rfl
  split <;> rfl

theorem render_up (P : Pathname) : (up P).render = parent P := by
  cases P with
  | blank n => exact render_rootName n
  | words lead before last trail =>
    cases before with
    | nil => exact render_rootName lead
    | cons x before => simp [up, parent, Spelling.render]

theorem parse_dir {s dir : CString} (h : Yields (xcp_path_parent_dir true (some s)) dir) :
    parse SLASH dir.bytes = up (parse SLASH s.bytes) := by
  obtain ⟨dir', h', hdir⟩ := parent_dir_yields s
  obtain rfl := h.unique h'
  exact parse_eq ((render_up _).trans hdir.symm)

/-! ## Roots -/

theorem up_rootName (n : ℕ) : up (rootName n) = rootName n := by
  unfold rootName
  split
  · rfl
  split <;> rfl

theorem lead_rootName (n : ℕ) : 0 < (rootName n).lead ↔ 0 < n := by
  unfold rootName
  split
  next hn => simp [Spelling.lead, hn]
  next hn =>
    split <;> simp only [Spelling.lead] <;> omega

theorem lead_up (P : Pathname) : 0 < (up P).lead ↔ 0 < P.lead := by
  cases P with
  | blank n => exact lead_rootName n
  | words lead before last trail =>
    cases before with
    | nil => exact lead_rootName lead
    | cons x before => exact Iff.rfl

theorem lead_iterate (P : Pathname) (i : ℕ) : 0 < (up^[i] P).lead ↔ 0 < P.lead := by
  induction i with
  | zero => exact Iff.rfl
  | succ i ih => rw [Function.iterate_succ_apply', lead_up, ih]

theorem root_eq_dot (n : ℕ) : root n = [DOT] ↔ n = 0 := by
  unfold root
  split
  next hn => simp [hn]
  next hn => split <;> simp [hn, SLASH, DOT]

theorem root_eq_double (n : ℕ) : root n = [SLASH, SLASH] ↔ n = 2 := by
  unfold root
  split
  next hn => simp [hn]
  next hn =>
    split
    next hn => simp [hn]
    next hn => simp [hn]

theorem root_eq_slash (n : ℕ) : root n = [SLASH] ∨ root n = [SLASH, SLASH] ↔ 0 < n := by
  unfold root
  split
  next hn => simp [hn, SLASH, DOT]
  next hn =>
    have hpos : 0 < n := by omega
    split <;> simp [hpos]

/-! ## All calls -/

/-- **On the way up** one component after the other is removed, until `rootName` is left. -/
theorem up_iterate_words (lead : ℕ) (before : List (Spaced SLASH)) (last : Word SLASH) (trail : ℕ) :
    up^[before.length + 1] (.words lead before last trail) = rootName lead ∧
      ∀ i, i ≤ before.length → (up^[i] (.words lead before last trail)).render <+:
        (Spelling.words lead before last trail).render := by
  induction before generalizing last trail with
  | nil =>
    refine ⟨rfl, fun i hi => ?_⟩
    obtain rfl : i = 0 := by simpa using hi
    exact List.prefix_rfl
  | cons x before ih =>
    obtain ⟨hroot, hpre⟩ := ih x.word 0
    refine ⟨?_, fun i hi => ?_⟩
    · rw [List.length_cons, Function.iterate_succ_apply]
      exact hroot
    cases i with
    | zero => exact List.prefix_rfl
    | succ i =>
      have hle : i ≤ before.length := by
        rw [List.length_cons] at hi
        omega
      rw [Function.iterate_succ_apply]
      apply (hpre i hle).trans
      simp [Spelling.render, body]

/-- After so many calls a root is reached. -/
def steps (P : Pathname) : ℕ := max P.count 1

theorem up_iterate_steps (P : Pathname) : up^[steps P] P = rootName P.lead ∧
    ∀ i, i < steps P → (up^[i] P).render <+: P.render := by
  cases P with
  | blank n =>
    refine ⟨rfl, fun i hi => ?_⟩
    obtain rfl : i = 0 := by simpa [steps, Spelling.count] using hi
    exact List.prefix_rfl
  | words lead before last trail =>
    have hsteps : steps (.words lead before last trail) = before.length + 1 := by
      simp [steps, Spelling.count]
    obtain ⟨hroot, hpre⟩ := up_iterate_words lead before last trail
    rw [hsteps]
    exact ⟨hroot, fun i hi => hpre i (by omega)⟩

theorem is_abs_iff (s : CString) :
    xcp_path_is_abs s = true ↔ 0 < (parse SLASH s.bytes).lead := by
  rw [is_abs_iff_head?, ← head?_render, render_parse]

/-- **Walking up ends at a stable root.** The calls `f 0`, `f 1`, ... have one result each. After
at most one call more than there are components they stay at `.` if the pathname is relative, at
`//` if it begins with exactly two slashes, and at `/` otherwise; before that they return
beginnings of the pathname, and they never change whether it is absolute. -/
theorem walk_up (pathname : CString) : ∃ f : ℕ → CString, f 0 = pathname ∧
    (∀ i dir, Yields (xcp_path_parent_dir true (some (f i))) dir ↔ dir = f (i + 1)) ∧
    (∃ m, m ≤ (parse SLASH pathname.bytes).count + 1 ∧ (∀ i, m ≤ i → f i = f m) ∧
      ((f m).bytes = [SLASH] ∨ (f m).bytes = [SLASH, SLASH] ↔ xcp_path_is_abs pathname = true) ∧
      ((f m).bytes = [SLASH, SLASH] ↔ (parse SLASH pathname.bytes).lead = 2) ∧
      ((f m).bytes = [DOT] ↔ xcp_path_is_abs pathname = false) ∧
      ∀ i, i < m → (f i).bytes <+: pathname.bytes) ∧
    ∀ i, xcp_path_is_abs (f i) = xcp_path_is_abs pathname := by
  choose dirOf hyields _ using parent_dir_yields
  have hwalk (i : ℕ) : parse SLASH (dirOf^[i] pathname).bytes =
      up^[i] (parse SLASH pathname.bytes) := by
    induction i with
    | zero => rfl
    | succ i ih => rw [Function.iterate_succ_apply', Function.iterate_succ_apply',
        parse_dir (hyields _), ih]
  have hbytes (i : ℕ) : (dirOf^[i] pathname).bytes =
      (up^[i] (parse SLASH pathname.bytes)).render := by
    rw [← hwalk, render_parse]
  obtain ⟨hroot, hpre⟩ := up_iterate_steps (parse SLASH pathname.bytes)
  have hend : (dirOf^[steps (parse SLASH pathname.bytes)] pathname).bytes =
      root (parse SLASH pathname.bytes).lead := by
    rw [hbytes, hroot, render_rootName]
  refine ⟨fun i => dirOf^[i] pathname, rfl, fun i dir => ?_,
    ⟨steps (parse SLASH pathname.bytes), by simp only [steps]; omega, fun i hi => ?_, ?_⟩,
    fun i => ?_⟩
  · show Yields (xcp_path_parent_dir true (some (dirOf^[i] pathname))) dir ↔
      dir = dirOf^[i + 1] pathname
    rw [Function.iterate_succ_apply']
    exact ⟨fun h => h.unique (hyields _), fun h => h ▸ hyields _⟩
  · obtain ⟨k, rfl⟩ := Nat.exists_eq_add_of_le' hi
    apply CString.ext
    rw [hbytes, hbytes, Function.iterate_add_apply, hroot,
      Function.iterate_fixed (up_rootName _) k]
  · refine ⟨?_, ?_, ?_, fun i hi => ?_⟩
    · rw [hend, is_abs_iff]
      exact root_eq_slash _
    · rw [hend]
      exact root_eq_double _
    · rw [hend, ← Bool.not_eq_true, is_abs_iff, root_eq_dot]
      omega
    · have h := hpre i hi
      rwa [render_parse, ← hbytes] at h
  · rw [Bool.eq_iff_iff, is_abs_iff, is_abs_iff, hwalk]
    exact lead_iterate _ i

end XcpNgGeneric.Path
