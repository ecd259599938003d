import Mathlib.Data.List.Basic

/-!
# Lists as words between runs of a separator

A list is a run of separators, or words with runs of separators around and between them. `Spelling`
is this view of a list; a word is not empty and has no separator, and two words have a run of at
least one between them, so that every list has exactly one spelling (`render_parse`,
`parse_render`).
-/

namespace XcpNgGeneric.Words

variable {α : Type*} {sep : α}

/-- A maximal run of other elements than `sep`. -/
@[ext] structure Word (sep : α) where
  letters : List α
  ne_nil : letters ≠ []
  sep_free : sep ∉ letters

/-- A word and the run of separators after it. -/
structure Spaced (sep : α) where
  word : Word sep
  gap : ℕ
  gap_pos : 0 < gap

/-- How a list is made of words and separators. -/
inductive Spelling (sep : α)
  /-- A list of `n` separators. -/
  | blank (n : ℕ)
  /-- `lead` separators, the words `before`, the nearest first, and after the `last` word `trail`
  separators. -/
  | words (lead : ℕ) (before : List (Spaced sep)) (last : Word sep) (trail : ℕ)

/-- `n` separators. -/
def seps (sep : α) (n : ℕ) : List α := List.replicate n sep

@[simp] theorem seps_zero (sep : α) : seps sep 0 = [] := rfl

@[simp] theorem length_seps (sep : α) (n : ℕ) : (seps sep n).length = n := List.length_replicate

theorem seps_succ (sep : α) (n : ℕ) : seps sep (n + 1) = seps sep n ++ [sep] :=
  List.replicate_succ'

theorem eq_of_mem_seps {n : ℕ} {c : α} (h : c ∈ seps sep n) : c = sep := List.eq_of_mem_replicate h

/-- The words before the last one. -/
def body : List (Spaced sep) → List α
  | [] => []
  | x :: before => body before ++ x.word.letters ++ seps sep x.gap

namespace Spelling

/-- The list that is spelled. -/
def render : Spelling sep → List α
  | .blank n => seps sep n
  | .words lead before last trail =>
    seps sep lead ++ body before ++ last.letters ++ seps sep trail

/-- The number of separators before the first word. -/
def lead : Spelling sep → ℕ
  | .blank n => n
  | .words lead _ _ _ => lead

/-- The number of words. -/
def count : Spelling sep → ℕ
  | .blank _ => 0
  | .words _ before _ _ => before.length + 1

end Spelling

/-- The word of one letter. -/
def Word.single (c : α) (hc : c ≠ sep) : Word sep :=
  ⟨[c], List.cons_ne_nil c [], fun h => hc (List.mem_singleton.1 h).symm⟩

/-- The word with one more letter. -/
def Word.snoc (w : Word sep) (c : α) (hc : c ≠ sep) : Word sep where
  letters := w.letters ++ [c]
  ne_nil := by simp
  sep_free h := by
    rcases List.mem_append.1 h with h | h
    · exact w.sep_free h
    · exact hc (List.mem_singleton.1 h).symm

variable [DecidableEq α]

/-- The spelling of a list that is one element longer. -/
def Spelling.snoc (p : Spelling sep) (c : α) : Spelling sep :=
  if hc : c = sep then
    match p with
    | .blank n => .blank (n + 1)
    | .words lead before last trail => .words lead before last (trail + 1)
  else
    match p with
    | .blank n => .words n [] (Word.single c hc) 0
    | .words lead before last 0 => .words lead before (last.snoc c hc) 0
    | .words lead before last (trail + 1) =>
      .words lead (⟨last, trail + 1, Nat.succ_pos trail⟩ :: before) (Word.single c hc) 0

/-- The spelling of a list. -/
def parse (sep : α) (xs : List α) : Spelling sep := xs.foldl Spelling.snoc (.blank 0)

/-! ## Every list has one spelling -/

namespace Spelling

theorem render_snoc (p : Spelling sep) (c : α) : (p.snoc c).render = p.render ++ [c] := by
  by_cases hc : c = sep
  · subst hc
    cases p with
    | blank n => simp [snoc, render, seps_succ]
    | words lead before last trail => simp [snoc, render, seps_succ]
  · cases p with
    | blank n => simp [snoc, hc, render, body, Word.single]
    | words lead before last trail =>
      cases trail with
      | zero => simp [snoc, hc, render, Word.snoc]
      | succ trail => simp [snoc, hc, render, body, Word.single]

theorem render_foldl (p : Spelling sep) (xs : List α) :
    (xs.foldl snoc p).render = p.render ++ xs := by
  induction xs generalizing p with
  | nil => exact (List.append_nil _).symm
  | cons x xs ih => rw [List.foldl_cons, ih, render_snoc, List.append_assoc]; rfl

theorem foldl_seps_blank (m n : ℕ) :
    (seps sep n).foldl snoc (blank m : Spelling sep) = blank (m + n) := by
  induction n with
  | zero => rfl
  | succ n ih => simp [seps_succ, ih, snoc, Nat.add_assoc]

theorem foldl_seps_words (lead : ℕ) (before : List (Spaced sep)) (last : Word sep) (m n : ℕ) :
    (seps sep n).foldl snoc (words lead before last m) = words lead before last (m + n) := by
  induction n with
  | zero => rfl
  | succ n ih => simp [seps_succ, ih, snoc, Nat.add_assoc]

/-- Letters are added to a word. -/
theorem foldl_letters (lead : ℕ) (before : List (Spaced sep)) {v w : Word sep} {xs : List α}
    (hw : w.letters = v.letters ++ xs) :
    xs.foldl snoc (words lead before v 0) = words lead before w 0 := by
  induction xs generalizing v with
  | nil =>
    rw [List.append_nil] at hw
    rw [List.foldl_nil, Word.ext hw]
  | cons x xs ih =>
    have hx : x ≠ sep := by
      intro heq
      apply w.sep_free
      rw [hw, heq]
      simp
    have hsnoc : (words lead before v 0).snoc x = words lead before (v.snoc x hx) 0 := by
      simp [snoc, hx]
    rw [List.foldl_cons, hsnoc]
    apply ih
    simp [Word.snoc, hw]

/-- A word after separators. -/
theorem foldl_word {p : Spelling sep} {lead : ℕ} {before : List (Spaced sep)} (w : Word sep)
    (hp : ∀ (c : α) (hc : c ≠ sep), p.snoc c = words lead before (Word.single c hc) 0) :
    w.letters.foldl snoc p = words lead before w 0 := by
  obtain ⟨x, xs, hletters⟩ := List.exists_cons_of_ne_nil w.ne_nil
  have hx : x ≠ sep := by
    intro heq
    apply w.sep_free
    rw [hletters, heq]
    exact List.mem_cons_self
  rw [hletters, List.foldl_cons, hp x hx]
  exact foldl_letters lead before (by simp [Word.single, hletters])

/-- The words before the last one, and the last one. -/
theorem foldl_body (lead : ℕ) (before : List (Spaced sep)) (last : Word sep) :
    (body before ++ last.letters).foldl snoc (blank lead) = words lead before last 0 := by
  induction before generalizing last with
  | nil =>
    apply foldl_word
    intro c hc
    simp [snoc, hc]
  | cons x before ih =>
    obtain ⟨word, gap, hgap⟩ := x
    obtain ⟨trail, rfl⟩ : ∃ k, gap = k + 1 := ⟨gap - 1, by omega⟩
    have hbody : body (⟨word, trail + 1, hgap⟩ :: before) =
        body before ++ word.letters ++ seps sep (trail + 1) := rfl
    rw [hbody, List.foldl_append, List.foldl_append, ih, foldl_seps_words, Nat.zero_add]
    apply foldl_word
    intro c hc
    simp [snoc, hc]

end Spelling

theorem render_parse (sep : α) (xs : List α) : (parse sep xs).render = xs :=
  Spelling.render_foldl _ xs

/-- **A list has no other spelling.** -/
theorem parse_render (p : Spelling sep) : parse sep p.render = p := by
  cases p with
  | blank n =>
    rw [parse, Spelling.render, Spelling.foldl_seps_blank, Nat.zero_add]
  | words lead before last trail =>
    rw [parse, Spelling.render, List.append_assoc (seps sep lead), List.foldl_append,
      List.foldl_append, Spelling.foldl_seps_blank, Nat.zero_add, Spelling.foldl_body,
      Spelling.foldl_seps_words, Nat.zero_add]

theorem parse_eq {xs : List α} {p : Spelling sep} (h : p.render = xs) : parse sep xs = p := by
  rw [← h, parse_render]

/-! ## The first element -/

omit [DecidableEq α] in
theorem head?_body (before : List (Spaced sep)) (w : Word sep) (rest : List α) :
    (body before ++ w.letters ++ rest).head? ≠ some sep := by
  induction before generalizing w rest with
  | nil =>
    obtain ⟨x, xs, hletters⟩ := List.exists_cons_of_ne_nil w.ne_nil
    intro h
    apply w.sep_free
    rw [hletters]
    simp only [body, List.nil_append, hletters, List.cons_append, List.head?_cons] at h
    rw [Option.some.inj h]
    exact List.mem_cons_self
  | cons x before ih =>
    have h := ih x.word (seps sep x.gap ++ w.letters ++ rest)
    simpa [body] using h

omit [DecidableEq α] in
/-- A list begins with the separator if and only if its spelling does. -/
theorem head?_render (p : Spelling sep) : p.render.head? = some sep ↔ 0 < p.lead := by
  cases p with
  | blank n => cases n <;> simp [Spelling.render, Spelling.lead, seps, List.replicate_succ]
  | words lead before last trail =>
    cases lead with
    | zero => simpa [Spelling.render, Spelling.lead] using head?_body before last (seps sep trail)
    | succ n => simp [Spelling.render, Spelling.lead, seps, List.replicate_succ]

end XcpNgGeneric.Words
