import XcpNgGeneric.Foundations.Words

/-!
# Names in a tree of directories

The nodes of a tree are files and directories, and a directory has named entries. A list is the name
of a node: its words are looked up one after the other, and a name that ends with separators is one
of a directory.

## Main results

* `parse_append`: the words of a list that is put after another one.
* `Tree.resolve_append`: a longer name is resolved from the node that its first part names.
-/

namespace XcpNgGeneric.Words

variable {α ν : Type*} {sep : α}

/-! ## The words of a list -/

namespace Spelling

/-- The number of separators after the last word. -/
def trail : Spelling sep → ℕ
  | .blank n => n
  | .words _ _ _ trail => trail

/-- The words, the first one first. -/
def names : Spelling sep → List (List α)
  | .blank _ => []
  | .words _ before last _ => before.reverse.map (fun x => x.word.letters) ++ [last.letters]

@[simp] theorem names_blank (n : ℕ) : (blank n : Spelling sep).names = [] := rfl

theorem names_words (lead : ℕ) (before : List (Spaced sep)) (last : Word sep) (trail : ℕ) :
    (words lead before last trail).names =
      before.reverse.map (fun x => x.word.letters) ++ [last.letters] := rfl

theorem names_words_cons (lead : ℕ) (x : Spaced sep) (before : List (Spaced sep)) (last : Word sep)
    (trail : ℕ) : (words lead (x :: before) last trail).names =
      (words lead before x.word 0).names ++ [last.letters] := by
  rw [names_words, names_words, List.reverse_cons, List.map_append]
  rfl

theorem length_names (p : Spelling sep) : p.names.length = p.count := by
  cases p with
  | blank n => rfl
  | words lead before last trail => simp [names_words, count]

theorem names_ne_nil {p : Spelling sep} (hp : p.render ≠ []) (hlead : p.lead = 0) :
    p.names ≠ [] := by
  cases p with
  | blank n =>
    obtain rfl : n = 0 := hlead
    exact absurd rfl hp
  | words lead before last trail => simp [names_words]

/-- A list ends with the separator if and only if its spelling does. -/
theorem getLast?_render (p : Spelling sep) : p.render.getLast? = some sep ↔ 0 < p.trail := by
  cases p with
  | blank n => cases n <;> simp [render, trail, seps_succ]
  | words lead before last trail =>
    cases trail with
    | zero =>
      have hlast : (words lead before last 0).render.getLast? ≠ some sep := by
        rw [render, seps_zero, List.append_nil, List.getLast?_append_of_ne_nil _ last.ne_nil]
        exact fun h => last.sep_free (List.mem_of_getLast? h)
      simp [hlast, Spelling.trail]
    | succ n => simp [render, Spelling.trail, seps_succ, ← List.append_assoc]

end Spelling

theorem body_append (before before' : List (Spaced sep)) :
    body (before' ++ before) = body before ++ body before' := by
  induction before' with
  | nil => simp [body]
  | cons x before' ih => simp [body, ih]

theorem seps_add (sep : α) (m n : ℕ) : seps sep m ++ seps sep n = seps sep (m + n) :=
  (List.replicate_add m n sep).symm

variable [DecidableEq α]

/-- The separators that are put after a list which does not end with one. -/
def gap (sep : α) (xs : List α) : ℕ := if xs.getLast? = some sep then 0 else 1

theorem gap_eq {xs : List α} : gap sep xs = if 0 < (parse sep xs).trail then 0 else 1 := by
  have h := Spelling.getLast?_render (parse sep xs)
  rw [render_parse] at h
  simp [gap, h]

/-- **One list after another**: the words of both, if the second one begins with a word. -/
theorem parse_append {xs ys : List α} (hxs : xs ≠ []) (hys : ys ≠ [])
    (hlead : (parse sep ys).lead = 0) :
    (parse sep (xs ++ seps sep (gap sep xs) ++ ys)).names =
        (parse sep xs).names ++ (parse sep ys).names ∧
      (parse sep (xs ++ seps sep (gap sep xs) ++ ys)).lead = (parse sep xs).lead ∧
      (parse sep (xs ++ seps sep (gap sep xs) ++ ys)).trail = (parse sep ys).trail := by
  have hx := render_parse sep xs
  have hy := render_parse sep ys
  rw [gap_eq]
  cases hq : parse sep ys with
  | blank n =>
    rw [hq] at hlead hy
    obtain rfl : n = 0 := hlead
    exact absurd hy.symm hys
  | words lead before' last' trail' =>
    rw [hq] at hlead hy
    obtain rfl : lead = 0 := hlead
    cases hp : parse sep xs with
    | blank n =>
      rw [hp] at hx
      have hpos : 0 < n := by
        rcases Nat.eq_zero_or_pos n with rfl | hpos
        · exact absurd hx.symm hxs
        · exact hpos
      have hparse : parse sep (xs ++ seps sep 0 ++ ys) = .words n before' last' trail' := by
        apply parse_eq
        rw [← hx, ← hy]
        simp [Spelling.render]
      rw [Spelling.trail, if_pos hpos, hparse]
      exact ⟨rfl, rfl, rfl⟩
    | words lead before last trail =>
      rw [hp] at hx
      obtain ⟨k, hk, hgap⟩ : ∃ k, (if 0 < trail then 0 else 1) = k ∧ 0 < trail + k := by
        refine ⟨_, rfl, ?_⟩
        split <;> omega
      have hparse : parse sep (xs ++ seps sep k ++ ys) =
          .words lead (before' ++ ⟨last, trail + k, hgap⟩ :: before) last' trail' := by
        apply parse_eq
        rw [← hx, ← hy]
        simp only [Spelling.render, body_append, body, ← seps_add]
        simp
      rw [Spelling.trail, hk, hparse]
      refine ⟨?_, rfl, rfl⟩
      simp [Spelling.names_words]

/-- A list that ends with a separator has the words that it has without. -/
theorem parse_append_gap {xs : List α} (hxs : xs ≠ []) :
    (parse sep (xs ++ seps sep (gap sep xs))).names = (parse sep xs).names ∧
      (parse sep (xs ++ seps sep (gap sep xs))).lead = (parse sep xs).lead ∧
      0 < (parse sep (xs ++ seps sep (gap sep xs))).trail := by
  have hx := render_parse sep xs
  rw [gap_eq]
  by_cases htrail : 0 < (parse sep xs).trail
  · rw [if_pos htrail, seps_zero, List.append_nil]
    exact ⟨rfl, rfl, htrail⟩
  rw [if_neg htrail]
  cases hp : parse sep xs with
  | blank n =>
    rw [hp] at hx htrail
    obtain rfl : n = 0 := Nat.eq_zero_of_not_pos htrail
    exact absurd hx.symm hxs
  | words lead before last trail =>
    rw [hp] at hx
    have hparse : parse sep (xs ++ seps sep 1) = .words lead before last (trail + 1) := by
      apply parse_eq
      rw [← hx]
      simp [Spelling.render, ← seps_add]
    rw [hparse]
    exact ⟨rfl, rfl, Nat.succ_pos trail⟩

/-! ## Trees -/

/-- Nodes, and the entries of those that are directories. -/
structure Tree (α ν : Type*) where
  isDir : ν → Bool
  lookup : ν → List α → Option ν
  isDir_of_lookup : ∀ d n v, lookup d n = some v → isDir d = true

namespace Tree

/-- The node that is found from `v` under the names, one after the other. -/
def walk (t : Tree α ν) : ν → List (List α) → Option ν
  | v, [] => some v
  | v, n :: names => (t.lookup v n).bind fun w => t.walk w names

/-- The node is taken if a directory is not needed, or it is one. -/
def ifDir (t : Tree α ν) (needed : Bool) (v : ν) : Option ν :=
  if needed = true → t.isDir v = true then some v else none

/-- The node that a list names; `origin` is where the walk begins. -/
def resolve (t : Tree α ν) (origin : ℕ → ν) (p : Spelling sep) : Option ν :=
  (t.walk (origin p.lead) p.names).bind (t.ifDir (0 < p.trail))

variable {t : Tree α ν}

omit [DecidableEq α]

theorem walk_append (v : ν) (names names' : List (List α)) :
    t.walk v (names ++ names') = (t.walk v names).bind fun w => t.walk w names' := by
  induction names generalizing v with
  | nil => rfl
  | cons n names ih => simp only [List.cons_append, walk, ih, Option.bind_assoc]

@[simp] theorem walk_singleton (v : ν) (n : List α) : t.walk v [n] = t.lookup v n := by
  simp [walk]

theorem ifDir_false (v : ν) : t.ifDir false v = some v := if_pos fun h => by cases h

theorem ifDir_of_isDir {v : ν} (hv : t.isDir v = true) (needed : Bool) :
    t.ifDir needed v = some v := if_pos fun _ => hv

theorem ifDir_eq_some {needed : Bool} {v w : ν} (h : t.ifDir needed v = some w) :
    v = w ∧ (needed = true → t.isDir w = true) := by
  obtain ⟨hdir, hw⟩ := Option.ite_none_right_eq_some.1 h
  obtain rfl := Option.some.inj hw
  exact ⟨rfl, hdir⟩

/-- A name is looked up in a directory. -/
theorem isDir_of_walk {v w : ν} {names : List (List α)} (hne : names ≠ [])
    (h : t.walk v names = some w) : t.isDir v = true := by
  obtain ⟨n, names, rfl⟩ := List.exists_cons_of_ne_nil hne
  obtain ⟨u, hu, -⟩ := Option.bind_eq_some_iff.1 h
  exact t.isDir_of_lookup v n u hu

/-- That a node must be a directory is no condition where a name is looked up in it. -/
theorem ifDir_bind_walk (needed : Bool) (v : ν) {names : List (List α)} (hne : names ≠ []) :
    ((t.ifDir needed v).bind fun w => t.walk w names) = t.walk v names := by
  cases hv : t.isDir v with
  | true => rw [ifDir_of_isDir hv]; rfl
  | false =>
    have hnone : t.walk v names = none := by
      rw [Option.eq_none_iff_forall_ne_some]
      intro w hw
      rw [isDir_of_walk hne hw] at hv
      cases hv
    rw [hnone]
    cases needed with
    | false => rw [ifDir_false]; exact hnone
    | true => simp [ifDir, hv]

/-- A name that must be one of a directory. -/
theorem resolve_closed {origin : ℕ → ν} {p r : Spelling sep} (hnames : r.names = p.names)
    (hlead : r.lead = p.lead) (htrail : 0 < r.trail) :
    t.resolve origin r = (t.resolve origin p).bind (t.ifDir true) := by
  have hif (needed : Bool) (v : ν) : (t.ifDir needed v).bind (t.ifDir true) = t.ifDir true v := by
    cases hv : t.isDir v with
    | true => rw [ifDir_of_isDir hv, Option.bind_some, ifDir_of_isDir hv]
    | false => cases needed <;> simp [ifDir, hv]
  simp only [resolve, hnames, hlead, decide_eq_true htrail, Option.bind_assoc, hif]

/-- **A longer name** is resolved from the node that its first part names. -/
theorem resolve_append {origin : ℕ → ν} {p q r : Spelling sep}
    (hnames : r.names = p.names ++ q.names) (hlead : r.lead = p.lead) (htrail : r.trail = q.trail)
    (hq : q.names ≠ []) :
    t.resolve origin r = (t.resolve origin p).bind fun d => t.resolve (fun _ => d) q := by
  calc t.resolve origin r
      = ((t.walk (origin p.lead) p.names).bind fun d => t.walk d q.names).bind
          (t.ifDir (0 < q.trail)) := by rw [resolve, hnames, hlead, htrail, walk_append]
    _ = ((t.walk (origin p.lead) p.names).bind fun d =>
          (t.ifDir (0 < p.trail) d).bind fun d => t.walk d q.names).bind
            (t.ifDir (0 < q.trail)) := by simp only [ifDir_bind_walk _ _ hq]
    _ = (t.resolve origin p).bind fun d => t.resolve (fun _ => d) q := by
      simp only [resolve, Option.bind_assoc]

end Tree

end XcpNgGeneric.Words
