import Mathlib.Algebra.Group.Nat.Defs
import Mathlib.Data.List.Perm.Basic
import Mathlib.Logic.Function.Basic

/-!
# Rearranging disjoint regions

Each index has a region of its own, in which positions are rearranged. The rearrangements of several
indices, one after another, are the rearrangement of its region at every position (`all_of_mem`):
their order does not matter (`all_perm`), and they undo themselves if each of them does (`all_all`).
-/

namespace XcpNgGeneric.Rearrange

variable {α ι : Type*}

/-- `f` rearranges the region `R`. -/
structure Rearranges (R : α → Prop) (f : α → α) : Prop where
  inside : ∀ i, R i → R (f i)
  outside : ∀ i, ¬R i → f i = i

/-- Two regions without a common position. -/
def Apart (R S : α → Prop) : Prop := ∀ i, R i → ¬S i

theorem Apart.symm {R S : α → Prop} (h : Apart R S) : Apart S R := fun i hS hR => h i hR hS

/-- The rearrangements of all indices, from the last to the first. -/
def all (f : ι → α → α) : List ι → α → α
  | [], i => i
  | x :: xs, i => f x (all f xs i)

section All

variable {R : ι → α → Prop} {f : ι → α → α} (hf : ∀ x, Rearranges (R x) (f x)) {xs ys : List ι}
include hf

theorem all_of_not {i : α} (hi : ∀ x ∈ xs, ¬R x i) : all f xs i = i := by
  induction xs with
  | nil => rfl
  | cons x xs ih =>
    rw [all, ih fun y hy => hi y (List.mem_cons_of_mem _ hy)]
    exact (hf x).outside i (hi x List.mem_cons_self)

/-- **In a region** only its own rearrangement counts. -/
theorem all_of_mem (hxs : xs.Pairwise fun x y => Apart (R x) (R y)) {x : ι} (hx : x ∈ xs) {i : α}
    (hi : R x i) : all f xs i = f x i := by
  induction xs with
  | nil => cases hx
  | cons y xs ih =>
    obtain ⟨hy, hxs⟩ := List.pairwise_cons.1 hxs
    rw [all]
    rcases List.mem_cons.1 hx with rfl | hx
    · rw [all_of_not hf fun z hz => hy z hz i hi]
    · rw [ih hxs hx]
      exact (hf y).outside _ ((hy x hx).symm _ ((hf x).inside i hi))

theorem all_perm (hxs : xs.Pairwise fun x y => Apart (R x) (R y)) (h : ys.Perm xs) :
    all f ys = all f xs := by
  have hys : ys.Pairwise fun x y => Apart (R x) (R y) := h.symm.pairwise hxs fun hxy => hxy.symm
  funext i
  by_cases hi : ∃ x ∈ xs, R x i
  · obtain ⟨x, hx, hi⟩ := hi
    rw [all_of_mem hf hxs hx hi, all_of_mem hf hys (h.mem_iff.2 hx) hi]
  · have hnot : ∀ x ∈ xs, ¬R x i := fun x hx hR => hi ⟨x, hx, hR⟩
    rw [all_of_not hf hnot, all_of_not hf fun x hx => hnot x (h.mem_iff.1 hx)]

theorem all_all (hxs : xs.Pairwise fun x y => Apart (R x) (R y))
    (hinv : ∀ x, Function.Involutive (f x)) (i : α) : all f xs (all f xs i) = i := by
  by_cases hi : ∃ x ∈ xs, R x i
  · obtain ⟨x, hx, hi⟩ := hi
    rw [all_of_mem hf hxs hx hi, all_of_mem hf hxs hx ((hf x).inside i hi), hinv x]
  · have hnot : ∀ x ∈ xs, ¬R x i := fun x hx hR => hi ⟨x, hx, hR⟩
    rw [all_of_not hf hnot, all_of_not hf hnot]

end All

/-! ## Reversal -/

/-- The `n` positions from `a` on. -/
def Span (a n i : ℕ) : Prop := a ≤ i ∧ i < a + n

instance (a n i : ℕ) : Decidable (Span a n i) := inferInstanceAs (Decidable (_ ∧ _))

/-- The `n` positions from `a` on are reversed. -/
def mirror (a n i : ℕ) : ℕ := if Span a n i then a + (n - 1 - (i - a)) else i

theorem mirror_rearranges (a n : ℕ) : Rearranges (Span a n) (mirror a n) where
  inside i hi := by
    rw [mirror, if_pos hi]
    obtain ⟨hle, hlt⟩ := hi
    exact ⟨by omega, by omega⟩
  outside i hi := if_neg hi

theorem mirror_involutive (a n : ℕ) : Function.Involutive (mirror a n) := by
  intro i
  by_cases hi : Span a n i
  · have hi' := (mirror_rearranges a n).inside i hi
    rw [mirror, if_pos hi', mirror, if_pos hi]
    obtain ⟨hle, hlt⟩ := hi
    omega
  · rw [(mirror_rearranges a n).outside i hi, (mirror_rearranges a n).outside i hi]

theorem id_rearranges (R : α → Prop) : Rearranges R id := ⟨fun _ h => h, fun _ _ => rfl⟩

end XcpNgGeneric.Rearrange
