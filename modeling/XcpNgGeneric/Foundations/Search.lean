import Mathlib.Data.List.Pairwise

/-!
# Searches that stop at the first hit

A search goes through a list and returns what it finds at the first element that is not idle
(`Search`). If at most one element can be a hit, what is found does not depend on the order of the
list.

## Main results

* `Search.eq_of_mem`: what is found at the only hit.
* `Search.perm`: the order does not matter.
-/

namespace XcpNgGeneric.Searching

variable {α β : Type*}

/-- `F` finds `f x` at the first `x` where this is not `idle`. -/
structure Search (idle : β) (f : α → β) (F : List α → β) : Prop where
  nil : F [] = idle
  skip : ∀ x xs, f x = idle → F (x :: xs) = F xs
  stop : ∀ x xs, f x ≠ idle → F (x :: xs) = f x

/-- One of the two elements is idle. -/
def Alone (idle : β) (f : α → β) (x y : α) : Prop := f x = idle ∨ f y = idle

variable {idle : β} {f : α → β} {F : List α → β} {xs ys : List α}

theorem Alone.symm {x y : α} (h : Alone idle f x y) : Alone idle f y x := Or.symm h

theorem find?_search (p : α → Bool) :
    Search none (fun x => if p x = true then some x else none) (List.find? p) where
  nil := rfl
  skip x xs h := by
    cases hp : p x with
    | false => simp [hp]
    | true => simp [hp] at h
  stop x xs h := by
    cases hp : p x with
    | false => simp [hp] at h
    | true => simp [hp]

namespace Search

theorem eq_idle (h : Search idle f F) (hxs : ∀ x ∈ xs, f x = idle) : F xs = idle := by
  induction xs with
  | nil => exact h.nil
  | cons x xs ih =>
    rw [h.skip x xs (hxs x List.mem_cons_self)]
    exact ih fun y hy => hxs y (List.mem_cons_of_mem _ hy)

/-- **The only hit is found.** -/
theorem eq_of_mem (h : Search idle f F) (hxs : xs.Pairwise (Alone idle f)) {x : α} (hx : x ∈ xs)
    (hhit : f x ≠ idle) : F xs = f x := by
  induction xs with
  | nil => cases hx
  | cons y xs ih =>
    obtain ⟨hy, hxs⟩ := List.pairwise_cons.1 hxs
    rcases List.mem_cons.1 hx with rfl | hx
    · exact h.stop x xs hhit
    · rw [h.skip y xs ((hy x hx).resolve_right hhit)]
      exact ih hxs hx

/-- **The order does not matter** where there is at most one hit. -/
theorem perm (h : Search idle f F) (hxs : xs.Pairwise (Alone idle f)) (hperm : xs.Perm ys) :
    F xs = F ys := by
  have hys : ys.Pairwise (Alone idle f) := (hperm.pairwise_iff Alone.symm).1 hxs
  by_cases hhit : ∃ x ∈ xs, f x ≠ idle
  · obtain ⟨x, hx, hhit⟩ := hhit
    rw [h.eq_of_mem hxs hx hhit, h.eq_of_mem hys (hperm.subset hx) hhit]
  · have hidle : ∀ x ∈ xs, f x = idle := by
      intro x hx
      by_contra hne
      exact hhit ⟨x, hx, hne⟩
    rw [h.eq_idle hidle, h.eq_idle fun y hy => hidle y (hperm.symm.subset hy)]

end Search

end XcpNgGeneric.Searching
