import Mathlib.Logic.Function.Basic
import Mathlib.Algebra.Group.Nat.Defs

/-!
# Regions of an address space

An address space gives each mapped page its protection. `Holds base m live start n shape` says that
`m` is `base` with one region of `n` pages for every live `c`, from the page `start c` on: the
regions are disjoint, unmapped in `base`, and the page at the offset `k` of each has the protection
`shape k`.

## Main results

* `Holds.insert`, `Holds.erase`: a region is added or removed.
* `Holds.change`: pages outside of the regions are mapped, unmapped or protected.
* `Holds.eq_base`: without regions the space is `base`.
-/

namespace XcpNgGeneric.Regions

variable {π ι : Type*}

/-- The protections of the mapped pages. -/
abbrev Space (π : Type*) := ℕ → Option π

/-- The page `i` is one of the `n` pages from `a` on. -/
def Within (a n i : ℕ) : Prop := a ≤ i ∧ i < a + n

instance (a n i : ℕ) : Decidable (Within a n i) := inferInstanceAs (Decidable (_ ∧ _))

/-- The `n` pages from `a` on become `v`. -/
def put (m : Space π) (a n : ℕ) (v : Option π) : Space π := fun i => if Within a n i then v else m i

/-- None of the `n` pages from `a` on is mapped. -/
def Free (m : Space π) (a n : ℕ) : Prop := ∀ i, Within a n i → m i = none

section Put

variable {m : Space π} {a n i : ℕ} {v w : Option π}

@[simp] theorem put_within (h : Within a n i) : put m a n v i = v := if_pos h

@[simp] theorem put_of_not (h : ¬Within a n i) : put m a n v i = m i := if_neg h

theorem put_put (m : Space π) (a n : ℕ) (v w : Option π) :
    put (put m a n v) a n w = put m a n w := by
  funext i
  by_cases h : Within a n i <;> simp [h]

/-- **Unmapping what has been mapped** leaves the space as it was. -/
theorem put_none (h : Free m a n) (v : Option π) : put (put m a n v) a n none = m := by
  rw [put_put]
  funext i
  by_cases hi : Within a n i
  · simp [hi, h i hi]
  · simp [hi]

end Put

/-- `m` holds a region for each live index, over `base`. -/
structure Holds (base m : Space π) (live : ι → Prop) (start : ι → ℕ) (n : ℕ) (shape : ℕ → π) :
    Prop where
  own : ∀ c, live c → ∀ i, Within (start c) n i → m i = some (shape (i - start c))
  rest : ∀ i, (∀ c, live c → ¬Within (start c) n i) → m i = base i
  apart : ∀ c, live c → ∀ i, Within (start c) n i → base i = none
  disjoint : ∀ c d, live c → live d → ∀ i, Within (start c) n i → Within (start d) n i → c = d

namespace Holds

variable {base m m' : Space π} {live : ι → Prop} {start : ι → ℕ} {n : ℕ} {shape : ℕ → π}

/-- An unmapped page lies in no region. -/
theorem not_within (h : Holds base m live start n shape) {i : ℕ} (hi : m i = none) {c : ι}
    (hc : live c) : ¬Within (start c) n i := by
  intro hw
  have := h.own c hc i hw
  rw [hi] at this
  cases this

theorem congr {live' : ι → Prop} (h : Holds base m live start n shape)
    (hl : ∀ c, live' c ↔ live c) : Holds base m live' start n shape := by
  obtain rfl : live' = live := funext fun c => propext (hl c)
  exact h

/-- **A new region**, in pages that were unmapped. -/
theorem insert [DecidableEq ι] (h : Holds base m live start n shape) {c : ι} {a : ℕ}
    (hc : ¬live c) (hf : Free m a n) (hin : ∀ i, Within a n i → m' i = some (shape (i - a)))
    (hout : ∀ i, ¬Within a n i → m' i = m i) :
    Holds base m' (fun d => d = c ∨ live d) (Function.update start c a) n shape := by
  have hne : ∀ d, live d → d ≠ c := fun d hd he => hc (he ▸ hd)
  have hnew : ∀ d i, live d → Within a n i → ¬Within (start d) n i := fun d i hd hi =>
    h.not_within (hf i hi) hd
  refine ⟨fun d hd i hi => ?_, fun i hi => ?_, fun d hd i hi => ?_, fun d e hd he i hi hi' => ?_⟩
  · rcases hd with rfl | hd
    · rw [Function.update_self] at hi ⊢
      exact hin i hi
    · rw [Function.update_of_ne (hne d hd)] at hi ⊢
      rw [hout i fun hw => hnew d i hd hw hi]
      exact h.own d hd i hi
  · have hia : ¬Within a n i := by simpa using hi c (Or.inl rfl)
    rw [hout i hia]
    refine h.rest i fun d hd => ?_
    simpa [hne d hd] using hi d (Or.inr hd)
  · rcases hd with rfl | hd
    · rw [Function.update_self] at hi
      rw [← h.rest i fun e he => hnew e i he hi]
      exact hf i hi
    · rw [Function.update_of_ne (hne d hd)] at hi
      exact h.apart d hd i hi
  · rcases hd with rfl | hd <;> rcases he with rfl | he
    · rfl
    · rw [Function.update_self] at hi
      rw [Function.update_of_ne (hne e he)] at hi'
      exact absurd hi' (hnew e i he hi)
    · rw [Function.update_of_ne (hne d hd)] at hi
      rw [Function.update_self] at hi'
      exact absurd hi (hnew d i hd hi')
    · rw [Function.update_of_ne (hne d hd)] at hi
      rw [Function.update_of_ne (hne e he)] at hi'
      exact h.disjoint d e hd he i hi hi'

/-- **A region is unmapped.** -/
theorem erase (h : Holds base m live start n shape) {c : ι} (hc : live c) :
    Holds base (put m (start c) n none) (fun d => d ≠ c ∧ live d) start n shape := by
  refine ⟨fun d hd i hi => ?_, fun i hi => ?_, fun d hd => h.apart d hd.2,
    fun d e hd he => h.disjoint d e hd.2 he.2⟩
  · have hne : ¬Within (start c) n i := fun hw => hd.1 (h.disjoint d c hd.2 hc i hi hw)
    rw [put_of_not hne]
    exact h.own d hd.2 i hi
  · by_cases hw : Within (start c) n i
    · rw [put_within hw, h.apart c hc i hw]
    · rw [put_of_not hw]
      refine h.rest i fun d hd => ?_
      rcases eq_or_ne d c with rfl | hne
      · exact hw
      · exact hi d ⟨hne, hd⟩

/-- **Other pages change** in the same way in both spaces. -/
theorem change (h : Holds base m live start n shape) {b k : ℕ} (v : Option π)
    (hb : ∀ i, Within b k i → ∀ c, live c → ¬Within (start c) n i) :
    Holds (put base b k v) (put m b k v) live start n shape := by
  have hout : ∀ c, live c → ∀ i, Within (start c) n i → ¬Within b k i := fun c hc i hi hw =>
    hb i hw c hc hi
  refine ⟨fun c hc i hi => ?_, fun i hi => ?_, fun c hc i hi => ?_, h.disjoint⟩
  · rw [put_of_not (hout c hc i hi)]
    exact h.own c hc i hi
  · by_cases hw : Within b k i
    · rw [put_within hw, put_within hw]
    · rw [put_of_not hw, put_of_not hw]
      exact h.rest i hi
  · rw [put_of_not (hout c hc i hi)]
    exact h.apart c hc i hi

theorem eq_base (h : Holds base m live start n shape) (hl : ∀ c, ¬live c) : m = base :=
  funext fun i => h.rest i fun c hc => absurd hc (hl c)

theorem empty (base : Space π) {live : ι → Prop} (hl : ∀ c, ¬live c) (start : ι → ℕ) (n : ℕ)
    (shape : ℕ → π) : Holds base base live start n shape :=
  ⟨fun c hc => absurd hc (hl c), fun _ _ => rfl, fun c hc => absurd hc (hl c),
    fun c _ hc => absurd hc (hl c)⟩

end Holds

end XcpNgGeneric.Regions
