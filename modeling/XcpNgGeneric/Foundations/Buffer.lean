import Mathlib.Data.List.Basic

/-!
# Buffers

A buffer is a number of cells, of which those that have not been written are indeterminate. Writing
is partial: a write that would leave the buffer has no result.

`Holds b off xs` says that the cells from `off` on hold `xs`. Two writes in a row are one
(`write_write`), and a write elsewhere keeps what is held (`Holds.write`).
-/

namespace XcpNgGeneric

variable {α : Type*}

/-- The cells of a buffer; `none` is indeterminate. -/
abbrev Buffer (α : Type*) := List (Option α)

namespace Buffer

/-- A buffer that has just been allocated. -/
def fresh (n : ℕ) : Buffer α := List.replicate n none

@[simp] theorem length_fresh (n : ℕ) : (fresh n : Buffer α).length = n := List.length_replicate

/-- The cells from `off` on are overwritten with `xs`. -/
def write (b : Buffer α) (off : ℕ) (xs : List α) : Option (Buffer α) :=
  if off + xs.length ≤ b.length then
    some (b.take off ++ xs.map some ++ b.drop (off + xs.length))
  else none

theorem write_isSome {b : Buffer α} (off : ℕ) (xs : List α) (h : off + xs.length ≤ b.length) :
    ∃ b', b.write off xs = some b' := ⟨_, if_pos h⟩

theorem length_write {b b' : Buffer α} {off : ℕ} {xs : List α} (h : b.write off xs = some b') :
    off + xs.length ≤ b.length ∧ b'.length = b.length := by
  simp only [write] at h
  split at h
  next hle =>
    obtain rfl := Option.some.inj h
    refine ⟨hle, ?_⟩
    simp only [List.length_append, List.length_take, List.length_map, List.length_drop]
    omega
  next => cases h

theorem getElem?_write {b b' : Buffer α} {off : ℕ} {xs : List α} (h : b.write off xs = some b')
    (k : ℕ) : b'[k]? = if off ≤ k ∧ k < off + xs.length then some xs[k - off]? else b[k]? := by
  obtain ⟨hle, -⟩ := length_write h
  rw [write, if_pos hle] at h
  obtain rfl := Option.some.inj h
  have htake : (b.take off).length = off := List.length_take_of_le (by omega)
  rcases Nat.lt_or_ge k off with hlt | hge
  · rw [if_neg (by omega), List.append_assoc, List.getElem?_append_left (by omega),
      List.getElem?_take_of_lt hlt]
  rw [List.append_assoc, List.getElem?_append_right (by omega), htake]
  rcases Nat.lt_or_ge k (off + xs.length) with hlt | hge'
  · have hk : k - off < xs.length := by omega
    rw [if_pos ⟨hge, hlt⟩, List.getElem?_append_left (by simpa using hk), List.getElem?_map]
    simp [hk]
  · rw [if_neg (by omega), List.getElem?_append_right (by simp; omega), List.length_map,
      List.getElem?_drop]
    congr 1
    omega

theorem write_nil {b : Buffer α} {off : ℕ} (h : off ≤ b.length) : b.write off [] = some b := by
  simp [write, h]

theorem write_eq_none {b : Buffer α} {off : ℕ} {xs : List α} :
    b.write off xs = none ↔ b.length < off + xs.length := by
  simp [write]

/-- **Two writes in a row are one.** -/
theorem write_write (b : Buffer α) (off : ℕ) (xs ys : List α) :
    ((b.write off xs).bind fun b' => b'.write (off + xs.length) ys) = b.write off (xs ++ ys) := by
  cases hxs : b.write off xs with
  | none =>
    rw [write_eq_none] at hxs
    rw [Option.bind_none, eq_comm, write_eq_none, List.length_append]
    omega
  | some b₁ =>
    obtain ⟨hle, hlength⟩ := length_write hxs
    rw [Option.bind_some]
    cases hys : b₁.write (off + xs.length) ys with
    | none =>
      rw [write_eq_none] at hys
      rw [eq_comm, write_eq_none, List.length_append]
      omega
    | some b₂ =>
      obtain ⟨hle', hlength'⟩ := length_write hys
      obtain ⟨b₃, hboth⟩ := write_isSome (b := b) off (xs ++ ys)
        (by rw [List.length_append]; omega)
      rw [hboth]
      congr 1
      apply List.ext_getElem? fun k => ?_
      rw [getElem?_write hys, getElem?_write hxs, getElem?_write hboth, List.length_append]
      rcases Nat.lt_or_ge k (off + xs.length) with hlt | hge
      · rw [if_neg (by omega)]
        by_cases hk : off ≤ k
        · rw [if_pos ⟨hk, hlt⟩, if_pos ⟨hk, by omega⟩, List.getElem?_append_left (by omega)]
        · rw [if_neg (by omega), if_neg (by omega)]
      · by_cases hk : k < off + xs.length + ys.length
        · rw [if_pos ⟨hge, hk⟩, if_pos ⟨by omega, by omega⟩,
            List.getElem?_append_right (by omega), Nat.sub_add_eq]
        · rw [if_neg (by omega), if_neg (by omega), if_neg (by omega)]

theorem write_after {b b₁ b₂ : Buffer α} {off : ℕ} {xs ys : List α}
    (hxs : b.write off xs = some b₁) (hys : b₁.write (off + xs.length) ys = some b₂) :
    b.write off (xs ++ ys) = some b₂ := by
  rw [← write_write, hxs, Option.bind_some, hys]

/-- The second of two writes may be the one in front. -/
theorem write_before {b b₁ b₂ : Buffer α} {off : ℕ} {xs ys : List α}
    (hys : b.write (off + xs.length) ys = some b₁) (hxs : b₁.write off xs = some b₂) :
    b.write off (xs ++ ys) = some b₂ := by
  obtain ⟨hle, hlength⟩ := length_write hys
  obtain ⟨b₃, hboth⟩ := write_isSome (b := b) off (xs ++ ys) (by rw [List.length_append]; omega)
  rw [hboth]
  congr 1
  apply List.ext_getElem? fun k => ?_
  rw [getElem?_write hxs, getElem?_write hys, getElem?_write hboth, List.length_append]
  rcases Nat.lt_or_ge k (off + xs.length) with hlt | hge
  · by_cases hk : off ≤ k
    · rw [if_pos ⟨hk, by omega⟩, if_pos ⟨hk, hlt⟩, List.getElem?_append_left (by omega)]
    · rw [if_neg (by omega), if_neg (by omega), if_neg (by omega)]
  · by_cases hk : k < off + xs.length + ys.length
    · rw [if_pos ⟨by omega, by omega⟩, if_neg (by omega), if_pos ⟨hge, hk⟩,
        List.getElem?_append_right (by omega), Nat.sub_add_eq]
    · rw [if_neg (by omega), if_neg (by omega), if_neg (by omega)]

/-- The cells from `off` on hold `xs`. -/
def Holds (b : Buffer α) (off : ℕ) (xs : List α) : Prop :=
  ∀ i, i < xs.length → b[off + i]? = some xs[i]?

namespace Holds

variable {b b' : Buffer α} {off off' : ℕ} {xs ys : List α}

theorem of_write (h : b.write off xs = some b') : b'.Holds off xs := by
  intro i hi
  rw [getElem?_write h, if_pos ⟨by omega, by omega⟩, Nat.add_sub_cancel_left]

/-- **Writing elsewhere** keeps what is held. -/
theorem write (hb : b.Holds off xs) (h : b.write off' ys = some b')
    (hdisjoint : off + xs.length ≤ off' ∨ off' + ys.length ≤ off) : b'.Holds off xs := by
  intro i hi
  rw [getElem?_write h, if_neg (by omega)]
  exact hb i hi

theorem append (hxs : b.Holds off xs) (hys : b.Holds (off + xs.length) ys) :
    b.Holds off (xs ++ ys) := by
  intro i hi
  rcases Nat.lt_or_ge i xs.length with hlt | hge
  · rw [List.getElem?_append_left hlt]
    exact hxs i hlt
  · rw [List.length_append] at hi
    have hcell := hys (i - xs.length) (by omega)
    rw [List.getElem?_append_right hge, ← hcell]
    congr 1
    omega

theorem left (h : b.Holds off (xs ++ ys)) : b.Holds off xs := by
  intro i hi
  rw [h i (by rw [List.length_append]; omega), List.getElem?_append_left hi]

/-- Of two lists that are held at the same place the shorter one begins the longer one. -/
theorem isPrefix (hxs : b.Holds off xs) (hys : b.Holds off ys) (hle : xs.length ≤ ys.length) :
    xs <+: ys := by
  rw [List.prefix_iff_eq_take]
  apply List.ext_getElem? fun i => ?_
  rcases Nat.lt_or_ge i xs.length with hlt | hge
  · rw [List.getElem?_take_of_lt hlt]
    exact Option.some.inj ((hxs i hlt).symm.trans (hys i (by omega)))
  · rw [List.getElem?_eq_none hge, List.getElem?_eq_none (by rw [List.length_take]; omega)]

theorem map_some (xs : List α) : Holds (xs.map some) 0 xs := by
  intro i hi
  rw [Nat.zero_add, List.getElem?_map, List.getElem?_eq_getElem hi]
  rfl

/-- What is held at the beginning is followed by the other cells. -/
theorem eq_append (h : b.Holds 0 xs) : b = xs.map some ++ b.drop xs.length := by
  apply List.ext_getElem? fun i => ?_
  rcases Nat.lt_or_ge i xs.length with hlt | hge
  · have hcell := h i hlt
    rw [Nat.zero_add] at hcell
    rw [hcell, List.getElem?_append_left (by simpa using hlt), List.getElem?_map]
    simp [hlt]
  · rw [List.getElem?_append_right (by simpa using hge), List.length_map, List.getElem?_drop]
    congr 1
    omega

/-- A buffer that is filled holds nothing else. -/
theorem eq_map (h : b.Holds 0 xs) (hlength : b.length = xs.length) : b = xs.map some := by
  rw [h.eq_append, List.drop_of_length_le (Nat.le_of_eq hlength), List.append_nil]

end Holds

end Buffer

/-! ## Consecutive regions -/

/-- The cells of the first `n` of consecutive regions, region `j` of which has `len j` cells. -/
def span (len : ℕ → ℕ) : ℕ → ℕ
  | 0 => 0
  | n + 1 => span len n + len n

theorem span_zero (len : ℕ → ℕ) : span len 0 = 0 := rfl

theorem span_mono (len : ℕ → ℕ) {m n : ℕ} (h : m ≤ n) : span len m ≤ span len n := by
  induction h with
  | refl => exact Nat.le_refl _
  | step _ ih => exact Nat.le_add_right_of_le ih

/-- Every cell is in one of the regions. -/
theorem exists_region {len : ℕ → ℕ} {n k : ℕ} (h : k < span len n) :
    ∃ j, j < n ∧ span len j ≤ k ∧ k < span len (j + 1) := by
  induction n with
  | zero => exact absurd h (Nat.not_lt_zero k)
  | succ n ih =>
    rcases Nat.lt_or_ge k (span len n) with hlt | hge
    · obtain ⟨j, hj, hregion⟩ := ih hlt
      exact ⟨j, Nat.lt_succ_of_lt hj, hregion⟩
    · exact ⟨n, Nat.lt_succ_self n, hge, h⟩

end XcpNgGeneric
