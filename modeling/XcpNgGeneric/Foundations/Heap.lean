import Mathlib.Data.List.Basic
import Mathlib.Logic.Function.Basic

/-!
# Heaps

Objects are numbered in the order of their allocation, so that no number is used twice. An object is
live until it is freed, and only live objects can be read, changed and freed; what has been freed is
logged. Every object that has been allocated is either live or freed once (`Heap.live_iff`,
`Heap.nodup`).

`h.Adds P h'` says that `h'` has all that is live in `h`, unchanged, and that what else is live in
`h'` satisfies `P`. A program runs to its end (`Exec`) or ends in a fault (`Faults`).
-/

namespace XcpNgGeneric

variable {β : Type*}

structure Heap (β : Type*) where
  /-- The live objects. -/
  get : ℕ → Option β
  /-- The number of the next object. -/
  next : ℕ
  /-- The objects that have been freed, in this order. -/
  freed : List ℕ
  live_iff : ∀ p, get p ≠ none ↔ p < next ∧ p ∉ freed
  freed_lt : ∀ p ∈ freed, p < next
  nodup : freed.Nodup

namespace Heap

variable {h h' : Heap β} {p q : ℕ} {x y : β}

theorem lt_next (hp : h.get p = some x) : p < h.next :=
  ((h.live_iff p).1 (by rw [hp]; exact Option.some_ne_none x)).1

theorem ne_next (hp : h.get p = some x) : p ≠ h.next := Nat.ne_of_lt (lt_next hp)

theorem ne_of_get (hp : h.get p = some x) (hq : h.get q = some y) (hxy : x ≠ y) : p ≠ q := by
  rintro rfl
  exact hxy (Option.some.inj (hp.symm.trans hq))

/-- A heap in which nothing has been allocated. -/
def empty : Heap β where
  get _ := none
  next := 0
  freed := []
  live_iff p := by simp
  freed_lt p hp := absurd hp List.not_mem_nil
  nodup := List.nodup_nil

/-- Allocates an object, whose number is `h.next`. -/
def alloc (h : Heap β) (x : β) : Heap β where
  get := Function.update h.get h.next (some x)
  next := h.next + 1
  freed := h.freed
  live_iff p := by
    by_cases hp : p = h.next
    · subst hp
      have hfresh : h.next ∉ h.freed := fun hmem => Nat.lt_irrefl _ (h.freed_lt _ hmem)
      simp [hfresh]
    · rw [Function.update_of_ne hp, h.live_iff]
      constructor
      · intro hlive
        exact ⟨Nat.lt_succ_of_lt hlive.1, hlive.2⟩
      · intro hlive
        exact ⟨by omega, hlive.2⟩
  freed_lt p hp := Nat.lt_succ_of_lt (h.freed_lt p hp)
  nodup := h.nodup

@[simp] theorem get_alloc_next (h : Heap β) (x : β) : (h.alloc x).get h.next = some x :=
  Function.update_self ..

theorem get_alloc_of_ne (h : Heap β) (x : β) (hp : p ≠ h.next) : (h.alloc x).get p = h.get p :=
  Function.update_of_ne hp ..

/-- What is live stays as it is. -/
theorem get_alloc (hp : h.get p = some x) : (h.alloc y).get p = some x := by
  rw [get_alloc_of_ne h y (ne_next hp), hp]

/-- Changes a live object. -/
def set (h : Heap β) (p : ℕ) (x : β) : Option (Heap β) :=
  if hp : h.get p ≠ none then
    some { h with
      get := Function.update h.get p (some x)
      live_iff := fun q => by
        by_cases hq : q = p
        · subst hq
          simpa using (h.live_iff q).1 hp
        · rw [Function.update_of_ne hq, h.live_iff] }
  else none

/-- **Changing an object** changes no other one. -/
theorem set_some (hp : h.get p = some x) (y : β) : ∃ h', h.set p y = some h' ∧
    h'.get = Function.update h.get p (some y) ∧ h'.next = h.next ∧ h'.freed = h.freed :=
  ⟨_, dif_pos (by rw [hp]; exact Option.some_ne_none x), rfl, rfl, rfl⟩

/-- Frees a live object. -/
def free (h : Heap β) (p : ℕ) : Option (Heap β) :=
  if hp : h.get p ≠ none then
    some {
      get := Function.update h.get p none
      next := h.next
      freed := h.freed ++ [p]
      live_iff := fun q => by
        by_cases hq : q = p
        · subst hq
          simp
        · rw [Function.update_of_ne hq, h.live_iff]
          simp [hq]
      freed_lt := fun q hq => by
        rcases List.mem_append.1 hq with hq | hq
        · exact h.freed_lt q hq
        · rw [List.mem_singleton.1 hq]
          exact ((h.live_iff p).1 hp).1
      nodup := by
        rw [List.nodup_append]
        refine ⟨h.nodup, by simp, fun a ha b hb => ?_⟩
        rw [List.mem_singleton.1 hb]
        rintro rfl
        exact ((h.live_iff a).1 hp).2 ha }
  else none

/-- **Freeing an object** leaves the others alone. -/
theorem free_some (hp : h.get p = some x) : ∃ h', h.free p = some h' ∧
    h'.get = Function.update h.get p none ∧ h'.next = h.next ∧ h'.freed = h.freed ++ [p] :=
  ⟨_, dif_pos (by rw [hp]; exact Option.some_ne_none x), rfl, rfl, rfl⟩

/-! ## What a program adds -/

/-- The objects of `h` are as they were, and those that `h'` has beyond them satisfy `P`. -/
structure Adds (h : Heap β) (P : ℕ → β → Prop) (h' : Heap β) : Prop where
  next_le : h.next ≤ h'.next
  kept : ∀ p, p < h.next → h'.get p = h.get p
  added : ∀ p x, h.next ≤ p → h'.get p = some x → P p x

namespace Adds

variable {P Q : ℕ → β → Prop}

theorem refl (P : ℕ → β → Prop) (h : Heap β) : h.Adds P h where
  next_le := Nat.le_refl _
  kept _ _ := rfl
  added _ _ hle hget := absurd (lt_next hget) (Nat.not_lt_of_le hle)

theorem get {h₀ : Heap β} (hadds : h₀.Adds P h) (hp : h₀.get p = some x) : h.get p = some x := by
  rw [hadds.kept p (lt_next hp), hp]

theorem mono (hadds : h.Adds P h') (hPQ : ∀ p x, h'.get p = some x → P p x → Q p x) :
    h.Adds Q h' where
  next_le := hadds.next_le
  kept := hadds.kept
  added p x hle hget := hPQ p x hget (hadds.added p x hle hget)

theorem trans {h'' : Heap β} (hadds : h.Adds P h') (hadds' : h'.Adds Q h'')
    (hPQ : ∀ p x, Q p x → P p x) : h.Adds P h'' where
  next_le := Nat.le_trans hadds.next_le hadds'.next_le
  kept p hp := by
    rw [hadds'.kept p (Nat.lt_of_lt_of_le hp hadds.next_le), hadds.kept p hp]
  added p x hle hget := by
    rcases Nat.lt_or_ge p h'.next with hlt | hge
    · rw [hadds'.kept p hlt] at hget
      exact hadds.added p x hle hget
    · exact hPQ p x (hadds'.added p x hge hget)

theorem alloc {h₀ : Heap β} (hadds : h₀.Adds P h) (hx : P h.next x) : h₀.Adds P (h.alloc x) where
  next_le := Nat.le_succ_of_le hadds.next_le
  kept q hq := by
    have hne : q ≠ h.next := Nat.ne_of_lt (Nat.lt_of_lt_of_le hq hadds.next_le)
    rw [get_alloc_of_ne h x hne, hadds.kept q hq]
  added q y hle hget := by
    by_cases hq : q = h.next
    · subst hq
      rw [get_alloc_next] at hget
      rwa [← Option.some.inj hget]
    · rw [get_alloc_of_ne h x hq] at hget
      exact hadds.added q y hle hget

/-- An object that is not one of `h₀` is changed or freed. -/
theorem update {h₀ : Heap β} {y : Option β} (hadds : h₀.Adds P h) (hp : h₀.next ≤ p)
    (hnext : h'.next = h.next) (hget : h'.get = Function.update h.get p y)
    (hy : ∀ x, y = some x → P p x) : h₀.Adds P h' where
  next_le := by
    rw [hnext]
    exact hadds.next_le
  kept q hq := by
    rw [hget, Function.update_of_ne (by omega), hadds.kept q hq]
  added q x hle hx := by
    rw [hget] at hx
    by_cases hq : q = p
    · subst hq
      rw [Function.update_self] at hx
      exact hy x hx
    · rw [Function.update_of_ne hq] at hx
      exact hadds.added q x hle hx

/-- Objects that are not of `h₀` are freed. -/
theorem without {h₀ : Heap β} {S : ℕ → Prop} (hadds : h₀.Adds P h) (hS : ∀ q, S q → h₀.next ≤ q)
    (hnext : h'.next = h.next) (hfreed : ∀ q, S q → h'.get q = none)
    (hkept : ∀ q, ¬S q → h'.get q = h.get q) (hPQ : ∀ q x, ¬S q → P q x → Q q x) :
    h₀.Adds Q h' where
  next_le := by
    rw [hnext]
    exact hadds.next_le
  kept q hq := by
    rw [hkept q fun hqS => Nat.not_lt_of_le (hS q hqS) hq, hadds.kept q hq]
  added q x hle hx := by
    have hqS : ¬S q := by
      intro hqS
      rw [hfreed q hqS] at hx
      cases hx
    rw [hkept q hqS] at hx
    exact hPQ q x hqS (hadds.added q x hle hx)

/-- All that has been added is freed. -/
theorem freed {h₀ : Heap β} (hadds : h₀.Adds (fun q _ => q = p) h) (hp : h₀.next ≤ p)
    (hnext : h'.next = h.next) (hget : h'.get = Function.update h.get p none) :
    h₀.Adds (fun _ _ => False) h' := by
  apply hadds.without (S := (· = p)) _ hnext
  · rintro q rfl
    rw [hget, Function.update_self]
  · intro q hq
    rw [hget, Function.update_of_ne hq]
  · exact fun q x hq heq => hq heq
  · rintro q rfl
    exact hp

/-- All that has been added is moved to a new object. -/
theorem moved {h₀ : Heap β} (hadds : h₀.Adds (fun q _ => q = p) h) (hp : h₀.next ≤ p)
    (hnext : h'.next = h.next + 1)
    (hget : h'.get = Function.update (Function.update h.get h.next (some x)) p none) :
    h₀.Adds (fun q _ => q = h.next) h' := by
  have hboth : h₀.Adds (fun q _ => q = p ∨ q = h.next) (h.alloc x) :=
    (hadds.mono fun q y hq hqp => .inl hqp).alloc (.inr rfl)
  apply hboth.without (S := (· = p)) _ hnext
  · rintro q rfl
    rw [hget, Function.update_self]
  · intro q hq
    rw [hget, Function.update_of_ne hq]
    rfl
  · exact fun q y hq hor => hor.resolve_left hq
  · rintro q rfl
    exact hp

end Adds

end Heap

/-! ## Programs on heaps -/

/-- A program that changes the heap and may end in a fault. -/
abbrev HeapProg (ε β : Type) := StateT (Heap β) (Except ε)

section Programs

variable {ε β α γ : Type} {h h' h'' : Heap β}

/-- `c`, begun in `h`, returns `a` in `h'`. -/
def Exec (c : HeapProg ε β α) (h : Heap β) (a : α) (h' : Heap β) : Prop := c h = .ok (a, h')

/-- `c`, begun in `h`, ends in a fault. -/
def Faults (c : HeapProg ε β α) (h : Heap β) : Prop := ∃ e, c h = .error e

/-- First parts that do the same, though from other heaps, are interchangeable. -/
theorem bind_congr_left {c c' : HeapProg ε β α} (heq : c h = c' h') (k : α → HeapProg ε β γ) :
    (c >>= k) h = (c' >>= k) h' := by
  show c h >>= (fun r => k r.1 r.2) = c' h' >>= _
  rw [heq]

namespace Exec

variable {c : HeapProg ε β α} {k : α → HeapProg ε β γ} {a : α} {b : γ}

theorem pure (a : α) (h : Heap β) : Exec (pure a : HeapProg ε β α) h a h := rfl

theorem bind_eq (hc : Exec c h a h') (k : α → HeapProg ε β γ) : (c >>= k) h = k a h' := by
  show c h >>= (fun r => k r.1 r.2) = _
  rw [hc]
  rfl

theorem bind (hc : Exec c h a h') (hk : Exec (k a) h' b h'') : Exec (c >>= k) h b h'' :=
  (hc.bind_eq k).trans hk

theorem bind_faults (hc : Exec c h a h') (hk : Faults (k a) h') : Faults (c >>= k) h := by
  obtain ⟨e, hk⟩ := hk
  exact ⟨e, (hc.bind_eq k).trans hk⟩

theorem not_faults (hc : Exec c h a h') : ¬Faults c h := by
  intro hfault
  obtain ⟨e, hfault⟩ := hfault
  rw [hc] at hfault
  cases hfault

end Exec

theorem Faults.bind {c : HeapProg ε β α} (hc : Faults c h) (k : α → HeapProg ε β γ) :
    Faults (c >>= k) h := by
  obtain ⟨e, hc⟩ := hc
  refine ⟨e, ?_⟩
  show c h >>= (fun r => k r.1 r.2) = _
  rw [hc]
  rfl

/-- A program ends in a fault if whatever follows its first part does. -/
theorem Faults.of_forall (c : HeapProg ε β α) {k : α → HeapProg ε β γ}
    (hk : ∀ a h', Faults (k a) h') : Faults (c >>= k) h := by
  cases hc : c h with
  | error e => exact Faults.bind ⟨e, hc⟩ k
  | ok r => exact Exec.bind_faults (show Exec c h r.1 r.2 from hc) (hk r.1 r.2)

end Programs

end XcpNgGeneric
