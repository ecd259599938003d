import Mathlib.Data.List.Basic
import Mathlib.Logic.Function.Basic

/-!
# Intrusive singly-linked tail queues

The `STAILQ` macros of `sys/queue.h`, over a memory of pointer cells. An element carries one
`next` cell, so it can be linked in one queue at a time; a head carries the cell `first` and the
address `last` of the cell an insertion at the tail writes. Nothing in the macros checks that an
element is free, that two queues are apart, or that a head was initialised.

* `Queue m h xs`: from `first` of the head `h`, following `next`, one visits `xs` and reaches
  `NULL`, and `last` is the address of the final cell.
* `Queues m L q`: the live heads `L` hold pairwise disjoint queues, `q h` at `h`. Each macro acts
  on such a family as its list operation does (`Queues.init`, `Queues.insertTail`,
  `Queues.removeHead`, `Queues.concat`), provided what is inserted is in no queue.
-/

namespace XcpNgGeneric.TailQueue

/-- The address of a pointer cell: the `first` of a head or the `next` of an element. -/
inductive Cell (ι κ : Type*)
  | first (h : κ)
  | next (x : ι)
  deriving DecidableEq

/-- The cells of all heads `κ` and all elements `ι`. `none` is `NULL`. -/
structure Mem (ι κ : Type*) where
  next : ι → Option ι
  first : κ → Option ι
  last : κ → Option (Cell ι κ)

variable {ι κ : Type*}

/-! ## The macros -/

namespace Mem

/-- The element reached from the head `h` after `k` links. -/
def walk (m : Mem ι κ) (h : κ) : ℕ → Option ι
  | 0 => m.first h
  | k + 1 => (walk m h k).bind m.next

section Heads

variable [DecidableEq κ]

/-- `(head)->stqh_last = c`. -/
def setLast (m : Mem ι κ) (h : κ) (c : Option (Cell ι κ)) : Mem ι κ :=
  { m with last := Function.update m.last h c }

@[simp] theorem setLast_next (m : Mem ι κ) (h : κ) (c : Option (Cell ι κ)) :
    (m.setLast h c).next = m.next := rfl

@[simp] theorem setLast_first (m : Mem ι κ) (h : κ) (c : Option (Cell ι κ)) :
    (m.setLast h c).first = m.first := rfl

@[simp] theorem setLast_last (m : Mem ι κ) (h : κ) (c : Option (Cell ι κ)) :
    (m.setLast h c).last = Function.update m.last h c := rfl

end Heads

variable [DecidableEq ι] [DecidableEq κ]

/-- `*c = v`. -/
def store (m : Mem ι κ) (c : Cell ι κ) (v : Option ι) : Mem ι κ :=
  match c with
  | .first h => { m with first := Function.update m.first h v }
  | .next x => { m with next := Function.update m.next x v }

/-- `STAILQ_INIT`. -/
def init (m : Mem ι κ) (h : κ) : Mem ι κ :=
  (m.store (.first h) none).setLast h (some (.first h))

/-- `STAILQ_INSERT_TAIL`. `none` is the write through a `NULL` tail address. -/
def insertTail (m : Mem ι κ) (h : κ) (x : ι) : Option (Mem ι κ) :=
  let m₁ := m.store (.next x) none
  match m₁.last h with
  | none => none
  | some c => some ((m₁.store c (some x)).setLast h (some (.next x)))

/-- `STAILQ_REMOVE_HEAD`. `none` is the read through a `NULL` first element. -/
def removeHead (m : Mem ι κ) (h : κ) : Option (Mem ι κ) :=
  match m.first h with
  | none => none
  | some x =>
    let m₁ := m.store (.first h) (m.next x)
    if m₁.first h = none then some (m₁.setLast h (some (.first h))) else some m₁

/-- `STAILQ_CONCAT`. `none` is the write through a `NULL` tail address of `h₁`. -/
def concat (m : Mem ι κ) (h₁ h₂ : κ) : Option (Mem ι κ) :=
  match m.first h₂ with
  | none => some m
  | some x =>
    match m.last h₁ with
    | none => none
    | some c => some (((m.store c (some x)).setLast h₁ (m.last h₂)).init h₂)

@[simp] theorem store_last (m : Mem ι κ) (c : Cell ι κ) (v : Option ι) :
    (m.store c v).last = m.last := by
  cases c <;> rfl

@[simp] theorem store_first_first (m : Mem ι κ) (h : κ) (v : Option ι) :
    (m.store (.first h) v).first = Function.update m.first h v := rfl

@[simp] theorem store_first_next (m : Mem ι κ) (h : κ) (v : Option ι) :
    (m.store (.first h) v).next = m.next := rfl

@[simp] theorem store_next_next (m : Mem ι κ) (x : ι) (v : Option ι) :
    (m.store (.next x) v).next = Function.update m.next x v := rfl

@[simp] theorem store_next_first (m : Mem ι κ) (x : ι) (v : Option ι) :
    (m.store (.next x) v).first = m.first := rfl

@[simp] theorem init_next (m : Mem ι κ) (h : κ) : (m.init h).next = m.next := rfl

@[simp] theorem init_first (m : Mem ι κ) (h : κ) :
    (m.init h).first = Function.update m.first h none := rfl

@[simp] theorem init_last (m : Mem ι κ) (h : κ) :
    (m.init h).last = Function.update m.last h (some (.first h)) := rfl

theorem store_first_of_ne (m : Mem ι κ) {c : Cell ι κ} {h : κ} (v : Option ι)
    (hc : c ≠ .first h) : (m.store c v).first h = m.first h := by
  cases c with
  | first k => exact Function.update_of_ne (fun e => hc (by rw [e])) _ _
  | next x => rfl

theorem store_next_of_ne (m : Mem ι κ) {c : Cell ι κ} {x : ι} (v : Option ι)
    (hc : c ≠ .next x) : (m.store c v).next x = m.next x := by
  cases c with
  | first k => rfl
  | next y => exact Function.update_of_ne (fun e => hc (by rw [e])) _ _

theorem insertTail_eq {m : Mem ι κ} {h : κ} {c : Cell ι κ} (hc : m.last h = some c) (x : ι) :
    m.insertTail h x =
      some (((m.store (.next x) none).store c (some x)).setLast h (some (.next x))) := by
  simp [insertTail, hc]

theorem removeHead_last {m : Mem ι κ} {h : κ} {x : ι} (hx : m.first h = some x)
    (hn : m.next x = none) :
    m.removeHead h = some ((m.store (.first h) none).setLast h (some (.first h))) := by
  simp [removeHead, hx, hn]

theorem removeHead_next {m : Mem ι κ} {h : κ} {x y : ι} (hx : m.first h = some x)
    (hn : m.next x = some y) : m.removeHead h = some (m.store (.first h) (some y)) := by
  simp [removeHead, hx, hn]

theorem concat_empty {m : Mem ι κ} {h₂ : κ} (hx : m.first h₂ = none) (h₁ : κ) :
    m.concat h₁ h₂ = some m := by
  simp [concat, hx]

theorem concat_eq {m : Mem ι κ} {h₁ h₂ : κ} {x : ι} {c : Cell ι κ} (hx : m.first h₂ = some x)
    (hc : m.last h₁ = some c) :
    m.concat h₁ h₂ = some (((m.store c (some x)).setLast h₁ (m.last h₂)).init h₂) := by
  simp [concat, hx, hc]

end Mem

/-! ## Segments -/

/-- Following `next` from the pointer `o`, one visits `xs` and then holds the pointer `o'`. -/
def Seg (next : ι → Option ι) : Option ι → List ι → Option ι → Prop
  | o, [], o' => o = o'
  | o, x :: xs, o' => o = some x ∧ Seg next (next x) xs o'

@[simp] theorem seg_nil {next : ι → Option ι} {o o' : Option ι} : Seg next o [] o' ↔ o = o' :=
  Iff.rfl

@[simp] theorem seg_cons {next : ι → Option ι} {o o' : Option ι} {x : ι} {xs : List ι} :
    Seg next o (x :: xs) o' ↔ o = some x ∧ Seg next (next x) xs o' :=
  Iff.rfl

theorem seg_append {next : ι → Option ι} {o o' : Option ι} {xs ys : List ι} :
    Seg next o (xs ++ ys) o' ↔ ∃ p, Seg next o xs p ∧ Seg next p ys o' := by
  induction xs generalizing o with
  | nil => simp
  | cons x xs ih => simp only [List.cons_append, seg_cons, ih]; tauto

theorem Seg.congr {next next' : ι → Option ι} {o o' : Option ι} {xs : List ι}
    (h : Seg next o xs o') (hn : ∀ x ∈ xs, next' x = next x) : Seg next' o xs o' := by
  induction xs generalizing o with
  | nil => exact h
  | cons x xs ih =>
    refine ⟨h.1, ?_⟩
    rw [hn x (by simp)]
    exact ih h.2 fun y hy => hn y (by simp [hy])

/-- A segment is the beginning of the path to `NULL` from its pointer. -/
theorem Seg.split_of_path {next : ι → Option ι} {o p : Option ι} {xs ys : List ι}
    (h : Seg next o xs p) (h' : Seg next o ys none) : ∃ zs, ys = xs ++ zs ∧ Seg next p zs none := by
  induction xs generalizing o ys with
  | nil => exact ⟨ys, rfl, h ▸ h'⟩
  | cons x xs ih =>
    cases ys with
    | nil => cases h.1.symm.trans h'
    | cons y ys =>
      obtain rfl : x = y := Option.some.inj (h.1.symm.trans h'.1)
      obtain ⟨zs, rfl, hz⟩ := ih h.2 h'.2
      exact ⟨zs, rfl, hz⟩

/-- Two paths to `NULL` from one pointer visit the same elements. -/
theorem Seg.unique {next : ι → Option ι} {o : Option ι} {xs ys : List ι}
    (h : Seg next o xs none) (h' : Seg next o ys none) : xs = ys := by
  obtain ⟨zs, rfl, hz⟩ := h.split_of_path h'
  cases zs with
  | nil => simp
  | cons z zs => cases hz.1

theorem Seg.next_eq {next : ι → Option ι} {o : Option ι} {xs : List ι} (h : Seg next o xs none)
    {k : ℕ} {c : ι} (hc : xs[k]? = some c) : next c = xs[k + 1]? := by
  induction xs generalizing o k with
  | nil => simp at hc
  | cons x xs ih =>
    cases k with
    | succ k => exact ih h.2 hc
    | zero =>
      obtain rfl : x = c := by simpa using hc
      cases xs with
      | nil => exact h.2
      | cons y ys => exact h.2.1

/-- A path to `NULL` visits no element twice: the path from a repeated element would be longer
than itself. -/
theorem Seg.nodup {next : ι → Option ι} {o : Option ι} {xs : List ι} (h : Seg next o xs none) :
    xs.Nodup := by
  induction xs generalizing o with
  | nil => exact List.nodup_nil
  | cons x xs ih =>
    refine List.nodup_cons.2 ⟨fun hx => ?_, ih h.2⟩
    obtain ⟨as, bs, rfl⟩ := List.append_of_mem hx
    obtain ⟨p, -, hp⟩ := seg_append.1 h.2
    have hlen := congrArg List.length (h.2.unique hp.2)
    simp only [List.length_append, List.length_cons] at hlen
    omega

/-! ## One queue -/

/-- The address of the cell that ends the queue `xs` at the head `h`. -/
def tailCell (h : κ) (xs : List ι) : Cell ι κ :=
  match xs.getLast? with
  | none => .first h
  | some x => .next x

@[simp] theorem tailCell_nil (h : κ) : tailCell h ([] : List ι) = .first h := rfl

@[simp] theorem tailCell_concat (h : κ) (xs : List ι) (x : ι) :
    tailCell h (xs ++ [x]) = .next x := by
  simp [tailCell]

theorem tailCell_append (h h' : κ) (xs : List ι) {ys : List ι} (hy : ys ≠ []) :
    tailCell h (xs ++ ys) = tailCell h' ys := by
  obtain ⟨zs, z, rfl⟩ := (List.eq_nil_or_concat ys).resolve_left hy
  rw [List.concat_eq_append, ← List.append_assoc, tailCell_concat, tailCell_concat]

theorem tailCell_ne_next {h : κ} {xs : List ι} {x : ι} (hx : x ∉ xs) :
    tailCell h xs ≠ .next x := by
  rcases List.eq_nil_or_concat xs with rfl | ⟨ys, y, rfl⟩
  · simp
  · rw [List.concat_eq_append, tailCell_concat]
    rintro ⟨rfl⟩
    simp at hx

theorem tailCell_ne_first {h h' : κ} {xs : List ι} (hh : h ≠ h') :
    tailCell h xs ≠ .first h' := by
  rcases List.eq_nil_or_concat xs with rfl | ⟨ys, y, rfl⟩
  · simpa using hh
  · simp [List.concat_eq_append]

/-- The head `h` holds the queue `xs`. -/
structure Queue (m : Mem ι κ) (h : κ) (xs : List ι) : Prop where
  seg : Seg m.next (m.first h) xs none
  last : m.last h = some (tailCell h xs)

namespace Queue

variable {m : Mem ι κ} {h : κ} {xs ys : List ι}

theorem nodup (hq : Queue m h xs) : xs.Nodup := hq.seg.nodup

theorem first_eq (hq : Queue m h xs) : m.first h = xs.head? := by
  cases xs with
  | nil => exact hq.seg
  | cons x xs => exact hq.seg.1

theorem first_eq_none (hq : Queue m h xs) : m.first h = none ↔ xs = [] := by
  rw [hq.first_eq, List.head?_eq_none_iff]

/-- The first element is not its own successor. -/
theorem next_first_ne (hq : Queue m h xs) {x : ι} (hx : m.first h = some x) :
    m.next x ≠ some x := by
  intro hn
  obtain ⟨ys, rfl⟩ := List.head?_eq_some_iff.1 (hq.first_eq.symm.trans hx)
  have hseg := hq.seg.2
  rw [hn] at hseg
  cases ys with
  | nil => cases hseg
  | cons y ys =>
    obtain rfl : x = y := Option.some.inj hseg.1
    exact (List.nodup_cons.1 hq.nodup).1 (by simp)

theorem walk_eq (hq : Queue m h xs) (k : ℕ) : m.walk h k = xs[k]? := by
  induction k with
  | zero => rw [Mem.walk, hq.first_eq, List.head?_eq_getElem?]
  | succ k ih =>
    rw [Mem.walk, ih]
    cases hc : xs[k]? with
    | none =>
      rw [List.getElem?_eq_none_iff] at hc
      rw [List.getElem?_eq_none (by omega), Option.bind_none]
    | some c => exact hq.seg.next_eq hc

variable [DecidableEq κ]

theorem setLast {h' : κ} {c : Option (Cell ι κ)} (hq : Queue m h xs) (hh : h' ≠ h) :
    Queue (m.setLast h' c) h xs :=
  ⟨hq.seg, by rw [Mem.setLast_last, Function.update_of_ne hh.symm]; exact hq.last⟩

variable [DecidableEq ι]

/-- Writing a cell outside a queue leaves the queue alone. -/
theorem store {c : Cell ι κ} (hq : Queue m h xs) (v : Option ι) (hf : c ≠ .first h)
    (hn : ∀ x ∈ xs, c ≠ .next x) : Queue (m.store c v) h xs := by
  refine ⟨?_, by rw [Mem.store_last]; exact hq.last⟩
  rw [Mem.store_first_of_ne m v hf]
  exact hq.seg.congr fun x hx => Mem.store_next_of_ne m v (hn x hx)

/-- Writing the final cell of a queue redirects its end. -/
theorem seg_store_tail (hq : Queue m h xs) (v : Option ι) :
    Seg (m.store (tailCell h xs) v).next ((m.store (tailCell h xs) v).first h) xs v := by
  rcases List.eq_nil_or_concat xs with rfl | ⟨ys, z, rfl⟩
  · simp
  · simp only [List.concat_eq_append] at hq ⊢
    rw [tailCell_concat]
    obtain ⟨p, hys, hp, -⟩ := seg_append.1 hq.seg
    have hz : z ∉ ys := fun hz =>
      (List.nodup_append.1 hq.nodup).2.2 z hz z (by simp) rfl
    refine seg_append.2 ⟨p, hys.congr fun x hx => ?_, hp, by simp⟩
    exact Function.update_of_ne (fun e : x = z => hz (e ▸ hx)) _ _

theorem init (m : Mem ι κ) (h : κ) : Queue (m.init h) h [] := ⟨by simp, by simp⟩

theorem init_of_ne {h' : κ} (hq : Queue m h xs) (hh : h' ≠ h) : Queue (m.init h') h xs :=
  (hq.store none (by simpa using hh) (by simp)).setLast hh

/-- The queue an element is inserted in, when the element is not yet one of its own. -/
theorem insertTail (hq : Queue m h xs) {x : ι} (hx : x ∉ xs) :
    Queue (((m.store (.next x) none).store (tailCell h xs) (some x)).setLast h (some (.next x))) h
      (xs ++ [x]) := by
  have hq₁ : Queue (m.store (.next x) none) h xs := hq.store none (by simp) fun y hy => by
    rintro ⟨rfl⟩
    exact hx hy
  refine ⟨seg_append.2 ⟨some x, hq₁.seg_store_tail (some x), rfl, ?_⟩, by simp⟩
  -- the link of `x` is still the `NULL` just written: `x` does not end the queue
  rw [Mem.setLast_next, seg_nil, Mem.store_next_of_ne _ _ (tailCell_ne_next hx)]
  simp

end Queue

/-! ## Disjoint queues -/

/-- The heads `L` hold pairwise disjoint queues. -/
structure Queues (m : Mem ι κ) (L : κ → Prop) (q : κ → List ι) : Prop where
  queue : ∀ h, L h → Queue m h (q h)
  off : ∀ h, ¬ L h → q h = []
  disjoint : ∀ h h', h ≠ h' → List.Disjoint (q h) (q h')

namespace Queues

variable {m : Mem ι κ} {L : κ → Prop} {q : κ → List ι} {h : κ}

theorem live_of_mem (hq : Queues m L q) {x : ι} (hx : x ∈ q h) : L h := by
  by_contra hL
  rw [hq.off h hL] at hx
  cases hx

/-- An element is in one queue at most. -/
theorem head_unique (hq : Queues m L q) {x : ι} {h' : κ} (hx : x ∈ q h) (hx' : x ∈ q h') :
    h = h' := by
  by_contra hne
  exact hq.disjoint h h' hne hx hx'

theorem nodup (hq : Queues m L q) (h : κ) : (q h).Nodup := by
  by_cases hL : L h
  · exact (hq.queue h hL).nodup
  · rw [hq.off h hL]
    exact List.nodup_nil

/-- A head that goes out of scope while its queue is empty. -/
theorem drop (hq : Queues m L q) (he : q h = []) : Queues m (fun k => k ≠ h ∧ L k) q where
  queue k hk := hq.queue k hk.2
  off k hk := by
    by_cases hkh : k = h
    · subst hkh
      exact he
    · exact hq.off k fun hL => hk ⟨hkh, hL⟩
  disjoint := hq.disjoint

variable [DecidableEq κ]

/-- The `off` and `disjoint` fields after one queue has been replaced by a list that takes
nothing from the others. -/
theorem disjoint_update (hq : Queues m L q) {xs : List ι}
    (hx : ∀ h', h' ≠ h → List.Disjoint xs (q h')) (k k' : κ) (hk : k ≠ k') :
    List.Disjoint (Function.update q h xs k) (Function.update q h xs k') := by
  by_cases hkh : k = h
  · subst hkh
    rw [Function.update_self, Function.update_of_ne hk.symm]
    exact hx k' hk.symm
  · by_cases hkh' : k' = h
    · subst hkh'
      rw [Function.update_self, Function.update_of_ne hk]
      exact fun y hy hy' => hx k hk hy' hy
    · rw [Function.update_of_ne hkh, Function.update_of_ne hkh']
      exact hq.disjoint k k' hk

variable [DecidableEq ι]

theorem init (hq : Queues m L q) (h : κ) :
    Queues (m.init h) (fun k => k = h ∨ L k) (Function.update q h []) where
  queue k hk := by
    rcases eq_or_ne k h with rfl | hkh
    · rw [Function.update_self]
      exact .init m k
    · rw [Function.update_of_ne hkh]
      exact (hq.queue k (hk.resolve_left hkh)).init_of_ne hkh.symm
  off k hk := by
    by_cases hkh : k = h
    · subst hkh
      exact Function.update_self ..
    · rw [Function.update_of_ne hkh]
      exact hq.off k fun hL => hk (Or.inr hL)
  disjoint := hq.disjoint_update fun h' _ => by simp

/-- Writing the final cell of one queue leaves the others alone. -/
theorem store_tail_other (hq : Queues m L q) {k : κ} (hk : L k) (hkh : k ≠ h) (v : Option ι) :
    Queue (m.store (tailCell h (q h)) v) k (q k) := by
  apply (hq.queue k hk).store v (tailCell_ne_first hkh.symm)
  intro x hx
  exact tailCell_ne_next fun hx' => hq.disjoint k h hkh hx hx'

/-- Resetting the link of an element that is in no queue leaves every queue alone. -/
theorem store_next (hq : Queues m L q) {x : ι} (hx : ∀ k, x ∉ q k) (v : Option ι) :
    Queues (m.store (.next x) v) L q where
  queue k hk := (hq.queue k hk).store v (by simp) fun y hy => by
    rintro ⟨rfl⟩
    exact hx k hy
  off := hq.off
  disjoint := hq.disjoint

/-- **`STAILQ_INSERT_TAIL` appends**, when the element is in no queue. -/
theorem insertTail (hq : Queues m L q) (hL : L h) {x : ι} (hx : ∀ k, x ∉ q k) :
    ∃ m', m.insertTail h x = some m' ∧ Queues m' L (Function.update q h (q h ++ [x])) := by
  refine ⟨_, Mem.insertTail_eq (hq.queue h hL).last x, ?_, ?_, ?_⟩
  · intro k hk
    rcases eq_or_ne k h with rfl | hkh
    · rw [Function.update_self]
      exact (hq.queue k hk).insertTail (hx k)
    · rw [Function.update_of_ne hkh]
      exact ((hq.store_next hx none).store_tail_other hk hkh _).setLast hkh.symm
  · intro k hk
    rw [Function.update_of_ne (by rintro rfl; exact hk hL)]
    exact hq.off k hk
  · apply hq.disjoint_update
    intro h' hh'
    rw [List.disjoint_append_left]
    exact ⟨hq.disjoint h h' hh'.symm, by simpa using hx h'⟩

/-- **`STAILQ_REMOVE_HEAD` drops the first element.** -/
theorem removeHead (hq : Queues m L q) {x : ι} {xs : List ι} (hx : q h = x :: xs) :
    ∃ m', m.removeHead h = some m' ∧ Queues m' L (Function.update q h xs) := by
  have hL : L h := hq.live_of_mem (x := x) (by simp [hx])
  have hqh := hq.queue h hL
  rw [hx] at hqh
  have hfirst : m.first h = some x := hqh.seg.1
  have hother : ∀ k, L k → k ≠ h → ∀ v, Queue (m.store (.first h) v) k (q k) := fun k hk hkh v =>
    (hq.queue k hk).store v (by simpa using hkh.symm) (by simp)
  have hoff : ∀ k, ¬ L k → Function.update q h xs k = [] := fun k hk => by
    rw [Function.update_of_ne (by rintro rfl; exact hk hL)]
    exact hq.off k hk
  have hdisj : ∀ h', h' ≠ h → List.Disjoint xs (q h') := fun h' hh' y hy =>
    hq.disjoint h h' hh'.symm (by simp [hx, hy])
  cases xs with
  | nil =>
    have hnext : m.next x = none := hqh.seg.2
    refine ⟨_, Mem.removeHead_last hfirst hnext, fun k hk => ?_, hoff,
      hq.disjoint_update hdisj⟩
    rcases eq_or_ne k h with rfl | hkh
    · rw [Function.update_self]
      exact ⟨by simp, by simp⟩
    · rw [Function.update_of_ne hkh]
      exact (hother k hk hkh _).setLast hkh.symm
  | cons y ys =>
    have hnext : m.next x = some y := hqh.seg.2.1
    refine ⟨_, Mem.removeHead_next hfirst hnext, fun k hk => ?_, hoff,
      hq.disjoint_update hdisj⟩
    by_cases hkh : k = h
    · subst hkh
      rw [Function.update_self]
      refine ⟨⟨by simp, hqh.seg.2.2⟩, ?_⟩
      rw [Mem.store_last, hqh.last]
      exact congrArg some (tailCell_append k k [x] (by simp))
    · rw [Function.update_of_ne hkh]
      exact hother k hk hkh _

/-- **`STAILQ_CONCAT` appends the second queue to the first** and empties the second. -/
theorem concat (hq : Queues m L q) {h₁ h₂ : κ} (hne : h₁ ≠ h₂) (hL₁ : L h₁) (hL₂ : L h₂) :
    ∃ m', m.concat h₁ h₂ = some m' ∧
      Queues m' L (Function.update (Function.update q h₁ (q h₁ ++ q h₂)) h₂ []) := by
  have hq₁ := hq.queue h₁ hL₁
  have hq₂ := hq.queue h₂ hL₂
  cases hxs : q h₂ with
  | nil =>
    refine ⟨m, Mem.concat_empty (by rw [hq₂.first_eq, hxs]; rfl) h₁, ?_⟩
    rw [List.append_nil, Function.update_eq_self, ← hxs, Function.update_eq_self]
    exact hq
  | cons x xs =>
    have hfirst : m.first h₂ = some x := by rw [hq₂.first_eq, hxs]; rfl
    refine ⟨_, Mem.concat_eq hfirst hq₁.last, fun k hk => ?_, fun k hk => ?_, ?_⟩
    · rcases eq_or_ne k h₂ with rfl | hk₂
      · rw [Function.update_self]
        exact .init _ k
      rw [Function.update_of_ne hk₂]
      refine Queue.init_of_ne ?_ hk₂.symm
      rcases eq_or_ne k h₁ with rfl | hk₁
      · rw [Function.update_self, ← hxs]
        refine ⟨seg_append.2 ⟨some x, hq₁.seg_store_tail (some x), ?_⟩, ?_⟩
        · -- the second queue does not contain the cell that was written
          have := (hq.store_tail_other hL₂ hne.symm (some x)).seg
          rwa [Mem.store_first_of_ne _ _ (tailCell_ne_first hne), hfirst] at this
        · rw [Mem.setLast_last, Function.update_self, hq₂.last]
          exact congrArg some (tailCell_append k h₂ _ (by simp [hxs])).symm
      · rw [Function.update_of_ne hk₁]
        exact (hq.store_tail_other hk hk₁ _).setLast hk₁.symm
    · rw [Function.update_of_ne (by rintro rfl; exact hk hL₂),
        Function.update_of_ne (by rintro rfl; exact hk hL₁)]
      exact hq.off k hk
    · intro k k' hkk
      by_cases hk₂ : k = h₂
      · subst hk₂
        simp
      rcases eq_or_ne k' h₂ with rfl | hk₂'
      · simp
      rw [Function.update_of_ne hk₂, Function.update_of_ne hk₂', ← hxs]
      by_cases hk₁ : k = h₁
      · subst hk₁
        rw [Function.update_self, Function.update_of_ne hkk.symm, List.disjoint_append_left]
        exact ⟨hq.disjoint k k' hkk, hq.disjoint h₂ k' hk₂'.symm⟩
      · by_cases hk₁' : k' = h₁
        · subst hk₁'
          rw [Function.update_self, Function.update_of_ne hkk, List.disjoint_append_right]
          exact ⟨hq.disjoint k k' hkk, hq.disjoint k h₂ hk₂⟩
        · rw [Function.update_of_ne hk₁, Function.update_of_ne hk₁']
          exact hq.disjoint k k' hkk

end Queues

end XcpNgGeneric.TailQueue
