import XcpNgGeneric.Foundations.TailQueue

/-!
# Misuse of tail queues

The macros of `TailQueue` do not check that an inserted element is free. This module says what
is lost when it is not (`Queues.insertTail_keeps_iff`), and what survives any misuse:
`Anchored m h`, the part of `Queue m h xs` that is about the head alone, is kept by every macro
whatever the links have become, and so is `Avoids m x` as long as `x` itself is not inserted.
-/

namespace XcpNgGeneric.TailQueue

variable {ι κ : Type*}

/-! ## Inserting a linked element -/

namespace Queues

variable {m : Mem ι κ} {L : κ → Prop} {q : κ → List ι} {h : κ} [DecidableEq ι] [DecidableEq κ]

/-- Resetting the link of an element that ends its queue changes nothing. -/
theorem store_next_of_last (hq : Queues m L q) {x : ι} {k : κ} (hx : (q k).getLast? = some x) :
    m.store (.next x) none = m := by
  obtain ⟨as, he⟩ := List.getLast?_eq_some_iff.1 hx
  have hseg := (hq.queue k (hq.live_of_mem (x := x) (by simp [he]))).seg
  rw [he] at hseg
  obtain ⟨p, -, -, hn⟩ := seg_append.1 hseg
  simp only [Mem.store]
  rw [show Function.update m.next x none = m.next from hn ▸ Function.update_eq_self x m.next]

/-- The path to a linked element `x` is still there after an insertion of `x`, since only the
links of `x` and of the tail of the queue that receives it are written. -/
theorem seg_insertTail (hq : Queues m L q) {x : ι} {k : κ} {as bs : List ι}
    (hk : q k = as ++ x :: bs) (hm : m.last h = some (tailCell h (q h)))
    {m' : Mem ι κ} (hm' : m.insertTail h x = some m') :
    Seg m'.next (m'.first k) (as ++ [x]) (m'.next x) := by
  obtain rfl := Option.some.inj ((Mem.insertTail_eq hm x).symm.trans hm')
  have hqk := hq.queue k (hq.live_of_mem (x := x) (by simp [hk]))
  have hnd := hqk.nodup
  rw [hk] at hqk hnd
  -- the written cell is neither the `first` of `k` nor a link before `x`
  have hfirst : tailCell h (q h) ≠ .first k := by
    by_cases hne : h = k
    · subst hne
      rw [hk, tailCell_append h h _ (by simp)]
      simp [tailCell, List.getLast?_cons]
    · exact tailCell_ne_first hne
  have hnext : ∀ a ∈ as, tailCell h (q h) ≠ .next a := fun a ha => by
    by_cases hne : h = k
    · subst hne
      rw [hk, tailCell_append h h _ (by simp)]
      exact tailCell_ne_next fun ha' => (List.nodup_append.1 hnd).2.2 a ha a ha' rfl
    · exact tailCell_ne_next fun ha' => hq.disjoint h k hne ha' (by simp [hk, ha])
  obtain ⟨p, has, hp, -⟩ := seg_append.1 hqk.seg
  rw [Mem.setLast_first, Mem.setLast_next, Mem.store_first_of_ne _ _ hfirst]
  refine seg_append.2 ⟨p, has.congr fun a ha => ?_, hp, rfl⟩
  have hax : a ≠ x := fun e => (List.nodup_append.1 hnd).2.2 a ha x (by simp) e
  rw [Mem.store_next_of_ne _ _ (hnext a ha), Mem.store_next_next, Function.update_of_ne hax]

/-- If leaving out `x` shows no difference, then nothing stands behind `x`. -/
theorem eq_nil_of_filter_ne {x : ι} {as bs : List ι} (hnd : (as ++ x :: bs).Nodup)
    (h : (as ++ [x]).filter (· ≠ x) = (as ++ x :: bs).filter (· ≠ x)) : bs = [] := by
  rw [List.filter_append, List.filter_append] at h
  have hb := List.append_cancel_left h
  simp only [ne_eq, decide_not, List.filter_cons, List.filter_nil, decide_true, Bool.not_true,
    Bool.false_eq_true, if_false] at hb
  apply List.eq_nil_iff_forall_not_mem.2
  intro b hbmem
  have hbx : b ≠ x := by
    rintro rfl
    exact (List.nodup_cons.1 (List.nodup_append.1 hnd).2.1).1 hbmem
  have hleft : b ∈ bs.filter fun y => !decide (y = x) := by simp [hbmem, hbx]
  rw [← hb] at hleft
  cases hleft

/-- **What inserting a linked element destroys.** The insertion of `x` at the tail of `h` leaves
every queue a queue with the same other elements in the same order if and only if `x` is in no
queue, or is the last element of a queue other than `h`: otherwise the elements behind `x` are
cut off, or `x` becomes its own successor. -/
theorem insertTail_keeps_iff (hq : Queues m L q) (hL : L h) {x : ι} {m' : Mem ι κ}
    (hm' : m.insertTail h x = some m') :
    (∀ k, L k → ∃ ys, Queue m' k ys ∧ ys.filter (· ≠ x) = (q k).filter (· ≠ x)) ↔
      ∀ k, x ∈ q k → k ≠ h ∧ (q k).getLast? = some x := by
  have hlast := (hq.queue h hL).last
  constructor
  · intro hkeep k hx
    obtain ⟨ys, hys, hfilter⟩ := hkeep k (hq.live_of_mem hx)
    obtain ⟨as, bs, hk⟩ := List.append_of_mem hx
    obtain ⟨zs, rfl, hzs⟩ := (hq.seg_insertTail hk hlast hm').split_of_path hys.seg
    have hnd := hys.nodup
    obtain rfl := Option.some.inj ((Mem.insertTail_eq hlast x).symm.trans hm')
    by_cases hc : tailCell h (q h) = .next x
    · -- `x` ends the queue `h` and is linked to itself
      rw [hc, Mem.setLast_next, Mem.store_next_next, Function.update_self] at hzs
      cases zs with
      | nil => cases hzs
      | cons z zs =>
        obtain rfl := Option.some.inj hzs.1
        simp [List.nodup_append] at hnd
    · -- the link of `x` is `NULL`: what was behind `x` is gone
      rw [Mem.setLast_next, Mem.store_next_of_ne _ _ hc, Mem.store_next_next,
        Function.update_self] at hzs
      obtain rfl : zs = [] := by
        cases zs with
        | nil => rfl
        | cons z zs => cases hzs.1
      have hndk := hq.nodup k
      rw [hk] at hfilter hndk
      have hbs : bs = [] := by
        apply eq_nil_of_filter_ne hndk
        rw [← hfilter, List.append_nil]
      subst hbs
      refine ⟨?_, by rw [hk]; simp⟩
      rintro rfl
      exact hc (by rw [hk, tailCell_concat])
  · intro hx k hk
    have hxh : x ∉ q h := fun hxh => (hx h hxh).1 rfl
    -- resetting the link of `x` is harmless, whether `x` is free or ends another queue
    have hq₁ : Queues (m.store (.next x) none) L q := by
      by_cases hex : ∃ k, x ∈ q k
      · obtain ⟨k', hk'⟩ := hex
        rw [hq.store_next_of_last (hx k' hk').2]
        exact hq
      · exact hq.store_next (fun k' hk' => hex ⟨k', hk'⟩) none
    obtain rfl := Option.some.inj ((Mem.insertTail_eq hlast x).symm.trans hm')
    rcases eq_or_ne k h with rfl | hkh
    · exact ⟨_, (hq.queue k hk).insertTail hxh, by simp⟩
    · exact ⟨_, (hq₁.store_tail_other hk hkh _).setLast hkh.symm, rfl⟩

end Queues

/-! ## Anchored heads -/

/-- The head is empty and ends at itself, or is not empty and ends at some element. Unlike
`Queue`, this survives the insertion of elements that are already linked. -/
def Anchored (m : Mem ι κ) (h : κ) : Prop :=
  (m.first h = none ∧ m.last h = some (.first h)) ∨
    (m.first h ≠ none ∧ ∃ x, m.last h = some (.next x))

namespace Anchored

variable {m m' : Mem ι κ} {h h₁ h₂ : κ}

theorem congr (ha : Anchored m h) (hf : m'.first h = m.first h) (hl : m'.last h = m.last h) :
    Anchored m' h := by
  rwa [Anchored, hf, hl]

/-- An anchored head is written through its own `first` or through the link of an element. -/
theorem exists_last (ha : Anchored m h) :
    ∃ c, m.last h = some c ∧ (m.first h = none → c = .first h) ∧ ∀ k, k ≠ h → c ≠ .first k := by
  rcases ha with ⟨-, hl⟩ | ⟨hf, x, hl⟩
  · exact ⟨_, hl, fun _ => rfl, fun k hk => by simpa using hk.symm⟩
  · exact ⟨_, hl, fun h0 => absurd h0 hf, fun k _ => by simp⟩

/-- A head that is anchored and not empty ends at the link of an element. -/
theorem last_of_first (ha : Anchored m h) {x : ι} (hx : m.first h = some x) :
    ∃ y, m.last h = some (.next y) := by
  rcases ha with ⟨h0, -⟩ | ⟨-, h1⟩
  · rw [h0] at hx
    cases hx
  · exact h1

/-- The tail address is that of the head or of a link. -/
theorem last_cell (ha : Anchored m h) {c : Cell ι κ} (hc : m.last h = some c) :
    c = .first h ∨ ∃ x, c = .next x := by
  rcases ha with ⟨-, hl⟩ | ⟨-, x, hl⟩
  · exact Or.inl (Option.some.inj (hc.symm.trans hl))
  · exact Or.inr ⟨x, Option.some.inj (hc.symm.trans hl)⟩

/-- An anchored head that is empty holds the empty queue. -/
theorem queue_nil (ha : Anchored m h) (hf : m.first h = none) : Queue m h [] :=
  ha.elim (fun h' => ⟨h'.1, h'.2⟩) fun h' => absurd hf h'.1

variable [DecidableEq ι] [DecidableEq κ]

theorem init (m : Mem ι κ) (h : κ) : Anchored (m.init h) h := by simp [Anchored]

/-- Writing through the tail address never empties an anchored head. -/
theorem store_last_first_ne (ha : Anchored m h) {c : Cell ι κ} (hc : m.last h = some c) (x : ι) :
    (m.store c (some x)).first h ≠ none := by
  rcases ha with ⟨-, hl⟩ | ⟨hf, y, hl⟩
  · obtain rfl := Option.some.inj (hl.symm.trans hc)
    simp
  · obtain rfl := Option.some.inj (hl.symm.trans hc)
    exact hf

theorem insertTail (ha : Anchored m h) (x : ι) :
    ∃ m', m.insertTail h x = some m' ∧ Anchored m' h ∧ (m.first h = none → m'.first h = some x) ∧
      ∀ k, k ≠ h → m'.first k = m.first k ∧ m'.last k = m.last k := by
  obtain ⟨c, hc, hempty, hother⟩ := ha.exists_last
  have ha₁ : Anchored (m.store (.next x) none) h := ha.congr rfl rfl
  refine ⟨_, Mem.insertTail_eq hc x, Or.inr ⟨ha₁.store_last_first_ne hc x, x, by simp⟩,
    fun h0 => ?_, fun k hk => ⟨?_, ?_⟩⟩
  · obtain rfl := hempty h0
    simp
  · rw [Mem.setLast_first, Mem.store_first_of_ne _ _ (hother k hk)]
    rfl
  · rw [Mem.setLast_last, Function.update_of_ne hk, Mem.store_last, Mem.store_last]

theorem removeHead (ha : Anchored m h) {x : ι} (hx : m.first h = some x) :
    ∃ m', m.removeHead h = some m' ∧ Anchored m' h ∧
      ∀ k, k ≠ h → m'.first k = m.first k ∧ m'.last k = m.last k := by
  obtain ⟨y, hl⟩ := ha.last_of_first hx
  cases hn : m.next x with
  | none =>
    refine ⟨_, Mem.removeHead_last hx hn, Or.inl (by simp), fun k hk => ?_⟩
    simp [Function.update_of_ne hk]
  | some z =>
    refine ⟨_, Mem.removeHead_next hx hn, Or.inr ⟨by simp, y, by rw [Mem.store_last, hl]⟩,
      fun k hk => ?_⟩
    simp [Function.update_of_ne hk]

theorem concat (ha₁ : Anchored m h₁) (ha₂ : Anchored m h₂) (hne : h₁ ≠ h₂) :
    ∃ m', m.concat h₁ h₂ = some m' ∧ Anchored m' h₁ ∧ Anchored m' h₂ ∧ m'.first h₂ = none ∧
      ∀ k, k ≠ h₁ → k ≠ h₂ → m'.first k = m.first k ∧ m'.last k = m.last k := by
  cases hx : m.first h₂ with
  | none => exact ⟨m, Mem.concat_empty hx h₁, ha₁, ha₂, hx, fun k _ _ => ⟨rfl, rfl⟩⟩
  | some x =>
    obtain ⟨c, hc, -, hother⟩ := ha₁.exists_last
    obtain ⟨y, hy⟩ := ha₂.last_of_first hx
    refine ⟨_, Mem.concat_eq hx hc, Or.inr ⟨?_, y, ?_⟩, .init _ h₂, by simp, fun k hk₁ hk₂ => ?_⟩
    · rw [Mem.init_first, Function.update_of_ne hne]
      exact ha₁.store_last_first_ne hc x
    · rw [Mem.init_last, Function.update_of_ne hne, Mem.setLast_last, Function.update_self, hy]
    · rw [Mem.init_first, Mem.init_last, Function.update_of_ne hk₂, Function.update_of_ne hk₂,
        Mem.setLast_first, Mem.setLast_last, Function.update_of_ne hk₁,
        Mem.store_first_of_ne _ _ (hother k hk₁), Mem.store_last]
      exact ⟨rfl, rfl⟩

end Anchored

/-! ## Elements that no cell holds -/

/-- No link leads to `x`, and no queue starts with it. -/
structure Avoids (m : Mem ι κ) (x : ι) : Prop where
  next : ∀ y, m.next y ≠ some x
  first : ∀ h, m.first h ≠ some x

namespace Avoids

variable [DecidableEq κ] {m m' : Mem ι κ} {x : ι}

theorem setLast (hm : Avoids m x) (h : κ) (c : Option (Cell ι κ)) : Avoids (m.setLast h c) x :=
  ⟨hm.next, hm.first⟩

variable [DecidableEq ι]

theorem store (hm : Avoids m x) (c : Cell ι κ) {v : Option ι} (hv : v ≠ some x) :
    Avoids (m.store c v) x := by
  cases c with
  | first h =>
    refine ⟨hm.next, fun k => ?_⟩
    by_cases hne : k = h
    · subst hne
      simpa using hv
    · simpa [hne] using hm.first k
  | next y =>
    refine ⟨fun z => ?_, hm.first⟩
    by_cases hne : z = y
    · subst hne
      simpa using hv
    · simpa [hne] using hm.next z

theorem init (hm : Avoids m x) (h : κ) : Avoids (m.init h) x :=
  (hm.store (.first h) (by simp)).setLast h _

theorem insertTail (hm : Avoids m x) {h : κ} {y : ι} (hy : y ≠ x)
    (hm' : m.insertTail h y = some m') : Avoids m' x := by
  unfold Mem.insertTail at hm'
  simp only at hm'
  split at hm'
  · cases hm'
  · obtain rfl := Option.some.inj hm'
    exact ((hm.store _ (by simp)).store _ (by simpa using hy)).setLast h _

theorem removeHead (hm : Avoids m x) {h : κ} (hm' : m.removeHead h = some m') : Avoids m' x := by
  unfold Mem.removeHead at hm'
  split at hm'
  · cases hm'
  next y hy =>
    have hs := hm.store (.first h) (hm.next y)
    simp only at hm'
    split at hm' <;> obtain rfl := Option.some.inj hm'
    · exact hs.setLast h _
    · exact hs

theorem concat (hm : Avoids m x) {h₁ h₂ : κ} (hm' : m.concat h₁ h₂ = some m') : Avoids m' x := by
  unfold Mem.concat at hm'
  split at hm'
  · obtain rfl := Option.some.inj hm'
    exact hm
  next y hy =>
    have hyx : some y ≠ some x := hy ▸ hm.first h₂
    split at hm'
    · cases hm'
    next c hc =>
      obtain rfl := Option.some.inj hm'
      exact ((hm.store c hyx).setLast h₁ _).init h₂

end Avoids

end XcpNgGeneric.TailQueue
