import Mathlib.Data.List.Basic

/-!
# Programs that are answered by their environment

A program of `Prog ω σ α` changes a state `σ` and takes the answers of its environment, `ω` each,
from a list; it returns nothing (`none`) if the answers end before it does, or do not fit.
`Spec c R` says which states, answers and results of `c` go together: whenever `c` returns, `R`
relates the state it began with, the answers it took, its result and its last state.

`Spec` composes along `>>=` and along loops; the rule of the loop has an invariant that relates the
state in which the loop began, the answers taken so far and the variables of the loop.

`Spec` says nothing about a program that does not return. `Returns c s os a s'` is one run that
does, and `Ends c s o` says that `c` returns if the endless sequence `o` answers it. Runs compose
because no program looks at the answers that it does not take (`Local`).
-/

namespace XcpNgGeneric.Answers

variable {ω σ α β : Type}

/-- The answers that are left, and the state of the program. -/
structure Config (ω σ : Type) where
  answers : List ω
  state : σ

abbrev Prog (ω σ : Type) := StateT (Config ω σ) Option

/-- The next answer. -/
def next : Prog ω σ ω := fun s =>
  match s.answers with
  | [] => none
  | o :: os => some (o, { s with answers := os })

/-- The program goes on only if `p`. -/
def check (p : Prop) [Decidable p] : Prog ω σ Unit :=
  if p then pure () else fun _ => none

/-- Reads the state. -/
def ask (f : σ → α) : Prog ω σ α := fun s => some (f s.state, s)

/-- Changes the state. -/
def change (f : σ → σ) : Prog ω σ Unit := fun s => some ((), { s with state := f s.state })

/-- How the body of a loop ends: the loop goes on with the variables `b`, or `a` is returned. -/
inductive Next (β α : Type)
  | again (b : β)
  | ret (a : α)

/-- At most `fuel` iterations. -/
def iterate (body : β → Prog ω σ (Next β α)) : ℕ → β → Prog ω σ α
  | 0, _ => fun _ => none
  | fuel + 1, b => body b >>= fun
    | .again b => iterate body fuel b
    | .ret a => pure a

/-- A loop each of whose iterations takes an answer, so that it ends or runs out of them. -/
def loop (body : β → Prog ω σ (Next β α)) (b : β) : Prog ω σ α := fun s =>
  iterate body (s.answers.length + 1) b s

/-! ## Specifications -/

/-- Whenever `c` returns, the state before, the answers taken, the result and the state after are
related by `R`. -/
def Spec (c : Prog ω σ α) (R : σ → List ω → α → σ → Prop) : Prop :=
  ∀ s a s', c s = some (a, s') → ∃ os, s.answers = os ++ s'.answers ∧ R s.state os a s'.state

/-- `c`, begun in `s`, takes the answers `os` and no others and returns `a` in `s'`. -/
def Returns (c : Prog ω σ α) (s : σ) (os : List ω) (a : α) (s' : σ) : Prop :=
  c ⟨os, s⟩ = some (a, ⟨[], s'⟩)

namespace Spec

variable {c : Prog ω σ α} {R R' : σ → List ω → α → σ → Prop}

theorem returns (hc : Spec c R) {s s' : σ} {os : List ω} {a : α} (h : Returns c s os a s') :
    R s os a s' := by
  obtain ⟨os', hos, hR⟩ := hc _ _ _ h
  have heq : os = os' := by simpa using hos
  rwa [heq]

theorem mono (hc : Spec c R) (h : ∀ s os a s', R s os a s' → R' s os a s') : Spec c R' := by
  intro s a s' hrun
  obtain ⟨os, hos, hR⟩ := hc s a s' hrun
  exact ⟨os, hos, h _ _ _ _ hR⟩

theorem pure {a : α} :
    Spec (pure a : Prog ω σ α) fun s os b s' => os = [] ∧ b = a ∧ s' = s := by
  intro s b s' hrun
  obtain ⟨rfl, rfl⟩ := Prod.mk.inj (Option.some.inj hrun)
  exact ⟨[], rfl, rfl, rfl, rfl⟩

theorem next :
    Spec (next : Prog ω σ ω) fun s (os : List ω) (o : ω) s' => os = [o] ∧ s' = s := by
  intro s o s' hrun
  cases hs : s.answers with
  | nil => simp [Answers.next, hs] at hrun
  | cons o' os =>
    simp only [Answers.next, hs, Option.some.injEq, Prod.mk.injEq] at hrun
    obtain ⟨rfl, rfl⟩ := hrun
    exact ⟨[o'], rfl, rfl, rfl⟩

theorem check {p : Prop} [Decidable p] :
    Spec (check p : Prog ω σ Unit) fun s os _ s' => p ∧ os = [] ∧ s' = s := by
  intro s a s' hrun
  by_cases hp : p
  · simp only [Answers.check, hp, if_true] at hrun
    obtain ⟨-, rfl⟩ := Prod.mk.inj (Option.some.inj hrun)
    exact ⟨[], rfl, hp, rfl, rfl⟩
  · simp [Answers.check, hp] at hrun

theorem ask {f : σ → α} :
    Spec (ask f : Prog ω σ α) fun s os a s' => os = [] ∧ a = f s ∧ s' = s := by
  intro s a s' hrun
  obtain ⟨rfl, rfl⟩ := Prod.mk.inj (Option.some.inj hrun)
  exact ⟨[], rfl, rfl, rfl, rfl⟩

theorem change {f : σ → σ} :
    Spec (change f : Prog ω σ Unit) fun s os _ s' => os = [] ∧ s' = f s := by
  intro s a s' hrun
  obtain ⟨-, rfl⟩ := Prod.mk.inj (Option.some.inj hrun)
  exact ⟨[], rfl, rfl, rfl⟩

/-- **Sequences**: what the first program leaves, the second begins with. -/
theorem bind {k : α → Prog ω σ β} {K : α → σ → List ω → β → σ → Prop}
    {Q : σ → List ω → β → σ → Prop} (hc : Spec c R) (hk : ∀ a, Spec (k a) (K a))
    (h : ∀ s os a s' os' b s'', R s os a s' → K a s' os' b s'' → Q s (os ++ os') b s'') :
    Spec (c >>= k) Q := by
  intro s b s'' hrun
  obtain ⟨⟨a, s'⟩, hfirst, hsecond⟩ := Option.bind_eq_some_iff.1 hrun
  obtain ⟨os, hos, hR⟩ := hc _ _ _ hfirst
  obtain ⟨os', hos', hK⟩ := hk a _ _ _ hsecond
  exact ⟨os ++ os', by rw [hos, hos', List.append_assoc], h _ _ _ _ _ _ _ hR hK⟩

theorem ite {p : Prop} [Decidable p] {c c' : Prog ω σ α} (hc : p → Spec c R)
    (hc' : ¬p → Spec c' R) : Spec (if p then c else c') R := by
  split
  next h => exact hc h
  next h => exact hc' h

/-- `k` follows `c` where `p` holds of what `c` returns. -/
theorem bind_ite {p : α → Prop} [DecidablePred p] {k : α → Prog ω σ β} {d : β}
    {K Q : σ → List ω → β → σ → Prop} (hc : Spec c R) (hk : ∀ a, Spec (k a) K)
    (hnext : ∀ s os a s' os' b s'', p a → R s os a s' → K s' os' b s'' → Q s (os ++ os') b s'')
    (hstop : ∀ s os a s', ¬p a → R s os a s' → Q s os d s') :
    Spec (c >>= fun a => if p a then k a else Pure.pure d) Q := by
  refine hc.bind (K := fun a s os b s' => (p a → K s os b s') ∧
    (¬p a → os = [] ∧ b = d ∧ s' = s)) (fun a => ?_) ?_
  · refine ite (fun hp => ?_) (fun hp => pure.mono ?_)
    · apply (hk a).mono
      intro s os b s' h
      exact ⟨fun _ => h, fun hnot => absurd hp hnot⟩
    · intro s os b s' h
      exact ⟨fun hnot => absurd hnot hp, fun _ => h⟩
  · intro s os a s' os' b s'' h hK
    by_cases hp : p a
    · exact hnext s os a s' os' b s'' hp h (hK.1 hp)
    · obtain ⟨rfl, rfl, rfl⟩ := hK.2 hp
      rw [List.append_nil]
      exact hstop s os a s'' hp h

/-- The iterations of a loop that began in `s₀`, from the one that finds `b`. -/
theorem iterate {body : β → Prog ω σ (Next β α)} {B : β → σ → List ω → Next β α → σ → Prop}
    {I : σ → List ω → β → σ → Prop} (hbody : ∀ b, Spec (body b) (B b))
    (hagain : ∀ s₀ os b s os' b' s', I s₀ os b s → B b s os' (.again b') s' →
      I s₀ (os ++ os') b' s')
    (hret : ∀ s₀ os b s os' a s', I s₀ os b s → B b s os' (.ret a) s' → R s₀ (os ++ os') a s')
    (fuel : ℕ) {s₀ : σ} {os : List ω} {b : β} {s : Config ω σ} (hI : I s₀ os b s.state) {a : α}
    {s' : Config ω σ} (hrun : iterate body fuel b s = some (a, s')) :
    ∃ os', s.answers = os' ++ s'.answers ∧ R s₀ (os ++ os') a s'.state := by
  induction fuel generalizing os b s with
  | zero => cases hrun
  | succ fuel ih =>
    obtain ⟨⟨n, t⟩, hfirst, hsecond⟩ := Option.bind_eq_some_iff.1 hrun
    obtain ⟨os₁, hos₁, hB⟩ := hbody b _ _ _ hfirst
    cases n with
    | ret a' =>
      obtain ⟨rfl, rfl⟩ := Prod.mk.inj (Option.some.inj hsecond)
      exact ⟨os₁, hos₁, hret _ _ _ _ _ _ _ hI hB⟩
    | again b' =>
      obtain ⟨os₂, hos₂, hR⟩ := ih (hagain _ _ _ _ _ _ _ hI hB) hsecond
      exact ⟨os₁ ++ os₂, by rw [hos₁, hos₂, List.append_assoc], by rwa [← List.append_assoc]⟩

/-- **Loops**: an invariant that holds when the loop begins, that the body keeps when the loop goes
on, and that gives the result when the body returns. -/
theorem loop {body : β → Prog ω σ (Next β α)} {B : β → σ → List ω → Next β α → σ → Prop}
    (I : σ → List ω → β → σ → Prop) {b : β} (hbody : ∀ b, Spec (body b) (B b))
    (hinit : ∀ s, I s [] b s)
    (hagain : ∀ s₀ os b s os' b' s', I s₀ os b s → B b s os' (.again b') s' →
      I s₀ (os ++ os') b' s')
    (hret : ∀ s₀ os b s os' a s', I s₀ os b s → B b s os' (.ret a) s' → R s₀ (os ++ os') a s') :
    Spec (loop body b) R := by
  intro s a s' hrun
  exact iterate hbody hagain hret _ (hinit s.state) hrun

end Spec

/-! ## Programs that return -/

/-- The answers after those that `c` takes do not matter to it. -/
def Local (c : Prog ω σ α) : Prop :=
  ∀ os s a os' s' rest, c ⟨os, s⟩ = some (a, ⟨os', s'⟩) →
    c ⟨os ++ rest, s⟩ = some (a, ⟨os' ++ rest, s'⟩)

namespace Local

variable {c : Prog ω σ α}

theorem pure (a : α) : Local (pure a : Prog ω σ α) := by
  intro os s b os' s' rest h
  obtain ⟨rfl, hs⟩ := Prod.mk.inj (Option.some.inj h)
  cases hs
  rfl

theorem next : Local (next : Prog ω σ ω) := by
  intro os s o os' s' rest h
  cases os with
  | nil => cases h
  | cons o os =>
    cases h
    rfl

theorem check (p : Prop) [Decidable p] : Local (check p : Prog ω σ Unit) := by
  intro os s a os' s' rest h
  by_cases hp : p
  · simp only [Answers.check, hp, if_true] at h ⊢
    exact pure () os s a os' s' rest h
  · simp [Answers.check, hp] at h

theorem ask (f : σ → α) : Local (ask f : Prog ω σ α) := by
  intro os s a os' s' rest h
  cases h
  rfl

theorem change (f : σ → σ) : Local (change f : Prog ω σ Unit) := by
  intro os s a os' s' rest h
  cases h
  rfl

theorem bind {k : α → Prog ω σ β} (hc : Local c) (hk : ∀ a, Local (k a)) : Local (c >>= k) := by
  intro os s b os'' s'' rest h
  obtain ⟨⟨a, os', s'⟩, hfirst, hsecond⟩ := Option.bind_eq_some_iff.1 h
  apply Option.bind_eq_some_iff.2
  exact ⟨_, hc _ _ _ _ _ rest hfirst, hk a _ _ _ _ _ rest hsecond⟩

theorem ite {p : Prop} [Decidable p] {c' : Prog ω σ α} (hc : Local c) (hc' : Local c') :
    Local (if p then c else c') := by
  split
  next => exact hc
  next => exact hc'

end Local

theorem iterate_mono {body : β → Prog ω σ (Next β α)} {fuel fuel' : ℕ} (hle : fuel ≤ fuel') {b : β}
    {s : Config ω σ} {r : α × Config ω σ} (h : iterate body fuel b s = some r) :
    iterate body fuel' b s = some r := by
  induction fuel generalizing fuel' b s with
  | zero => cases h
  | succ fuel ih =>
    obtain ⟨fuel', rfl⟩ : ∃ k, fuel' = k + 1 := ⟨fuel' - 1, by omega⟩
    obtain ⟨⟨n, t⟩, hfirst, hsecond⟩ := Option.bind_eq_some_iff.1 h
    apply Option.bind_eq_some_iff.2
    refine ⟨(n, t), hfirst, ?_⟩
    cases n with
    | again b' => exact ih (by omega) hsecond
    | ret a => exact hsecond

theorem Local.iterate {body : β → Prog ω σ (Next β α)} (hbody : ∀ b, Local (body b)) (fuel : ℕ)
    (b : β) : Local (iterate body fuel b) := by
  induction fuel generalizing b with
  | zero =>
    intro os s a os' s' rest h
    cases h
  | succ fuel ih =>
    apply Local.bind (hbody b)
    intro n
    cases n with
    | again b' => exact ih b'
    | ret a => exact Local.pure a

theorem Local.loop {body : β → Prog ω σ (Next β α)} (hbody : ∀ b, Local (body b)) (b : β) :
    Local (loop body b) := by
  intro os s a os' s' rest h
  apply iterate_mono _ (Local.iterate hbody _ b _ _ _ _ _ rest h)
  show os.length + 1 ≤ (os ++ rest).length + 1
  rw [List.length_append]
  omega

namespace Returns

variable {s s' s'' : σ} {os os' : List ω} {a : α}

theorem pure (a : α) (s : σ) : Returns (pure a : Prog ω σ α) s [] a s := rfl

theorem next (o : ω) (s : σ) : Returns (next : Prog ω σ ω) s [o] o s := rfl

theorem check {p : Prop} [Decidable p] (hp : p) (s : σ) :
    Returns (check p : Prog ω σ Unit) s [] () s := by
  unfold Answers.check
  rw [if_pos hp]
  rfl

theorem change (f : σ → σ) (s : σ) : Returns (change f : Prog ω σ Unit) s [] () (f s) := rfl

theorem bind {c : Prog ω σ α} {k : α → Prog ω σ β} {b : β} (hc : Local c)
    (h : Returns c s os a s') (hk : Returns (k a) s' os' b s'') :
    Returns (c >>= k) s (os ++ os') b s'' := by
  apply Option.bind_eq_some_iff.2
  exact ⟨_, hc _ _ _ _ _ os' h, hk⟩

theorem loop_ret {body : β → Prog ω σ (Next β α)} {b : β}
    (h : Returns (body b) s os (.ret a) s') : Returns (loop body b) s os a s' := by
  apply Option.bind_eq_some_iff.2
  exact ⟨_, h, rfl⟩

/-- **The loop goes on** after an iteration that took an answer. -/
theorem loop_again {body : β → Prog ω σ (Next β α)} {b b' : β} (hbody : Local (body b))
    (hos : os ≠ []) (h : Returns (body b) s os (.again b') s')
    (hrest : Returns (loop body b') s' os' a s'') : Returns (loop body b) s (os ++ os') a s'' := by
  have hlength := List.length_pos_iff.2 hos
  apply Option.bind_eq_some_iff.2
  refine ⟨_, hbody _ _ _ _ _ os' h, ?_⟩
  apply iterate_mono _ hrest
  show os'.length + 1 ≤ (os ++ os').length
  rw [List.length_append]
  omega

end Returns

/-- The first `n` answers of an endless sequence. -/
def upTo (o : ℕ → ω) (n : ℕ) : List ω := (List.range n).map o

@[simp] theorem upTo_zero (o : ℕ → ω) : upTo o 0 = [] := rfl

theorem upTo_succ (o : ℕ → ω) (n : ℕ) : upTo o (n + 1) = upTo o n ++ [o n] := by
  simp [upTo, List.range_succ]

theorem upTo_add (o : ℕ → ω) (m n : ℕ) :
    upTo o (m + n) = upTo o m ++ upTo (fun i => o (m + i)) n := by
  simp [upTo, List.range_add, Function.comp_def]

theorem mem_upTo {o : ℕ → ω} {n : ℕ} {x : ω} : x ∈ upTo o n ↔ ∃ i, i < n ∧ o i = x := by
  simp [upTo]

/-- `c` returns if it is answered by `o`. -/
def Ends (c : Prog ω σ α) (s : σ) (o : ℕ → ω) : Prop :=
  ∃ n a s', Returns c s (upTo o n) a s'

/-- **One iteration at a time**: a loop ends if it ends after one of its iterations. -/
theorem Ends.loop_again {body : β → Prog ω σ (Next β α)} {b b' : β} {o : ℕ → ω} {s s' : σ} {n : ℕ}
    (hbody : Local (body b)) (h : Returns (body b) s (upTo o (n + 1)) (.again b') s')
    (hrest : Ends (loop body b') s' fun i => o (n + 1 + i)) : Ends (loop body b) s o := by
  obtain ⟨k, a, s'', hrest⟩ := hrest
  refine ⟨n + 1 + k, a, s'', ?_⟩
  rw [upTo_add]
  exact h.loop_again hbody (by simp [upTo_succ]) hrest

end XcpNgGeneric.Answers
