import Mathlib.Data.List.Basic

/-!
# Runs of a partial step function

`run step s as` is the state that the actions `as` lead to from `s`, if each is enabled where it is
taken; `Obeys step ok s as` says that every action is taken in a state where `ok` allows it. An
invariant kept by the allowed steps holds at the end of every obedient run (`run_invariant`).
-/

namespace XcpNgGeneric.Runs

variable {σ α : Type*} (step : σ → α → Option σ)

/-- The state after the actions `as`. -/
def run (s : σ) : List α → Option σ
  | [] => some s
  | a :: as => (step s a).bind fun t => run t as

/-- Every action of the run is allowed where it is taken. -/
def Obeys (ok : σ → α → Prop) (s : σ) : List α → Prop
  | [] => True
  | a :: as => ok s a ∧ ∀ t ∈ step s a, Obeys ok t as

instance decidableObeys (ok : σ → α → Prop) [∀ s a, Decidable (ok s a)] :
    ∀ (s : σ) (as : List α), Decidable (Obeys step ok s as)
  | _, [] => inferInstanceAs (Decidable True)
  | s, a :: as =>
    match h : step s a with
    | none => decidable_of_iff (ok s a) (by simp [Obeys, h])
    | some t =>
      have := decidableObeys ok t as
      decidable_of_iff (ok s a ∧ Obeys step ok t as) (by simp [Obeys, h])

variable {step}

theorem run_append (s : σ) (as bs : List α) :
    run step s (as ++ bs) = (run step s as).bind fun t => run step t bs := by
  induction as generalizing s with
  | nil => rfl
  | cons a as ih =>
    rw [List.cons_append, run, run]
    cases step s a with
    | none => rfl
    | some t => exact ih t

theorem run_concat {s t : σ} {as : List α} {a : α} :
    run step s (as ++ [a]) = some t ↔ ∃ u, run step s as = some u ∧ step u a = some t := by
  rw [run_append, Option.bind_eq_some_iff]
  simp [run]

theorem Obeys.mono {ok ok' : σ → α → Prop} (hok : ∀ s a, ok s a → ok' s a) {s : σ} {as : List α}
    (h : Obeys step ok s as) : Obeys step ok' s as := by
  induction as generalizing s with
  | nil => trivial
  | cons a as ih => exact ⟨hok s a h.1, fun t ht => ih (h.2 t ht)⟩

theorem Obeys.and {ok ok' : σ → α → Prop} {s : σ} {as : List α} (h : Obeys step ok s as)
    (h' : Obeys step ok' s as) : Obeys step (fun s a => ok s a ∧ ok' s a) s as := by
  induction as generalizing s with
  | nil => trivial
  | cons a as ih => exact ⟨⟨h.1, h'.1⟩, fun t ht => ih (h.2 t ht) (h'.2 t ht)⟩

theorem Obeys.of_append {ok : σ → α → Prop} {s : σ} {as bs : List α}
    (h : Obeys step ok s (as ++ bs)) : Obeys step ok s as := by
  induction as generalizing s with
  | nil => trivial
  | cons a as ih => exact ⟨h.1, fun t ht => ih (h.2 t ht)⟩

/-- A run is obedient if each of its actions is allowed in the state that the actions before lead
to. -/
theorem obeys_of_forall {ok : σ → α → Prop} {s : σ} {as : List α}
    (h : ∀ bs a cs t, as = bs ++ a :: cs → run step s bs = some t → ok t a) :
    Obeys step ok s as := by
  induction as generalizing s with
  | nil => trivial
  | cons a as ih =>
    refine ⟨h [] a as s rfl rfl, fun t ht => ih fun bs b cs u he hu => ?_⟩
    apply h (a :: bs) b cs u (by rw [he]; rfl)
    rw [run, Option.bind_eq_some_iff]
    exact ⟨t, ht, hu⟩

/-- **An invariant of the allowed steps holds after every obedient run.** -/
theorem run_invariant {ok : σ → α → Prop} {I : σ → Prop}
    (hstep : ∀ s a t, I s → ok s a → step s a = some t → I t) {s t : σ} {as : List α}
    (hs : I s) (hok : Obeys step ok s as) (ht : run step s as = some t) : I t := by
  induction as generalizing s with
  | nil =>
    obtain rfl := Option.some.inj ht
    exact hs
  | cons a as ih =>
    rw [run, Option.bind_eq_some_iff] at ht
    obtain ⟨u, hu, ht⟩ := ht
    exact ih (hstep s a u hs hok.1 hu) (hok.2 u hu) ht

end XcpNgGeneric.Runs
