import XcpNgGeneric.Foundations.Runs

/-!
# First in, first out

A machine has a content, and each of its actions puts something at the end of the content and takes
something from its beginning (`Queues`). Then, over a run of any number of actions in any order,
what was taken is what was put, in order, up to what is still there (`Queues.run`).

## Main results

* `Queues.run`: the conservation law.
* `Queues.prefix_of_empty`: nothing is taken that was not put before.
* `run_of_sealed`: a machine that is sealed moves nothing any more.
-/

namespace XcpNgGeneric.Runs

variable {σ α β : Type*}

/-- Each step puts `put a` at the end of the content and takes `take a` from its beginning. -/
structure Queues (step : σ → α → Option σ) (content : σ → List β) (put take : α → List β) :
    Prop where
  step : ∀ s a t, step s a = some t → content s ++ put a = take a ++ content t

variable {step : σ → α → Option σ} {content : σ → List β} {put take : α → List β}

/-- **Conservation**: what was there and what was put is what was taken and what is there. -/
theorem Queues.run (h : Queues step content put take) {s t : σ} {as : List α}
    (ht : Runs.run step s as = some t) :
    content s ++ as.flatMap put = as.flatMap take ++ content t := by
  induction as generalizing s with
  | nil =>
    obtain rfl := Option.some.inj ht
    simp
  | cons a as ih =>
    rw [Runs.run, Option.bind_eq_some_iff] at ht
    obtain ⟨u, hu, ht⟩ := ht
    calc content s ++ (a :: as).flatMap put
        = (content s ++ put a) ++ as.flatMap put := by rw [List.flatMap_cons, List.append_assoc]
      _ = take a ++ (content u ++ as.flatMap put) := by rw [h.step s a u hu, List.append_assoc]
      _ = (a :: as).flatMap take ++ content t := by
        rw [ih ht, List.flatMap_cons, List.append_assoc]

theorem Queues.prefix_of_empty (h : Queues step content put take) {s t : σ} {as : List α}
    (hs : content s = []) (ht : Runs.run step s as = some t) :
    as.flatMap take <+: as.flatMap put := by
  have hrun := h.run ht
  rw [hs, List.nil_append] at hrun
  exact ⟨content t, hrun.symm⟩

/-- Two sides that have moved equally much have moved the same. -/
theorem Queues.eq_of_length_le (h : Queues step content put take) {s t : σ} {as : List α}
    (hs : content s = []) (ht : Runs.run step s as = some t)
    (hle : (as.flatMap put).length ≤ (as.flatMap take).length) :
    as.flatMap take = as.flatMap put :=
  (h.prefix_of_empty hs ht).eq_of_length_le hle

/-- **Nothing moves in a machine that is sealed**, if it stays so. -/
theorem run_of_sealed {P : σ → Prop}
    (hP : ∀ s a t, P s → step s a = some t → P t ∧ put a = [] ∧ take a = []) {s t : σ}
    {as : List α} (hs : P s) (ht : Runs.run step s as = some t) :
    as.flatMap put = [] ∧ as.flatMap take = [] := by
  induction as generalizing s with
  | nil => exact ⟨rfl, rfl⟩
  | cons a as ih =>
    rw [Runs.run, Option.bind_eq_some_iff] at ht
    obtain ⟨u, hu, ht⟩ := ht
    obtain ⟨hPu, hput, htake⟩ := hP s a u hs hu
    obtain ⟨hputs, htakes⟩ := ih hPu ht
    rw [List.flatMap_cons, List.flatMap_cons, hput, htake, hputs, htakes]
    exact ⟨rfl, rfl⟩

/-- If the machine was once empty and sealed, all that was put has been taken. -/
theorem Queues.eq_of_sealed (h : Queues step content put take) {P : σ → Prop}
    (hP : ∀ s a t, P s → step s a = some t → P t ∧ put a = [] ∧ take a = [])
    {s t u : σ} {as as' : List α} (hs : content s = []) (hu : Runs.run step s as = some u)
    (hPu : P u) (hempty : content u = []) (ht : Runs.run step u as' = some t) :
    (as ++ as').flatMap take = (as ++ as').flatMap put := by
  have hrun := h.run hu
  rw [hs, hempty, List.nil_append, List.append_nil] at hrun
  obtain ⟨hput, htake⟩ := run_of_sealed hP hPu ht
  rw [List.flatMap_append, List.flatMap_append, hput, htake, hrun]

end XcpNgGeneric.Runs
