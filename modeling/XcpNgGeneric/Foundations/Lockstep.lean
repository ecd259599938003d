import Mathlib.Data.Option.Basic
import XcpNgGeneric.Foundations.Runs

/-!
# Lockstep simulation

Two partial step functions take the same actions. If every allowed action takes related states to
related states, or is refused by both (`Lockstep`), then so does every obedient run, and what one
of them allows in a run can be read off the other.

## Main results

* `Lockstep.run`: related states after every run, or a refusal by both.
* `Lockstep.obeys_iff`: a run is obedient for one if and only if it is for the other.
-/

namespace XcpNgGeneric.Runs

variable {σ τ α : Type*}

/-- The steps of the two machines keep `R`, for the actions that `ok` allows in the first. -/
def Lockstep (step : σ → α → Option σ) (step' : τ → α → Option τ) (ok : σ → α → Prop)
    (R : σ → τ → Prop) : Prop :=
  ∀ s t a, R s t → ok s a → Option.Rel R (step s a) (step' t a)

variable {step : σ → α → Option σ} {step' : τ → α → Option τ} {ok : σ → α → Prop}
  {R : σ → τ → Prop}

/-- **Runs of machines in lockstep.** -/
theorem Lockstep.run (h : Lockstep step step' ok R) {s : σ} {t : τ} (hst : R s t) {as : List α}
    (hok : Obeys step ok s as) : Option.Rel R (Runs.run step s as) (Runs.run step' t as) := by
  induction as generalizing s t with
  | nil => exact .some hst
  | cons a as ih =>
    have hstep := h s t a hst hok.1
    rw [Runs.run, Runs.run]
    generalize hs : step s a = o at hstep ⊢
    generalize ht : step' t a = o' at hstep ⊢
    cases hstep with
    | none => exact .none
    | some hst' => exact ih hst' (hok.2 _ hs)

/-- What related states agree to allow is obeyed by both machines or by none. -/
theorem Lockstep.obeys_iff (h : Lockstep step step' ok R) {ok' : τ → α → Prop}
    (hiff : ∀ s t a, R s t → (ok s a ↔ ok' t a)) {s : σ} {t : τ} (hst : R s t) {as : List α} :
    Obeys step ok s as ↔ Obeys step' ok' t as := by
  induction as generalizing s t with
  | nil => exact Iff.rfl
  | cons a as ih =>
    rw [Obeys, Obeys, ← hiff s t a hst]
    refine and_congr_right fun ha => ?_
    have hstep := h s t a hst ha
    generalize hs : step s a = o at hstep ⊢
    generalize ht : step' t a = o' at hstep ⊢
    cases hstep with
    | none => simp
    | some hst' => simpa using ih hst'

/-- A state of the first machine has a related one in the second. -/
theorem Lockstep.run_some (h : Lockstep step step' ok R) {s u : σ} {t : τ} (hst : R s t)
    {as : List α} (hok : Obeys step ok s as) (hu : Runs.run step s as = some u) :
    ∃ v, Runs.run step' t as = some v ∧ R u v := by
  have hrun := h.run hst hok
  rw [hu] at hrun
  generalize Runs.run step' t as = o at hrun
  cases hrun with
  | some hv => exact ⟨_, rfl, hv⟩

end XcpNgGeneric.Runs
