import Mathlib.Logic.Function.Basic

/-!
# A shared value that several parties save, replace and restore

Every party `t` saves the value, installs `new`, and later puts back what it has saved. Nothing
orders the parties. `Consistent` is what remains true as long as the party that has saved the
original value restores it when no other party holds one (`Consistent.restore`).
-/

namespace XcpNgGeneric.SaveRestore

variable {τ α : Type*}

/-- The value, and what each party that has replaced it holds. -/
structure Slot (τ α : Type*) where
  value : α
  saved : τ → Option α

/-- The value is `a` if nobody has replaced it; otherwise it is `new`, one party holds `a`, and the
others have saved each other's `new`. -/
structure Consistent (new a : α) (s : Slot τ α) : Prop where
  idle : (∀ t, s.saved t = none) → s.value = a
  busy : ∀ t, s.saved t ≠ none → s.value = new
  holder : ∀ t, s.saved t ≠ none →
    ∃ u, s.saved u = some a ∧ ∀ v, v ≠ u → s.saved v = none ∨ s.saved v = some new

theorem Consistent.init (new a : α) : Consistent new a (⟨a, fun _ => none⟩ : Slot τ α) :=
  ⟨fun _ => rfl, fun _ h => absurd rfl h, fun _ h => absurd rfl h⟩

variable [DecidableEq τ]

/-- The party `t` saves the value and replaces it. -/
def Slot.install (s : Slot τ α) (new : α) (t : τ) : Slot τ α :=
  ⟨new, Function.update s.saved t (some s.value)⟩

/-- The party `t` restores what it has saved. -/
def Slot.restore (s : Slot τ α) (t : τ) : Slot τ α :=
  match s.saved t with
  | none => s
  | some a => ⟨a, Function.update s.saved t none⟩

theorem Slot.restore_value {s : Slot τ α} {t : τ} {a : α} (h : s.saved t = some a) :
    (s.restore t).value = a := by
  simp [restore, h]

theorem Slot.restore_self (s : Slot τ α) (t : τ) : (s.restore t).saved t = none := by
  cases h : s.saved t <;> simp [restore, h]

theorem Slot.restore_other (s : Slot τ α) {t u : τ} (hu : u ≠ t) :
    (s.restore t).saved u = s.saved u := by
  cases h : s.saved t <;> simp [restore, h, hu]

namespace Consistent

variable {new a : α} {s : Slot τ α}

theorem install (hs : Consistent new a s) {t : τ} (ht : s.saved t = none) :
    Consistent new a (s.install new t) := by
  have hself : (s.install new t).saved t = some s.value := Function.update_self ..
  refine ⟨fun h => ?_, fun _ _ => rfl, fun _ _ => ?_⟩
  · rw [h t] at hself
    cases hself
  · by_cases hidle : ∀ u, s.saved u = none
    · refine ⟨t, hself.trans (congrArg some (hs.idle hidle)), fun v hv => Or.inl ?_⟩
      exact (Function.update_of_ne hv _ _).trans (hidle v)
    · obtain ⟨u, hu⟩ := not_forall.1 hidle
      obtain ⟨w, hw, hother⟩ := hs.holder u hu
      have hwt : w ≠ t := by
        rintro rfl
        cases ht.symm.trans hw
      refine ⟨w, (Function.update_of_ne hwt _ _).trans hw, fun v hv => ?_⟩
      by_cases hvt : v = t
      · subst hvt
        exact Or.inr (hself.trans (congrArg some (hs.busy u hu)))
      · simpa [Slot.install, hvt] using hother v hv

/-- **Restoring keeps the value consistent** if what is restored is `new`, or if nobody else has
replaced the value. -/
theorem restore (hs : Consistent new a s) {t : τ} {b : α} (ht : s.saved t = some b)
    (hb : b ≠ new → ∀ u, u ≠ t → s.saved u = none) : Consistent new a (s.restore t) := by
  have hst : s.saved t ≠ none := by simp [ht]
  obtain ⟨w, hw, hother⟩ := hs.holder t hst
  have hsaved : ∀ u, (s.restore t).saved u ≠ none → u ≠ t ∧ s.saved u ≠ none := by
    intro u hu
    have hut : u ≠ t := by
      rintro rfl
      exact hu (s.restore_self u)
    exact ⟨hut, by rwa [s.restore_other hut] at hu⟩
  -- another party is still busy only if `new` is restored
  have hnew : ∀ u, (s.restore t).saved u ≠ none → b = new := by
    intro u hu
    by_contra hne
    exact (hsaved u hu).2 (hb hne u (hsaved u hu).1)
  refine ⟨fun h => ?_, fun u hu => (Slot.restore_value ht).trans (hnew u hu), fun u hu => ?_⟩
  · have hwt : w = t := by
      by_contra hwt
      have hnone := h w
      rw [s.restore_other hwt, hw] at hnone
      cases hnone
    subst hwt
    rw [Slot.restore_value ht]
    exact Option.some.inj (ht.symm.trans hw)
  · obtain ⟨hut, hsu⟩ := hsaved u hu
    by_cases hwt : w = t
    · subst hwt
      -- the original value is `new` itself, and any other party holds it
      have hbw : a = new := (Option.some.inj (hw.symm.trans ht)).trans (hnew u hu)
      refine ⟨u, ?_, fun v _ => ?_⟩
      · rw [s.restore_other hut, hbw]
        exact (hother u hut).resolve_left hsu
      · by_cases hvw : v = w
        · subst hvw
          exact Or.inl (s.restore_self v)
        · rw [s.restore_other hvw]
          exact hother v hvw
    · refine ⟨w, by rw [s.restore_other hwt, hw], fun v hv => ?_⟩
      by_cases hvt : v = t
      · subst hvt
        exact Or.inl (s.restore_self v)
      · rw [s.restore_other hvt]
        exact hother v hv

end Consistent

end XcpNgGeneric.SaveRestore
