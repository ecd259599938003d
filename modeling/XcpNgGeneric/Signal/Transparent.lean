import XcpNgGeneric.Signal.Create

/-!
# The signal state that a creation leaves

One thread creates a coroutine, and no other thread and no sender interferes. Its creation is served
once, and what it has saved it restores: its mask, its alternate stack and the action of `SIGUSR1`.
Its pending signals are not saved. The signal that the creation sends to itself merges with one that
is already pending, and both are gone when the trampoline has been called.

## Main results

* `creates_exists`: the creation comes to its end.
* `create_transparent_iff`: it changes nothing if and only if `SIGUSR1` was not pending before.
-/

namespace XcpNgGeneric.Signal

variable {τ : Type} [DecidableEq τ]

/-- The thread `t` makes the system calls of one creation, from its beginning in the first process
to its end in the second. -/
inductive Creates (t : τ) : Process τ → Process τ → Prop
  | last {p p' : Process τ} (h : step p t = some p') (hpc : (p'.thread t).pc = .idle) :
    Creates t p p'
  | next {p q p' : Process τ} (h : step p t = some q) (hpc : (q.thread t).pc ≠ .idle)
    (hrest : Creates t q p') : Creates t p p'

/-- Nothing of the signal state of `t` is changed. -/
structure Transparent (t : τ) (p p' : Process τ) : Prop where
  mask : (p'.thread t).mask = (p.thread t).mask
  pending : (p'.thread t).pending = (p.thread t).pending
  altStack : (p'.thread t).altStack = (p.thread t).altStack
  action : p'.action = p.action

/-! ## The set of pending signals -/

namespace SigSet

/-- The signal that is sent is not there when it has been delivered, whether or not it was there
before. -/
theorem del_add (s : SigSet) (signum : ℕ) : (s.add signum).del signum = s.del signum := by
  unfold del add
  ext i hi
  simp only [BitVec.getElem_and, BitVec.getElem_or, BitVec.getElem_not]
  cases s[i] <;> cases (single signum)[i] <;> rfl

theorem del_del (s : SigSet) (signum : ℕ) : (s.del signum).del signum = s.del signum := by
  unfold del
  ext i hi
  simp only [BitVec.getElem_and, BitVec.getElem_not]
  cases s[i] <;> cases (single signum)[i] <;> rfl

theorem getElem_single : ∀ i (hi : i < 64), i ≠ 9 → (single SIGUSR1)[i] = false := by
  decide

theorem del_eq_self (s : SigSet) : s.del SIGUSR1 = s ↔ s.mem SIGUSR1 = false := by
  constructor
  · intro h
    rw [← h]
    exact mem_del s
  · intro h
    unfold del
    ext i hi
    have hbit : s[9] = false := h
    by_cases hi9 : i = 9
    · subst hi9
      simp [hbit]
    · simp [getElem_single i hi hi9]

end SigSet

/-! ## One creation -/

section Creation

variable {t : τ} {p q p' : Process τ}

theorem creates_next (h : step p t = some q) (hpc : (q.thread t).pc ≠ .idle) :
    Creates t p p' ↔ Creates t q p' := by
  refine ⟨fun hp => ?_, fun hq => .next h hpc hq⟩
  cases hp with
  | last h' hidle =>
    obtain rfl := Option.some.inj (h.symm.trans h')
    exact absurd hidle hpc
  | next h' _ hrest =>
    obtain rfl := Option.some.inj (h.symm.trans h')
    exact hrest

theorem creates_last (h : step p t = some q) (hpc : (q.thread t).pc = .idle) :
    Creates t p p' ↔ p' = q := by
  refine ⟨fun hp => ?_, fun hq => .last (by rw [hq]; exact h) (by rw [hq]; exact hpc)⟩
  cases hp with
  | last h' _ => exact Option.some.inj (h'.symm.trans h)
  | next h' hne _ =>
    obtain rfl := Option.some.inj (h.symm.trans h')
    exact absurd hpc hne

/-- The thread before the action is restored. -/
def served (th : Thread) (sa : SigAction) : Thread where
  mask := th.mask ||| SigSet.empty.add SIGUSR1
  pending := (th.pending.add SIGUSR1).del SIGUSR1
  altStack := th.altStack
  pc := .restoreAction
  oldSet := th.mask
  oldSa := sa
  oldSs := th.altStack
  called := true

/-- The first seven system calls: the trampoline is called, and the alternate stack is back. -/
theorem creates_served (halive : p.alive = true) (hidle : (p.thread t).pc = .idle) :
    Creates t p p' ↔ Creates t (Process.setThread
      { p with action := trampolineAction, delivered := p.delivered ++ [(t, Handler.trampoline)] } t
      (served (p.thread t) p.action)) p' := by
  have hblocked : SigSet.mem ((p.thread t).mask ||| SigSet.empty.add SIGUSR1) SIGUSR1 = true := by
    rw [SigSet.mem_or, SigSet.mem_add, Bool.or_true]
  rw [creates_next (step_idle halive hidle) (by simp)]
  rw [creates_next (step_install (by simpa using halive) (by simp)) (by simp)]
  rw [creates_next (step_altStack (by simpa using halive) (by simp)) (by simp)]
  rw [creates_next (step_kill (by simpa using halive) (by simp) (by simpa using hblocked))
    (by simp)]
  rw [creates_next (step_suspend (by simpa using halive) (by simp) (by simp)
    (by simp [trampolineAction])) (by simp)]
  rw [creates_next (step_disableStack (by simpa using halive) (by simp)) (by simp)]
  rw [creates_next (step_restoreStack (by simpa using halive) (by simp)) (by simp)]
  simp [served, Process.setThread]

/-- **The end of a creation.** It is served by one call of the trampoline, and all that it has saved
is restored. What is pending is pending without `SIGUSR1`. -/
theorem creates_end (halive : p.alive = true) (hidle : (p.thread t).pc = .idle)
    (h : Creates t p p') : p'.delivered = p.delivered ++ [(t, Handler.trampoline)] ∧
      (p'.thread t).mask = (p.thread t).mask ∧ (p'.thread t).altStack = (p.thread t).altStack ∧
      p'.action = p.action ∧ (p'.thread t).pending = (p.thread t).pending.del SIGUSR1 := by
  rw [creates_served halive hidle] at h
  rw [creates_next (step_restoreAction (by simpa using halive) (by simp [served]))
    (by simp [Process.goto])] at h
  by_cases hign : p.action.handler = .ign
  · rw [creates_last (step_restoreMask (by simpa [Process.goto, Process.sigaction] using halive)
      (by simp [Process.goto]) (by simp [Process.goto, Process.sigaction, served, hign]))
      (by simp)] at h
    subst h
    simp [Process.goto, Process.sigaction, served, hign, SigSet.del_add, SigSet.del_del]
  · rw [creates_last (step_restoreMask (by simpa [Process.goto, Process.sigaction] using halive)
      (by simp [Process.goto]) (by simp [Process.goto, Process.sigaction, served, hign]))
      (by simp)] at h
    subst h
    simp [Process.goto, Process.sigaction, served, hign, SigSet.del_add]

theorem creates_exists (halive : p.alive = true) (hidle : (p.thread t).pc = .idle) :
    ∃ p', Creates t p p' := by
  have hend : Creates t _ _ := .last (step_restoreMask
    (p := ((Process.setThread
      { p with action := trampolineAction, delivered := p.delivered ++ [(t, Handler.trampoline)] } t
      (served (p.thread t) p.action)).sigaction p.action).goto t .restoreMask) (t := t)
    (by simpa [Process.goto, Process.sigaction] using halive) (by simp [Process.goto])
    (by by_cases hign : p.action.handler = .ign <;>
          simp [Process.goto, Process.sigaction, served, hign])) (by simp)
  refine ⟨_, (creates_served halive hidle).2 (.next ?_ (by simp [Process.goto]) hend)⟩
  rw [step_restoreAction (by simpa using halive) (by simp [served])]
  simp [served]

/-- **A creation is transparent** to the signals of its thread if and only if `SIGUSR1` was not
pending for it. The trampoline is called once in any case. -/
theorem create_transparent_iff (halive : p.alive = true) (hidle : (p.thread t).pc = .idle)
    (h : Creates t p p') : p'.delivered = p.delivered ++ [(t, Handler.trampoline)] ∧
      (Transparent t p p' ↔ (p.thread t).pending.mem SIGUSR1 = false) := by
  obtain ⟨hdelivered, hmask, haltStack, haction, hpending⟩ := creates_end halive hidle h
  refine ⟨hdelivered, fun htransparent => ?_, fun hfree => ?_⟩
  · rw [← SigSet.del_eq_self, ← hpending]
    exact htransparent.pending
  · exact ⟨hmask, hpending.trans ((SigSet.del_eq_self _).2 hfree), haltStack, haction⟩

end Creation

/-- A process of one thread that has blocked `SIGUSR1`, for which the signals `pending` are
pending. -/
def oneThread (pending : SigSet) : Process Unit where
  action := defaultAction
  alive := true
  thread _ := ⟨SigSet.empty.add SIGUSR1, pending, .user 0, .idle, SigSet.empty, defaultAction,
    .disabled, false⟩
  delivered := []

theorem create_transparent_oneThread : ∃ p', Creates () (oneThread SigSet.empty) p' ∧
    p'.delivered = [((), Handler.trampoline)] ∧
      (Transparent () (oneThread SigSet.empty) p' ↔ SigSet.mem SigSet.empty SIGUSR1 = false) := by
  obtain ⟨p', h⟩ := creates_exists (p := oneThread SigSet.empty) (t := ()) rfl rfl
  exact ⟨p', h, create_transparent_iff rfl rfl h⟩

/-- **A signal is lost.** `SIGUSR1` is blocked and pending before the creation, and not pending
after it. -/
theorem create_loses_signal : ∃ p', Creates () (oneThread (SigSet.empty.add SIGUSR1)) p' ∧
    (oneThread (SigSet.empty.add SIGUSR1)).alive = true ∧
    ((oneThread (SigSet.empty.add SIGUSR1)).thread ()).pending.mem SIGUSR1 = true ∧
    (p'.thread ()).pending.mem SIGUSR1 = false ∧
    ¬Transparent () (oneThread (SigSet.empty.add SIGUSR1)) p' := by
  obtain ⟨p', h⟩ := creates_exists (p := oneThread (SigSet.empty.add SIGUSR1)) (t := ()) rfl rfl
  obtain ⟨-, -, -, -, hpending⟩ := creates_end rfl rfl h
  have hlost : (p'.thread ()).pending.mem SIGUSR1 = false := by
    rw [hpending]
    exact SigSet.mem_del _
  refine ⟨p', h, rfl, rfl, hlost, fun htransparent => ?_⟩
  rw [htransparent.pending] at hlost
  cases hlost

end XcpNgGeneric.Signal
