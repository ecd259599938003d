import Mathlib.Data.Fintype.Basic
import XcpNgGeneric.Foundations.Runs
import XcpNgGeneric.Foundations.SaveRestore
import XcpNgGeneric.Signal.Kernel

/-!
# The system calls of `xcp_coroutine_init`

The steps 1 to 6 of `xcp_coroutine_init`, one system call at a time, for any number of threads in
any order; what lies between two system calls is local to the thread. Steps 7 to 12 make no system
call. `step p t` is the next system call of the thread `t`, which begins a creation if none is in
progress.

The action of `SIGUSR1` is saved, replaced and restored by every creation, and nothing orders the
creations of different threads: seen from this action a run is one of `SaveRestore.Slot`.

## Main results

* `create_safe`: as long as a creation restores an action other than the trampoline's only when no
  other creation has replaced the action, every creation is served by the trampoline and the
  original action is back when all are done.
* `create_race`: two threads that create a coroutine at once; in one order a signal is handled by
  the default action, in another the trampoline stays installed.
-/

namespace XcpNgGeneric.Signal

open Runs SaveRestore

variable {τ : Type}

/-- The action of step 2. -/
def trampolineAction : SigAction where
  handler := .trampoline
  onStack := true
  resetHand := false
  mask := SigSet.full

namespace Process

/-- The loop around `sigsuspend`. -/
def whileNotCalled [DecidableEq τ] (p : Process τ) (t : τ) : Process τ :=
  p.goto t (if (p.thread t).called then .disableStack else .suspend)

end Process

/-- The next system call of `t`. -/
def step [DecidableEq τ] (p : Process τ) (t : τ) : Option (Process τ) :=
  let th := p.thread t
  if p.alive then
    match th.pc with
    | .idle =>
      let set := SigSet.empty.add SIGUSR1
      let p := p.setThread t { th with oldSet := th.mask }
      some ((p.setMask t (th.mask ||| set)).goto t .install)
    | .install =>
      let p := (p.setThread t { th with oldSa := p.action }).sigaction trampolineAction
      some (p.goto t .altStack)
    | .altStack =>
      let p := (p.setThread t { th with oldSs := th.altStack }).sigaltstack t .coroutine
      some (p.goto t .kill)
    | .kill =>
      let p := (p.setThread t { th with called := false }).killSelf t
      some (p.whileNotCalled t)
    | .suspend => (p.sigsuspend t).map fun p => p.whileNotCalled t
    | .disableStack => some ((p.sigaltstack t .disabled).goto t .restoreStack)
    | .restoreStack => some ((p.sigaltstack t th.oldSs).goto t .restoreAction)
    | .restoreAction => some ((p.sigaction th.oldSa).goto t .restoreMask)
    | .restoreMask => some ((p.setMask t th.oldSet).goto t .idle)
  else none

/-! ## Safe states, and restoring last -/

/-- No creation has begun. -/
structure Initial (p : Process τ) : Prop where
  alive : p.alive = true
  idle : ∀ t, (p.thread t).pc = .idle
  delivered : p.delivered = []

/-- The signals that the creations send are handled by the trampoline, and the action `a` is in
force whenever no creation is in progress. -/
structure Safe (a : SigAction) (p : Process τ) : Prop where
  alive : p.alive = true
  handled : ∀ d ∈ p.delivered, d.2 = .trampoline
  /-- A signal that has been sent and not handled is still pending. -/
  kept : ∀ t, (p.thread t).pc = .suspend → (p.thread t).pending.mem SIGUSR1 = true
  restored : (∀ t, (p.thread t).pc = .idle) → p.action = a

/-- The creation has replaced the action and not yet restored it. -/
def Pc.replaced : Pc → Bool
  | .altStack => true
  | .kill => true
  | .suspend => true
  | .disableStack => true
  | .restoreStack => true
  | .restoreAction => true
  | _ => false

/-- An action other than the trampoline's is restored only when no other creation has replaced the
action. -/
def RestoresLast (p : Process τ) (t : τ) : Prop :=
  (p.thread t).pc = .restoreAction → (p.thread t).oldSa ≠ trampolineAction →
    ∀ u, u ≠ t → (p.thread u).pc.replaced = false

instance [Fintype τ] [DecidableEq τ] (p : Process τ) (t : τ) : Decidable (RestoresLast p t) := by
  unfold RestoresLast
  infer_instance

/-! ## The invariant -/

/-- The action of `SIGUSR1` as a value that the creations replace. -/
def Process.slot (p : Process τ) : Slot τ SigAction where
  value := p.action
  saved t := if (p.thread t).pc.replaced then some (p.thread t).oldSa else none

/-- The signal is blocked during the creation, pending while the thread waits for it, and not
pending any more afterwards. -/
structure Thread.Ok (th : Thread) : Prop where
  blocked : th.pc ≠ .idle → th.mask.mem SIGUSR1 = true
  waiting : th.pc = .suspend → th.pending.mem SIGUSR1 = true
  served : th.pc = .disableStack ∨ th.pc = .restoreStack ∨ th.pc = .restoreAction ∨
    th.pc = .restoreMask → th.pending.mem SIGUSR1 = false

structure Inv (a : SigAction) (p : Process τ) : Prop where
  alive : p.alive = true
  handled : ∀ d ∈ p.delivered, d.2 = .trampoline
  slot : Consistent trampolineAction a p.slot
  thread : ∀ t, (p.thread t).Ok

theorem Inv.safe {a : SigAction} {p : Process τ} (hp : Inv a p) : Safe a p where
  alive := hp.alive
  handled := hp.handled
  kept t := (hp.thread t).waiting
  restored hidle := hp.slot.idle fun t => by simp [Process.slot, hidle t, Pc.replaced]

theorem Initial.inv {p : Process τ} (hp : Initial p) : Inv p.action p where
  alive := hp.alive
  handled := by simp [hp.delivered]
  slot := by
    have hslot : p.slot = ⟨p.action, fun _ => none⟩ := by
      simp [Process.slot, hp.idle, Pc.replaced]
    rw [hslot]
    exact Consistent.init trampolineAction p.action
  thread t := ⟨fun h => absurd (hp.idle t) h, by simp [hp.idle t], by simp [hp.idle t]⟩

theorem Process.slot_eq_none {p : Process τ} {t : τ}
    (hpc : (p.thread t).pc.replaced = false) : p.slot.saved t = none := by
  simp [Process.slot, hpc]

theorem Process.slot_eq_some {p : Process τ} {t : τ}
    (hpc : (p.thread t).pc.replaced = true) :
    p.slot.saved t = some (p.thread t).oldSa := by
  simp [Process.slot, hpc]

/-- While a creation has replaced the action, the trampoline handles the signal. -/
theorem Inv.action_eq {a : SigAction} {p : Process τ} {t : τ} (hp : Inv a p)
    (hpc : (p.thread t).pc.replaced = true) :
    p.action = trampolineAction :=
  hp.slot.busy t (by simp [Process.slot_eq_some hpc])

@[simp] theorem Process.pc_sigaction (p : Process τ) (sa : SigAction) (u : τ) :
    ((p.sigaction sa).thread u).pc = (p.thread u).pc := by
  rw [sigaction]
  split <;> rfl

@[simp] theorem Process.oldSa_sigaction (p : Process τ) (sa : SigAction) (u : τ) :
    ((p.sigaction sa).thread u).oldSa = (p.thread u).oldSa := by
  rw [sigaction]
  split <;> rfl

/-- Setting the action discards a pending signal only of a thread that does not wait for it. -/
theorem Thread.Ok.sigaction {p : Process τ} (hp : ∀ u, (p.thread u).Ok) (sa : SigAction) {u : τ}
    (hu : sa.handler = .ign → (p.thread u).pc ≠ .suspend) : ((p.sigaction sa).thread u).Ok := by
  have hok := hp u
  rw [Process.sigaction]
  by_cases hign : sa.handler = .ign
  · simp only [hign, if_true]
    exact ⟨hok.blocked, fun hs => absurd hs (hu hign), fun _ => SigSet.mem_del _⟩
  · simpa [hign] using hok

variable [DecidableEq τ]

namespace Process

@[simp] theorem thread_setThread (p : Process τ) (t : τ) (th : Thread) :
    (p.setThread t th).thread = Function.update p.thread t th := rfl

@[simp] theorem action_setThread (p : Process τ) (t : τ) (th : Thread) :
    (p.setThread t th).action = p.action := rfl

@[simp] theorem alive_setThread (p : Process τ) (t : τ) (th : Thread) :
    (p.setThread t th).alive = p.alive := rfl

@[simp] theorem delivered_setThread (p : Process τ) (t : τ) (th : Thread) :
    (p.setThread t th).delivered = p.delivered := rfl

@[simp] theorem setThread_setThread (p : Process τ) (t : τ) (th th' : Thread) :
    (p.setThread t th).setThread t th' = p.setThread t th' := by
  simp [setThread]

theorem deliverUnblocked_of_blocked {p : Process τ} {t : τ}
    (h : (p.thread t).mask.mem SIGUSR1 = true) : p.deliverUnblocked t = p := by
  simp [deliverUnblocked, h]

theorem deliverUnblocked_of_not_pending {p : Process τ} {t : τ}
    (h : (p.thread t).pending.mem SIGUSR1 = false) : p.deliverUnblocked t = p := by
  simp [deliverUnblocked, h]

theorem deliver_of_trampoline {p : Process τ} {t : τ} (h : p.action.handler = .trampoline) :
    p.deliver t = { p with delivered := p.delivered ++ [(t, Handler.trampoline)] }.setThread t
      { p.thread t with pending := (p.thread t).pending.del SIGUSR1, called := true } := by
  simp only [deliver, h]

end Process

/-! ## What each system call does -/

section Calls

variable {p : Process τ} {t : τ}

theorem step_idle (halive : p.alive = true) (hpc : (p.thread t).pc = .idle) :
    step p t = some (p.setThread t { p.thread t with
      mask := (p.thread t).mask ||| SigSet.empty.add SIGUSR1
      oldSet := (p.thread t).mask
      pc := .install }) := by
  have hblocked : SigSet.mem ((p.thread t).mask ||| SigSet.empty.add SIGUSR1) SIGUSR1 = true := by
    rw [SigSet.mem_or, SigSet.mem_add, Bool.or_true]
  simp only [step, halive, hpc, if_true, Process.setMask]
  rw [Process.deliverUnblocked_of_blocked (by simpa using hblocked)]
  simp [Process.goto]

theorem step_install (halive : p.alive = true) (hpc : (p.thread t).pc = .install) :
    step p t = some ({ p with action := trampolineAction }.setThread t { p.thread t with
      oldSa := p.action
      pc := .altStack }) := by
  simp only [step, halive, hpc, if_true]
  simp [halive, Process.goto, Process.sigaction, trampolineAction, Process.setThread]

theorem step_altStack (halive : p.alive = true) (hpc : (p.thread t).pc = .altStack) :
    step p t = some (p.setThread t { p.thread t with
      oldSs := (p.thread t).altStack
      altStack := .coroutine
      pc := .kill }) := by
  simp only [step, halive, hpc, if_true]
  simp [Process.goto, Process.sigaltstack]

/-- The signal is blocked, so it stays pending. -/
theorem step_kill (halive : p.alive = true) (hpc : (p.thread t).pc = .kill)
    (hblocked : (p.thread t).mask.mem SIGUSR1 = true) :
    step p t = some (p.setThread t { p.thread t with
      pending := (p.thread t).pending.add SIGUSR1
      called := false
      pc := .suspend }) := by
  simp only [step, halive, hpc, if_true, Process.killSelf]
  rw [Process.deliverUnblocked_of_blocked (by simpa using hblocked)]
  simp [Process.whileNotCalled, Process.goto]

theorem step_suspend (halive : p.alive = true) (hpc : (p.thread t).pc = .suspend)
    (hpending : (p.thread t).pending.mem SIGUSR1 = true)
    (haction : p.action.handler = .trampoline) :
    step p t = some ({ p with delivered := p.delivered ++ [(t, Handler.trampoline)] }.setThread t
      { p.thread t with
        pending := (p.thread t).pending.del SIGUSR1
        called := true
        pc := .disableStack }) := by
  simp only [step, halive, hpc, if_true, Process.sigsuspend, hpending, Option.map_some]
  rw [Process.deliver_of_trampoline haction]
  simp [halive, Process.whileNotCalled, Process.goto]

theorem step_disableStack (halive : p.alive = true) (hpc : (p.thread t).pc = .disableStack) :
    step p t = some (p.setThread t { p.thread t with
      altStack := .disabled
      pc := .restoreStack }) := by
  simp only [step, halive, hpc, if_true]
  simp [Process.goto, Process.sigaltstack]

theorem step_restoreStack (halive : p.alive = true) (hpc : (p.thread t).pc = .restoreStack) :
    step p t = some (p.setThread t { p.thread t with
      altStack := (p.thread t).oldSs
      pc := .restoreAction }) := by
  simp only [step, halive, hpc, if_true]
  simp [Process.goto, Process.sigaltstack]

theorem step_restoreAction (halive : p.alive = true) (hpc : (p.thread t).pc = .restoreAction) :
    step p t = some ((p.sigaction (p.thread t).oldSa).goto t .restoreMask) := by
  simp only [step, halive, hpc, if_true]

/-- The signal is not pending, so it is not delivered. -/
theorem step_restoreMask (halive : p.alive = true) (hpc : (p.thread t).pc = .restoreMask)
    (hpending : (p.thread t).pending.mem SIGUSR1 = false) :
    step p t = some (p.setThread t { p.thread t with
      mask := (p.thread t).oldSet
      pc := .idle }) := by
  simp only [step, halive, hpc, if_true, Process.setMask]
  rw [Process.deliverUnblocked_of_not_pending (by simpa using hpending)]
  simp [Process.goto]

end Calls

/-! ## The invariant, one system call at a time -/

/-- A system call of `t` that does not concern the action. -/
theorem Inv.setThread {a : SigAction} {p : Process τ} (hp : Inv a p) {t : τ} {th : Thread}
    (hok : th.Ok) (hpc : th.pc.replaced = (p.thread t).pc.replaced)
    (hsa : th.oldSa = (p.thread t).oldSa) : Inv a (p.setThread t th) := by
  refine ⟨hp.alive, hp.handled, ?_, fun u => ?_⟩
  · have hslot : (p.setThread t th).slot = p.slot := by
      unfold Process.slot
      congr 1
      funext u
      by_cases hne : u = t
      · subst hne
        simp [hpc, hsa]
      · simp [hne]
    rw [hslot]
    exact hp.slot
  · by_cases hne : u = t
    · subst hne
      simpa using hok
    · simpa [hne] using hp.thread u

section Steps

variable {a : SigAction} {p p' : Process τ} {t : τ}

theorem Inv.idle (hp : Inv a p) (hpc : (p.thread t).pc = .idle) (h : step p t = some p') :
    Inv a p' := by
  have hblocked : SigSet.mem ((p.thread t).mask ||| SigSet.empty.add SIGUSR1) SIGUSR1 = true := by
    rw [SigSet.mem_or, SigSet.mem_add, Bool.or_true]
  rw [step_idle hp.alive hpc] at h
  obtain rfl := Option.some.inj h
  refine hp.setThread ⟨?_, ?_, ?_⟩ ?_ ?_ <;> simp_all [Pc.replaced]

theorem Inv.altStack (hp : Inv a p) (hpc : (p.thread t).pc = .altStack) (h : step p t = some p') :
    Inv a p' := by
  have hblocked := (hp.thread t).blocked (by simp [hpc])
  rw [step_altStack hp.alive hpc] at h
  obtain rfl := Option.some.inj h
  refine hp.setThread ⟨?_, ?_, ?_⟩ ?_ ?_ <;> simp_all [Pc.replaced]

theorem Inv.kill (hp : Inv a p) (hpc : (p.thread t).pc = .kill) (h : step p t = some p') :
    Inv a p' := by
  have hblocked := (hp.thread t).blocked (by simp [hpc])
  rw [step_kill hp.alive hpc hblocked] at h
  obtain rfl := Option.some.inj h
  refine hp.setThread ⟨?_, ?_, ?_⟩ ?_ ?_ <;> simp_all [Pc.replaced]

theorem Inv.install (hp : Inv a p) (hpc : (p.thread t).pc = .install) (h : step p t = some p') :
    Inv a p' := by
  have hblocked := (hp.thread t).blocked (by simp [hpc])
  rw [step_install hp.alive hpc] at h
  obtain rfl := Option.some.inj h
  have hslot : ({ p with action := trampolineAction }.setThread t { p.thread t with
      oldSa := p.action
      pc := .altStack }).slot = p.slot.install trampolineAction t := by
    simp only [Process.slot, Slot.install]
    congr 1
    funext u
    by_cases hne : u = t
    · subst hne
      simp [Pc.replaced]
    · simp [hne]
  refine ⟨hp.alive, hp.handled, ?_, fun u => ?_⟩
  · rw [hslot]
    exact hp.slot.install (Process.slot_eq_none (by simp [hpc, Pc.replaced]))
  · by_cases hne : u = t
    · subst hne
      refine ⟨?_, ?_, ?_⟩ <;> simp_all
    · simpa [hne] using hp.thread u

/-- The signal is pending, and the trampoline handles it. -/
theorem Inv.suspend (hp : Inv a p) (hpc : (p.thread t).pc = .suspend) (h : step p t = some p') :
    Inv a p' := by
  have hblocked := (hp.thread t).blocked (by simp [hpc])
  have hpending := (hp.thread t).waiting hpc
  have haction := hp.action_eq (t := t) (by simp [hpc, Pc.replaced])
  have hdelivered : Inv a { p with delivered := p.delivered ++ [(t, .trampoline)] } := by
    refine ⟨hp.alive, ?_, hp.slot, hp.thread⟩
    intro d hd
    rcases List.mem_append.1 hd with hd | hd
    · exact hp.handled d hd
    · rw [List.mem_singleton.1 hd]
  rw [step_suspend hp.alive hpc hpending (by rw [haction]; rfl)] at h
  obtain rfl := Option.some.inj h
  refine hdelivered.setThread ⟨?_, ?_, ?_⟩ ?_ ?_ <;> simp_all [Pc.replaced]

theorem Inv.disableStack (hp : Inv a p) (hpc : (p.thread t).pc = .disableStack)
    (h : step p t = some p') : Inv a p' := by
  have hblocked := (hp.thread t).blocked (by simp [hpc])
  have hserved := (hp.thread t).served (by simp [hpc])
  rw [step_disableStack hp.alive hpc] at h
  obtain rfl := Option.some.inj h
  refine hp.setThread ⟨?_, ?_, ?_⟩ ?_ ?_ <;> simp_all [Pc.replaced]

theorem Inv.restoreStack (hp : Inv a p) (hpc : (p.thread t).pc = .restoreStack)
    (h : step p t = some p') : Inv a p' := by
  have hblocked := (hp.thread t).blocked (by simp [hpc])
  have hserved := (hp.thread t).served (by simp [hpc])
  rw [step_restoreStack hp.alive hpc] at h
  obtain rfl := Option.some.inj h
  refine hp.setThread ⟨?_, ?_, ?_⟩ ?_ ?_ <;> simp_all [Pc.replaced]

theorem Inv.restoreMask (hp : Inv a p) (hpc : (p.thread t).pc = .restoreMask)
    (h : step p t = some p') : Inv a p' := by
  have hserved := (hp.thread t).served (by simp [hpc])
  rw [step_restoreMask hp.alive hpc hserved] at h
  obtain rfl := Option.some.inj h
  refine hp.setThread ⟨?_, ?_, ?_⟩ ?_ ?_ <;> simp_all [Pc.replaced]

theorem Inv.restoreAction (hp : Inv a p) (hpc : (p.thread t).pc = .restoreAction)
    (hlast : RestoresLast p t) (h : step p t = some p') : Inv a p' := by
  have hreplaced : (p.thread t).pc.replaced = true := by simp [hpc, Pc.replaced]
  have hothers := hlast hpc
  rw [step_restoreAction hp.alive hpc, Option.some.injEq] at h
  have hslot : p'.slot = p.slot.restore t := by
    subst h
    rw [Slot.restore, Process.slot_eq_some hreplaced]
    simp only [Process.slot, Process.goto, Process.sigaction]
    congr 1
    funext u
    by_cases hne : u = t
    · subst hne
      simp [Pc.replaced]
    · by_cases hign : (p.thread t).oldSa.handler = .ign <;> simp [hne, hign]
  have hign : (p.thread t).oldSa.handler = .ign → ∀ u, (p.thread u).pc ≠ .suspend := by
    intro hign u hu
    have hne : (p.thread t).oldSa ≠ trampolineAction := by
      intro heq
      rw [heq] at hign
      cases hign
    by_cases hut : u = t
    · subst hut
      rw [hpc] at hu
      cases hu
    · have hfree := hothers hne u hut
      rw [hu] at hfree
      cases hfree
  refine ⟨?_, ?_, ?_, fun u => ?_⟩
  · rw [← h]
    exact hp.alive
  · rw [← h]
    exact hp.handled
  · rw [hslot]
    apply hp.slot.restore (Process.slot_eq_some hreplaced)
    intro hne u hut
    exact Process.slot_eq_none (hothers hne u hut)
  · have hok := Thread.Ok.sigaction hp.thread (p.thread t).oldSa (u := u) fun hi => hign hi u
    subst h
    by_cases hne : u = t
    · subst hne
      have hblocked := hok.blocked (by simp [hpc])
      have hserved := hok.served (by simp [hpc])
      exact ⟨by simpa [Process.goto] using hblocked, by simp [Process.goto],
        by simpa [Process.goto] using hserved⟩
    · simpa [Process.goto, hne] using hok

/-- **Every allowed system call keeps the invariant.** -/
theorem Inv.step (hp : Inv a p) (hlast : RestoresLast p t) (h : Signal.step p t = some p') :
    Inv a p' := by
  cases hpc : (p.thread t).pc with
  | idle => exact hp.idle hpc h
  | install => exact hp.install hpc h
  | altStack => exact hp.altStack hpc h
  | kill => exact hp.kill hpc h
  | suspend => exact hp.suspend hpc h
  | disableStack => exact hp.disableStack hpc h
  | restoreStack => exact hp.restoreStack hpc h
  | restoreAction => exact hp.restoreAction hpc hlast h
  | restoreMask => exact hp.restoreMask hpc h

end Steps

/-! ## Whole runs -/

/-- **Creations in several threads are safe** in every run in which the action that a creation found
is restored only when no other creation has replaced the action. -/
theorem create_safe {p p' : Process τ} {ts : List τ} (hp : Initial p)
    (hlast : Obeys step RestoresLast p ts) (h : run step p ts = some p') : Safe p.action p' := by
  have hinv : Inv p.action p' :=
    run_invariant (fun _ _ _ hs hok ht => Inv.step hs hok ht) hp.inv hlast h
  exact hinv.safe

/-- A process of two threads in which nothing is blocked. -/
def twoThreads (action : SigAction) : Process Bool where
  action := action
  alive := true
  thread _ := ⟨SigSet.empty, SigSet.empty, .disabled, .idle, SigSet.empty, action, .disabled, false⟩
  delivered := []

/-- `SIG_DFL`. -/
def defaultAction : SigAction := ⟨.dfl, false, false, SigSet.empty⟩

theorem twoThreads_initial (action : SigAction) : Initial (twoThreads action) :=
  ⟨rfl, fun _ => rfl, rfl⟩

/-- The whole creation of one thread between two steps of the other. -/
theorem create_safe_nested : ∃ p,
    run step (twoThreads defaultAction)
      ([false, false] ++ List.replicate 9 true ++ List.replicate 7 false) = some p ∧
    p.delivered = [(true, .trampoline), (false, .trampoline)] ∧ Safe defaultAction p := by
  have hrun : run step (twoThreads defaultAction)
      ([false, false] ++ List.replicate 9 true ++ List.replicate 7 false) = some _ := rfl
  exact ⟨_, hrun, by decide, create_safe (twoThreads_initial _) (by decide) hrun⟩

/-- **The race.** Two threads create a coroutine; the first restores the default action before the
second waits for its signal, and the process dies. If the second has already been served, it
restores the action of the trampoline last. -/
theorem create_race : Initial (twoThreads defaultAction) ∧
    (∃ p, run step (twoThreads defaultAction)
        ([false, false, true, true] ++ List.replicate 7 false ++ List.replicate 3 true) = some p ∧
      p.delivered = [(false, .trampoline), (true, .dfl)] ∧ p.alive = false) ∧
    ∃ p, run step (twoThreads defaultAction)
        ([false, false] ++ List.replicate 5 true ++ List.replicate 7 false ++
          List.replicate 4 true) = some p ∧
      (∀ t, (p.thread t).pc = .idle) ∧ p.action = trampolineAction ∧
        p.action ≠ defaultAction :=
  ⟨twoThreads_initial _, ⟨_, rfl, by decide⟩, ⟨_, rfl, by decide⟩⟩

end XcpNgGeneric.Signal
