import Mathlib.Data.Int.Notation
import Mathlib.Data.List.Perm.Subperm
import Mathlib.Logic.Function.Basic
import XcpNgGeneric.Foundations.Runs

/-!
# Crashes

`default_crash_handler` is entered when a signal is delivered to a thread, between any two calls
that the handlers of this and of other threads make. All threads share the actions of the signals. A
signal is blocked in a thread while its handler runs there, and no default handler returns.

## Main results

* `Invariant.step`, `run_crash`: what holds at any time of a crash.
* `steps_le`: every thread makes a bounded number of steps.
* `crash_ends`: how a process with crashing threads ends.
-/

namespace XcpNgGeneric.Stacktrace

open Runs

/-! ## The functions -/

def SIGILL : ℕ := 4
def SIGTRAP : ℕ := 5
def SIGBUS : ℕ := 7
def SIGFPE : ℕ := 8
def SIGSEGV : ℕ := 11
def SIGPIPE : ℕ := 13
def SIGXCPU : ℕ := 24
def SIGXFSZ : ℕ := 25
def SIGSYS : ℕ := 31

inductive XcpCrashHandler
  | SIG_DFL
  | SIG_IGN
  | default_crash_handler
  /-- Another function of the program. -/
  | user (h : ℕ)
  deriving DecidableEq

/-- What handles each signal. -/
abbrev Actions := ℕ → XcpCrashHandler

/-- The signals that have a crash handler, in the order in which it is set. -/
def crashSignals : List ℕ :=
  [SIGBUS, SIGFPE, SIGILL, SIGPIPE, SIGSEGV, SIGSYS, SIGTRAP, SIGXCPU, SIGXFSZ]

def signal (signum : ℕ) (handler : XcpCrashHandler) (actions : Actions) : Actions :=
  Function.update actions signum handler

/-- The result is the value that is returned, and the actions. -/
def xcp_set_crash_handler (handler : XcpCrashHandler) (actions : Actions) : ℤ × Actions :=
  (0, crashSignals.foldl (fun actions signum => signal signum handler actions) actions)

def xcp_set_default_crash_handler : Actions → ℤ × Actions :=
  xcp_set_crash_handler .default_crash_handler

def xcp_clear_crash_handler : Actions → ℤ × Actions := xcp_set_crash_handler .SIG_DFL

/-! ## The process -/

/-- A call of `default_crash_handler`: its argument, and the signals whose action its call of
`xcp_set_crash_handler` has still to set. -/
structure Handling where
  signum : ℕ
  todo : List ℕ
  deriving DecidableEq

inductive Ending
  /-- `_exit`. -/
  | exited (status : ℕ)
  /-- The default action of a signal. -/
  | killed (signum : ℕ)
  /-- Printing the stack trace has failed. -/
  | fault
  deriving DecidableEq

/-- The threads `τ` of a process, with the calls of each, the innermost first. -/
structure Crash (τ : Type*) where
  actions : Actions
  frames : τ → List Handling
  ended : Option Ending

/-- A step of a thread. -/
inductive Act (τ : Type*)
  | deliver (t : τ) (signum : ℕ)
  /-- The next call of `signal`. -/
  | call (t : τ)
  /-- The rest of the handler; `ok` says whether it can print the stack trace. -/
  | print (t : τ) (ok : Bool)
  deriving DecidableEq

variable {τ : Type*} [DecidableEq τ]

def Act.thread : Act τ → τ
  | deliver t _ => t
  | call t => t
  | print t _ => t

namespace Crash

def setFrames (p : Crash τ) (t : τ) (frames : List Handling) : Crash τ :=
  { p with frames := Function.update p.frames t frames }

/-- The signals that are handled in a thread. -/
def blocked (p : Crash τ) (t : τ) : List ℕ := (p.frames t).map Handling.signum

/-- `default_crash_handler` after its first statement. -/
def finish (p : Crash τ) (signum : ℕ) (ok : Bool) : Crash τ :=
  { p with ended := some (if ok then .exited (128 + signum) else .fault) }

/-- A signal that is ignored or has another handler changes nothing: there is no step for it. -/
def step (p : Crash τ) (a : Act τ) : Option (Crash τ) :=
  if p.ended ≠ none then none
  else match a with
    | .deliver t signum =>
      if signum ∈ crashSignals ∧ signum ∉ p.blocked t then
        match p.actions signum with
        | .SIG_DFL => some { p with ended := some (.killed signum) }
        | .default_crash_handler => some (p.setFrames t (⟨signum, crashSignals⟩ :: p.frames t))
        | _ => none
      else none
    | .call t =>
      match p.frames t with
      | ⟨signum, s :: todo⟩ :: frames =>
        some ({ p with actions := signal s .SIG_DFL p.actions }.setFrames t
          (⟨signum, todo⟩ :: frames))
      | _ => none
    | .print t ok =>
      match p.frames t with
      | ⟨signum, []⟩ :: _ => some (p.finish signum ok)
      | _ => none

/-- No thread has crashed. -/
structure Calm (p : Crash τ) : Prop where
  frames : ∀ t, p.frames t = []
  ended : p.ended = none

end Crash

/-! ## What a step does -/

variable {p q : Crash τ} {a : Act τ}

/-- **The steps.** A signal ends the process or enters the handler; a handler resets an action; or a
handler, when all are reset, ends the process. -/
theorem step_cases (h : Crash.step p a = some q) : p.ended = none ∧
    ((∃ t signum, a = .deliver t signum ∧ signum ∈ crashSignals ∧ signum ∉ p.blocked t ∧
        ((p.actions signum = .SIG_DFL ∧ q = { p with ended := some (.killed signum) }) ∨
          q = p.setFrames t (⟨signum, crashSignals⟩ :: p.frames t))) ∨
      (∃ t signum s todo frames, a = .call t ∧ p.frames t = ⟨signum, s :: todo⟩ :: frames ∧
        q = { p with actions := signal s .SIG_DFL p.actions }.setFrames t
          (⟨signum, todo⟩ :: frames)) ∨
      ∃ t signum frames ok, a = .print t ok ∧ p.frames t = ⟨signum, []⟩ :: frames ∧
        q = p.finish signum ok) := by
  obtain ⟨hended, h⟩ := Option.ite_none_left_eq_some.1 h
  refine ⟨not_not.1 hended, ?_⟩
  cases a with
  | deliver t signum =>
    obtain ⟨⟨hmem, hfree⟩, h⟩ := Option.ite_none_right_eq_some.1 h
    refine Or.inl ⟨t, signum, rfl, hmem, hfree, ?_⟩
    cases hact : p.actions signum with
    | SIG_DFL =>
      rw [hact] at h
      exact Or.inl ⟨rfl, (Option.some.inj h).symm⟩
    | default_crash_handler =>
      rw [hact] at h
      exact Or.inr (Option.some.inj h).symm
    | SIG_IGN => simp [hact] at h
    | user n => simp [hact] at h
  | call t =>
    cases hframes : p.frames t with
    | nil => simp [hframes] at h
    | cons f frames =>
      obtain ⟨signum, todo⟩ := f
      cases todo with
      | nil => simp [hframes] at h
      | cons s todo =>
        simp only [hframes] at h
        exact Or.inr (Or.inl ⟨t, signum, s, todo, frames, rfl, hframes, (Option.some.inj h).symm⟩)
  | print t ok =>
    cases hframes : p.frames t with
    | nil => simp [hframes] at h
    | cons f frames =>
      obtain ⟨signum, todo⟩ := f
      cases todo with
      | nil =>
        simp only [hframes] at h
        exact Or.inr (Or.inr ⟨t, signum, frames, ok, rfl, hframes, (Option.some.inj h).symm⟩)
      | cons s todo => simp [hframes] at h

/-! ## Setting the handlers -/

theorem foldl_signal (handler : XcpCrashHandler) (signums : List ℕ) (actions : Actions) (s : ℕ) :
    signums.foldl (fun actions signum => signal signum handler actions) actions s =
      if s ∈ signums then handler else actions s := by
  induction signums generalizing actions with
  | nil => rfl
  | cons signum signums ih =>
    rw [List.foldl_cons, ih]
    by_cases hs : s = signum
    · subst hs
      simp [signal]
    · simp [signal, hs]

/-- What `xcp_set_crash_handler` does in one go, a handler that is not interrupted does call by
call. -/
theorem run_calls {p : Crash τ} {t : τ} {signum : ℕ} {todo : List ℕ} {frames : List Handling}
    (hended : p.ended = none) (hframes : p.frames t = ⟨signum, todo⟩ :: frames) :
    run Crash.step p (todo.map fun _ => .call t) = some ({ p with
      actions := todo.foldl (fun actions s => signal s .SIG_DFL actions) p.actions }.setFrames t
        (⟨signum, []⟩ :: frames)) := by
  induction todo generalizing p with
  | nil => simp [run, Crash.setFrames, ← hframes]
  | cons s todo ih =>
    have hstep : Crash.step p (.call t) = some ({ p with
        actions := signal s .SIG_DFL p.actions }.setFrames t (⟨signum, todo⟩ :: frames)) := by
      simp [Crash.step, hended, hframes]
    have hnext : ({ p with actions := signal s .SIG_DFL p.actions }.setFrames t
        (⟨signum, todo⟩ :: frames)).frames t = ⟨signum, todo⟩ :: frames :=
      Function.update_self _ _ _
    rw [List.map_cons, run, hstep, Option.bind_some, ih (by exact hended) hnext]
    simp [Crash.setFrames]

/-- One thread handles the signal, and has reset all actions. -/
def Crash.cleared (p : Crash τ) (t : τ) (signum : ℕ) : Crash τ :=
  { p with actions := (xcp_clear_crash_handler p.actions).2 }.setFrames t [⟨signum, []⟩]

/-- **One crash.** Where the default handler is set and no other signal comes, the handler resets
all actions as `xcp_clear_crash_handler` does, and the process exits. -/
theorem run_crash (hp : p.Calm) {actions : Actions}
    (hactions : p.actions = (xcp_set_default_crash_handler actions).2) {signum : ℕ}
    (hmem : signum ∈ crashSignals) (t : τ) :
    run Crash.step p (.deliver t signum :: ((crashSignals.map fun _ => .call t) ++
      [.print t true])) = some ((p.cleared t signum).finish signum true) := by
  have hset : p.actions signum = .default_crash_handler := by
    rw [hactions]
    exact (foldl_signal _ _ _ _).trans (if_pos hmem)
  have hdeliver : Crash.step p (.deliver t signum) =
      some (p.setFrames t [⟨signum, crashSignals⟩]) := by
    simp [Crash.step, hp.ended, hp.frames t, Crash.blocked, hmem, hset]
  have hframes : (p.setFrames t [⟨signum, crashSignals⟩]).frames t = [⟨signum, crashSignals⟩] :=
    Function.update_self _ _ _
  have hcalls : run Crash.step (p.setFrames t [⟨signum, crashSignals⟩])
      (crashSignals.map fun _ => .call t) = some (p.cleared t signum) := by
    rw [run_calls (by exact hp.ended) hframes]
    simp only [Crash.setFrames, Function.update_idem]
    rfl
  have hprint : Crash.step (p.cleared t signum) (.print t true) =
      some ((p.cleared t signum).finish signum true) := by
    simp [Crash.step, Crash.cleared, Crash.setFrames, hp.ended]
  rw [run, hdeliver, Option.bind_some, run_append, hcalls, Option.bind_some, run, hprint]
  rfl

/-! ## The invariant -/

/-- What holds during a crash. A signal that a handler has reset stays so. -/
structure Invariant (p : Crash τ) : Prop where
  nodup : ∀ t, (p.blocked t).Nodup
  crash : ∀ t, ∀ f ∈ p.frames t, f.signum ∈ crashSignals
  todo : ∀ t, ∀ f ∈ p.frames t, f.todo <:+ crashSignals
  reset : ∀ t, ∀ f ∈ p.frames t, ∀ s ∈ crashSignals, s ∉ f.todo → p.actions s = .SIG_DFL
  killed : ∀ s, p.ended = some (.killed s) → s ∈ crashSignals ∧ p.actions s = .SIG_DFL
  exited : ∀ status, p.ended = some (.exited status) →
    ∃ t signum frames, p.frames t = ⟨signum, []⟩ :: frames ∧ status = 128 + signum

omit [DecidableEq τ] in
theorem Crash.Calm.invariant (hp : p.Calm) : Invariant p where
  nodup t := by simp [Crash.blocked, hp.frames t]
  crash t f hf := by simp [hp.frames t] at hf
  todo t f hf := by simp [hp.frames t] at hf
  reset t f hf := by simp [hp.frames t] at hf
  killed s hs := by simp [hp.ended] at hs
  exited status hs := by simp [hp.ended] at hs

omit [DecidableEq τ] in
/-- The process has ended, with the threads as they were. -/
theorem Invariant.ends (hp : Invariant p) {e : Ending}
    (hkilled : ∀ s, e = .killed s → s ∈ crashSignals ∧ p.actions s = .SIG_DFL)
    (hexited : ∀ status, e = .exited status →
      ∃ t signum frames, p.frames t = ⟨signum, []⟩ :: frames ∧ status = 128 + signum) :
    Invariant { p with ended := some e } where
  nodup := hp.nodup
  crash := hp.crash
  todo := hp.todo
  reset := hp.reset
  killed s hs := hkilled s (Option.some.inj hs)
  exited status hs := hexited status (Option.some.inj hs)

/-- The calls of one thread are replaced. -/
theorem Invariant.setFrames (hp : Invariant p) (hended : p.ended = none) {t : τ}
    {frames : List Handling} {actions : Actions} (hnodup : (frames.map Handling.signum).Nodup)
    (hcrash : ∀ f ∈ frames, f.signum ∈ crashSignals) (htodo : ∀ f ∈ frames, f.todo <:+ crashSignals)
    (hreset : ∀ f ∈ frames, ∀ s ∈ crashSignals, s ∉ f.todo → actions s = .SIG_DFL)
    (hactions : ∀ s, p.actions s = .SIG_DFL → actions s = .SIG_DFL) :
    Invariant ({ p with actions := actions }.setFrames t frames) := by
  have hcases (u : τ) : (u = t ∧ ({ p with actions := actions }.setFrames t frames).frames u =
      frames) ∨ ({ p with actions := actions }.setFrames t frames).frames u = p.frames u := by
    by_cases hu : u = t
    · subst hu
      exact Or.inl ⟨rfl, Function.update_self _ _ _⟩
    · exact Or.inr (Function.update_of_ne hu _ _)
  constructor
  case nodup =>
    intro u
    rw [Crash.blocked]
    rcases hcases u with ⟨-, hu⟩ | hu
    · rwa [hu]
    · rw [hu]
      exact hp.nodup u
  case crash =>
    intro u f hf
    rcases hcases u with ⟨-, hu⟩ | hu
    · exact hcrash f (hu ▸ hf)
    · exact hp.crash u f (hu ▸ hf)
  case todo =>
    intro u f hf
    rcases hcases u with ⟨-, hu⟩ | hu
    · exact htodo f (hu ▸ hf)
    · exact hp.todo u f (hu ▸ hf)
  case reset =>
    intro u f hf s hs hmem
    rcases hcases u with ⟨-, hu⟩ | hu
    · exact hreset f (hu ▸ hf) s hs hmem
    · exact hactions s (hp.reset u f (hu ▸ hf) s hs hmem)
  case killed =>
    intro s hs
    have hnone : p.ended = some (.killed s) := hs
    rw [hended] at hnone
    cases hnone
  case exited =>
    intro status hs
    have hnone : p.ended = some (.exited status) := hs
    rw [hended] at hnone
    cases hnone

theorem Invariant.enter (hp : Invariant p) (hended : p.ended = none) {t : τ} {signum : ℕ}
    (hmem : signum ∈ crashSignals) (hfree : signum ∉ p.blocked t) :
    Invariant (p.setFrames t (⟨signum, crashSignals⟩ :: p.frames t)) := by
  refine hp.setFrames hended (List.nodup_cons.2 ⟨hfree, hp.nodup t⟩) ?_ ?_ ?_ fun _ hs => hs
  · exact List.forall_mem_cons.2 ⟨hmem, hp.crash t⟩
  · exact List.forall_mem_cons.2 ⟨List.suffix_rfl, hp.todo t⟩
  · exact List.forall_mem_cons.2 ⟨fun s hs hnot => absurd hs hnot, hp.reset t⟩

/-- A signal that has the default action keeps it when an action is reset. -/
theorem signal_default {actions : Actions} {r : ℕ} (hr : actions r = .SIG_DFL) (s : ℕ) :
    signal s .SIG_DFL actions r = .SIG_DFL := by
  by_cases hrs : r = s
  · subst hrs
    exact Function.update_self _ _ _
  · exact (Function.update_of_ne hrs _ _).trans hr

theorem Invariant.call (hp : Invariant p) (hended : p.ended = none) {t : τ} {signum s : ℕ}
    {todo : List ℕ} {frames : List Handling}
    (hframes : p.frames t = ⟨signum, s :: todo⟩ :: frames) :
    Invariant ({ p with actions := signal s .SIG_DFL p.actions }.setFrames t
      (⟨signum, todo⟩ :: frames)) := by
  have hnodup := hp.nodup t
  have hcrash := hp.crash t
  have htodo := hp.todo t
  have hreset := hp.reset t
  rw [Crash.blocked, hframes] at hnodup
  rw [hframes, List.forall_mem_cons] at hcrash htodo hreset
  refine hp.setFrames hended hnodup ?_ ?_ ?_ fun r hr => signal_default hr s
  · exact List.forall_mem_cons.2 hcrash
  · exact List.forall_mem_cons.2 ⟨(List.suffix_cons s todo).trans htodo.1, htodo.2⟩
  · refine List.forall_mem_cons.2 ⟨fun r hr hnot => ?_, fun f hf r hr hnot =>
      signal_default (hreset.2 f hf r hr hnot) s⟩
    by_cases hrs : r = s
    · subst hrs
      exact Function.update_self _ _ _
    · exact signal_default (hreset.1 r hr (List.not_mem_cons_of_ne_of_not_mem hrs hnot)) s

theorem Invariant.step (hp : Invariant p) (h : Crash.step p a = some q) : Invariant q := by
  obtain ⟨hended, hcases⟩ := step_cases h
  rcases hcases with ⟨t, signum, -, hmem, hfree, ⟨hact, rfl⟩ | rfl⟩ |
    ⟨t, signum, s, todo, frames, -, hframes, rfl⟩ | ⟨t, signum, frames, ok, -, hframes, rfl⟩
  · -- the default action
    apply hp.ends
    · rintro s heq
      cases heq
      exact ⟨hmem, hact⟩
    · intro status heq
      cases heq
  · -- the handler is entered
    exact hp.enter hended hmem hfree
  · -- an action is reset
    exact hp.call hended hframes
  · -- the handler exits
    apply hp.ends
    · intro s heq
      cases ok <;> cases heq
    · intro status heq
      cases ok with
      | false => cases heq
      | true => exact ⟨t, signum, frames, hframes, (Ending.exited.inj heq).symm⟩

theorem Invariant.run (hp : Invariant p) {as : List (Act τ)} (h : run Crash.step p as = some q) :
    Invariant q := by
  induction as generalizing p with
  | nil =>
    obtain rfl := Option.some.inj h
    exact hp
  | cons a as ih =>
    rw [Runs.run, Option.bind_eq_some_iff] at h
    obtain ⟨u, hu, h⟩ := h
    exact ih (hp.step hu) h

/-! ## The number of steps -/

/-- As many steps of the thread can follow in which the process does not end. -/
def Crash.fuel (p : Crash τ) (t : τ) : ℕ :=
  (crashSignals.length - (p.frames t).length) * (crashSignals.length + 1) +
    match p.frames t with
    | [] => 1
    | f :: _ => f.todo.length + 1

omit [DecidableEq τ] in
/-- A signal is handled once at a time. -/
theorem Invariant.length_frames (hp : Invariant p) (t : τ) :
    (p.frames t).length ≤ crashSignals.length := by
  have hsub : p.blocked t ⊆ crashSignals := by
    intro s hs
    obtain ⟨f, hf, rfl⟩ := List.mem_map.1 hs
    exact hp.crash t f hf
  have h := ((hp.nodup t).subperm hsub).length_le
  rwa [Crash.blocked, List.length_map] at h

theorem fuel_step (hp : Invariant p) (h : Crash.step p a = some q) (hq : q.ended = none) (t : τ) :
    q.fuel t + (if a.thread = t then 1 else 0) ≤ p.fuel t := by
  have hother {actions : Actions} {u : τ} {frames : List Handling} (hu : u ≠ t) :
      ({ p with actions := actions }.setFrames u frames).fuel t = p.fuel t := by
    have hframes : ({ p with actions := actions }.setFrames u frames).frames t = p.frames t :=
      Function.update_of_ne hu.symm _ _
    rw [Crash.fuel, Crash.fuel, hframes]
  have hq' := hp.step h
  obtain ⟨-, hcases⟩ := step_cases h
  rcases hcases with ⟨u, signum, rfl, -, -, ⟨-, rfl⟩ | rfl⟩ |
    ⟨u, signum, s, todo, frames, rfl, hframes, rfl⟩ | ⟨u, signum, frames, ok, rfl, -, rfl⟩
  · cases hq
  · by_cases hu : u = t
    · subst hu
      -- one more call: it makes fewer steps than the calls that are then left
      have hlen := hq'.length_frames u
      have hnew : (p.setFrames u (⟨signum, crashSignals⟩ :: p.frames u)).frames u =
          ⟨signum, crashSignals⟩ :: p.frames u := Function.update_self _ _ _
      rw [hnew, List.length_cons] at hlen
      rw [Act.thread, if_pos rfl, Crash.fuel, Crash.fuel, hnew, List.length_cons]
      obtain ⟨k, hk⟩ := Nat.le.dest hlen
      have hleft : crashSignals.length - ((p.frames u).length + 1) = k := by omega
      have hright : crashSignals.length - (p.frames u).length = k + 1 := by omega
      rw [hleft, hright, Nat.add_mul, Nat.one_mul]
      cases p.frames u with
      | nil => simp only []; omega
      | cons f frames => simp only []; omega
    · rw [Act.thread, if_neg hu, Nat.add_zero]
      exact Nat.le_of_eq (hother hu)
  · by_cases hu : u = t
    · subst hu
      have hnew : ({ p with actions := signal s .SIG_DFL p.actions }.setFrames u
          (⟨signum, todo⟩ :: frames)).frames u = ⟨signum, todo⟩ :: frames :=
        Function.update_self _ _ _
      rw [Act.thread, if_pos rfl, Crash.fuel, Crash.fuel, hnew, hframes]
      simp only [List.length_cons]
      omega
    · rw [Act.thread, if_neg hu, Nat.add_zero]
      exact Nat.le_of_eq (hother hu)
  · cases hq

omit [DecidableEq τ] in
theorem Crash.fuel_pos (p : Crash τ) (t : τ) : 0 < p.fuel t := by
  unfold fuel
  cases p.frames t with
  | nil => exact Nat.succ_pos _
  | cons f frames => exact Nat.succ_pos _

/-- After the end there is no step. -/
theorem eq_nil_of_ended {p q : Crash τ} {as : List (Act τ)} (hp : p.ended ≠ none)
    (h : run Crash.step p as = some q) : as = [] := by
  cases as with
  | nil => rfl
  | cons a as =>
    obtain ⟨u, hu, -⟩ := Option.bind_eq_some_iff.1 h
    exact absurd (step_cases hu).1 hp

/-- **Every thread makes a bounded number of steps.** -/
theorem steps_le (hp : Invariant p) {as : List (Act τ)} (h : run Crash.step p as = some q) (t : τ) :
    as.countP (·.thread = t) ≤ p.fuel t := by
  induction as generalizing p with
  | nil => exact Nat.zero_le _
  | cons a as ih =>
    rw [run, Option.bind_eq_some_iff] at h
    obtain ⟨u, hu, h⟩ := h
    rw [List.countP_cons]
    by_cases hended : u.ended = none
    · have hle := ih (hp.step hu) h
      have hstep := fuel_step hp hu hended t
      by_cases ha : a.thread = t
      · simp only [ha, decide_true, if_true] at hstep ⊢
        omega
      · simp only [ha, decide_false, Bool.false_eq_true, if_false] at hstep ⊢
        omega
    · obtain rfl := eq_nil_of_ended hended h
      have hpos := p.fuel_pos t
      rw [List.countP_nil, Nat.zero_add]
      split <;> omega

/-! ## How it ends -/

/-- A handler can always continue. -/
theorem step_of_frames (hended : p.ended = none) {t : τ} (ht : p.frames t ≠ []) :
    ∃ a, a.thread = t ∧ Crash.step p a ≠ none := by
  obtain ⟨⟨signum, todo⟩, frames, hframes⟩ := List.exists_cons_of_ne_nil ht
  cases todo with
  | nil => exact ⟨.print t true, rfl, by simp [Crash.step, hended, hframes]⟩
  | cons s todo => exact ⟨.call t, rfl, by simp [Crash.step, hended, hframes]⟩

/-- **Crashes end.** In any order of signals and of steps of the threads, every thread makes at most
91 steps and is in at most nine handlers, each for a different signal, and a handler can continue
as long as the process has not ended. An exit status tells which signal was handled: its handler
had reset all actions, so that no handler could be entered any more. A signal ends the process only
where its handler has been reset, or was never set. -/
theorem crash_ends (hp : p.Calm) {as : List (Act τ)} (h : run Crash.step p as = some q) :
    (∀ t, as.countP (·.thread = t) ≤ 91 ∧ (q.frames t).length ≤ 9 ∧
      ((q.frames t).map Handling.signum).Nodup) ∧
    (q.ended = none → ∀ t, q.frames t ≠ [] → ∃ a, a.thread = t ∧ Crash.step q a ≠ none) ∧
    (∀ status, q.ended = some (.exited status) → ∃ signum ∈ crashSignals,
      status = 128 + signum ∧ status < 256 ∧ ∀ s ∈ crashSignals, q.actions s = .SIG_DFL) ∧
    ∀ signum, q.ended = some (.killed signum) → q.actions signum = .SIG_DFL := by
  have hinv := hp.invariant.run h
  refine ⟨fun t => ⟨?_, hinv.length_frames t, hinv.nodup t⟩, fun hended t ht => ?_, ?_, ?_⟩
  · have hfuel : p.fuel t = 91 := by
      rw [Crash.fuel, hp.frames t]
      rfl
    exact hfuel ▸ steps_le hp.invariant h t
  · exact step_of_frames hended ht
  · intro status hstatus
    obtain ⟨t, signum, frames, hframes, rfl⟩ := hinv.exited status hstatus
    have htop : ⟨signum, []⟩ ∈ q.frames t := hframes ▸ List.mem_cons_self
    have hmem : signum ∈ crashSignals := hinv.crash t ⟨signum, []⟩ htop
    have hlt : ∀ s ∈ crashSignals, 128 + s < 256 := by decide
    refine ⟨signum, hmem, rfl, hlt signum hmem, fun s hs => ?_⟩
    exact hinv.reset t ⟨signum, []⟩ htop s hs List.not_mem_nil
  · exact fun signum hkilled => (hinv.killed signum hkilled).2

/-- A signal for one thread; while its handler resets the first two actions, another signal for the
other thread, whose handler comes to its end first. -/
def race : List (Act Bool) :=
  [.deliver false SIGSEGV, .call false, .call false, .deliver true SIGPIPE] ++
    (crashSignals.map fun _ => .call true) ++ [.print true true]

theorem crash_ends_race : ∃ q, run Crash.step
      ⟨(xcp_set_default_crash_handler fun _ => .SIG_DFL).2, fun _ => [], none⟩ race = some q ∧
    q.ended = some (.exited 141) ∧ ∀ s ∈ crashSignals, q.actions s = .SIG_DFL := by
  obtain ⟨q, hq⟩ := Option.ne_none_iff_exists'.1 (show run Crash.step
    ⟨(xcp_set_default_crash_handler fun _ => .SIG_DFL).2, fun _ => [], none⟩ race ≠ none by decide)
  have hended : q.ended = some (.exited 141) := by
    have h : (run Crash.step
        ⟨(xcp_set_default_crash_handler fun _ => .SIG_DFL).2, fun _ => [], none⟩ race).map
          Crash.ended = some (some (.exited 141)) := by decide
    rw [hq] at h
    exact Option.some.inj h
  obtain ⟨-, -, hexited, -⟩ := crash_ends ⟨fun _ => rfl, rfl⟩ hq
  obtain ⟨_, _, _, _, hactions⟩ := hexited 141 hended
  exact ⟨q, hq, hended, hactions⟩

end XcpNgGeneric.Stacktrace
