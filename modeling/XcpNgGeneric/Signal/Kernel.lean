import Mathlib.Data.Nat.Basic
import Mathlib.Logic.Function.Basic

/-!
# Signals of a process

What `xcp_coroutine_init` relies on in the kernel: the action of `SIGUSR1`, which all threads of
the process share, and the signal mask, the pending signals and the alternate signal stack of each
thread. Every system call is one function on the process; all of them succeed.
-/

namespace XcpNgGeneric.Signal

/-- `sigset_t`. -/
abbrev SigSet := BitVec 64

def SIGUSR1 : ℕ := 10

namespace SigSet

/-- The set with one signal only. -/
def single (signum : ℕ) : SigSet := 1#64 <<< (signum - 1)

/-- `sigemptyset`. -/
def empty : SigSet := 0#64

/-- `sigfillset`. -/
def full : SigSet := BitVec.allOnes 64

/-- `sigaddset`. -/
def add (s : SigSet) (signum : ℕ) : SigSet := s ||| single signum

/-- `sigdelset`. -/
def del (s : SigSet) (signum : ℕ) : SigSet := s &&& ~~~single signum

/-- `sigismember`. -/
def mem (s : SigSet) (signum : ℕ) : Bool := s.getLsbD (signum - 1)

@[simp] theorem mem_add (s : SigSet) : (s.add SIGUSR1).mem SIGUSR1 = true := by
  simp [mem, add, single, SIGUSR1]

@[simp] theorem mem_del (s : SigSet) : (s.del SIGUSR1).mem SIGUSR1 = false := by
  simp [mem, del, single, SIGUSR1]

theorem mem_or (s t : SigSet) (signum : ℕ) :
    mem (s ||| t) signum = (s.mem signum || t.mem signum) := by
  simp [mem]

end SigSet

/-- What handles a signal. -/
inductive Handler
  /-- `SIG_DFL`, which terminates the process. -/
  | dfl
  /-- `SIG_IGN`. -/
  | ign
  /-- `xcp_coroutine_trampoline`. -/
  | trampoline
  /-- A function of the program. -/
  | user (h : ℕ)
  deriving DecidableEq

/-- `struct sigaction`, with the flags `SA_ONSTACK` and `SA_RESETHAND`. -/
structure SigAction where
  handler : Handler
  onStack : Bool
  resetHand : Bool
  mask : SigSet
  deriving DecidableEq

/-- The alternate signal stack of a thread. -/
inductive AltStack
  | disabled
  /-- The stack of the coroutine that is being created. -/
  | coroutine
  | user (ss : ℕ)
  deriving DecidableEq

/-- The next system call of `xcp_coroutine_init`, by the numbers of its steps. -/
inductive Pc
  /-- No creation is in progress. -/
  | idle
  /-- Step 2. -/
  | install
  /-- Step 3. -/
  | altStack
  /-- Step 4, to the end of `pthread_kill`. -/
  | kill
  /-- `sigsuspend`. -/
  | suspend
  /-- The four system calls of step 6. -/
  | disableStack
  | restoreStack
  | restoreAction
  | restoreMask
  deriving DecidableEq

/-- A thread: its part of the kernel's state, and the locals of its `xcp_coroutine_init`. -/
structure Thread where
  mask : SigSet
  pending : SigSet
  altStack : AltStack
  pc : Pc
  oldSet : SigSet
  oldSa : SigAction
  oldSs : AltStack
  /-- `threadData->trampoline.called`. -/
  called : Bool

/-- The threads `τ` of one process. -/
structure Process (τ : Type) where
  /-- The action of `SIGUSR1`. -/
  action : SigAction
  alive : Bool
  thread : τ → Thread
  /-- The threads that `SIGUSR1` was delivered to, and what handled it. -/
  delivered : List (τ × Handler)

namespace Process

variable {τ : Type} [DecidableEq τ]

def setThread (p : Process τ) (t : τ) (th : Thread) : Process τ :=
  { p with thread := Function.update p.thread t th }

/-- The thread continues with `pc`. -/
def goto (p : Process τ) (t : τ) (pc : Pc) : Process τ :=
  p.setThread t { p.thread t with pc := pc }

/-- `SIGUSR1`, pending for `t`, is delivered. -/
def deliver (p : Process τ) (t : τ) : Process τ :=
  let th := { p.thread t with pending := (p.thread t).pending.del SIGUSR1 }
  let p := { p with delivered := p.delivered ++ [(t, p.action.handler)] }
  match p.action.handler with
  | .dfl => { p.setThread t th with alive := false }
  | .ign => p.setThread t th
  | .trampoline => p.setThread t { th with called := true }
  | .user _ =>
    let p := p.setThread t th
    if p.action.resetHand then { p with action := { p.action with handler := .dfl } } else p

/-- What follows a change of the mask of `t`. -/
def deliverUnblocked (p : Process τ) (t : τ) : Process τ :=
  if (p.thread t).pending.mem SIGUSR1 && !(p.thread t).mask.mem SIGUSR1 then p.deliver t else p

/-- `pthread_sigmask(SIG_SETMASK, set, NULL)`. -/
def setMask (p : Process τ) (t : τ) (set : SigSet) : Process τ :=
  (p.setThread t { p.thread t with mask := set }).deliverUnblocked t

/-- `sigaction(SIGUSR1, sa, NULL)`; a pending signal that is now ignored is discarded. -/
def sigaction (p : Process τ) (sa : SigAction) : Process τ :=
  { p with
    action := sa
    thread := fun t =>
      if sa.handler = .ign then
        { p.thread t with pending := (p.thread t).pending.del SIGUSR1 }
      else p.thread t }

/-- `sigaltstack(ss, NULL)`. -/
def sigaltstack (p : Process τ) (t : τ) (ss : AltStack) : Process τ :=
  p.setThread t { p.thread t with altStack := ss }

/-- `pthread_kill(pthread_self(), SIGUSR1)`. -/
def killSelf (p : Process τ) (t : τ) : Process τ :=
  (p.setThread t { p.thread t with
    pending := (p.thread t).pending.add SIGUSR1 }).deliverUnblocked t

/-- `sigsuspend(set)` where `set` does not block `SIGUSR1`: it returns once this signal has been
caught; `none` while the signal is not pending. -/
def sigsuspend (p : Process τ) (t : τ) : Option (Process τ) :=
  if (p.thread t).pending.mem SIGUSR1 then some (p.deliver t) else none

end Process

end XcpNgGeneric.Signal
