import XcpNgGeneric.Foundations.TailQueue

/-!
# The state of one thread and its coroutines

The data of `src/coroutine.c` for one thread: `struct XcpCoroutine`, `XcpCoroutineThreadData`, the
stacks, and the saved control points of `sigsetjmp`. Coroutines are numbered in order of creation
and `0` is the thread's `dummy`, which stands for the thread's own stack; memory is never handed
out twice, so a number that was passed to `xcp_coroutine_destroy` stays dangling.

The bodies of the coroutines are not fixed. Wherever the program's own code runs, any call of the
interface may come next, so that the runs of `Machine.lean` are those of all programs.
-/

namespace XcpNgGeneric.Coroutine

open TailQueue

/-- A `XcpCoroutine *`; also the stack that the coroutine runs on. -/
abbrev Ptr := ℕ

/-- `&threadData.dummy`. -/
abbrev dummy : Ptr := 0

/-- `XcpCoroutineStatus`. -/
inductive Status
  | running
  | suspend
  | terminated
  deriving DecidableEq

/-- The value of the enumerator. -/
def Status.val : Status → ℕ
  | .running => 1
  | .suspend => 2
  | .terminated => 3

/-- The control point saved in a `sigjmp_buf`. -/
inductive JmpBuf
  /-- Step 5: in the signal handler, on the stack of the coroutine `c`. -/
  | trampoline (c : Ptr)
  /-- Step 7: in `xcp_coroutine_init`, called on the stack `p`. -/
  | init (p : Ptr)
  /-- Step 10: in `xcp_coroutine_run`, on the stack `c`. -/
  | entry (c : Ptr)
  /-- In the `n`-th `xcp_coroutine_exec` executed on the stack `p`. -/
  | exec (p : Ptr) (n : ℕ)
  deriving DecidableEq

/-- What the `void *arg` of a coroutine points to. -/
inductive Arg (D : Type)
  | userData (u : D)
  | jmpBuf (pt : JmpBuf)
  deriving DecidableEq

/-- `struct XcpCoroutine`, without `stack` (the coroutine's number) and with `next` and `pendings`
in the memory of the tail queues. -/
structure XcpCoroutine (F D : Type) where
  caller : Option Ptr
  env : Option JmpBuf
  cb : Option F
  arg : Option (Arg D)

/-- The zero-initialised (or not yet written) record. -/
def XcpCoroutine.zero {F D : Type} : XcpCoroutine F D := ⟨none, none, none, none⟩

/-- `Trampoline`. -/
structure Trampoline where
  env : Option JmpBuf
  called : Bool
  coroutine : Option Ptr

/-- The heads of the queues: the field `pendings` of a coroutine, or the local `pendings` of the
`xcp_coroutine_resume` that is active on a stack. -/
inductive Head
  | field (c : Ptr)
  | stack (p : Ptr)
  deriving DecidableEq

/-- The coroutine in whose memory a head lies. -/
def Head.owner : Head → Ptr
  | .field c => c
  | .stack p => p

/-- The coroutine in whose memory a pointer cell lies. -/
def cellOwner : Cell Ptr Head → Ptr
  | .first h => h.owner
  | .next x => x

/-- The library function active on a stack, with its local variables. User code runs above no
other, so there is at most one. -/
inductive Frame (D : Type)
  /-- None: the stack runs user code, or has not started. -/
  | idle
  | create (coroutine : Ptr) (userData : D)
  /-- `act` numbers the calls of `xcp_coroutine_resume`. -/
  | resume (act : ℕ) (coroutine self : Ptr) (callee : Option Ptr)
  | yield
  /-- The last `xcp_coroutine_exec` of `xcp_coroutine_run`. -/
  | run

/-- What is recorded of a run. A call of `xcp_coroutine_resume` is named by its activation number
`act`, a deferred `xcp_coroutine_process` by its ticket. -/
inductive Event (F D : Type)
  | create (c : Ptr) (cb : F) (userData : D)
  /-- `xcp_coroutine_resume(c)` was called on the stack `p`. -/
  | enter (act : ℕ) (p c : Ptr)
  /-- `xcp_coroutine_process(c)` was deferred by `q`, which the call `act` was executing. -/
  | process (act ticket : ℕ) (q c : Ptr)
  /-- `xcp_coroutine_exec`, on the stack `p`, jumped to `pt` of the coroutine `q`. -/
  | jump (p q : Ptr) (status : Status) (pt : JmpBuf)
  /-- `xcp_coroutine_run` called the callback of `c`. -/
  | start (c : Ptr) (cb : F) (arg : Arg D)
  /-- The callback running on the stack `c` returned. -/
  | ret (c : Ptr)
  /-- The loop of `act` took `c` off its list and resumed it. -/
  | resumed (act : ℕ) (c : Ptr)
  /-- `c`, resumed by the loop of `act`, gave control back with the value `val`. -/
  | received (act : ℕ) (c : Ptr) (val : ℕ)
  /-- `xcp_coroutine_yield`, called by `c`, got control back with the value `val`. -/
  | woken (c : Ptr) (val : ℕ)
  | leave (act : ℕ)
  deriving DecidableEq

/-- The calls of `abort`. -/
inductive AbortSite
  /-- `callee->caller` is set in `xcp_coroutine_resume`. -/
  | alreadyCalled
  /-- The `default` of the `switch` in `xcp_coroutine_resume`. -/
  | badStatus
  /-- `self->caller` is `NULL` in `xcp_coroutine_yield`. -/
  | noCaller
  /-- The end of `xcp_coroutine_run`. -/
  | runEnd
  /-- The assertion of `xcp_coroutine_process`. -/
  | assertion
  deriving DecidableEq

/-- What ends a run without a call of `abort`. -/
inductive Fault
  /-- The memory of a destroyed coroutine was accessed. -/
  | destroyed
  /-- A `NULL` pointer was dereferenced. -/
  | nullPointer
  /-- A jump to a control point that is not saved, or whose function has returned. -/
  | staleJump
  deriving DecidableEq

/-- Where the thread is. -/
inductive Control
  /-- The program's own code runs. -/
  | user
  /-- At the head of the loop of `xcp_coroutine_resume`. -/
  | loop
  | aborted (site : AbortSite)
  | fault (why : Fault)
  deriving DecidableEq

/-- One thread. -/
structure State (F D : Type) where
  /-- The stack that is executing. -/
  sp : Ptr
  control : Control
  /-- `threadData.current`. -/
  current : Option Ptr
  trampoline : Trampoline
  /-- Coroutines `1` to `created` have been created. -/
  created : ℕ
  co : Ptr → XcpCoroutine F D
  mem : Mem Ptr Head
  frame : Ptr → Frame D
  /-- The number of `xcp_coroutine_exec` executed on each stack. -/
  execs : Ptr → ℕ
  /-- The local `coroutine` of `xcp_coroutine_run`, on each stack. -/
  runLocal : Ptr → Option Ptr
  /-- The arguments of the calls of `xcp_coroutine_destroy`, in order. -/
  destroyed : List Ptr
  log : List (Event F D)

variable {F D : Type}

/-- The thread data and the memory before the first call. -/
def State.init : State F D where
  sp := dummy
  control := .user
  current := none
  trampoline := ⟨none, false, none⟩
  created := 0
  co _ := .zero
  mem := ⟨fun _ => none, fun _ => none, fun _ => none⟩
  frame _ := .idle
  execs _ := 0
  runLocal _ := none
  destroyed := []
  log := []

namespace State

/-- `xcp_coroutine_get_self`; `xcp_coroutine_get_thread_data` replaces a `NULL` `current`. -/
def self (s : State F D) : Ptr := s.current.getD dummy

def caller (s : State F D) (p : Ptr) : Option Ptr := (s.co p).caller

def env (s : State F D) (p : Ptr) : Option JmpBuf := (s.co p).env

def cb (s : State F D) (p : Ptr) : Option F := (s.co p).cb

def arg (s : State F D) (p : Ptr) : Option (Arg D) := (s.co p).arg

/-- The coroutine exists and has not been destroyed. -/
def Alive (s : State F D) (p : Ptr) : Prop := p ≤ s.created ∧ p ∉ s.destroyed

instance (s : State F D) (p : Ptr) : Decidable (s.Alive p) := inferInstanceAs (Decidable (_ ∧ _))

def setCaller (s : State F D) (p : Ptr) (v : Option Ptr) : State F D :=
  { s with co := Function.update s.co p { s.co p with caller := v } }

def setEnv (s : State F D) (p : Ptr) (v : Option JmpBuf) : State F D :=
  { s with co := Function.update s.co p { s.co p with env := v } }

def setArg (s : State F D) (p : Ptr) (v : Option (Arg D)) : State F D :=
  { s with co := Function.update s.co p { s.co p with arg := v } }

/-- `callee->caller` and the like, as one field of the records of all coroutines. -/
theorem update_co {α : Type} (s : State F D) (p : Ptr) (r : XcpCoroutine F D)
    (f : XcpCoroutine F D → α) :
    (fun q => f (Function.update s.co p r q)) = Function.update (fun q => f (s.co q)) p (f r) := by
  funext q
  by_cases hq : q = p
  · subst hq
    simp
  · simp [hq]

theorem update_co_same {α : Type} (s : State F D) (p : Ptr) (r : XcpCoroutine F D)
    (f : XcpCoroutine F D → α) (hf : f r = f (s.co p)) :
    (fun q => f (Function.update s.co p r q)) = fun q => f (s.co q) := by
  rw [update_co, hf]
  exact Function.update_eq_self p fun q => f (s.co q)

@[simp] theorem caller_setCaller (s : State F D) (p : Ptr) (v : Option Ptr) :
    (s.setCaller p v).caller = Function.update s.caller p v := update_co s p _ (·.caller)

@[simp] theorem env_setCaller (s : State F D) (p : Ptr) (v : Option Ptr) :
    (s.setCaller p v).env = s.env := update_co_same s p _ (·.env) rfl

@[simp] theorem cb_setCaller (s : State F D) (p : Ptr) (v : Option Ptr) :
    (s.setCaller p v).cb = s.cb := update_co_same s p _ (·.cb) rfl

@[simp] theorem arg_setCaller (s : State F D) (p : Ptr) (v : Option Ptr) :
    (s.setCaller p v).arg = s.arg := update_co_same s p _ (·.arg) rfl

@[simp] theorem caller_setEnv (s : State F D) (p : Ptr) (v : Option JmpBuf) :
    (s.setEnv p v).caller = s.caller := update_co_same s p _ (·.caller) rfl

@[simp] theorem env_setEnv (s : State F D) (p : Ptr) (v : Option JmpBuf) :
    (s.setEnv p v).env = Function.update s.env p v := update_co s p _ (·.env)

@[simp] theorem cb_setEnv (s : State F D) (p : Ptr) (v : Option JmpBuf) :
    (s.setEnv p v).cb = s.cb := update_co_same s p _ (·.cb) rfl

@[simp] theorem arg_setEnv (s : State F D) (p : Ptr) (v : Option JmpBuf) :
    (s.setEnv p v).arg = s.arg := update_co_same s p _ (·.arg) rfl

end State

end XcpNgGeneric.Coroutine
