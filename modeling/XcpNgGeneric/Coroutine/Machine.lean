import XcpNgGeneric.Coroutine.State

/-!
# The functions of `coroutine.c`

Each function is cut where control leaves it through `siglongjmp`: `land` continues at the saved
control point, on the stack it belongs to, with the frame this stack was left with. A call of the
interface, up to the point where user code or the loop of `xcp_coroutine_resume` goes on, is one
step of the machine (`step`); so is one iteration of that loop (`Action.tick`). Between two such
points the library makes at most one switch, so no step iterates.

The signal side of `xcp_coroutine_init` (steps 1 to 6) is not part of this machine: a single thread
runs the handler exactly once on the new stack, which is `trampoline`. Assertions are enabled, as
in the build the repository describes.
-/

namespace XcpNgGeneric.Coroutine

open TailQueue

variable {F D : Type}

namespace State

/-! ## Ends of a run -/

def abort (s : State F D) (site : AbortSite) : State F D := { s with control := .aborted site }

def fault (s : State F D) (why : Fault) : State F D := { s with control := .fault why }

/-- Continue with `k` unless one of the coroutines whose memory is accessed is destroyed. -/
def touching (s : State F D) (ps : List Ptr) (k : State F D) : State F D :=
  if ∀ p ∈ ps, s.Alive p then k else s.fault .destroyed

/-! ## The macros on the pending lists -/

/-- `STAILQ_INSERT_TAIL(h, c, next)`. -/
def insertTail (s : State F D) (h : Head) (c : Ptr) (k : State F D → State F D) : State F D :=
  s.touching (c :: h.owner :: ((s.mem.last h).map cellOwner).toList) <|
    match s.mem.insertTail h c with
    | none => s.fault .nullPointer
    | some m => k { s with mem := m }

/-- `STAILQ_REMOVE_HEAD(h, next)`. -/
def removeHead (s : State F D) (h : Head) (k : State F D → State F D) : State F D :=
  s.touching (h.owner :: (s.mem.first h).toList) <|
    match s.mem.removeHead h with
    | none => s.fault .nullPointer
    | some m => k { s with mem := m }

/-- `STAILQ_CONCAT(h₁, h₂)`; the first queue is accessed only if the second is not empty. -/
def concat (s : State F D) (h₁ h₂ : Head) (k : State F D → State F D) : State F D :=
  s.touching (h₂.owner :: if s.mem.first h₂ = none then [] else
      h₁.owner :: ((s.mem.last h₁).map cellOwner).toList) <|
    match s.mem.concat h₁ h₂ with
    | none => s.fault .nullPointer
    | some m => k { s with mem := m }

/-! ## Landing -/

/-- `xcp_coroutine_destroy`. -/
def destroy (s : State F D) (coroutine : Ptr) : State F D :=
  { s with
    control := if s.Alive coroutine then s.control else .fault .destroyed
    destroyed := s.destroyed ++ [coroutine] }

/-- `xcp_coroutine_resume` from the return of `xcp_coroutine_exec` to the head of the loop. The
case `Terminated` of the `switch` falls through; what it destroys is the argument of the call. -/
def resumeAfterExec (s : State F D) (act : ℕ) (coroutine callee : Ptr) (ret : ℕ) : State F D :=
  s.concat (.field callee) (.stack s.sp) fun s =>
  s.concat (.stack s.sp) (.field callee) fun s =>
    let s := { s with log := s.log ++ [.received act callee ret], control := .loop }
    if ret = Status.terminated.val then s.destroy coroutine
    else if ret = Status.suspend.val then s
    else s.abort .badStatus

/-- The end of `xcp_coroutine_create`, after `xcp_coroutine_init`. -/
def createAfterInit (s : State F D) (coroutine : Ptr) (cb : F) (userData : D) : State F D :=
  { s.setArg coroutine (some (.userData userData)) with
    frame := Function.update s.frame s.sp .idle
    control := .user
    log := s.log ++ [.create coroutine cb userData] }

/-- `xcp_coroutine_run` from step 10, reached for the second time, to the call of the callback. -/
def runCallback (s : State F D) : State F D :=
  match s.runLocal s.sp with
  | none => s.fault .nullPointer
  | some coroutine =>
    s.touching [coroutine] <|
      match s.cb coroutine, s.arg coroutine with
      | some cb, some arg => { s with control := .user, log := s.log ++ [.start coroutine cb arg] }
      | _, _ => s.fault .nullPointer

/-- `sigsetjmp` returns `val` for the second time at a point saved outside the trampoline. -/
def landSaved (s : State F D) (pt : JmpBuf) (val : ℕ) : State F D :=
  match pt with
  | .trampoline _ => s.fault .staleJump
  | .init p =>
    match s.frame p with
    | .create coroutine userData =>
      match s.cb coroutine with
      | some cb => { s with sp := p }.createAfterInit coroutine cb userData
      | none => s.fault .nullPointer
    | _ => s.fault .staleJump
  | .entry c => { s with sp := c }.runCallback
  | .exec p n =>
    if n = s.execs p then
      match s.frame p with
      | .resume act coroutine _ (some callee) =>
        { s with sp := p }.resumeAfterExec act coroutine callee val
      | .yield =>
        { s with
          sp := p
          frame := Function.update s.frame p .idle
          control := .user
          log := s.log ++ [.woken p val] }
      | .run => { s with sp := p }.abort .runEnd
      | _ => s.fault .staleJump
    else s.fault .staleJump

/-- `xcp_coroutine_run` up to step 11. -/
def run (s : State F D) : State F D :=
  match s.trampoline.coroutine with
  | none => s.fault .nullPointer
  | some coroutine =>
    let s := { s.setEnv coroutine (some (.entry s.sp)) with
      runLocal := Function.update s.runLocal s.sp (some coroutine) }
    match s.arg coroutine with
    | some (.jmpBuf pt) => s.landSaved pt 1
    | _ => s.fault .staleJump

/-- `siglongjmp(pt, val)`. -/
def land (s : State F D) (pt : JmpBuf) (val : ℕ) : State F D :=
  match pt with
  | .trampoline c => { s with sp := c }.run
  | pt => s.landSaved pt val

/-- `xcp_coroutine_exec`. -/
def exec (s : State F D) (caller callee : Ptr) (status : Status) : State F D :=
  s.touching [caller, callee] <|
    let n := s.execs s.sp + 1
    let s : State F D := { s.setEnv caller (some (.exec s.sp n)) with
      current := some callee
      execs := Function.update s.execs s.sp n }
    match s.env callee with
    | none => s.fault .staleJump
    | some pt =>
      let s : State F D := { s with log := s.log ++ [.jump s.sp callee status pt] }
      s.land pt status.val

/-! ## Creation -/

/-- `xcp_coroutine_trampoline` up to step 5, run by the signal on the stack `c`. -/
def runTrampoline (s : State F D) (c : Ptr) : State F D :=
  { s with trampoline := { s.trampoline with called := true, env := some (.trampoline c) } }

/-- `xcp_coroutine_init` from step 4 to step 8. -/
def initCoroutine (s : State F D) (coroutine : Ptr) : State F D :=
  let s := { s with
    trampoline := { s.trampoline with called := false, coroutine := some coroutine } }
  let s := s.runTrampoline coroutine
  let s := s.setArg coroutine (some (.jmpBuf (.init s.sp)))
  match s.trampoline.env with
  | none => s.fault .staleJump
  | some pt => s.land pt 1

/-- `xcp_coroutine_create`; without memory it returns `NULL`. -/
def create (s : State F D) (cb : F) (userData : D) (alloc : Bool) : State F D :=
  if alloc then
    let coroutine := s.created + 1
    let s := { s with
      created := coroutine
      co := Function.update s.co coroutine
        { caller := none, env := none, cb := some cb, arg := none }
      mem := s.mem.init (.field coroutine)
      frame := Function.update s.frame s.sp (.create coroutine userData) }
    s.initCoroutine coroutine
  else s

/-! ## The interface -/

/-- `xcp_coroutine_resume` up to the head of the loop. -/
def resume (s : State F D) (coroutine : Ptr) : State F D :=
  let s : State F D := { s with mem := s.mem.init (.stack s.sp) }
  s.insertTail (.stack s.sp) coroutine fun s =>
    { s with
      frame := Function.update s.frame s.sp (.resume s.log.length coroutine s.self none)
      control := .loop
      log := s.log ++ [.enter s.log.length s.sp coroutine] }

/-- `xcp_coroutine_resume` from the head of the loop to `xcp_coroutine_exec`, or to the return. -/
def resumeLoop (s : State F D) : State F D :=
  match s.frame s.sp with
  | .resume act coroutine self _ =>
    match s.mem.first (.stack s.sp) with
    | none =>
      { s with
        frame := Function.update s.frame s.sp .idle
        control := .user
        log := s.log ++ [.leave act] }
    | some callee =>
      s.removeHead (.stack s.sp) fun s =>
        match s.caller callee with
        | some _ => s.abort .alreadyCalled
        | none =>
          let s : State F D := { s.setCaller callee (some self) with
            frame := Function.update s.frame s.sp (.resume act coroutine self (some callee))
            log := s.log ++ [.resumed act callee] }
          s.exec self callee .running
  | _ => s.fault .staleJump

/-- `xcp_coroutine_yield`. -/
def yield (s : State F D) : State F D :=
  s.touching [s.self] <|
    match s.caller s.self with
    | none => s.abort .noCaller
    | some caller =>
      let self := s.self
      let s : State F D := { s.setCaller self none with
        frame := Function.update s.frame s.sp .yield }
      s.exec self caller .suspend

/-- The activation whose loop runs on the stack `p`. -/
def actOf (s : State F D) (p : Ptr) : ℕ :=
  match s.frame p with
  | .resume act _ _ _ => act
  | _ => 0

/-- `xcp_coroutine_process`. -/
def process (s : State F D) (coroutine : Ptr) : State F D :=
  s.touching [s.self] <|
    match s.caller s.self with
    | none => s.resume coroutine
    | some p =>
      if coroutine = s.self then s.abort .assertion
      else s.insertTail (.field s.self) coroutine fun s =>
        { s with log := s.log ++ [.process (s.actOf p) s.log.length s.self coroutine] }

/-- `xcp_coroutine_run` after the callback has returned. -/
def runReturn (s : State F D) : State F D :=
  match s.runLocal s.sp with
  | none => s.fault .nullPointer
  | some coroutine =>
    s.touching [coroutine] <|
      match s.caller coroutine with
      | none => s.fault .nullPointer
      | some caller =>
        let s : State F D := { s with
          frame := Function.update s.frame s.sp .run
          log := s.log ++ [.ret s.sp] }
        s.exec coroutine caller .terminated

end State

/-! ## Steps -/

/-- What the program does next, or `tick`: the loop that is running goes on. -/
inductive Action (F D : Type)
  | create (cb : F) (userData : D) (alloc : Bool)
  | resume (c : Ptr)
  | process (c : Ptr)
  | yield
  /-- The callback that is running returns. -/
  | ret
  | tick
  deriving DecidableEq

/-- One step. The thread's own code is not a callback. -/
def step (s : State F D) (a : Action F D) : Option (State F D) :=
  match s.control, a with
  | .loop, .tick => some s.resumeLoop
  | .user, .create cb userData alloc => some (s.create cb userData alloc)
  | .user, .resume c => some (s.resume c)
  | .user, .process c => some (s.process c)
  | .user, .yield => some s.yield
  | .user, .ret => if s.sp = dummy then none else some s.runReturn
  | _, _ => none

/-- The argument of `xcp_coroutine_resume` or `xcp_coroutine_process`. -/
def Action.handed : Action F D → Option Ptr
  | .resume c => some c
  | .process c => some c
  | _ => none

end XcpNgGeneric.Coroutine
