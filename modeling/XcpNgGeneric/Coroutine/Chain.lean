import XcpNgGeneric.Coroutine.Machine
import XcpNgGeneric.Foundations.TailQueueMisuse

/-!
# The chain of callers and what a step can do

`Chained s ds` is the control invariant: `s.sp :: ds` are the coroutines found by following
`caller` from `threadData->current` down to the thread's own stack, each of them waiting in its
`xcp_coroutine_resume` for the one above it; every other coroutine is unstarted, suspended in
`xcp_coroutine_yield`, or has returned. `Heads s ds` is the part of the queues' shape that survives
any use of the interface.

No assumption is made on the program: under these invariants a step is one of the effects listed
in `Effect`, or ends the run (`Dead`). That is proved in `Effects.lean`, the only place where the
functions of `Machine.lean` are unfolded.
-/

namespace XcpNgGeneric.Coroutine

open TailQueue

variable {F D : Type}

/-! ## The invariants -/

/-- From `x`, `caller` leads through `ds` to the thread's own stack. -/
def CallerChain (caller : Ptr → Option Ptr) : Ptr → List Ptr → Prop
  | x, [] => x = dummy ∧ caller dummy = none
  | x, p :: ds => caller x = some p ∧ CallerChain caller p ds

/-- `R x p ds` for every `x` of the chain, its caller `p` and the rest `ds` below. -/
def Along (R : Ptr → Ptr → List Ptr → Prop) : Ptr → List Ptr → Prop
  | _, [] => True
  | x, p :: ds => R x p ds ∧ Along R p ds

/-- `p` waits for `x` in the loop of `xcp_coroutine_resume`, whose argument is not active below. -/
structure Waiting (s : State F D) (x p : Ptr) (ds : List Ptr) : Prop where
  env : s.env p = some (.exec p (s.execs p))
  frame : ∃ act coroutine, s.frame p = .resume act coroutine p (some x) ∧ coroutine ∉ p :: ds

/-- `c` has not been started. -/
structure Unstarted (s : State F D) (c : Ptr) : Prop where
  caller : s.caller c = none
  env : s.env c = some (.entry c)
  frame : s.frame c = .idle

/-- `c` is in `xcp_coroutine_yield`. -/
structure Suspended (s : State F D) (c : Ptr) : Prop where
  caller : s.caller c = none
  env : s.env c = some (.exec c (s.execs c))
  frame : s.frame c = .yield

/-- `c` is not active: unstarted, suspended, or returned with its `caller` left set. -/
def Inactive (s : State F D) (c : Ptr) : Prop :=
  (.ret c ∉ s.log ∧ (Unstarted s c ∨ Suspended s c)) ∨ (.ret c ∈ s.log ∧ s.caller c ≠ none)

/-- The local data of `xcp_coroutine_run`, and the callback and argument given to create. -/
def Owned (s : State F D) (c : Ptr) : Prop :=
  s.runLocal c = some c ∧ ∃ cb userData, s.cb c = some cb ∧ s.arg c = some (.userData userData) ∧
    .create c cb userData ∈ s.log

/-- The frame of the stack that is executing. -/
structure Top (s : State F D) (ds : List Ptr) : Prop where
  user : s.control = .user → s.frame s.sp = .idle
  loop : s.control = .loop → ∃ act coroutine callee,
    s.frame s.sp = .resume act coroutine s.sp callee ∧
      (callee = none → s.mem.first (.stack s.sp) = some coroutine) ∧
      (callee ≠ none → coroutine ∉ s.sp :: ds)

/-- The control invariant. -/
structure Chained (s : State F D) (ds : List Ptr) : Prop where
  self : s.self = s.sp
  nodup : (s.sp :: ds).Nodup
  callers : CallerChain s.caller s.sp ds
  alive : ∀ x ∈ s.sp :: ds, s.Alive x
  active : ∀ x ∈ s.sp :: ds, .ret x ∉ s.log
  waiting : Along (Waiting s) s.sp ds
  top : Top s ds
  inactive : ∀ c, 0 < c → c ≤ s.created → c ∉ s.sp :: ds → Inactive s c
  owned : ∀ c, 0 < c → c ≤ s.created → Owned s c
  fresh : ∀ c, s.created < c → s.frame c = .idle ∧ .ret c ∉ s.log

/-- The heads of the queues, whatever the links are. -/
structure Heads (s : State F D) (ds : List Ptr) : Prop where
  field : ∀ c, 0 < c → c ≤ s.created → Anchored s.mem (.field c)
  empty : ∀ c, c ∉ s.sp :: ds → s.mem.first (.field c) = none
  root : s.mem.first (.field dummy) = none ∧ s.mem.last (.field dummy) = none
  stack : ∀ p ∈ ds, Anchored s.mem (.stack p)
  loop : s.control = .loop → Anchored s.mem (.stack s.sp)

/-! ## Chains -/

theorem Along.mono {R R' : Ptr → Ptr → List Ptr → Prop} {x : Ptr} {ds : List Ptr}
    (h : Along R x ds)
    (hR : ∀ us y p es, x :: ds = us ++ y :: p :: es → R y p es → R' y p es) : Along R' x ds := by
  induction ds generalizing x with
  | nil => trivial
  | cons p ds ih =>
    refine ⟨hR [] x p ds rfl h.1, ih h.2 fun us y q es he hr => ?_⟩
    exact hR (x :: us) y q es (by rw [he]; rfl) hr

theorem Along.at_split {R : Ptr → Ptr → List Ptr → Prop} {us : List Ptr} {x y p : Ptr}
    {ds es : List Ptr} (h : Along R x ds) (he : x :: ds = us ++ y :: p :: es) : R y p es := by
  induction us generalizing x ds with
  | nil =>
    obtain ⟨rfl, rfl⟩ : x = y ∧ ds = p :: es := by simpa using he
    exact h.1
  | cons u us ih =>
    obtain ⟨-, he⟩ : x = u ∧ ds = us ++ y :: p :: es := by simpa using he
    cases ds with
    | nil => simp at he
    | cons d ds => exact ih h.2 he

theorem Along.of_mem {R : Ptr → Ptr → List Ptr → Prop} {x p : Ptr} {ds : List Ptr}
    (h : Along R x ds) (hp : p ∈ ds) : ∃ y es, R y p es := by
  induction ds generalizing x with
  | nil => cases hp
  | cons d ds ih =>
    rcases List.mem_cons.1 hp with rfl | hp
    · exact ⟨x, ds, h.1⟩
    · exact ih h.2 hp

theorem CallerChain.congr {f g : Ptr → Option Ptr} {x : Ptr} {ds : List Ptr}
    (h : CallerChain f x ds) (hfg : ∀ y ∈ x :: ds, g y = f y) : CallerChain g x ds := by
  induction ds generalizing x with
  | nil =>
    obtain ⟨rfl, h⟩ := h
    exact ⟨rfl, (hfg dummy (by simp)).trans h⟩
  | cons p ds ih =>
    exact ⟨(hfg x (by simp)).trans h.1, ih h.2 fun y hy => hfg y (by simp [hy])⟩

/-- The thread's own stack ends the chain and has no caller. -/
theorem CallerChain.dummy_mem {f : Ptr → Option Ptr} {x : Ptr} {ds : List Ptr}
    (h : CallerChain f x ds) : dummy ∈ x :: ds ∧ f dummy = none := by
  induction ds generalizing x with
  | nil => simpa [h.1] using h.2
  | cons p ds ih => exact ⟨by simp [(ih h.2).1], (ih h.2).2⟩

/-- Every other member has one. -/
theorem CallerChain.caller_ne_none {f : Ptr → Option Ptr} {x y : Ptr} {ds : List Ptr}
    (h : CallerChain f x ds) (hy : y ∈ x :: ds) (h0 : y ≠ dummy) : f y ≠ none := by
  induction ds generalizing x with
  | nil =>
    obtain rfl : y = x := by simpa using hy
    exact absurd h.1 h0
  | cons p ds ih =>
    rcases List.mem_cons.1 hy with rfl | hy
    · simp [h.1]
    · exact ih h.2 hy

/-! ## The effects of a step -/

/-- What a coroutine gives control back with: its callback has returned, or it has yielded. -/
def backStatus (returned : Bool) : Status := if returned then .terminated else .suspend

namespace State

/-- User code or a loop of the library runs. -/
def Live (s : State F D) : Prop := s.control = .user ∨ s.control = .loop

/-- After `xcp_coroutine_create`. -/
def afterCreate (s : State F D) (cb : F) (userData : D) : State F D :=
  { s with
    control := .user
    created := s.created + 1
    co := Function.update s.co (s.created + 1)
      ⟨none, some (.entry (s.created + 1)), some cb, some (.userData userData)⟩
    mem := s.mem.init (.field (s.created + 1))
    trampoline := ⟨some (.trampoline (s.created + 1)), true, some (s.created + 1)⟩
    runLocal := Function.update s.runLocal (s.created + 1) (some (s.created + 1))
    log := s.log ++ [.create (s.created + 1) cb userData] }

/-- At the head of the loop of a new `xcp_coroutine_resume(c)`. -/
def afterEnter (s : State F D) (c : Ptr) (m : Mem Ptr Head) : State F D :=
  { s with
    control := .loop
    mem := m
    frame := Function.update s.frame s.sp (.resume s.log.length c s.sp none)
    log := s.log ++ [.enter s.log.length s.sp c] }

/-- After a deferred `xcp_coroutine_process(c)`. -/
def afterDefer (s : State F D) (act : ℕ) (c : Ptr) (m : Mem Ptr Head) : State F D :=
  { s with mem := m, log := s.log ++ [.process act s.log.length s.sp c] }

/-- After the return of `xcp_coroutine_resume`. -/
def afterLeave (s : State F D) (act : ℕ) : State F D :=
  { s with
    control := .user
    frame := Function.update s.frame s.sp .idle
    log := s.log ++ [.leave act] }

/-- In the user code of `x`, which the loop has taken off its list and resumed at `pt`. -/
def afterWake (s : State F D) (act : ℕ) (coroutine x : Ptr) (m : Mem Ptr Head) (pt : JmpBuf)
    (e : Event F D) : State F D :=
  { (s.setCaller x (some s.sp)).setEnv s.sp (some (.exec s.sp (s.execs s.sp + 1))) with
    sp := x
    control := .user
    current := some x
    mem := m
    frame := Function.update
      (Function.update s.frame s.sp (.resume act coroutine s.sp (some x))) x .idle
    execs := Function.update s.execs s.sp (s.execs s.sp + 1)
    log := s.log ++ [.resumed act x, .jump s.sp x .running pt, e] }

/-- At the head of the loop of `p`, which the running coroutine has given control back to: by
yielding, or by returning, in which case the argument of the loop is destroyed. -/
def afterBack (s : State F D) (act : ℕ) (coroutine p : Ptr) (returned : Bool)
    (m : Mem Ptr Head) : State F D :=
  { (s.setCaller s.sp (if returned then some p else none)).setEnv s.sp
      (some (.exec s.sp (s.execs s.sp + 1))) with
    sp := p
    control := if returned = false ∨ s.Alive coroutine then .loop else .fault .destroyed
    current := some p
    mem := m
    frame := Function.update s.frame s.sp (if returned then .run else .yield)
    execs := Function.update s.execs s.sp (s.execs s.sp + 1)
    destroyed := s.destroyed ++ if returned then [coroutine] else []
    log := s.log ++ (if returned then [.ret s.sp] else []) ++
      [.jump s.sp p (backStatus returned) (.exec p (s.execs p)),
        .received act s.sp (backStatus returned).val] }

/-! ### The loops after a step -/

section Loops

variable {s : State F D} {p : Ptr} {act : ℕ} {coroutine self : Ptr} {callee : Option Ptr}

theorem resume_afterEnter {c : Ptr} {m : Mem Ptr Head}
    (h : (s.afterEnter c m).frame p = .resume act coroutine self callee) :
    (p = s.sp ∧ act = s.log.length ∧ coroutine = c) ∨
      (p ≠ s.sp ∧ s.frame p = .resume act coroutine self callee) := by
  by_cases hp : p = s.sp
  · subst hp
    obtain ⟨rfl, rfl, -⟩ : s.log.length = act ∧ c = coroutine ∧ _ := by
      simpa [State.afterEnter] using h
    exact Or.inl ⟨rfl, rfl, rfl⟩
  · exact Or.inr ⟨hp, by simpa [State.afterEnter, hp] using h⟩

theorem resume_afterLeave {act' : ℕ}
    (h : (s.afterLeave act').frame p = .resume act coroutine self callee) :
    p ≠ s.sp ∧ s.frame p = .resume act coroutine self callee := by
  have hp : p ≠ s.sp := by
    rintro rfl
    simp [State.afterLeave] at h
  exact ⟨hp, by simpa [State.afterLeave, hp] using h⟩

/-- The loop of `s.sp` waits for `x`, and the others are as they were. -/
theorem resume_afterWake {act' : ℕ} {coroutine' x : Ptr} {m : Mem Ptr Head} {pt : JmpBuf}
    {e : Event F D} (h : (s.afterWake act' coroutine' x m pt e).frame p =
      .resume act coroutine self callee) :
    p ≠ x ∧ ((p = s.sp ∧ act = act' ∧ coroutine = coroutine' ∧ self = s.sp ∧ callee = some x) ∨
      (p ≠ s.sp ∧ s.frame p = .resume act coroutine self callee)) := by
  have hpx : p ≠ x := by
    rintro rfl
    simp [State.afterWake] at h
  refine ⟨hpx, ?_⟩
  by_cases hp : p = s.sp
  · subst hp
    obtain ⟨rfl, rfl, rfl, rfl⟩ :
        act' = act ∧ coroutine' = coroutine ∧ s.sp = self ∧ some x = callee := by
      simpa [State.afterWake, hpx] using h
    exact Or.inl ⟨rfl, rfl, rfl, rfl, rfl⟩
  · exact Or.inr ⟨hp, by simpa [State.afterWake, hpx, hp] using h⟩

theorem resume_afterBack {act' : ℕ} {coroutine' q : Ptr} {returned : Bool} {m : Mem Ptr Head}
    (h : (s.afterBack act' coroutine' q returned m).frame p = .resume act coroutine self callee) :
    p ≠ s.sp ∧ s.frame p = .resume act coroutine self callee := by
  have hp : p ≠ s.sp := by
    rintro rfl
    cases returned <;> simp [State.afterBack] at h
  exact ⟨hp, by simpa [State.afterBack, hp] using h⟩

end Loops

end State

/-- What a step of the action `a` can do to a state with chain `s.sp :: ds`; the last argument is
the new chain. -/
inductive Effect (s : State F D) (ds : List Ptr) : Action F D → State F D → List Ptr → Prop
  | create (cb : F) (userData : D) (hu : s.control = .user) :
    Effect s ds (.create cb userData true) (s.afterCreate cb userData) ds
  | noMemory (cb : F) (userData : D) (hu : s.control = .user) :
    Effect s ds (.create cb userData false) s ds
  | enter (a : Action F D) (c : Ptr) (m : Mem Ptr Head) (hu : s.control = .user)
    (ha : a = .resume c ∨ a = .process c ∧ s.sp = dummy) (hc : s.Alive c)
    (hm : (s.mem.init (.stack s.sp)).insertTail (.stack s.sp) c = some m) :
    Effect s ds a (s.afterEnter c m) ds
  | defer (act : ℕ) (c coroutine p : Ptr) (es : List Ptr) (m : Mem Ptr Head)
    (hu : s.control = .user) (hds : ds = p :: es) (hsp : s.sp ≠ dummy)
    (hf : s.frame p = .resume act coroutine p (some s.sp)) (hc : s.Alive c) (hne : c ≠ s.sp)
    (hm : s.mem.insertTail (.field s.sp) c = some m) :
    Effect s ds (.process c) (s.afterDefer act c m) ds
  | leave (act : ℕ) (coroutine : Ptr) (callee : Option Ptr) (hl : s.control = .loop)
    (hf : s.frame s.sp = .resume act coroutine s.sp callee)
    (he : s.mem.first (.stack s.sp) = none) :
    Effect s ds .tick (s.afterLeave act) ds
  | wake (act : ℕ) (coroutine x : Ptr) (callee : Option Ptr) (m : Mem Ptr Head) (pt : JmpBuf)
    (e : Event F D) (hl : s.control = .loop)
    (hf : s.frame s.sp = .resume act coroutine s.sp callee)
    (hx : s.mem.first (.stack s.sp) = some x) (hm : s.mem.removeHead (.stack s.sp) = some m)
    (h0 : 0 < x) (hxa : s.Alive x) (hxc : x ∉ s.sp :: ds) (hret : .ret x ∉ s.log)
    (hpt : (Unstarted s x ∧ pt = .entry x ∧ ∃ cb userData, s.cb x = some cb ∧
        .create x cb userData ∈ s.log ∧ e = .start x cb (.userData userData)) ∨
      (Suspended s x ∧ pt = .exec x (s.execs x) ∧ e = .woken x Status.running.val)) :
    Effect s ds .tick (s.afterWake act coroutine x m pt e) (s.sp :: ds)
  | back (act : ℕ) (coroutine p : Ptr) (es : List Ptr) (m₁ m₂ : Mem Ptr Head) (returned : Bool)
    (hu : s.control = .user) (hds : ds = p :: es) (hsp : s.sp ≠ dummy)
    (hf : s.frame p = .resume act coroutine p (some s.sp)) (hco : coroutine ∉ p :: es)
    (hm₁ : s.mem.concat (.field s.sp) (.stack p) = some m₁)
    (hm₂ : m₁.concat (.stack p) (.field s.sp) = some m₂) :
    Effect s ds (if returned then .ret else .yield)
      (s.afterBack act coroutine p returned m₂) es

/-- The step accesses the memory of `c`: `c` is handed over, it is the last of the queue that the
running coroutine inserts in, or it is taken off the list of the loop. -/
def Touches (s : State F D) (a : Action F D) (c : Ptr) : Prop :=
  a.handed = some c ∨
    (s.control = .user ∧ s.sp ≠ dummy ∧ s.mem.last (.field s.sp) = some (.next c)) ∨
    (s.control = .loop ∧ s.mem.first (.stack s.sp) = some c)

/-- The run has ended, and nothing has been destroyed: an `abort` is reached, a destroyed coroutine
is accessed, or the thread's own stack is resumed. -/
structure Dead (s : State F D) (a : Action F D) (t : State F D) : Prop where
  destroyed : t.destroyed = s.destroyed
  log : ∃ es, t.log = s.log ++ es ∧ ∀ act c, .received act c Status.terminated.val ∉ es
  why : (t.log = s.log ∧ ((t.control = .aborted .alreadyCalled ∧ a = .tick) ∨
      (t.control = .aborted .assertion ∧ a = .process s.sp) ∨
      (t.control = .aborted .noCaller ∧ a = .yield ∧ s.sp = dummy))) ∨
    (t.control = .fault .destroyed ∧ ∃ c, ¬s.Alive c ∧ Touches s a c) ∨
    (a = .tick ∧ s.mem.first (.stack s.sp) = some dummy ∧
      (t.control = .aborted .badStatus ∨ ∃ why, t.control = .fault why))

/-- A step that ends the run at once. -/
theorem Dead.of_log_eq {s t : State F D} {a : Action F D} (hd : t.destroyed = s.destroyed)
    (hl : t.log = s.log)
    (hwhy : (t.control = .aborted .alreadyCalled ∧ a = .tick) ∨
      (t.control = .aborted .assertion ∧ a = .process s.sp) ∨
      (t.control = .aborted .noCaller ∧ a = .yield ∧ s.sp = dummy)) : Dead s a t :=
  ⟨hd, ⟨[], by simp [hl]⟩, Or.inl ⟨hl, hwhy⟩⟩

/-- An access to a destroyed coroutine. -/
theorem Dead.of_touches {s t : State F D} {a : Action F D} (hd : t.destroyed = s.destroyed)
    (hl : t.log = s.log) (hcon : t.control = .fault .destroyed) {c : Ptr} (hc : ¬s.Alive c)
    (ht : Touches s a c) : Dead s a t :=
  ⟨hd, ⟨[], by simp [hl]⟩, Or.inr (Or.inl ⟨hcon, c, hc, ht⟩)⟩

end XcpNgGeneric.Coroutine
