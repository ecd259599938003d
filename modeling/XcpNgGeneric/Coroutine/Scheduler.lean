import XcpNgGeneric.Coroutine.Machine
import XcpNgGeneric.Foundations.Runs

/-!
# What `coroutine.h` offers

The scheduler that the interface describes, without stacks, saved control points, links or memory:
the coroutine that runs, the calls of `xcp_coroutine_resume` below it with their work lists, and
how far each coroutine is. A coroutine that returns is released. `Refinement.lean` proves that the
functions of `coroutine.c` implement it.

A program that hands over idle coroutines only and yields inside coroutines only (`Proper`) never
reaches an `abort` (`run_orderly`).
-/

namespace XcpNgGeneric.Coroutine

open Runs

variable {F D : Type}

/-- How far a coroutine is. -/
inductive Phase
  | unstarted
  | active
  | suspended
  | finished
  deriving DecidableEq

/-- A coroutine that can be resumed. -/
def Phase.Idle (ph : Phase) : Prop := ph = .unstarted ∨ ph = .suspended

instance (ph : Phase) : Decidable ph.Idle := inferInstanceAs (Decidable (_ ∨ _))

/-- A call of `xcp_coroutine_resume`: its argument, and what it has still to resume. -/
structure Call where
  argument : Ptr
  todo : List Ptr
  deriving DecidableEq

/-- A coroutine that waits in its call for the one above it, with its own requests. -/
structure Caller extends Call where
  self : Ptr
  deferred : List Ptr
  deriving DecidableEq

/-- What a program can see of a run. -/
inductive Observation (F D : Type)
  | created (c : Ptr) (cb : F) (userData : D)
  /-- `self` has called `xcp_coroutine_resume(c)`. -/
  | called (self c : Ptr)
  | deferred (self c : Ptr)
  | started (c : Ptr) (cb : F) (userData : D)
  | woken (c : Ptr)
  | yielded (c : Ptr)
  | returned (c : Ptr)
  /-- A call of `xcp_coroutine_resume` has returned. -/
  | left
  deriving DecidableEq

/-- The running coroutine, its call if it is in one, and the callers below it. -/
structure Scheduler (F D : Type) where
  created : ℕ
  callback : Ptr → Option (F × D)
  phase : Ptr → Phase
  self : Ptr
  deferred : List Ptr
  call : Option Call
  callers : List Caller
  released : List Ptr
  ended : Option AbortSite
  log : List (Observation F D)

namespace Scheduler

/-- Before the first call, the thread runs and there are no coroutines. -/
def init : Scheduler F D where
  created := 0
  callback _ := none
  phase := Function.update (fun _ => .unstarted) dummy .active
  self := dummy
  deferred := []
  call := none
  callers := []
  released := []
  ended := none
  log := []

/-- The list of the call that is running, if there is one. -/
def todo (t : Scheduler F D) : List Ptr :=
  match t.call with
  | some k => k.todo
  | none => []

/-- What has been asked for and not been resumed yet. -/
def waiting (t : Scheduler F D) : List Ptr :=
  t.deferred ++ (t.todo ++ t.callers.flatMap fun c => c.deferred ++ c.todo)

/-- Where the thread is. -/
def control (t : Scheduler F D) : Control :=
  match t.ended, t.call with
  | some site, _ => .aborted site
  | none, some _ => .loop
  | none, none => .user

/-! ## Steps -/

def abort (t : Scheduler F D) (site : AbortSite) : Scheduler F D := { t with ended := some site }

def create (t : Scheduler F D) (cb : F) (userData : D) : Scheduler F D :=
  { t with
    created := t.created + 1
    callback := Function.update t.callback (t.created + 1) (some (cb, userData))
    phase := Function.update t.phase (t.created + 1) .unstarted
    log := t.log ++ [.created (t.created + 1) cb userData] }

/-- A call of `xcp_coroutine_resume` begins with its argument. -/
def enter (t : Scheduler F D) (c : Ptr) : Scheduler F D :=
  { t with call := some ⟨c, [c]⟩, log := t.log ++ [.called t.self c] }

def defer (t : Scheduler F D) (c : Ptr) : Scheduler F D :=
  { t with deferred := t.deferred ++ [c], log := t.log ++ [.deferred t.self c] }

def leave (t : Scheduler F D) : Scheduler F D :=
  { t with call := none, log := t.log ++ [.left] }

/-- What `x` sees when it is resumed. -/
def entry (t : Scheduler F D) (x : Ptr) : Option (Observation F D) :=
  match t.phase x with
  | .unstarted => (t.callback x).map fun p => .started x p.1 p.2
  | .suspended => some (.woken x)
  | .active | .finished => none

def wake (t : Scheduler F D) (k : Call) (x : Ptr) (xs : List Ptr) (o : Observation F D) :
    Scheduler F D :=
  { t with
    phase := Function.update t.phase x .active
    self := x
    deferred := []
    call := none
    callers := ⟨⟨k.argument, xs⟩, t.self, t.deferred⟩ :: t.callers
    log := t.log ++ [o] }

/-- The call takes the next coroutine of its list, or returns. -/
def turn (t : Scheduler F D) (k : Call) : Option (Scheduler F D) :=
  match k.todo with
  | [] => some t.leave
  | x :: xs =>
    if t.phase x = .active then some (t.abort .alreadyCalled)
    else (t.entry x).map (t.wake k x xs)

/-- The running coroutine gives control back to `c`, whose list its requests go before. -/
def back (t : Scheduler F D) (c : Caller) (cs : List Caller) (returned : Bool) : Scheduler F D :=
  { t with
    phase := Function.update t.phase t.self (if returned then .finished else .suspended)
    self := c.self
    deferred := c.deferred
    call := some ⟨c.argument, t.deferred ++ c.todo⟩
    callers := cs
    released := t.released ++ if returned then [t.self] else []
    log := t.log ++ [if returned then .returned t.self else .yielded t.self] }

/-- One step; the actions are those of the code. -/
def step (t : Scheduler F D) (a : Action F D) : Option (Scheduler F D) :=
  match t.ended, t.call, a with
  | none, some k, .tick => t.turn k
  | none, none, .create cb userData alloc => some (if alloc then t.create cb userData else t)
  | none, none, .resume c => some (t.enter c)
  | none, none, .process c =>
    match t.callers with
    | [] => some (t.enter c)
    | _ :: _ => some (if c = t.self then t.abort .assertion else t.defer c)
  | none, none, .yield =>
    match t.callers with
    | [] => some (t.abort .noCaller)
    | c :: cs => some (t.back c cs false)
  | none, none, .ret =>
    match t.callers with
    | [] => none
    | c :: cs => some (t.back c cs true)
  | _, _, _ => none

/-! ## What programs may do -/

/-- What is handed over is a coroutine that has not returned and is on no list; and a coroutine
that returns is the argument of the call that runs it. -/
structure Allowed (t : Scheduler F D) (a : Action F D) : Prop where
  handed : ∀ c ∈ a.handed,
    (c ≠ dummy ∧ c ≤ t.created) ∧ t.phase c ≠ .finished ∧ c ∉ t.waiting
  ret : a = .ret → t.callers.head?.map (·.argument) = some t.self

/-- Moreover only coroutines that are not active are handed over, and only coroutines yield. -/
structure Proper (t : Scheduler F D) (a : Action F D) : Prop extends Allowed t a where
  inactive : ∀ c ∈ a.handed, t.phase c ≠ .active
  yield : a = .yield → t.callers ≠ []

/-! ## What a step does -/

/-- The ways to take a step. -/
inductive Move (t : Scheduler F D) : Action F D → Scheduler F D → Prop
  | create (cb : F) (userData : D) : Move t (.create cb userData true) (t.create cb userData)
  | noMemory (cb : F) (userData : D) : Move t (.create cb userData false) t
  | enter (a : Action F D) (c : Ptr) (hk : t.call = none) (ha : a.handed = some c) :
    Move t a (t.enter c)
  | defer (c : Ptr) (hk : t.call = none) : Move t (.process c) (t.defer c)
  | leave (k : Call) (hk : t.call = some k) (htodo : k.todo = []) : Move t .tick t.leave
  | wake (k : Call) (x : Ptr) (xs : List Ptr) (o : Observation F D) (hk : t.call = some k)
    (htodo : k.todo = x :: xs) (ho : t.entry x = some o) : Move t .tick (t.wake k x xs o)
  | back (c : Caller) (cs : List Caller) (returned : Bool) (hk : t.call = none)
    (hcs : t.callers = c :: cs) : Move t (if returned then .ret else .yield) (t.back c cs returned)
  /-- The calls of `abort`. -/
  | abort (a : Action F D) (site : AbortSite)
    (hsite : (a = .tick ∧ ∃ k x xs, t.call = some k ∧ k.todo = x :: xs ∧ t.phase x = .active) ∨
      a = .process t.self ∨ (a = .yield ∧ t.callers = [])) : Move t a (t.abort site)

theorem step_move {t t' : Scheduler F D} {a : Action F D} (h : step t a = some t') :
    t.ended = none ∧ t.Move a t' := by
  unfold step at h
  split at h
  next k he hk =>
    refine ⟨he, ?_⟩
    unfold turn at h
    split at h
    next htodo =>
      obtain rfl := Option.some.inj h
      exact .leave k hk htodo
    next x xs htodo =>
      split at h
      next hact =>
        obtain rfl := Option.some.inj h
        exact .abort .tick _ (Or.inl ⟨rfl, k, x, xs, hk, htodo, hact⟩)
      next =>
        obtain ⟨o, ho, rfl⟩ := Option.map_eq_some_iff.1 h
        exact .wake k x xs o hk htodo ho
  next cb userData alloc he hk =>
    obtain rfl := Option.some.inj h
    cases alloc with
    | true => exact ⟨he, .create cb userData⟩
    | false => exact ⟨he, .noMemory cb userData⟩
  next c he hk =>
    obtain rfl := Option.some.inj h
    exact ⟨he, .enter (.resume c) c hk rfl⟩
  next c he hk =>
    refine ⟨he, ?_⟩
    split at h
    next =>
      obtain rfl := Option.some.inj h
      exact .enter (.process c) c hk rfl
    next =>
      obtain rfl := Option.some.inj h
      split
      next hself =>
        subst hself
        exact .abort _ _ (Or.inr (Or.inl rfl))
      next => exact .defer c hk
  next he hk =>
    refine ⟨he, ?_⟩
    split at h
    next hcs =>
      obtain rfl := Option.some.inj h
      exact .abort .yield _ (Or.inr (Or.inr ⟨rfl, hcs⟩))
    next c cs hcs =>
      obtain rfl := Option.some.inj h
      exact .back c cs false hk hcs
  next he hk =>
    refine ⟨he, ?_⟩
    split at h
    next => cases h
    next c cs hcs =>
      obtain rfl := Option.some.inj h
      exact .back c cs true hk hcs
  next => cases h

/-! ## Proper programs -/

/-- The thread is at work, and what waits can be resumed. -/
structure Orderly (t : Scheduler F D) : Prop where
  ended : t.ended = none
  active : ∀ x ∈ t.self :: t.callers.map Caller.self, t.phase x = .active
  distinct : (t.self :: t.callers.map Caller.self).Nodup
  nodup : t.waiting.Nodup
  idle : ∀ c ∈ t.waiting, c ≤ t.created ∧ (t.phase c).Idle
  made : ∀ c, c ≠ dummy → c ≤ t.created → t.callback c ≠ none
  fresh : ∀ c, t.created < c → t.phase c = .unstarted
  released : ∀ c, c ∈ t.released ↔ t.phase c = .finished
  once : t.released.Nodup

/-! ### What waits after a step -/

theorem waiting_enter {t : Scheduler F D} (hk : t.call = none) (c : Ptr) :
    (t.enter c).waiting.Perm (c :: t.waiting) := by
  rw [List.perm_iff_count]
  intro y
  simp only [waiting, todo, enter, hk, List.count_append, List.count_cons, List.count_nil]
  omega

theorem waiting_defer (t : Scheduler F D) (c : Ptr) :
    (t.defer c).waiting.Perm (c :: t.waiting) := by
  rw [List.perm_iff_count]
  intro y
  simp only [waiting, todo, defer, List.count_append, List.count_cons, List.count_nil]
  omega

theorem waiting_leave {t : Scheduler F D} {k : Call} (hk : t.call = some k) (htodo : k.todo = []) :
    t.leave.waiting = t.waiting := by
  simp [waiting, todo, leave, hk, htodo]

theorem waiting_wake {t : Scheduler F D} {k : Call} {x : Ptr} {xs : List Ptr}
    (hk : t.call = some k) (htodo : k.todo = x :: xs) (o : Observation F D) :
    t.waiting.Perm (x :: (t.wake k x xs o).waiting) := by
  rw [List.perm_iff_count]
  intro y
  simp only [waiting, todo, wake, hk, htodo, List.count_append, List.count_cons, List.count_nil,
    List.flatMap_cons]
  omega

theorem waiting_back {t : Scheduler F D} {c : Caller} {cs : List Caller} (hk : t.call = none)
    (hcs : t.callers = c :: cs) (returned : Bool) :
    (t.back c cs returned).waiting.Perm t.waiting := by
  rw [List.perm_iff_count]
  intro y
  simp only [waiting, todo, back, hk, hcs, List.count_append, List.count_nil, List.flatMap_cons]
  omega

theorem idle_of_ne {ph : Phase} (hf : ph ≠ .finished) (ha : ph ≠ .active) : ph.Idle := by
  cases ph with
  | unstarted => exact Or.inl rfl
  | suspended => exact Or.inr rfl
  | active => exact absurd rfl ha
  | finished => exact absurd rfl hf

/-! ### Proper programs stay orderly -/

/-- A call that adds its argument to a list of the running coroutine. -/
theorem Orderly.insert {t t' : Scheduler F D} (ho : Orderly t) {a : Action F D} {c : Ptr}
    (ha : t.Proper a) (hc : a.handed = some c) (hw : t'.waiting.Perm (c :: t.waiting))
    (hself : t'.self = t.self) (hcallers : t'.callers = t.callers) (hph : t'.phase = t.phase)
    (hcb : t'.callback = t.callback) (hcr : t'.created = t.created)
    (hrel : t'.released = t.released) (hend : t'.ended = t.ended) : Orderly t' := by
  obtain ⟨⟨hd, hle⟩, hfin, hnew⟩ := ha.handed c hc
  refine ⟨hend.trans ho.ended, ?_, ?_, ?_, ?_, ?_, ?_, ?_, ?_⟩
  · rw [hself, hcallers, hph]
    exact ho.active
  · rw [hself, hcallers]
    exact ho.distinct
  · exact hw.nodup_iff.2 (List.nodup_cons.2 ⟨hnew, ho.nodup⟩)
  · intro d hmem
    rw [hcr, hph]
    rcases List.mem_cons.1 (hw.subset hmem) with rfl | hmem
    · exact ⟨hle, idle_of_ne hfin (ha.inactive d hc)⟩
    · exact ho.idle d hmem
  · rw [hcb, hcr]
    exact ho.made
  · rw [hph, hcr]
    exact ho.fresh
  · rw [hrel, hph]
    exact ho.released
  · exact hrel ▸ ho.once

/-- What is not fresh exists. -/
theorem Orderly.le_created {t : Scheduler F D} (ho : Orderly t) {c : Ptr}
    (h : t.phase c ≠ .unstarted) : c ≤ t.created := by
  by_contra hlt
  exact h (ho.fresh c (Nat.lt_of_not_le hlt))

theorem Orderly.create {t : Scheduler F D} (ho : Orderly t) (cb : F) (userData : D) :
    Orderly (t.create cb userData) := by
  have hph : (t.create cb userData).phase = t.phase := by
    apply Function.update_eq_self_iff.2
    exact (ho.fresh _ (Nat.lt_succ_self _)).symm
  refine ⟨ho.ended, hph ▸ ho.active, ho.distinct, ho.nodup, fun c hc => ?_, fun c h0 hle => ?_,
    fun c hlt => ?_, hph ▸ ho.released, ho.once⟩
  · rw [hph]
    exact (ho.idle c hc).imp_left Nat.le_succ_of_le
  · rcases Nat.le_succ_iff.1 hle with hle | rfl
    · have hne : c ≠ t.created + 1 := Nat.ne_of_lt (Nat.lt_succ_of_le hle)
      simpa [Scheduler.create, hne] using ho.made c h0 hle
    · simp [Scheduler.create]
  · rw [hph]
    exact ho.fresh c (Nat.lt_of_succ_lt hlt)

theorem Orderly.leave {t : Scheduler F D} (ho : Orderly t) {k : Call} (hk : t.call = some k)
    (htodo : k.todo = []) : Orderly t.leave := by
  have hw := waiting_leave hk htodo
  exact ⟨ho.ended, ho.active, ho.distinct, hw ▸ ho.nodup, hw ▸ ho.idle, ho.made, ho.fresh,
    ho.released, ho.once⟩

theorem Orderly.wake {t : Scheduler F D} (ho : Orderly t) {k : Call} {x : Ptr} {xs : List Ptr}
    (hk : t.call = some k) (htodo : k.todo = x :: xs) (o : Observation F D) :
    Orderly (t.wake k x xs o) := by
  have hw := waiting_wake hk htodo o
  have hnd := List.nodup_cons.1 (hw.nodup_iff.1 ho.nodup)
  obtain ⟨hle, hidle⟩ := ho.idle x (hw.mem_iff.2 List.mem_cons_self)
  have hx : t.phase x ≠ .active ∧ t.phase x ≠ .finished := by
    rcases hidle with h | h <;> simp [h]
  have hxs : x ∉ t.self :: t.callers.map Caller.self := fun h => hx.1 (ho.active x h)
  have hph : ∀ c, c ≠ x → (t.wake k x xs o).phase c = t.phase c := fun c hc =>
    Function.update_of_ne hc _ _
  have hphx : (t.wake k x xs o).phase x = .active := Function.update_self _ _ _
  refine ⟨ho.ended, fun y hy => ?_, List.nodup_cons.2 ⟨hxs, ho.distinct⟩, hnd.2, fun c hc => ?_,
    ho.made, fun c hlt => ?_, fun c => ?_, ho.once⟩
  · rcases List.mem_cons.1 hy with rfl | hy
    · exact hphx
    · rw [hph y fun h => hxs (h ▸ hy)]
      exact ho.active y hy
  · rw [hph c fun h => hnd.1 (h ▸ hc)]
    exact ho.idle c (hw.mem_iff.2 (List.mem_cons_of_mem _ hc))
  · have hlt' : t.created < c := hlt
    rw [hph c (Nat.ne_of_gt (Nat.lt_of_le_of_lt hle hlt'))]
    exact ho.fresh c hlt'
  · rcases eq_or_ne c x with rfl | hc
    · rw [hphx]
      simp [Scheduler.wake, ho.released, hx.2]
    · rw [hph c hc]
      exact ho.released c

theorem Orderly.back {t : Scheduler F D} (ho : Orderly t) {c : Caller} {cs : List Caller}
    (hk : t.call = none) (hcs : t.callers = c :: cs) (returned : Bool) :
    Orderly (t.back c cs returned) := by
  have hw := waiting_back hk hcs returned
  have hself := ho.active t.self List.mem_cons_self
  have hdist := ho.distinct
  rw [hcs, List.map_cons] at hdist
  have hnot := (List.nodup_cons.1 hdist).1
  have hph : ∀ d, d ≠ t.self → (t.back c cs returned).phase d = t.phase d := fun d hd =>
    Function.update_of_ne hd _ _
  have hphs : (t.back c cs returned).phase t.self = if returned then .finished else .suspended :=
    Function.update_self _ _ _
  have hnw : t.self ∉ t.waiting := fun h => by
    rcases (ho.idle _ h).2 with hi | hi <;> cases hi.symm.trans hself
  refine ⟨ho.ended, fun y hy => ?_, (List.nodup_cons.1 hdist).2, hw.nodup_iff.2 ho.nodup,
    fun d hd => ?_, ho.made, fun d hlt => ?_, fun d => ?_, ?_⟩
  · have hy' : y ∈ t.self :: t.callers.map Caller.self := by
      rw [hcs]
      exact List.mem_cons_of_mem _ hy
    rw [hph y fun h => hnot (h ▸ hy)]
    exact ho.active y hy'
  · have hd' := hw.subset hd
    rw [hph d fun h => hnw (h ▸ hd')]
    exact ho.idle d hd'
  · have hlt' : t.created < d := hlt
    have hle := ho.le_created (c := t.self) (by simp [hself])
    rw [hph d (Nat.ne_of_gt (Nat.lt_of_le_of_lt hle hlt'))]
    exact ho.fresh d hlt'
  · rcases eq_or_ne d t.self with rfl | hd
    · rw [hphs]
      cases returned <;> simp [Scheduler.back, ho.released, hself]
    · rw [hph d hd, ← ho.released]
      cases returned <;> simp [Scheduler.back, hd]
  · have hnew : t.self ∉ t.released := fun h => by
      have := (ho.released _).1 h
      cases this.symm.trans hself
    cases returned with
    | true =>
      simp only [Scheduler.back, if_true]
      exact List.nodup_append.2 ⟨ho.once, by simp, by
        rintro y hy z hz rfl
        obtain rfl := List.mem_singleton.1 hz
        exact hnew hy⟩
    | false => simpa [Scheduler.back] using ho.once

/-- **A proper step keeps the thread at work.** -/
theorem Move.orderly {t t' : Scheduler F D} {a : Action F D} (h : t.Move a t') (ho : Orderly t)
    (ha : t.Proper a) : Orderly t' := by
  cases h with
  | create cb userData => exact ho.create cb userData
  | noMemory cb userData => exact ho
  | enter a c hk hc => exact ho.insert ha hc (waiting_enter hk c) rfl rfl rfl rfl rfl rfl rfl
  | defer c hk => exact ho.insert ha rfl (waiting_defer t c) rfl rfl rfl rfl rfl rfl rfl
  | leave k hk htodo => exact ho.leave hk htodo
  | wake k x xs o hk htodo hentry => exact ho.wake hk htodo o
  | back c cs returned hk hcs => exact ho.back hk hcs returned
  | abort a site hsite =>
    exfalso
    rcases hsite with ⟨-, k, x, xs, hk, htodo, hact⟩ | rfl | ⟨rfl, hcs⟩
    · -- what waits is idle
      have hmem : x ∈ t.waiting := by simp [waiting, todo, hk, htodo]
      rcases (ho.idle x hmem).2 with hi | hi <;> cases hi.symm.trans hact
    · exact ha.inactive t.self rfl (ho.active t.self List.mem_cons_self)
    · exact ha.yield rfl hcs

theorem Orderly.init : Orderly (init : Scheduler F D) := by
  refine ⟨rfl, ?_, by simp [Scheduler.init], by simp [waiting, todo, Scheduler.init], ?_, ?_, ?_,
    ?_, by simp [Scheduler.init]⟩
  · simp [Scheduler.init]
  · simp [waiting, todo, Scheduler.init]
  · exact fun c h0 hle => absurd (Nat.le_zero.1 hle) h0
  · intro c hlt
    have hne : c ≠ dummy := Nat.ne_of_gt hlt
    simp [Scheduler.init, hne]
  · intro c
    rcases eq_or_ne c dummy with rfl | h0 <;> simp [Scheduler.init, *]

/-- **Proper programs never reach an `abort`**, and nothing that waits is active or released. -/
theorem run_orderly {as : List (Action F D)} {t : Scheduler F D}
    (hok : Obeys step Proper (init : Scheduler F D) as) (ht : run step init as = some t) :
    Orderly t :=
  run_invariant (fun _ _ _ ho ha hs => (step_move hs).2.orderly ho ha) .init hok ht

end Scheduler

end XcpNgGeneric.Coroutine
