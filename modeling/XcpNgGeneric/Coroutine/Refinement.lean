import XcpNgGeneric.Coroutine.Lifetime
import XcpNgGeneric.Coroutine.Scheduler
import XcpNgGeneric.Coroutine.Transfer
import XcpNgGeneric.Foundations.Lockstep

/-!
# `coroutine.c` implements the scheduler

`Matches s t` relates the thread with its stacks, control points, callers and linked lists to the
scheduler of `Scheduler.lean`: the chain of callers is the list of calls, each queue holds the
list of its call or the requests of its coroutine, and each coroutine is as far as its phase says.
Under the contract of the interface (`Contract`) the two take the same steps.

`run_matches` is the refinement: in every run within the contract the code and the scheduler show
the same.
-/

namespace XcpNgGeneric.Coroutine

open TailQueue Runs

variable {F D : Type}

/-! ## The relation -/

/-- What the program sees of an event. -/
def Event.observed : Event F D → Option (Observation F D)
  | .create c cb userData => some (.created c cb userData)
  | .enter _ p c => some (.called p c)
  | .process _ _ q c => some (.deferred q c)
  | .start c cb (.userData u) => some (.started c cb u)
  | .woken c _ => some (.woken c)
  | .received _ c val => some (if val = Status.terminated.val then .returned c else .yielded c)
  | .leave _ => some .left
  | .jump _ _ _ _ | .start _ _ (.jmpBuf _) | .ret _ | .resumed _ _ => none

/-- How far `c` is, where `xs` are the active coroutines. -/
def PhaseOf (s : State F D) (xs : List Ptr) (c : Ptr) : Phase → Prop
  | .unstarted => c ∉ xs ∧ .ret c ∉ s.log ∧ Unstarted s c
  | .suspended => c ∉ xs ∧ .ret c ∉ s.log ∧ Suspended s c
  | .active => c ∈ xs
  | .finished => c ∉ xs ∧ .ret c ∈ s.log

/-- The invariants of a thread whose program keeps the contract. -/
structure Intact (s : State F D) (ds : List Ptr) (q : Head → List Ptr) : Prop where
  chained : Chained s ds
  heads : Heads s ds
  queued : Queued s q
  placed : Placed s ds q
  lived : Lived s
  avoids : Avoids s.mem dummy

/-- The thread is laid out as the scheduler says. -/
structure Laid (s : State F D) (t : Scheduler F D) (q : Head → List Ptr) : Prop extends
    Intact s (t.callers.map Caller.self) q where
  self : t.self = s.sp
  created : t.created = s.created
  field : q (.field s.sp) = t.deferred
  todo : q (.stack s.sp) = t.todo
  argument : ∀ k ∈ t.call, s.argument s.sp = some k.argument
  callers : ∀ c ∈ t.callers, q (.field c.self) = c.deferred ∧ q (.stack c.self) = c.todo ∧
    s.argument c.self = some c.argument
  others : ∀ c, c ∉ s.sp :: t.callers.map Caller.self → q (.field c) = [] ∧ q (.stack c) = []
  phase : ∀ c, c ≤ s.created → PhaseOf s (s.sp :: t.callers.map Caller.self) c (t.phase c)
  made : ∀ c cb userData, .create c cb userData ∈ s.log →
    c ≤ s.created ∧ t.callback c = some (cb, userData)

/-- The thread and the scheduler show the same, and go on in the same way. -/
structure Matches (s : State F D) (t : Scheduler F D) : Prop where
  control : s.control = t.control
  log : s.log.filterMap Event.observed = t.log
  released : s.destroyed = t.released
  laid : s.Live → ∃ q, Laid s t q

/-! ## The contract -/

/-- What is handed to the interface is a created coroutine that has not returned and is in no
pending list, and a coroutine that returns is the argument of the loop that runs it. -/
structure Contract (s : State F D) (a : Action F D) : Prop where
  careful : Careful s a
  created : ∀ c ∈ a.handed, c ≤ s.created
  own : OwnReturn s a

instance [DecidableEq F] [DecidableEq D] (s : State F D) (a : Action F D) :
    Decidable (Contract s a) :=
  decidable_of_iff (Careful s a ∧ (∀ c ∈ a.handed, c ≤ s.created) ∧ OwnReturn s a)
    ⟨fun ⟨h₁, h₂, h₃⟩ => ⟨h₁, h₂, h₃⟩, fun ⟨h₁, h₂, h₃⟩ => ⟨h₁, h₂, h₃⟩⟩

/-! ## The invariants are kept -/

/-- The queues are determined by the memory. -/
theorem Queued.unique {s : State F D} {q q' : Head → List Ptr} (hq : Queued s q)
    (hq' : Queued s q') : q = q' := by
  funext h
  by_cases hL : s.HeadLive h
  · exact (hq.queues.queue h hL).seg.unique (hq'.queues.queue h hL).seg
  · rw [hq.queues.off h hL, hq'.queues.off h hL]

theorem Intact.effect {s s' : State F D} {ds ds' : List Ptr} {q : Head → List Ptr}
    {a : Action F D} (hi : Intact s ds q) (he : Effect s ds a s' ds') (hok : Contract s a) :
    ∃ q', Intact s' ds' q' := by
  obtain ⟨q', hq', hp'⟩ := he.placed hi.chained hok.careful hi.queued hi.placed
  refine ⟨q', he.chained hi.chained hi.heads, he.heads hi.chained hi.heads, hq', hp',
    he.lived hi.chained hok.own hi.lived, he.avoids (fun h => ?_) hi.avoids⟩
  exact (hok.careful dummy h).1 rfl

/-- A step changes the coroutine that runs before it or after it only. -/
theorem Effect.same {s s' : State F D} {ds ds' : List Ptr} {a : Action F D}
    (he : Effect s ds a s' ds') {c : Ptr} (hc : c ≤ s.created) (hs : c ≠ s.sp) (hs' : c ≠ s'.sp) :
    Same s s' c := by
  cases he with
  | create cb userData hu =>
    have hne : c ≠ s.created + 1 := Nat.ne_of_lt (Nat.lt_succ_of_le hc)
    constructor <;> simp [State.afterCreate, State.caller, State.env, hne]
  | noMemory cb userData hu => exact ⟨rfl, rfl, rfl, rfl, Iff.rfl⟩
  | enter a c m hu ha hca hm =>
    constructor <;> simp [State.afterEnter, State.caller, State.env, hs]
  | defer act c coroutine p es m hu =>
    constructor <;> simp [State.afterDefer, State.caller, State.env]
  | leave act coroutine callee hl hf hempty =>
    constructor <;> simp [State.afterLeave, State.caller, State.env, hs]
  | wake act coroutine x callee m pt e hl hf hx hm h0 hxa hxc hret hpt =>
    have hx' : c ≠ x := hs'
    have hlog : .ret c ∈ (s.afterWake act coroutine x m pt e).log ↔ .ret c ∈ s.log := by
      rcases hpt with ⟨-, -, cb, userData, -, -, rfl⟩ | ⟨-, -, rfl⟩ <;> simp [State.afterWake]
    refine ⟨by simp [hx'], by simp [hs], ?_, ?_, hlog⟩ <;> simp [State.afterWake, hs, hx']
  | back act coroutine p es m₁ m₂ returned hu hds hsp hf hco hm₁ hm₂ =>
    have hlog : .ret c ∈ (s.afterBack act coroutine p returned m₂).log ↔ .ret c ∈ s.log := by
      cases returned <;> simp [State.afterBack, hs]
    refine ⟨by simp [hs], by simp [hs], ?_, ?_, hlog⟩ <;> simp [State.afterBack, hs]

theorem PhaseOf.mono {s s' : State F D} {xs xs' : List Ptr} {c : Ptr} {ph : Phase}
    (h : PhaseOf s xs c ph) (hs : Same s s' c) (hxs : c ∈ xs' ↔ c ∈ xs) : PhaseOf s' xs' c ph := by
  cases ph with
  | unstarted =>
    obtain ⟨hx, hret, hu⟩ := h
    exact ⟨by rwa [hxs], by rwa [hs.ret], hs.caller.trans hu.caller, hs.env.trans hu.env,
      hs.frame.trans hu.frame⟩
  | suspended =>
    obtain ⟨hx, hret, hu⟩ := h
    refine ⟨by rwa [hxs], by rwa [hs.ret], hs.caller.trans hu.caller, ?_,
      hs.frame.trans hu.frame⟩
    rw [hs.env, hs.execs, hu.env]
  | active => exact hxs.2 h
  | finished => exact ⟨by rw [hxs]; exact h.1, hs.ret.2 h.2⟩

/-! ## What the relation says -/

section Laid

variable {s : State F D} {t : Scheduler F D} {q : Head → List Ptr}

/-- The lists of the scheduler are the queues. -/
theorem Laid.waiting_iff (hl : Laid s t q) (c : Ptr) : c ∈ t.waiting ↔ s.Linked c := by
  rw [hl.queued.linked_iff]
  simp only [Scheduler.waiting, List.mem_append, List.mem_flatMap, ← hl.field, ← hl.todo]
  constructor
  · rintro (h | h | ⟨k, hk, h | h⟩)
    · exact ⟨_, h⟩
    · exact ⟨_, h⟩
    · exact ⟨_, by rwa [(hl.callers k hk).1]⟩
    · exact ⟨_, by rwa [(hl.callers k hk).2.1]⟩
  · rintro ⟨h, hc⟩
    have hmem : h.owner ∈ s.sp :: t.callers.map Caller.self := by
      by_contra hno
      obtain ⟨hf, hs⟩ := hl.others h.owner hno
      cases h with
      | field p => exact absurd hc (by rw [show q (.field p) = [] from hf]; simp)
      | stack p => exact absurd hc (by rw [show q (.stack p) = [] from hs]; simp)
    rcases List.mem_cons.1 hmem with he | hmem
    · cases h with
      | field p => exact Or.inl (by rwa [← show p = s.sp from he])
      | stack p => exact Or.inr (Or.inl (by rwa [← show p = s.sp from he]))
    · obtain ⟨k, hk, he⟩ := List.mem_map.1 hmem
      obtain ⟨hf, hs, -⟩ := hl.callers k hk
      cases h with
      | field p =>
        obtain rfl : k.self = p := he
        exact Or.inr (Or.inr ⟨k, hk, Or.inl (hf ▸ hc)⟩)
      | stack p =>
        obtain rfl : k.self = p := he
        exact Or.inr (Or.inr ⟨k, hk, Or.inr (hs ▸ hc)⟩)

theorem Laid.finished_iff (hl : Laid s t q) {c : Ptr} (hc : c ≤ s.created) :
    t.phase c = .finished ↔ .ret c ∈ s.log := by
  have hph := hl.phase c hc
  generalize t.phase c = ph at hph ⊢
  cases ph with
  | unstarted => exact iff_of_false (by simp) hph.2.1
  | suspended => exact iff_of_false (by simp) hph.2.1
  | active => exact iff_of_false (by simp) (hl.chained.active c hph)
  | finished => exact iff_of_true rfl hph.2

theorem Laid.active_iff (hl : Laid s t q) {c : Ptr} (hc : c ≤ s.created) :
    t.phase c = .active ↔ c ∈ s.sp :: t.callers.map Caller.self := by
  have hph := hl.phase c hc
  generalize t.phase c = ph at hph ⊢
  cases ph with
  | unstarted => exact iff_of_false (by simp) hph.1
  | suspended => exact iff_of_false (by simp) hph.1
  | active => exact iff_of_true rfl hph
  | finished => exact iff_of_false (by simp) hph.1

/-- The thread's own code runs where there are no callers. -/
theorem Laid.callers_eq_nil (hl : Laid s t q) : t.callers = [] ↔ s.sp = dummy := by
  have hc := hl.chained
  constructor
  · intro h
    rw [h] at hc
    exact hc.callers.1
  · intro h
    cases hcs : t.callers with
    | nil => rfl
    | cons c cs =>
      rw [hcs] at hc
      exact absurd h hc.sp_ne_dummy

/-- The argument of the loop that runs the current coroutine. -/
theorem Laid.own_argument (hl : Laid s t q) :
    (s.caller s.sp).bind s.argument = t.callers.head?.map (·.argument) := by
  have hc := hl.chained
  cases hcs : t.callers with
  | nil =>
    rw [hcs] at hc
    have hnone := hc.callers.2
    rw [← hc.callers.1] at hnone
    simp [hnone]
  | cons c cs =>
    rw [hcs] at hc
    have hcaller : s.caller s.sp = some c.self := hc.callers.1
    simpa [hcaller] using (hl.callers c (by simp [hcs])).2.2

/-- **The contract can be checked on the scheduler.** -/
theorem Laid.contract_iff (hl : Laid s t q) (a : Action F D) : Contract s a ↔ t.Allowed a := by
  have hown : OwnReturn s a ↔ (a = .ret → t.callers.head?.map (·.argument) = some t.self) := by
    cases a with
    | ret => simp [OwnReturn, hl.own_argument, hl.self]
    | _ => simp [OwnReturn]
  constructor
  · rintro ⟨hcare, hcr, ho⟩
    refine ⟨fun c hc => ?_, hown.1 ho⟩
    obtain ⟨h0, hret, hlink⟩ := hcare c hc
    have hle := hcr c hc
    exact ⟨⟨h0, hl.created ▸ hle⟩, fun h => hret ((hl.finished_iff hle).1 h),
      fun h => hlink ((hl.waiting_iff c).1 h)⟩
  · rintro ⟨hall, ho⟩
    refine ⟨fun c hc => ?_, fun c hc => hl.created ▸ (hall c hc).1.2, hown.2 ho⟩
    obtain ⟨⟨h0, hle⟩, hfin, hw⟩ := hall c hc
    exact ⟨h0, fun h => hfin ((hl.finished_iff (hl.created ▸ hle)).2 h),
      fun h => hw ((hl.waiting_iff c).2 h)⟩

/-! ## Effects are steps of the scheduler -/

/-- `s'` is laid out as `t'` says, and shows the same. -/
structure Follows (s' : State F D) (t' : Scheduler F D) (q' : Head → List Ptr) : Prop where
  laid : Laid s' t' q'
  control : s'.control = t'.control
  log : s'.log.filterMap Event.observed = t'.log
  released : s'.destroyed = t'.released

theorem Follows.matches {s' : State F D} {t' : Scheduler F D} {q' : Head → List Ptr}
    (h : Follows s' t' q') : Matches s' t' := ⟨h.control, h.log, h.released, fun _ => ⟨q', h.laid⟩⟩

/-- A step on the stack that runs, which leaves the phases alone. -/
theorem Laid.stay {s' : State F D} {t' : Scheduler F D} {q' : Head → List Ptr} {a : Action F D}
    (hl : Laid s t q) (hi : Intact s' (t.callers.map Caller.self) q')
    (he : Effect s (t.callers.map Caller.self) a s' (t.callers.map Caller.self))
    (hsp : s'.sp = s.sp) (hself : t'.self = t.self) (hcallers : t'.callers = t.callers)
    (hcr : s'.created = s.created) (hcr' : t'.created = t.created) (hph : t'.phase = t.phase)
    (hcb : t'.callback = t.callback)
    (hmade : ∀ c cb userData, .create c cb userData ∈ s'.log → .create c cb userData ∈ s.log)
    (hq : ∀ h, h.owner ≠ s.sp → q' h = q h) (hf : q' (.field s.sp) = t'.deferred)
    (htodo : q' (.stack s.sp) = t'.todo)
    (harg : ∀ k ∈ t'.call, s'.argument s.sp = some k.argument) :
    Laid s' t' q' := by
  have hne : ∀ c ∈ t.callers, c.self ≠ s.sp := fun c hc =>
    hl.chained.ne_sp (List.mem_map_of_mem hc)
  refine ⟨hcallers ▸ hi, by rw [hself, hsp, hl.self], by rw [hcr, hcr', hl.created], hsp ▸ hf,
    hsp ▸ htodo, hsp ▸ harg, fun c hc => ?_, fun c hc => ?_, fun c hc => ?_, fun c cb u hc => ?_⟩
  · rw [hcallers] at hc
    obtain ⟨h₁, h₂, h₃⟩ := hl.callers c hc
    have hle := (hl.chained.alive c.self (by simp [List.mem_map_of_mem hc])).1
    have hframe := (he.same hle (hne c hc) (hsp ▸ hne c hc)).frame
    rw [hq (.field c.self) (hne c hc), hq (.stack c.self) (hne c hc)]
    refine ⟨h₁, h₂, ?_⟩
    rw [State.argument, hframe]
    exact h₃
  · rw [hsp, hcallers] at hc
    have hne' : c ≠ s.sp := fun h => hc (by simp [h])
    rw [hq (.field c) hne', hq (.stack c) hne']
    exact hl.others c hc
  · rw [hcr] at hc
    rw [hsp, hcallers, hph]
    by_cases hcs : c = s.sp
    · have hact := (hl.active_iff hc).2 (by simp [hcs])
      rw [hact]
      simp [PhaseOf, hcs]
    · exact (hl.phase c hc).mono (he.same hc hcs (hsp ▸ hcs)) Iff.rfl
  · rw [hcr, hcb]
    exact hl.made c cb u (hmade c cb u hc)

theorem Laid.enter {a : Action F D} {c : Ptr} {m : Mem Ptr Head} (hl : Laid s t q)
    (hend : t.ended = none) (hlog : s.log.filterMap Event.observed = t.log)
    (hrel : s.destroyed = t.released) (hu : s.control = .user)
    (ha : a = .resume c ∨ a = .process c ∧ s.sp = dummy) (hca : s.Alive c)
    (hm : (s.mem.init (.stack s.sp)).insertTail (.stack s.sp) c = some m) (hok : Contract s a) :
    ∃ q', Follows (s.afterEnter c m) (t.enter c) q' := by
  have he : Effect s (t.callers.map Caller.self) a (s.afterEnter c m) _ :=
    .enter a c m hu ha hca hm
  have hfresh : ¬s.Linked c := by
    rcases ha with rfl | ⟨rfl, -⟩ <;> exact (hok.careful c rfl).2.2
  obtain ⟨q', hi⟩ := hl.effect he hok
  obtain rfl := hi.queued.unique (hl.queued.afterEnter hl.chained hu hca hfresh hm)
  refine ⟨_, hl.stay hi he rfl rfl rfl rfl rfl rfl rfl ?_ ?_ ?_ ?_ ?_, ?_, ?_, hrel⟩
  · simp [State.afterEnter]
  · intro h hne
    exact Function.update_of_ne (by rintro rfl; exact hne rfl) _ _
  · simpa [Scheduler.enter] using hl.field
  · simp [Scheduler.enter, Scheduler.todo]
  · simp [Scheduler.enter, State.argument, State.afterEnter]
  · simp [Scheduler.control, Scheduler.enter, State.afterEnter, hend]
  · simp [State.afterEnter, Scheduler.enter, hlog, Event.observed, hl.self]

theorem Laid.defer {act : ℕ} {c coroutine p : Ptr} {es : List Ptr} {m : Mem Ptr Head}
    (hl : Laid s t q) (hend : t.ended = none) (hlog : s.log.filterMap Event.observed = t.log)
    (hrel : s.destroyed = t.released) (hu : s.control = .user) (hcall : t.call = none)
    (hds : t.callers.map Caller.self = p :: es) (hsp : s.sp ≠ dummy)
    (hf : s.frame p = .resume act coroutine p (some s.sp)) (hca : s.Alive c) (hne : c ≠ s.sp)
    (hm : s.mem.insertTail (.field s.sp) c = some m)
    (hok : Contract s (.process c : Action F D)) :
    ∃ q', Follows (s.afterDefer act c m) (t.defer c) q' := by
  have he : Effect s (t.callers.map Caller.self) (.process c) (s.afterDefer act c m) _ :=
    .defer act c coroutine p es m hu hds hsp hf hca hne hm
  obtain ⟨q', hi⟩ := hl.effect he hok
  obtain rfl := hi.queued.unique
    (hl.queued.afterDefer hl.chained hsp act hca (hok.careful c rfl).2.2 hm)
  refine ⟨_, hl.stay hi he rfl rfl rfl rfl rfl rfl rfl ?_ ?_ ?_ ?_ ?_, ?_, ?_, hrel⟩
  · simp [State.afterDefer]
  · intro h hne'
    exact Function.update_of_ne (by rintro rfl; exact hne' rfl) _ _
  · simp [Scheduler.defer, hl.field]
  · simpa [Scheduler.defer, Scheduler.todo, hcall] using hl.todo
  · simp [Scheduler.defer, hcall]
  · simp [Scheduler.control, Scheduler.defer, State.afterDefer, hend, hcall, hu]
  · simp [State.afterDefer, Scheduler.defer, hlog, Event.observed, hl.self]

theorem Laid.leave {act : ℕ} {coroutine : Ptr} {callee : Option Ptr} (hl : Laid s t q)
    (hend : t.ended = none) (hlog : s.log.filterMap Event.observed = t.log)
    (hrel : s.destroyed = t.released) (hloop : s.control = .loop)
    (hf : s.frame s.sp = .resume act coroutine s.sp callee)
    (hempty : s.mem.first (.stack s.sp) = none) (hok : Contract s (.tick : Action F D)) :
    ∃ q', Follows (s.afterLeave act) t.leave q' := by
  have he : Effect s (t.callers.map Caller.self) .tick (s.afterLeave act) _ :=
    .leave act coroutine callee hloop hf hempty
  have hnil := hl.queued.loop_empty hl.chained hf hempty
  obtain ⟨q', hi⟩ := hl.effect he hok
  obtain rfl := hi.queued.unique (hl.queued.afterLeave hnil act)
  refine ⟨_, hl.stay hi he rfl rfl rfl rfl rfl rfl rfl ?_ (fun _ _ => rfl) hl.field ?_ ?_, ?_, ?_,
    hrel⟩
  · simp [State.afterLeave]
  · simpa [Scheduler.leave, Scheduler.todo] using hnil
  · simp [Scheduler.leave]
  · simp [Scheduler.control, Scheduler.leave, State.afterLeave, hend]
  · simp [State.afterLeave, Scheduler.leave, hlog, Event.observed]

theorem Laid.create (hl : Laid s t q) (cb : F) (userData : D) (hend : t.ended = none)
    (hlog : s.log.filterMap Event.observed = t.log) (hrel : s.destroyed = t.released)
    (hu : s.control = .user) (hcall : t.call = none)
    (hok : Contract s (.create cb userData true)) :
    ∃ q', Follows (s.afterCreate cb userData) (t.create cb userData) q' := by
  have he : Effect s (t.callers.map Caller.self) _ (s.afterCreate cb userData) _ :=
    .create cb userData hu
  obtain ⟨q', hi⟩ := hl.effect he hok
  obtain rfl := hi.queued.unique (hl.queued.afterCreate hl.chained cb userData)
  have hsp : s.sp ≠ s.created + 1 := hl.chained.alive_sp.ne_fresh
  have hactive : ∀ c ∈ s.sp :: t.callers.map Caller.self, c ≠ s.created + 1 := fun c hc =>
    (hl.chained.alive c hc).ne_fresh
  have hnew : s.created + 1 ∉ s.sp :: t.callers.map Caller.self := fun h => hactive _ h rfl
  refine ⟨_, ⟨hi, hl.self, ?_, hl.field, hl.todo, hl.argument, hl.callers, hl.others, ?_, ?_⟩, ?_,
    ?_, hrel⟩
  · simp [Scheduler.create, State.afterCreate, hl.created]
  · intro c hc
    rcases Nat.le_succ_iff.1 hc with hc | rfl
    · have hne : c ≠ s.created + 1 := Nat.ne_of_lt (Nat.lt_succ_of_le hc)
      have hph : (t.create cb userData).phase c = t.phase c := by
        simp [Scheduler.create, hl.created, hne]
      rw [hph]
      by_cases hcs : c = s.sp
      · have hact := (hl.active_iff hc).2 (by simp [hcs])
        rw [hact]
        simp [PhaseOf, hcs, State.afterCreate]
      · exact (hl.phase c hc).mono (he.same hc hcs hcs) Iff.rfl
    · have hph : (t.create cb userData).phase (s.created + 1) = .unstarted := by
        simp [Scheduler.create, hl.created]
      obtain ⟨hidle, hret⟩ := hl.chained.fresh (s.created + 1) (Nat.lt_succ_self _)
      rw [hph]
      refine ⟨hnew, by simpa [State.afterCreate] using hret, ?_, ?_, hidle⟩ <;>
        simp [State.afterCreate, State.caller, State.env]
  · intro c cb' u hc
    have hc' : .create c cb' u ∈ s.log ∨ (c = s.created + 1 ∧ cb' = cb ∧ u = userData) := by
      simpa [State.afterCreate] using hc
    rcases hc' with hc' | ⟨rfl, rfl, rfl⟩
    · obtain ⟨hle, hcb⟩ := hl.made c cb' u hc'
      have hne : c ≠ s.created + 1 := Nat.ne_of_lt (Nat.lt_succ_of_le hle)
      exact ⟨Nat.le_succ_of_le hle, by simp [Scheduler.create, hl.created, hne, hcb]⟩
    · simp [Scheduler.create, State.afterCreate, hl.created]
  · simp [Scheduler.control, Scheduler.create, State.afterCreate, hend, hcall]
  · simp [State.afterCreate, Scheduler.create, hlog, Event.observed, hl.created]

/-- What the scheduler says that a resumed coroutine sees. -/
theorem Laid.entry {x : Ptr} {pt : JmpBuf} {e : Event F D} (hl : Laid s t q) (hxa : s.Alive x)
    (hxc : x ∉ s.sp :: t.callers.map Caller.self) (hret : .ret x ∉ s.log)
    (hpt : (Unstarted s x ∧ pt = .entry x ∧ ∃ cb userData, s.cb x = some cb ∧
        .create x cb userData ∈ s.log ∧ e = .start x cb (.userData userData)) ∨
      (Suspended s x ∧ pt = .exec x (s.execs x) ∧ e = .woken x Status.running.val)) :
    ∃ o, t.entry x = some o ∧ e.observed = some o := by
  have hph := hl.phase x hxa.1
  cases hp : t.phase x with
  | unstarted =>
    rw [hp] at hph
    rcases hpt with ⟨-, -, cb, userData, -, hmem, rfl⟩ | ⟨hsu, -⟩
    · exact ⟨_, by simp [Scheduler.entry, hp, (hl.made x cb userData hmem).2], rfl⟩
    · have hframe := hph.2.2.frame
      cases hframe.symm.trans hsu.frame
  | suspended =>
    rw [hp] at hph
    rcases hpt with ⟨hun, -⟩ | ⟨-, -, rfl⟩
    · have hframe := hph.2.2.frame
      cases hframe.symm.trans hun.frame
    · exact ⟨_, by simp [Scheduler.entry, hp], rfl⟩
  | active =>
    rw [hp] at hph
    exact absurd hph hxc
  | finished =>
    rw [hp] at hph
    exact absurd hph.2 hret

/-- The lists after the resumption of `x`. -/
theorem Laid.lists_wake {act : ℕ} {coroutine x : Ptr} {callee : Option Ptr} {m : Mem Ptr Head}
    {pt : JmpBuf} {e : Event F D} {k : Call} {xs : List Ptr} (hl : Laid s t q)
    (hk : t.call = some k) (hf : s.frame s.sp = .resume act coroutine s.sp callee)
    (he : Effect s (t.callers.map Caller.self) .tick (s.afterWake act coroutine x m pt e)
      (s.sp :: t.callers.map Caller.self))
    (hxc : x ∉ s.sp :: t.callers.map Caller.self) (o : Observation F D) :
    ∀ c ∈ (t.wake k x xs o).callers,
      Function.update q (.stack s.sp) xs (.field c.self) = c.deferred ∧
      Function.update q (.stack s.sp) xs (.stack c.self) = c.todo ∧
      (s.afterWake act coroutine x m pt e).argument c.self = some c.argument := by
  intro c hc
  rcases List.mem_cons.1 hc with rfl | hc
  · have hxs : s.sp ≠ x := fun h => hxc (by simp [h])
    have harg := hl.argument k hk
    simp only [hl.self]
    refine ⟨?_, Function.update_self _ _ _, ?_⟩
    · rw [Function.update_of_ne (by simp)]
      exact hl.field
    · simpa [State.argument, State.afterWake, hxs, hf] using harg
  · obtain ⟨h₁, h₂, h₃⟩ := hl.callers c hc
    have hmem : c.self ∈ t.callers.map Caller.self := List.mem_map_of_mem hc
    have hne := hl.chained.ne_sp hmem
    have hne' : c.self ≠ x := fun h => hxc (by rw [← h]; exact List.mem_cons_of_mem _ hmem)
    have hle := (hl.chained.alive c.self (List.mem_cons_of_mem _ hmem)).1
    rw [Function.update_of_ne (by simp), Function.update_of_ne (by simpa using hne)]
    refine ⟨h₁, h₂, ?_⟩
    rw [State.argument, (he.same hle hne hne').frame]
    exact h₃

theorem Laid.afterWake {act : ℕ} {coroutine x : Ptr} {callee : Option Ptr} {m : Mem Ptr Head}
    {pt : JmpBuf} {e : Event F D} {k : Call} {xs : List Ptr} (hl : Laid s t q)
    (hk : t.call = some k) (hf : s.frame s.sp = .resume act coroutine s.sp callee)
    (he : Effect s (t.callers.map Caller.self) .tick (s.afterWake act coroutine x m pt e)
      (s.sp :: t.callers.map Caller.self))
    (hi : Intact (s.afterWake act coroutine x m pt e) (s.sp :: t.callers.map Caller.self)
      (Function.update q (.stack s.sp) xs))
    (hxc : x ∉ s.sp :: t.callers.map Caller.self) (o : Observation F D)
    (hmade : ∀ c cb userData, e ≠ .create c cb userData) :
    Laid (s.afterWake act coroutine x m pt e) (t.wake k x xs o)
      (Function.update q (.stack s.sp) xs) := by
  have hxs : x ≠ s.sp := fun h => hxc (by simp [h])
  obtain ⟨hfx, hsx⟩ := hl.others x hxc
  have hown : (t.wake k x xs o).callers.map Caller.self =
      s.sp :: t.callers.map Caller.self := by simp [Scheduler.wake, hl.self]
  refine ⟨hown ▸ hi, rfl, hl.created, ?_, ?_, ?_, hl.lists_wake hk hf he hxc o, ?_, ?_, ?_⟩
  · exact (Function.update_of_ne (by simp) _ _).trans hfx
  · exact (Function.update_of_ne (by simpa [State.afterWake] using hxs) _ _).trans hsx
  · simp [Scheduler.wake]
  · intro c hc
    rw [hown] at hc
    have hc' : c ∉ s.sp :: t.callers.map Caller.self := fun h => hc (List.mem_cons_of_mem _ h)
    have hne : c ≠ s.sp := fun h => hc' (by simp [h])
    rw [Function.update_of_ne (by simp), Function.update_of_ne (by simpa using hne)]
    exact hl.others c hc'
  · intro c hc
    rw [hown]
    by_cases hcx : c = x
    · have hph : (t.wake k x xs o).phase c = .active := by simp [Scheduler.wake, hcx]
      rw [hph]
      exact List.mem_cons.2 (Or.inl hcx)
    · have hph : (t.wake k x xs o).phase c = t.phase c := by simp [Scheduler.wake, hcx]
      rw [hph]
      by_cases hcs : c = s.sp
      · rw [(hl.active_iff hc).2 (by simp [hcs])]
        exact List.mem_cons.2 (Or.inr (by simp [hcs]))
      · refine (hl.phase c hc).mono (he.same hc hcs hcx) ?_
        exact List.mem_cons.trans (or_iff_right hcx)
  · intro c cb u hc
    apply hl.made c cb u
    simpa [State.afterWake, (hmade c cb u).symm] using hc

theorem Laid.wake {act : ℕ} {coroutine x : Ptr} {callee : Option Ptr} {m : Mem Ptr Head}
    {pt : JmpBuf} {e : Event F D} {k : Call} (hl : Laid s t q) (hend : t.ended = none)
    (hlog : s.log.filterMap Event.observed = t.log) (hrel : s.destroyed = t.released)
    (hloop : s.control = .loop) (hk : t.call = some k)
    (hf : s.frame s.sp = .resume act coroutine s.sp callee)
    (hx : s.mem.first (.stack s.sp) = some x) (hm : s.mem.removeHead (.stack s.sp) = some m)
    (h0 : 0 < x) (hxa : s.Alive x) (hxc : x ∉ s.sp :: t.callers.map Caller.self)
    (hret : .ret x ∉ s.log)
    (hpt : (Unstarted s x ∧ pt = .entry x ∧ ∃ cb userData, s.cb x = some cb ∧
        .create x cb userData ∈ s.log ∧ e = .start x cb (.userData userData)) ∨
      (Suspended s x ∧ pt = .exec x (s.execs x) ∧ e = .woken x Status.running.val))
    (hok : Contract s (.tick : Action F D)) :
    ∃ xs o q', k.todo = x :: xs ∧ t.entry x = some o ∧
      Follows (s.afterWake act coroutine x m pt e) (t.wake k x xs o) q' := by
  have he : Effect s (t.callers.map Caller.self) .tick (s.afterWake act coroutine x m pt e) _ :=
    .wake act coroutine x callee m pt e hloop hf hx hm h0 hxa hxc hret hpt
  have hxf : (s.frame x).isLoop = false ∧ ∀ c cb userData, e ≠ .create c cb userData := by
    rcases hpt with ⟨hun, -, _, _, -, -, rfl⟩ | ⟨hsu, -, rfl⟩
    · simp [hun.frame]
    · simp [hsu.frame]
  obtain ⟨xs, hxs, hq⟩ := hl.queued.afterWake hl.chained pt e hf hx hm hxc hxf.1
  obtain ⟨q', hi⟩ := hl.effect he hok
  obtain rfl := hi.queued.unique hq
  obtain ⟨o, ho, heo⟩ := hl.entry hxa hxc hret hpt
  have htodo : k.todo = x :: xs := by
    have := hl.todo
    rw [hxs] at this
    simpa [Scheduler.todo, hk] using this.symm
  refine ⟨xs, o, _, htodo, ho, hl.afterWake hk hf he hi hxc o hxf.2, ?_, ?_, ?_⟩
  · simp [Scheduler.control, Scheduler.wake, State.afterWake, hend]
  · have hnew : [.resumed act x, .jump s.sp x .running pt, e].filterMap Event.observed = [o] := by
      rw [List.filterMap_cons_none rfl, List.filterMap_cons_none rfl, List.filterMap_cons_some heo]
      rfl
    simp [State.afterWake, Scheduler.wake, hlog, hnew]
  · simpa [State.afterWake, Scheduler.wake, State.setCaller, State.setEnv] using hrel

/-- The queues after the running coroutine has given control back to `p`. -/
theorem queue_back (q : Head → List Ptr) (x p : Ptr) (h : Head) :
    Function.update (Function.update q (.stack p) (q (.field x) ++ q (.stack p))) (.field x) [] h =
      if h = .field x then [] else if h = .stack p then q (.field x) ++ q (.stack p) else q h := by
  simp only [Function.update_apply]

/-- The phase of a coroutine that has given control back. -/
theorem Intact.phase_back {act : ℕ} {coroutine p : Ptr} {m : Mem Ptr Head} {returned : Bool}
    {es : List Ptr} {q' : Head → List Ptr} (hc : Chained s (p :: es))
    (hi : Intact (s.afterBack act coroutine p returned m) es q') :
    PhaseOf (s.afterBack act coroutine p returned m) (p :: es) s.sp
      (if returned then .finished else .suspended) := by
  have hsp := hc.sp_ne_dummy
  have hnot : s.sp ∉ p :: es := hc.sp_not_mem
  have hact := hc.active s.sp (by simp)
  cases returned with
  | true => exact ⟨hnot, by simp [State.afterBack]⟩
  | false =>
    have hret : .ret s.sp ∉ (s.afterBack act coroutine p false m).log := by
      simpa [State.afterBack] using hact
    have hle : s.sp ≤ (s.afterBack act coroutine p false m).created := hc.alive_sp.1
    rcases hi.chained.inactive s.sp (Nat.pos_of_ne_zero hsp) hle hnot with ⟨-, hun | hsu⟩ | ⟨h, -⟩
    · have hframe := hun.frame
      simp [State.afterBack] at hframe
    · exact ⟨hnot, hret, hsu⟩
    · exact absurd h hret

theorem Laid.afterBack {act : ℕ} {coroutine : Ptr} {m : Mem Ptr Head} {returned : Bool}
    {c : Caller} {cs : List Caller} (hl : Laid s t q) (hcs : t.callers = c :: cs)
    (hu : s.control = .user)
    (he : Effect s (t.callers.map Caller.self) (if returned then .ret else .yield)
      (s.afterBack act coroutine c.self returned m) (cs.map Caller.self))
    (hi : Intact (s.afterBack act coroutine c.self returned m) (cs.map Caller.self)
      (Function.update (Function.update q (.stack c.self) (q (.field s.sp) ++ q (.stack c.self)))
        (.field s.sp) [])) :
    Laid (s.afterBack act coroutine c.self returned m) (t.back c cs returned)
      (Function.update (Function.update q (.stack c.self) (q (.field s.sp) ++ q (.stack c.self)))
        (.field s.sp) []) := by
  have hc := hl.chained
  have hothers := hl.others
  have hphase := hl.phase
  rw [hcs, List.map_cons] at hc hothers hphase
  have hp : c.self ≠ s.sp := hc.ne_sp (by simp)
  have hnd := List.nodup_cons.1 (List.nodup_cons.1 hc.nodup).2
  have hargument : ∀ d, d ≠ s.sp →
      (s.afterBack act coroutine c.self returned m).argument d = s.argument d := fun d hd => by
    simp [State.argument, State.afterBack, hd]
  obtain ⟨hcf, hct, hca⟩ := hl.callers c (by simp [hcs])
  refine ⟨hi, rfl, hl.created, ?_, ?_, ?_, fun d hd => ?_, fun d hd => ?_, fun d hd => ?_, ?_⟩
  · rw [queue_back]
    simpa [State.afterBack, Scheduler.back, hp] using hcf
  · rw [queue_back]
    simp [State.afterBack, Scheduler.back, Scheduler.todo, hl.field, hct]
  · intro k hk
    obtain rfl : ⟨c.argument, t.deferred ++ c.todo⟩ = k := by simpa [Scheduler.back] using hk
    exact (hargument c.self hp).trans hca
  · obtain ⟨h₁, h₂, h₃⟩ := hl.callers d (by simp [hcs, show d ∈ cs from hd])
    have hmem : d.self ∈ cs.map Caller.self := List.mem_map_of_mem hd
    have hds : d.self ≠ s.sp := hc.ne_sp (List.mem_cons_of_mem _ hmem)
    have hdc : d.self ≠ c.self := fun h => hnd.1 (h ▸ hmem)
    rw [queue_back, queue_back, hargument d.self hds]
    exact ⟨by simpa [hds] using h₁, by simpa [hdc] using h₂, h₃⟩
  · have hdc : d ≠ c.self := fun h => hd (by simp [State.afterBack, h])
    rw [queue_back, queue_back]
    by_cases hds : d = s.sp
    · subst hds
      have hoff := hl.queued.stack_off (p := s.sp) (by simp [hc.top.user hu])
      simpa [hdc] using hoff
    · have hold := hothers d (by simpa [State.afterBack, Scheduler.back, hds] using hd)
      simpa [hds, hdc] using hold
  · by_cases hds : d = s.sp
    · subst hds
      have hph : (t.back c cs returned).phase s.sp =
          if returned then .finished else .suspended := by simp [Scheduler.back, hl.self]
      rw [hph]
      exact hi.phase_back hc
    · have hph : (t.back c cs returned).phase d = t.phase d := by
        simp [Scheduler.back, hl.self, hds]
      rw [hph]
      by_cases hdc : d = c.self
      · have hact := (hl.active_iff hd).2 (by simp [hcs, hdc])
        rw [hact]
        exact List.mem_cons.2 (Or.inl hdc)
      · refine (hphase d hd).mono (he.same hd hds hdc) ?_
        exact (List.mem_cons.trans (or_iff_right hds)).symm
  · intro d cb u hd
    apply hl.made d cb u
    cases returned <;> simpa [State.afterBack] using hd

theorem Laid.back {act : ℕ} {coroutine p : Ptr} {es : List Ptr} {m₁ m₂ : Mem Ptr Head}
    {returned : Bool} (hl : Laid s t q) (hend : t.ended = none)
    (hlog : s.log.filterMap Event.observed = t.log) (hrel : s.destroyed = t.released)
    (hu : s.control = .user) (hds : t.callers.map Caller.self = p :: es) (hsp : s.sp ≠ dummy)
    (hf : s.frame p = .resume act coroutine p (some s.sp)) (hco : coroutine ∉ p :: es)
    (hm₁ : s.mem.concat (.field s.sp) (.stack p) = some m₁)
    (hm₂ : m₁.concat (.stack p) (.field s.sp) = some m₂)
    (hok : Contract s (if returned then .ret else .yield : Action F D)) :
    ∃ c cs q', t.callers = c :: cs ∧
      Follows (s.afterBack act coroutine p returned m₂) (t.back c cs returned) q' := by
  have he : Effect s (t.callers.map Caller.self) (if returned then .ret else .yield)
      (s.afterBack act coroutine p returned m₂) es :=
    .back act coroutine p es m₁ m₂ returned hu hds hsp hf hco hm₁ hm₂
  obtain ⟨c, cs, hcs, rfl, rfl⟩ := List.map_eq_cons_iff.1 hds
  have hc := hl.chained
  rw [hds] at hc
  obtain ⟨q', hi⟩ := hl.effect he hok
  obtain rfl := hi.queued.unique (hl.queued.afterBack hc hu returned hf hm₁ hm₂)
  have hown : returned = true → coroutine = s.sp := by
    rintro rfl
    have hcaller : s.caller s.sp = some c.self := hc.callers.1
    simpa [OwnReturn, hcaller, State.argument, hf] using hok.own
  refine ⟨c, cs, _, hcs, hl.afterBack hcs hu he hi, ?_, ?_, ?_⟩
  · have halive : returned = false ∨ s.Alive coroutine := by
      cases returned with
      | false => exact Or.inl rfl
      | true => exact Or.inr (hown rfl ▸ hc.alive_sp)
    simp [Scheduler.control, Scheduler.back, State.afterBack, hend, halive]
  · cases returned <;> simp [State.afterBack, Scheduler.back, hlog, List.filterMap_cons,
      Event.observed, hl.self, backStatus, Status.val]
  · cases returned with
    | false => simpa [State.afterBack, Scheduler.back] using hrel
    | true => simp [State.afterBack, Scheduler.back, hrel, hl.self, hown rfl]

end Laid

/-! ## Steps -/

/-- A step that reaches an `abort` of the scheduler. -/
theorem Laid.dead {s s' : State F D} {t : Scheduler F D} {q : Head → List Ptr} {a : Action F D}
    (hl : Laid s t q) (hok : Contract s a) (hd : Dead s a s') :
    s'.log = s.log ∧ s'.destroyed = s.destroyed ∧
      ((s'.control = .aborted .alreadyCalled ∧ a = .tick) ∨
        (s'.control = .aborted .assertion ∧ a = .process s.sp) ∨
        (s'.control = .aborted .noCaller ∧ a = .yield ∧ s.sp = dummy)) := by
  have hlinked : ∀ c h, c ∈ q h → s.Alive c := fun c h hmem =>
    ⟨hl.queued.created h c hmem, fun hd => hl.placed.unreturned h c hmem
      ((hl.lived.destroyed c).1 hd)⟩
  rcases hd.why with ⟨hlog, hwhy⟩ | ⟨-, c, hdead, ha | ⟨-, hsp, hlast⟩ | ⟨hloop, hx⟩⟩ | ⟨-, hx, -⟩
  · exact ⟨hlog, hd.destroyed, hwhy⟩
  · have hret := (hok.careful c ha).2.1
    exact absurd ⟨hok.created c ha, fun h => hret ((hl.lived.destroyed c).1 h)⟩ hdead
  · -- the last request of the running coroutine
    have hfield : s.HeadLive (.field s.sp) := ⟨Nat.pos_of_ne_zero hsp, hl.chained.alive_sp.1⟩
    have htail := (hl.queued.queues.queue _ hfield).last
    rw [hlast] at htail
    have hmem : c ∈ q (.field s.sp) := by
      by_contra hno
      exact tailCell_ne_next hno (Option.some.inj htail).symm
    exact absurd (hlinked c _ hmem) hdead
  · obtain ⟨act, coroutine, callee, hf, -⟩ := hl.chained.top.loop hloop
    have hstack : s.HeadLive (.stack s.sp) := ⟨hl.chained.alive_sp.1, by simp [hf]⟩
    have hfirst := (hl.queued.queues.queue _ hstack).first_eq
    rw [hx] at hfirst
    exact absurd (hlinked c _ (List.mem_of_mem_head? hfirst.symm)) hdead
  · exact absurd hx (hl.avoids.first _)

section Steps

variable {s s' : State F D} {t : Scheduler F D} {q : Head → List Ptr} {a : Action F D}

theorem Scheduler.control_user (h : t.control = .user) : t.ended = none ∧ t.call = none := by
  unfold Scheduler.control at h
  split at h <;> simp_all

theorem Scheduler.control_loop (h : t.control = .loop) :
    t.ended = none ∧ ∃ k, t.call = some k := by
  unfold Scheduler.control at h
  split at h <;> simp_all

/-- A scheduler that has ended takes no step. -/
theorem Scheduler.step_ended (h : t.control ≠ .user ∧ t.control ≠ .loop) :
    Scheduler.step t a = none := by
  have hend : t.ended ≠ none := fun he => by
    cases hk : t.call <;> simp [Scheduler.control, he, hk] at h
  unfold Scheduler.step
  split <;> first | rfl | exact absurd ‹_› hend

/-- A loop refuses to resume what is active only. -/
theorem Laid.called (hl : Laid s t q) (hcon : s.control = t.control) (hloop : s.control = .loop)
    (hs : s.resumeLoop.control = .aborted .alreadyCalled) :
    ∃ k x xs, t.call = some k ∧ k.todo = x :: xs ∧ t.phase x = .active := by
  obtain ⟨-, k, hk⟩ := Scheduler.control_loop (hcon ▸ hloop)
  obtain ⟨act, coroutine, callee, hf, -⟩ := hl.chained.top.loop hloop
  have hstack : s.HeadLive (.stack s.sp) := ⟨hl.chained.alive_sp.1, by simp [hf]⟩
  have htodo : q (.stack s.sp) = k.todo := by simpa [Scheduler.todo, hk] using hl.todo
  have hfirst := (hl.queued.queues.queue _ hstack).first_eq
  rw [htodo] at hfirst
  cases hxs : k.todo with
  | nil =>
    rw [hxs, List.head?_nil] at hfirst
    simp [State.resumeLoop, hf, hfirst] at hs
  | cons x xs =>
    rw [hxs, List.head?_cons] at hfirst
    have hmem : x ∈ q (.stack s.sp) := by simp [htodo, hxs]
    have hret := hl.placed.unreturned _ x hmem
    have hxa : s.Alive x := ⟨hl.queued.created _ x hmem, fun h => hret ((hl.lived.destroyed x).1 h)⟩
    have h0 : x ≠ dummy := fun h => hl.avoids.first _ (h ▸ hfirst)
    refine ⟨k, x, xs, hk, hxs, ?_⟩
    by_contra hact
    have hxc := fun h => hact ((hl.active_iff hxa.1).2 h)
    -- then it has no caller, and is resumed
    have hcaller : s.caller x = none := by
      rcases hl.chained.inactive x (Nat.pos_of_ne_zero h0) hxa.1 hxc with
        ⟨-, hun | hsu⟩ | ⟨h, -⟩
      · exact hun.caller
      · exact hsu.caller
      · exact absurd h hret
    obtain ⟨m, hm, -⟩ := (hl.heads.loop hloop).removeHead hfirst
    obtain ⟨pt, e, -, -, he⟩ := hl.chained.wake_eq act coroutine m (Nat.pos_of_ne_zero h0) hxa hxc
      hcaller
    rw [State.resumeLoop_first hf hfirst hm hl.chained.alive_sp hxa, if_pos hcaller, he] at hs
    cases hs

/-- An effect is a step of the scheduler. -/
theorem Laid.effect_step {ds' : List Ptr} (hl : Laid s t q) (hm : Matches s t)
    (hok : Contract s a) (he : Effect s (t.callers.map Caller.self) a s' ds') :
    ∃ t', Scheduler.step t a = some t' ∧ Matches s' t' := by
  have hcon := hm.control
  cases he with
  | create cb userData hu =>
    obtain ⟨hend, hcall⟩ := Scheduler.control_user (hcon ▸ hu)
    obtain ⟨q', hf⟩ := hl.create cb userData hend hm.log hm.released hu hcall hok
    exact ⟨_, by simp [Scheduler.step, hend, hcall], hf.matches⟩
  | noMemory cb userData hu =>
    obtain ⟨hend, hcall⟩ := Scheduler.control_user (hcon ▸ hu)
    exact ⟨t, by simp [Scheduler.step, hend, hcall], hm⟩
  | enter a c m hu ha hca hm' =>
    obtain ⟨hend, hcall⟩ := Scheduler.control_user (hcon ▸ hu)
    obtain ⟨q', hf⟩ := hl.enter hend hm.log hm.released hu ha hca hm' hok
    refine ⟨_, ?_, hf.matches⟩
    rcases ha with rfl | ⟨rfl, h0⟩
    · simp [Scheduler.step, hend, hcall]
    · simp [Scheduler.step, hend, hcall, hl.callers_eq_nil.2 h0]
  | defer act c coroutine p es m hu hds hsp hf hca hne hm' =>
    obtain ⟨hend, hcall⟩ := Scheduler.control_user (hcon ▸ hu)
    obtain ⟨q', hfollow⟩ := hl.defer hend hm.log hm.released hu hcall hds hsp hf hca hne hm' hok
    obtain ⟨k, cs, hcs, -⟩ := List.map_eq_cons_iff.1 hds
    exact ⟨_, by simp [Scheduler.step, hend, hcall, hcs, hl.self, hne], hfollow.matches⟩
  | leave act coroutine callee hloop hf hempty =>
    obtain ⟨hend, k, hk⟩ := Scheduler.control_loop (hcon ▸ hloop)
    obtain ⟨q', hfollow⟩ := hl.leave hend hm.log hm.released hloop hf hempty hok
    have htodo : k.todo = [] := by
      have hnil := hl.todo.symm.trans (hl.queued.loop_empty hl.chained hf hempty)
      simpa [Scheduler.todo, hk] using hnil
    exact ⟨_, by simp [Scheduler.step, hend, hk, Scheduler.turn, htodo], hfollow.matches⟩
  | wake act coroutine x callee m pt e hloop hf hx hm' h0 hxa hxc hret hpt =>
    obtain ⟨hend, k, hk⟩ := Scheduler.control_loop (hcon ▸ hloop)
    obtain ⟨xs, o, q', htodo, ho, hfollow⟩ :=
      hl.wake hend hm.log hm.released hloop hk hf hx hm' h0 hxa hxc hret hpt hok
    have hact : t.phase x ≠ .active := fun h => hxc ((hl.active_iff hxa.1).1 h)
    exact ⟨_, by simp [Scheduler.step, hend, hk, Scheduler.turn, htodo, hact, ho],
      hfollow.matches⟩
  | back act coroutine p es m₁ m₂ returned hu hds hsp hf hco hm₁ hm₂ =>
    obtain ⟨hend, hcall⟩ := Scheduler.control_user (hcon ▸ hu)
    obtain ⟨c, cs, q', hcs, hfollow⟩ :=
      hl.back hend hm.log hm.released hu hds hsp hf hco hm₁ hm₂ hok
    refine ⟨_, ?_, hfollow.matches⟩
    cases returned <;> simp [Scheduler.step, hend, hcall, hcs]

/-- Where the code reaches an `abort`, so does the scheduler. -/
theorem Laid.abort_step (hl : Laid s t q) (hm : Matches s t) (hok : Contract s a)
    (hs : step s a = some s') (hd : Dead s a s') :
    ∃ t', Scheduler.step t a = some t' ∧ Matches s' t' := by
  obtain ⟨hlog, hdes, hwhy⟩ := hl.dead hok hd
  have habort : ∀ site, t.ended = none → s'.control = .aborted site →
      Matches s' (t.abort site) := by
    intro site hend hcon
    refine ⟨by simp [hcon, Scheduler.control, Scheduler.abort], ?_, ?_, fun hlive => ?_⟩
    · rw [hlog]
      exact hm.log
    · rw [hdes]
      exact hm.released
    · exact absurd hlive (not_or.2 hd.control)
  rcases hwhy with ⟨hcon, rfl⟩ | ⟨hcon, rfl⟩ | ⟨hcon, rfl, h0⟩
  · have hloop : s.control = .loop := by
      cases h : s.control <;> simp [step, h] at hs ⊢
    obtain rfl : s.resumeLoop = s' := by simpa [step, hloop] using hs
    obtain ⟨hend, -⟩ := Scheduler.control_loop (hm.control ▸ hloop)
    obtain ⟨k, x, xs, hk, htodo, hact⟩ := hl.called hm.control hloop hcon
    exact ⟨_, by simp [Scheduler.step, hend, hk, Scheduler.turn, htodo, hact],
      habort .alreadyCalled hend hcon⟩
  · have hu : s.control = .user := by
      cases h : s.control <;> simp [step, h] at hs ⊢
    obtain ⟨hend, hcall⟩ := Scheduler.control_user (hm.control ▸ hu)
    have h0 := (hok.careful s.sp rfl).1
    refine ⟨_, ?_, habort .assertion hend hcon⟩
    cases hcs : t.callers with
    | nil => exact absurd (hl.callers_eq_nil.1 hcs) h0
    | cons c cs => simp [Scheduler.step, hend, hcall, hcs, hl.self]
  · have hu : s.control = .user := by
      cases h : s.control <;> simp [step, h] at hs ⊢
    obtain ⟨hend, hcall⟩ := Scheduler.control_user (hm.control ▸ hu)
    exact ⟨_, by simp [Scheduler.step, hend, hcall, hl.callers_eq_nil.2 h0],
      habort .noCaller hend hcon⟩

/-- What the code does not do the scheduler does not do. -/
theorem Laid.refused (hl : Laid s t q) (hm : Matches s t) (hlive : s.Live)
    (hs : step s a = none) : Scheduler.step t a = none := by
  rcases hlive with hu | hloop
  · obtain ⟨hend, hcall⟩ := Scheduler.control_user (hm.control ▸ hu)
    cases a with
    | ret =>
      have h0 : s.sp = dummy := by simpa [step, hu] using hs
      simp [Scheduler.step, hend, hcall, hl.callers_eq_nil.2 h0]
    | tick => simp [Scheduler.step, hcall]
    | _ => simp [step, hu] at hs
  · obtain ⟨-, k, hk⟩ := Scheduler.control_loop (hm.control ▸ hloop)
    cases a with
    | tick => simp [step, hloop] at hs
    | _ => simp [Scheduler.step, hk]

end Steps

/-- **The code and the scheduler go in lockstep.** -/
theorem lockstep : Lockstep step Scheduler.step (Contract (F := F) (D := D)) Matches := by
  intro s t a hm hok
  by_cases hlive : s.Live
  · obtain ⟨q, hl⟩ := hm.laid hlive
    cases hs : step s a with
    | none =>
      rw [hl.refused hm hlive hs]
      exact .none
    | some s' =>
      have hstep : ∃ t', Scheduler.step t a = some t' ∧ Matches s' t' := by
        rcases step_effect hl.chained hl.heads hs with ⟨ds', he⟩ | hd
        · exact hl.effect_step hm hok he
        · exact hl.abort_step hm hok hs hd
      obtain ⟨t', ht, hm'⟩ := hstep
      rw [ht]
      exact .some hm'
  · have hend := not_or.1 hlive
    rw [step_none hend, Scheduler.step_ended (by rwa [← hm.control])]
    exact .none

theorem Matches.init : Matches (State.init : State F D) Scheduler.init := by
  refine ⟨rfl, rfl, rfl, fun _ => ⟨fun _ => [], ⟨Chained.init, Heads.init, Queued.init, Placed.init,
    Lived.init, Avoids.init_state⟩, rfl, rfl, rfl, rfl, ?_, ?_, ?_, ?_, ?_⟩⟩
  · simp [Scheduler.init]
  · simp [Scheduler.init]
  · simp
  · intro c hc
    obtain rfl : c = dummy := Nat.le_zero.1 hc
    exact List.mem_cons_self
  · simp [State.init]

/-- **Refinement.** In every run of a program that keeps the contract, whatever the callbacks do,
the code takes a step if and only if the scheduler does, and both show the same: where control is,
what has been released, everything that the program sees, and, until an `abort` is reached, the
callers, the lists and the phases of all coroutines. -/
theorem run_matches {as : List (Action F D)} (hok : Obeys step Contract State.init as) :
    Option.Rel Matches (run step State.init as) (run Scheduler.step Scheduler.init as) :=
  lockstep.run .init hok

/-- A coroutine that resumes another one, which yields to it and is resumed by the thread. -/
theorem run_matches_nested : ∃ (s : State ℕ ℕ) (t : Scheduler ℕ ℕ),
    run step State.init [.create 7 8 true, .create 7 9 true, .resume 1, .tick, .resume 2, .tick,
      .yield, .tick, .ret, .tick, .process 2, .tick] = some s ∧
    run Scheduler.step Scheduler.init [.create 7 8 true, .create 7 9 true, .resume 1, .tick,
      .resume 2, .tick, .yield, .tick, .ret, .tick, .process 2, .tick] = some t ∧
    t.log.getLast? = some (.woken 2) ∧ Matches s t := by
  have hok : Obeys step Contract (State.init (F := ℕ) (D := ℕ)) [.create 7 8 true,
      .create 7 9 true, .resume 1, .tick, .resume 2, .tick, .yield, .tick, .ret, .tick,
      .process 2, .tick] := by decide
  cases run_matches hok with
  | some hm => exact ⟨_, _, rfl, rfl, rfl, hm⟩

end XcpNgGeneric.Coroutine
