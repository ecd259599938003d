import XcpNgGeneric.Coroutine.Refinement
import XcpNgGeneric.Coroutine.Served

/-!
# Disciplined programs

What the interface guarantees to a program that resumes idle coroutines only and yields inside
coroutines only: it never reaches an `abort`, nothing that has been released is accessed, and what
waits can be resumed. The discipline can be checked on the scheduler alone. Whatever the program
does, nothing waits any more when the thread's own code runs.

## Main results

* `disciplined_live`: disciplined programs are safe.
* `quiescent`: the state of the coroutines when the thread's own code runs.
-/

namespace XcpNgGeneric.Coroutine

open TailQueue Runs

variable {F D : Type}

/-! ## The discipline -/

/-- Moreover what is handed over has no caller, and the thread's own code does not yield. -/
structure Disciplined (s : State F D) (a : Action F D) : Prop extends Contract s a where
  inactive : ∀ c ∈ a.handed, s.caller c = none
  yield : a = .yield → s.sp ≠ dummy

instance [DecidableEq F] [DecidableEq D] (s : State F D) (a : Action F D) :
    Decidable (Disciplined s a) :=
  decidable_of_iff (Contract s a ∧ (∀ c ∈ a.handed, s.caller c = none) ∧
      (a = .yield → s.sp ≠ dummy))
    ⟨fun ⟨h₁, h₂, h₃⟩ => ⟨h₁, h₂, h₃⟩, fun ⟨h₁, h₂, h₃⟩ => ⟨h₁, h₂, h₃⟩⟩

section Discipline

variable {s : State F D} {t : Scheduler F D} {q : Head → List Ptr}

/-- A coroutine that may be handed over is active if and only if it has a caller. -/
theorem Laid.caller_eq_none (hl : Laid s t q) {c : Ptr} (h0 : c ≠ dummy) (hle : c ≤ s.created)
    (hret : .ret c ∉ s.log) : s.caller c = none ↔ t.phase c ≠ .active := by
  rw [Ne, hl.active_iff hle]
  constructor
  · intro hcaller hmem
    exact hl.chained.callers.caller_ne_none hmem h0 hcaller
  · intro hmem
    rcases hl.chained.inactive c (Nat.pos_of_ne_zero h0) hle hmem with ⟨-, hun | hsu⟩ | ⟨h, -⟩
    · exact hun.caller
    · exact hsu.caller
    · exact absurd h hret

theorem Laid.disciplined_iff (hl : Laid s t q) (a : Action F D) :
    Disciplined s a ↔ t.Proper a := by
  constructor
  · rintro ⟨hok, hin, hy⟩
    refine ⟨(hl.contract_iff a).1 hok, fun c hc => ?_, fun ha => ?_⟩
    · obtain ⟨h0, hret, -⟩ := hok.careful c hc
      exact (hl.caller_eq_none h0 (hok.created c hc) hret).1 (hin c hc)
    · rw [Ne, hl.callers_eq_nil]
      exact hy ha
  · rintro ⟨hal, hin, hy⟩
    have hok := (hl.contract_iff a).2 hal
    refine ⟨hok, fun c hc => ?_, fun ha => ?_⟩
    · obtain ⟨h0, hret, -⟩ := hok.careful c hc
      exact (hl.caller_eq_none h0 (hok.created c hc) hret).2 (hin c hc)
    · rw [Ne, ← hl.callers_eq_nil]
      exact hy ha

theorem Scheduler.Orderly.live (ho : t.Orderly) (hm : Matches s t) : s.Live := by
  rw [State.Live, hm.control, Scheduler.control, ho.ended]
  cases t.call <;> simp

end Discipline

/-- A thread whose program is disciplined stays at work. -/
theorem lockstep_disciplined : Lockstep step Scheduler.step (Disciplined (F := F) (D := D))
    fun s t => Matches s t ∧ t.Orderly := by
  rintro s t a ⟨hm, ho⟩ hok
  obtain ⟨q, hl⟩ := hm.laid (ho.live hm)
  have hstep := lockstep s t a hm hok.toContract
  generalize hs : step s a = o at hstep ⊢
  generalize ht : Scheduler.step t a = o' at hstep ⊢
  cases hstep with
  | none => exact .none
  | some hm' =>
    exact .some ⟨hm', (Scheduler.step_move ht).2.orderly ho ((hl.disciplined_iff a).1 hok)⟩

/-- **The discipline can be checked on the scheduler.** -/
theorem obeys_disciplined_iff {as : List (Action F D)} :
    Obeys step Disciplined State.init as ↔
      Obeys Scheduler.step Scheduler.Proper Scheduler.init as := by
  refine lockstep_disciplined.obeys_iff (R := fun s t => Matches s t ∧ t.Orderly) ?_
    ⟨Matches.init, Scheduler.Orderly.init⟩
  rintro s t a ⟨hm, ho⟩
  obtain ⟨q, hl⟩ := hm.laid (ho.live hm)
  exact hl.disciplined_iff a

/-- **Disciplined programs are safe.** If the scheduler finds a program disciplined, the code runs
it without reaching an `abort` or accessing a coroutine that has been destroyed; in every state
exactly the coroutines that have returned are destroyed, each once, and what waits in a pending
list is alive and has no caller. -/
theorem disciplined_live {as : List (Action F D)} {s : State F D}
    (hok : Obeys Scheduler.step Scheduler.Proper Scheduler.init as)
    (hs : run step State.init as = some s) :
    s.Live ∧ (∀ c, c ∈ s.destroyed ↔ .ret c ∈ s.log) ∧ s.destroyed.Nodup ∧
      ∀ c, s.Linked c → s.Alive c ∧ s.caller c = none := by
  obtain ⟨t, -, hm, ho⟩ := lockstep_disciplined.run_some
    ⟨Matches.init, Scheduler.Orderly.init⟩ (obeys_disciplined_iff.2 hok) hs
  have hlive := ho.live hm
  obtain ⟨q, hl⟩ := hm.laid hlive
  refine ⟨hlive, hl.lived.destroyed, hl.lived.once, fun c hlink => ?_⟩
  have hw := (hl.waiting_iff c).2 hlink
  obtain ⟨hle, hidle⟩ := ho.idle c hw
  have hle' : c ≤ s.created := hl.created ▸ hle
  have hret : .ret c ∉ s.log := by
    rw [← hl.finished_iff hle']
    rcases hidle with h | h <;> simp [h]
  have hact : t.phase c ≠ .active := by
    rcases hidle with h | h <;> simp [h]
  have h0 : c ≠ dummy := by
    rintro rfl
    exact hact ((hl.active_iff hle').2 hl.chained.callers.dummy_mem.1)
  exact ⟨⟨hle', fun h => hret ((hl.lived.destroyed c).1 h)⟩,
    (hl.caller_eq_none h0 hle' hret).2 hact⟩

/-- Two coroutines that are resumed by the thread; one defers the other and yields. -/
theorem disciplined_live_defer : ∃ s : State ℕ ℕ,
    run step State.init [.create 0 0 true, .create 0 0 true, .resume 1, .tick, .process 2, .yield] =
      some s ∧ s.Linked 2 ∧ s.Live ∧ (∀ c, c ∈ s.destroyed ↔ .ret c ∈ s.log) ∧
      s.destroyed.Nodup ∧ ∀ c, s.Linked c → s.Alive c ∧ s.caller c = none := by
  have h : ∃ s : State ℕ ℕ,
      run step State.init [.create 0 0 true, .create 0 0 true, .resume 1, .tick, .process 2,
        .yield] = some s ∧ s.Linked 2 := ⟨_, rfl, by decide⟩
  obtain ⟨s, hs, hlink⟩ := h
  exact ⟨s, hs, hlink, disciplined_live (obeys_disciplined_iff.1 (by decide +kernel)) hs⟩

/-! ## The thread's own code -/

/-- Only active coroutines are in the loop of a call. -/
def Looping (s : State F D) (ds : List Ptr) : Prop :=
  ∀ p, (s.frame p).isLoop = true → p ∈ s.sp :: ds

theorem Effect.looping {s t : State F D} {ds ds' : List Ptr} {a : Action F D}
    (he : Effect s ds a t ds') (hc : Chained s ds) (hl : Looping s ds) : Looping t ds' := by
  intro p hp
  cases he with
  | create cb userData hu => exact hl p hp
  | noMemory cb userData hu => exact hl p hp
  | defer act c coroutine q es m hu => exact hl p hp
  | enter a c m hu =>
    by_cases hps : p = s.sp
    · exact List.mem_cons.2 (Or.inl hps)
    · exact hl p (by simpa [State.afterEnter, hps] using hp)
  | leave act coroutine callee hloop hf hempty =>
    by_cases hps : p = s.sp
    · exact List.mem_cons.2 (Or.inl hps)
    · exact hl p (by simpa [State.afterLeave, hps] using hp)
  | wake act coroutine x callee m pt e hloop hf hx hm h0 hxa hxc =>
    have hpx : p ≠ x := by
      rintro rfl
      simp [State.afterWake] at hp
    refine List.mem_cons_of_mem _ ?_
    by_cases hps : p = s.sp
    · exact List.mem_cons.2 (Or.inl hps)
    · exact hl p (by simpa [State.afterWake, hpx, hps] using hp)
  | back act coroutine q es m₁ m₂ returned hu hds =>
    subst hds
    have hps : p ≠ s.sp := by
      rintro rfl
      cases returned <;> simp [State.afterBack] at hp
    have hmem := hl p (by simpa [State.afterBack, hps] using hp)
    exact (List.mem_cons.1 hmem).resolve_left hps

/-- Nothing is reached from a head that is empty. -/
theorem State.not_reaches {s : State F D} {h : Head} (hempty : s.mem.first h = none) (c : Ptr) :
    ¬s.Reaches h c := by
  have hnone : ∀ k, s.mem.walk h k = none := by
    intro k
    induction k with
    | zero => exact hempty
    | succ k ih => rw [Mem.walk, ih, Option.bind_none]
  rintro ⟨k, -, hk⟩
  cases (hnone k).symm.trans hk

/-- **Nothing waits when the thread's own code runs**, whatever the program has done before. Outside
of all calls every call of `xcp_coroutine_resume` has returned, no coroutine is in a pending list,
and each of them is unstarted, suspended in `xcp_coroutine_yield`, or has returned. -/
theorem quiescent {as : List (Action F D)} {s : State F D} (hs : run step State.init as = some s)
    (hu : s.control = .user) (h0 : s.sp = dummy) :
    (∀ act p c, .enter act p c ∈ s.log → .leave act ∈ s.log) ∧ (∀ c, ¬s.Linked c) ∧
      ∀ c, 0 < c → c ≤ s.created → Inactive s c := by
  obtain ⟨ds, hc, hh, ho, hl⟩ := run_holds (P := fun s ds => Opened s ds ∧ Looping s ds)
    ⟨by simp [Opened, State.init], by simp [Looping, State.init]⟩
    (fun s ds a t ds' hc _ ⟨ho, hl⟩ _ he => ⟨he.opened hc ho, he.looping hc hl⟩)
    (obeys_true State.init as) hs (Or.inl hu)
  obtain rfl : ds = [] := by
    cases ds with
    | nil => rfl
    | cons p es => exact absurd h0 hc.sp_ne_dummy
  have hidle := hc.top.user hu
  refine ⟨fun act p c hent => ?_, fun c hlink => ?_, fun c hpos hle => ?_⟩
  · apply (ho act p c hent).resolve_right
    rintro ⟨hp, callee, hf⟩
    obtain rfl := List.mem_singleton.1 hp
    cases hidle.symm.trans hf
  · obtain ⟨p, -, ⟨hp, hreach⟩ | ⟨hloop, -⟩⟩ := hlink
    · have hout : p ∉ [s.sp] := by
        rw [h0, List.mem_singleton]
        exact Nat.ne_of_gt hp
      exact s.not_reaches (hh.empty p hout) c hreach
    · obtain rfl := List.mem_singleton.1 (hl p hloop)
      rw [hidle] at hloop
      cases hloop
  · refine hc.inactive c hpos hle ?_
    rw [h0, List.mem_singleton]
    exact Nat.ne_of_gt hpos

/-- A coroutine is deferred twice, with another one in between, which is lost. -/
def deferredTwice : List (Action ℕ ℕ) :=
  [.create 0 0 true, .create 0 0 true, .create 0 0 true, .resume 1, .tick, .process 2, .process 3,
    .process 2, .yield, .tick, .yield, .tick]

theorem quiescent_defer : ∃ s : State ℕ ℕ, run step State.init deferredTwice = some s ∧
    .enter 3 0 1 ∈ s.log ∧ s.execs 2 = 1 ∧ s.execs 3 = 0 ∧
    (∀ act p c, .enter act p c ∈ s.log → .leave act ∈ s.log) ∧ (∀ c, ¬s.Linked c) ∧
    ∀ c, 0 < c → c ≤ s.created → Inactive s c := by
  have h : (run step State.init deferredTwice).any (fun s => s.control = .user ∧ s.sp = dummy ∧
      .enter 3 0 1 ∈ s.log ∧ s.execs 2 = 1 ∧ s.execs 3 = 0) = true := by decide +kernel
  obtain ⟨s, hs, hcon⟩ := (Option.any_eq_true _ _).1 h
  obtain ⟨hu, h0, hent, htwo, hthree⟩ := of_decide_eq_true hcon
  exact ⟨s, hs, hent, htwo, hthree, quiescent hs hu h0⟩

end XcpNgGeneric.Coroutine
