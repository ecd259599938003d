import XcpNgGeneric.Coroutine.Activations

/-!
# The chain of callers in every reachable state

What the control invariant says in terms of the fields of the source: `caller` leads from
`threadData->current` to the thread's own stack, exactly the active coroutines have a caller, only
they can have pending coroutines, and a call of `xcp_coroutine_resume` restores all of it before
it returns. The program is arbitrary: where it hands the thread's own stack or a coroutine that has
returned to the interface, the run ends.

## Main results

* `callers_invariant`: the invariant, in every state in which user code runs.
* `CallReturns.restores`: the call that `CallReturns` singles out leaves the chain as it was.
-/

namespace XcpNgGeneric.Coroutine

open TailQueue Runs

variable {F D : Type}

/-! ## The invariant -/

/-- What holds of `caller` and `pendings` where user code runs; `path` leads from
`threadData->current` to the thread's own stack. -/
structure CallersInvariant (s : State F D) (path : List Ptr) : Prop where
  chain : CallerChain s.caller s.self path
  nodup : (s.self :: path).Nodup
  active : ∀ c, 0 < c → c ≤ s.created → .ret c ∉ s.log →
    (s.caller c ≠ none ↔ c ∈ s.self :: path)
  pendings : ∀ c, s.mem.first (.field c) ≠ none → c ∈ s.self :: path
  root : s.mem.first (.field dummy) = none

theorem Chained.callersInvariant {s : State F D} {ds : List Ptr} (hc : Chained s ds)
    (hh : Heads s ds) : CallersInvariant s ds := by
  have hself := hc.self
  refine ⟨?_, ?_, fun c h0 hle hret => ?_, fun c hne => ?_, hh.root.1⟩ <;> rw [hself]
  · exact hc.callers
  · exact hc.nodup
  · refine ⟨fun hcaller => ?_, fun hmem => hc.callers.caller_ne_none hmem (Nat.ne_of_gt h0)⟩
    by_contra hmem
    rcases hc.inactive c h0 hle hmem with ⟨-, hun | hsu⟩ | ⟨hret', -⟩
    · exact hcaller hun.caller
    · exact hcaller hsu.caller
    · exact hret hret'
  · by_contra hmem
    exact hne (hh.empty c hmem)

/-- A coroutine body can always yield. -/
theorem Chained.yield_called {s : State F D} {ds : List Ptr} (hc : Chained s ds)
    (hh : Heads s ds) (hu : s.control = .user) (hsp : s.sp ≠ dummy) :
    s.yield.control ≠ .aborted .noCaller := by
  rcases hc.yield_effect hh hu with ⟨ds', he⟩ | hd
  · rcases he.settled with h | h | h <;> simp [h]
  · rcases hd.why with ⟨-, ⟨-, h⟩ | ⟨-, h⟩ | ⟨-, -, h⟩⟩ | ⟨h, -⟩ | ⟨h, -⟩
    · cases h
    · cases h
    · exact absurd h hsp
    · simp [h]
    · cases h

/-! ## The return of `xcp_coroutine_resume` -/

/-- In `s` a call is made that runs a loop, and in `t` this call has just returned. -/
def CallReturns (s t : State F D) : Prop :=
  ∃ a c s₁ as s₂, step s a = some s₁ ∧ s₁.log = s.log ++ [.enter s.log.length s.sp c] ∧
    run step s₁ as = some s₂ ∧ step s₂ .tick = some t ∧ t.control = .user ∧
    t.log = s₂.log ++ [.leave s.log.length]

/-- The step that enters a call. -/
theorem Effect.of_enter {s t : State F D} {ds ds' : List Ptr} {a : Action F D}
    (he : Effect s ds a t ds') {act : ℕ} {p c : Ptr} (hlog : t.log = s.log ++ [.enter act p c]) :
    ∃ m, t = s.afterEnter c m ∧ ds' = ds := by
  cases he with
  | enter a c' m =>
    obtain ⟨-, -, rfl⟩ : s.log.length = act ∧ s.sp = p ∧ c' = c := by
      simpa [State.afterEnter] using hlog
    exact ⟨m, rfl, rfl⟩
  | noMemory => simp at hlog
  | create => simp [State.afterCreate] at hlog
  | defer => simp [State.afterDefer] at hlog
  | leave => simp [State.afterLeave] at hlog
  | wake => simp [State.afterWake] at hlog
  | back act coroutine p es m₁ m₂ returned => cases returned <;> simp [State.afterBack] at hlog

/-- The step that leaves a call. -/
theorem Effect.of_leave {s t : State F D} {ds ds' : List Ptr} {a : Action F D}
    (he : Effect s ds a t ds') {act : ℕ} (hlog : t.log = s.log ++ [.leave act]) :
    t = s.afterLeave act ∧ ds' = ds ∧
      ∃ coroutine callee, s.frame s.sp = .resume act coroutine s.sp callee := by
  cases he with
  | leave act' coroutine callee hl hf =>
    obtain rfl : act' = act := by simpa [State.afterLeave] using hlog
    exact ⟨rfl, rfl, coroutine, callee, hf⟩
  | enter => simp [State.afterEnter] at hlog
  | noMemory => simp at hlog
  | create => simp [State.afterCreate] at hlog
  | defer => simp [State.afterDefer] at hlog
  | wake => simp [State.afterWake] at hlog
  | back act coroutine p es m₁ m₂ returned => cases returned <;> simp [State.afterBack] at hlog

/-- The activation `act` has returned, or its loop is on the stack `p` above the same callers. -/
def Kept (act : ℕ) (p : Ptr) (ds₀ : List Ptr) (s : State F D) (ds : List Ptr) : Prop :=
  .leave act ∈ s.log ∨ ∃ coroutine callee us, s.frame p = .resume act coroutine p callee ∧
    s.sp :: ds = us ++ p :: ds₀

theorem Effect.kept {s t : State F D} {ds ds' : List Ptr} {a : Action F D}
    (he : Effect s ds a t ds') (hc : Chained s ds) {act : ℕ} {p : Ptr} {ds₀ : List Ptr}
    (hk : Kept act p ds₀ s ds) : Kept act p ds₀ t ds' := by
  rcases hk with hleft | ⟨coroutine, callee, us, hf, hus⟩
  · obtain ⟨es, hlog⟩ := he.log
    exact Or.inl (by simp [hlog, hleft])
  have hp : s.control = .user → p ≠ s.sp := by
    rintro hu rfl
    cases hf.symm.trans (hc.top.user hu)
  cases he with
  | create cb userData hu => exact Or.inr ⟨coroutine, callee, us, hf, hus⟩
  | noMemory cb userData hu => exact Or.inr ⟨coroutine, callee, us, hf, hus⟩
  | enter a c m hu =>
    exact Or.inr ⟨coroutine, callee, us, by simpa [State.afterEnter, hp hu] using hf, hus⟩
  | defer => exact Or.inr ⟨coroutine, callee, us, hf, hus⟩
  | leave act' coroutine' callee' hl hf' =>
    by_cases hne : p = s.sp
    · subst hne
      obtain ⟨rfl, -⟩ : act = act' ∧ _ := by simpa using hf.symm.trans hf'
      exact Or.inl (by simp [State.afterLeave])
    · exact Or.inr ⟨coroutine, callee, us, by simpa [State.afterLeave, hne] using hf, hus⟩
  | wake act' coroutine' x callee' m pt e hl hf' hx hm h0 hxa hxc =>
    have hpx : p ≠ x := fun h => hxc (by simp [hus, h])
    right
    by_cases hne : p = s.sp
    · subst hne
      obtain ⟨rfl, -⟩ : act = act' ∧ _ := by simpa using hf.symm.trans hf'
      refine ⟨coroutine', some x, x :: us, ?_, by simp [State.afterWake, hus]⟩
      simp [State.afterWake, hpx]
    · refine ⟨coroutine, callee, x :: us, ?_, by simp [State.afterWake, hus]⟩
      simpa [State.afterWake, hpx, hne] using hf
  | back act' coroutine' q qs m₁ m₂ returned hu hds =>
    subst hds
    cases us with
    | nil =>
      obtain ⟨h, -⟩ : s.sp = p ∧ _ := by simpa using hus
      exact absurd h.symm (hp hu)
    | cons u us =>
      obtain ⟨-, h⟩ : s.sp = u ∧ q :: ds' = us ++ p :: ds₀ := by simpa using hus
      refine Or.inr ⟨coroutine, callee, us, ?_, h⟩
      simpa [State.afterBack, hp hu] using hf

theorem CallerChain.agree {f g : Ptr → Option Ptr} {x : Ptr} {ds : List Ptr}
    (hf : CallerChain f x ds) (hg : CallerChain g x ds) : ∀ y ∈ x :: ds, g y = f y := by
  induction ds generalizing x with
  | nil =>
    obtain ⟨rfl, hf⟩ := hf
    simpa [hf] using hg.2
  | cons p ds ih =>
    exact List.forall_mem_cons.2 ⟨hg.1.trans hf.1.symm, ih hf.2 hg.2⟩

/-- **When a call of `xcp_coroutine_resume` returns**, `current` and the callers of the calling
coroutine's chain are what they were. -/
theorem CallReturns.restores {s t : State F D} (hr : CallReturns s t) {ds : List Ptr}
    (hc : Chained s ds) (hh : Heads s ds) (hn : Numbered s) :
    t.self = s.self ∧ ∀ x ∈ s.self :: ds, t.caller x = s.caller x := by
  obtain ⟨a, c, s₁, as, s₂, hstep, hlog, hrun, htick, hut, hleave⟩ := hr
  -- the invariants of the state in which the loop begins
  have hlive₁ : Holds (fun u es => Numbered u ∧ Kept s.log.length s.sp ds u es) s₁ := by
    rcases step_effect hc hh hstep with ⟨ds', he⟩ | hd
    · have hn' := he.numbered hn
      have hc' := he.chained hc hh
      have hh' := he.heads hc hh
      obtain ⟨m, rfl, rfl⟩ := he.of_enter hlog
      have hf : (s.afterEnter c m).frame s.sp = .resume s.log.length c s.sp none := by
        simp [State.afterEnter]
      exact ⟨ds', hc', hh', hn', Or.inr ⟨c, none, [], hf, rfl⟩⟩
    · cases as with
      | nil =>
        obtain rfl := Option.some.inj hrun
        rw [step_none hd.control] at htick
        cases htick
      | cons b as =>
        rw [run, step_none hd.control] at hrun
        cases hrun
  have hlive₂ := run_effects_from
    (fun u es b v es' huc _ hP _ he => ⟨he.numbered hP.1, he.kept huc hP.2⟩) hlive₁
    (obeys_true s₁ as) hrun
  rcases hlive₂ with ⟨es, hc₂, hh₂, hn₂, hk⟩ | hover
  · rcases step_effect hc₂ hh₂ htick with ⟨es', he⟩ | hd
    · have hct := he.chained hc₂ hh₂
      obtain ⟨rfl, rfl, coroutine, callee, hf⟩ := he.of_leave hleave
      rcases hk with hk | ⟨coroutine', callee', us, hf', hus⟩
      · exact absurd hk (hn₂.frame _ _ _ _ _ hf).2
      have hsp : s₂.sp = s.sp := hn₂.stack_unique hf hf'
      have hus' : us = [] := by
        cases us with
        | nil => rfl
        | cons u us =>
          obtain ⟨-, h⟩ : s₂.sp = u ∧ es' = us ++ s.sp :: ds := by simpa using hus
          exact absurd (by simp [h, hsp]) hc₂.sp_not_mem
      obtain ⟨-, rfl⟩ : s₂.sp = s.sp ∧ es' = ds := by simpa [hus'] using hus
      have hself : (s₂.afterLeave s.log.length).self = s.self :=
        (hct.self.trans hsp).trans hc.self.symm
      have hcallers : CallerChain (s₂.afterLeave s.log.length).caller s.sp es' :=
        hsp ▸ hct.callers
      refine ⟨hself, ?_⟩
      rw [hc.self]
      exact hc.callers.agree hcallers
    · exact absurd hut hd.control.1
  · rw [step_none hover.control] at htick
    cases htick

/-! ## Runs -/

/-- **The caller-chain invariant.** In every state of a run in which user code runs, `caller` leads
from `threadData->current` to the thread's own stack; a coroutine body can yield; and a call of
`xcp_coroutine_resume` that is made in this state leaves the chain unchanged when it returns. -/
theorem callers_invariant {as : List (Action F D)} {s : State F D}
    (hs : run step State.init as = some s) (hu : s.control = .user) :
    ∃ path, CallersInvariant s path ∧
      (s.sp ≠ dummy → s.yield.control ≠ .aborted .noCaller) ∧
      ∀ t, CallReturns s t → t.self = s.self ∧ ∀ x ∈ s.self :: path, t.caller x = s.caller x := by
  obtain ⟨ds, hc, hh, hn⟩ := run_holds (P := fun s _ => Numbered s)
    Numbered.init (fun s ds a t ds' _ _ hn _ he => he.numbered hn) (obeys_true _ as) hs (Or.inl hu)
  exact ⟨ds, hc.callersInvariant hh, hc.yield_called hh hu, fun t hr => hr.restores hc hh hn⟩

/-- The invariant in a coroutine that resumes another one, which yields. -/
theorem callers_invariant_nested : ∃ s t : State ℕ ℕ,
    run step State.init [.create 0 0 true, .create 0 0 true, .resume 1, .tick] = some s ∧
      s.control = .user ∧ s.sp = 1 ∧ CallReturns s t ∧ t.self = s.self ∧
      ∃ path, CallersInvariant s path := by
  have hr : ∃ s t : State ℕ ℕ,
      run step State.init [.create 0 0 true, .create 0 0 true, .resume 1, .tick] = some s ∧
        s.control = .user ∧ s.sp = 1 ∧ CallReturns s t :=
    ⟨_, _, rfl, rfl, rfl, .resume 2, 2, _, [.tick, .yield], _, rfl, rfl, rfl, rfl, rfl, rfl⟩
  obtain ⟨s, t, hs, hu, hsp, hr⟩ := hr
  obtain ⟨path, hp, -, hret⟩ := callers_invariant hs hu
  exact ⟨s, t, hs, hu, hsp, hr, (hret t hr).1, path, hp⟩

end XcpNgGeneric.Coroutine
