import XcpNgGeneric.Coroutine.Pendings

/-!
# Which coroutines are destroyed

`Lifetime` says what the callers of the interface rely on: what is destroyed are the coroutines
whose callback has returned and whose `Terminated` has been received, each once. The loop of
`xcp_coroutine_resume` destroys the coroutine that it was called with, whichever of the coroutines
on its list has returned, so that this holds of a run if and only if, each time a callback returns,
the coroutine that returns is the one with which the loop that runs it was called (`OwnReturn`).

## Main results

* `lifetime_iff`: the equivalence, for runs of programs that hand out neither the thread's own
  stack, nor a coroutine that has returned, nor one that is linked (`Careful`).
* `lifetime_fails`: a run in which a suspended coroutine is destroyed.
-/

namespace XcpNgGeneric.Coroutine

open TailQueue Runs

variable {F D : Type}

/-! ## Programs and conditions -/

/-- What is handed to the interface is not the thread's own stack, has not returned and is in no
pending list. -/
def Careful (s : State F D) (a : Action F D) : Prop :=
  ∀ c ∈ a.handed, c ≠ dummy ∧ .ret c ∉ s.log ∧ ¬s.Linked c

theorem Careful.fresh {s : State F D} {a : Action F D} (h : Careful s a) : FreshHand s a :=
  fun c hc => (h c hc).2.2

instance [DecidableEq F] [DecidableEq D] (s : State F D) (a : Action F D) :
    Decidable (Careful s a) :=
  match h : a.handed with
  | none => isTrue (by simp [Careful, h])
  | some c =>
    decidable_of_iff (c ≠ dummy ∧ .ret c ∉ s.log ∧ ¬s.Linked c) (by simp [Careful, h])

/-- The argument of the `xcp_coroutine_resume` that is active on the stack `p`. -/
def State.argument (s : State F D) (p : Ptr) : Option Ptr :=
  match s.frame p with
  | .resume _ coroutine _ _ => some coroutine
  | _ => none

/-- A coroutine that returns is the argument of the loop that runs it. -/
def OwnReturn (s : State F D) : Action F D → Prop
  | .ret => (s.caller s.sp).bind s.argument = some s.sp
  | _ => True

/-- Coroutines live until their callback has returned and the loop has been told. -/
structure Lifetime (s : State F D) : Prop where
  exact : ∀ c, c ∈ s.destroyed ↔
    .ret c ∈ s.log ∧ ∃ act, .received act c Status.terminated.val ∈ s.log
  once : s.destroyed.Nodup
  /-- Not started, suspended or running. -/
  unfinished : ∀ c, .ret c ∉ s.log → c ∉ s.destroyed
  pending : s.Live → ∀ c, s.Linked c → c ∉ s.destroyed

instance (s : State F D) (a : Action F D) : Decidable (OwnReturn s a) :=
  match a with
  | .ret => inferInstanceAs (Decidable (_ = _))
  | .create _ _ _ | .resume _ | .process _ | .yield | .tick => isTrue trivial

/-! ## Where active coroutines are linked -/

/-- An active coroutine is linked only in queues that belong to coroutines above it, or in its own
loop's; and nothing that has returned is linked. -/
structure Placed (s : State F D) (ds : List Ptr) (q : Head → List Ptr) : Prop where
  above : ∀ us c vs, s.sp :: ds = us ++ c :: vs →
    (∀ x, c ∈ q (.field x) → x ∈ us) ∧ ∀ p, c ∈ q (.stack p) → p = c ∨ p ∈ us
  unreturned : ∀ h, ∀ c ∈ q h, .ret c ∉ s.log

/-- The coroutine whose user code runs is not linked. -/
theorem Placed.sp_not_linked {s : State F D} {ds : List Ptr} {q : Head → List Ptr}
    (hp : Placed s ds q) (hq : Queued s q) (hc : Chained s ds) (hu : s.control = .user) (h : Head) :
    s.sp ∉ q h := by
  intro hmem
  obtain ⟨hfield, hstack⟩ := hp.above [] s.sp ds rfl
  cases h with
  | field x => cases hfield x hmem
  | stack p =>
    rcases hstack p hmem with rfl | hp
    · rw [hq.stack_off (by simp [hc.top.user hu])] at hmem
      cases hmem
    · cases hp

/-- A call adds the coroutine that it is given to a queue of the running coroutine. -/
theorem Placed.insert {s t : State F D} {ds : List Ptr} {q : Head → List Ptr} (hp : Placed s ds q)
    {h : Head} (ho : h = .stack s.sp ∨ h = .field s.sp) {c : Ptr} (hret : .ret c ∉ s.log)
    (hne : h = .field s.sp → c ≠ s.sp) {xs : List Ptr} (hxs : ∀ y ∈ xs, y = c ∨ y ∈ q h)
    (hsp : t.sp = s.sp) (hlog : ∀ c, .ret c ∈ t.log → .ret c ∈ s.log) :
    Placed t ds (Function.update q h xs) := by
  refine ⟨fun us d vs hus => ?_, fun k d hd hret' => ?_⟩
  · rw [hsp] at hus
    obtain ⟨hfield, hstack⟩ := hp.above us d vs hus
    have htop : d = s.sp ∨ s.sp ∈ us := by
      cases us with
      | nil => exact Or.inl (List.cons.inj hus).1.symm
      | cons u us => exact Or.inr (by simp [(List.cons.inj hus).1])
    refine ⟨fun x hx => ?_, fun p hx => ?_⟩
    · by_cases hne' : Head.field x = h
      · subst hne'
        obtain rfl : x = s.sp := by simpa using ho
        rw [Function.update_self] at hx
        rcases hxs d hx with rfl | hold
        · exact htop.resolve_left (hne rfl)
        · exact hfield s.sp hold
      · exact hfield x (by rwa [Function.update_of_ne hne'] at hx)
    · by_cases hne' : Head.stack p = h
      · subst hne'
        obtain rfl : p = s.sp := by simpa using ho
        exact htop.imp_left Eq.symm
      · exact hstack p (by rwa [Function.update_of_ne hne'] at hx)
  · by_cases hne' : k = h
    · subst hne'
      rw [Function.update_self] at hd
      rcases hxs d hd with rfl | hold
      · exact hret (hlog d hret')
      · exact hp.unreturned k d hold (hlog d hret')
    · exact hp.unreturned k d (by rwa [Function.update_of_ne hne'] at hd) (hlog d hret')

theorem Placed.afterWake {s : State F D} {ds : List Ptr} {q : Head → List Ptr}
    (hp : Placed s ds q) (hq : Queued s q) {act : ℕ} {coroutine x : Ptr} (m : Mem Ptr Head)
    (pt : JmpBuf) {e : Event F D} {xs : List Ptr} (hxs : q (.stack s.sp) = x :: xs)
    (he : ∀ c, e ≠ .ret c) :
    Placed (s.afterWake act coroutine x m pt e) (s.sp :: ds)
      (Function.update q (.stack s.sp) xs) := by
  have hsub : ∀ h, ∀ c ∈ Function.update q (.stack s.sp) xs h, c ∈ q h ∧ c ≠ x := by
    intro h c hc
    by_cases hne : h = .stack s.sp
    · subst hne
      rw [Function.update_self] at hc
      have hnd := hq.queues.nodup (.stack s.sp)
      rw [hxs] at hnd ⊢
      exact ⟨List.mem_cons_of_mem _ hc, fun h => (List.nodup_cons.1 hnd).1 (h ▸ hc)⟩
    · rw [Function.update_of_ne hne] at hc
      refine ⟨hc, ?_⟩
      rintro rfl
      exact hne (hq.queues.head_unique hc (by rw [hxs]; simp))
  refine ⟨fun us c vs hus => ?_, fun h c hc hret => ?_⟩
  · cases us with
    | nil =>
      obtain ⟨rfl, -⟩ : x = c ∧ _ := by simpa [State.afterWake] using hus
      exact ⟨fun y hy => absurd rfl (hsub _ _ hy).2, fun p hy => absurd rfl (hsub _ _ hy).2⟩
    | cons u us =>
      obtain ⟨-, hus'⟩ : x = u ∧ s.sp :: ds = us ++ c :: vs := by
        simpa [State.afterWake] using hus
      obtain ⟨hfield, hstack⟩ := hp.above us c vs hus'
      refine ⟨fun y hy => List.mem_cons_of_mem _ (hfield y (hsub _ _ hy).1), fun p hy => ?_⟩
      exact (hstack p (hsub _ _ hy).1).imp_right (List.mem_cons_of_mem _)
  · apply hp.unreturned h c (hsub h c hc).1
    simpa [State.afterWake, (he c).symm] using hret

theorem Placed.afterBack {s : State F D} {p : Ptr} {es : List Ptr} {q : Head → List Ptr}
    (hp : Placed s (p :: es) q) (hq : Queued s q) (hc : Chained s (p :: es))
    (hu : s.control = .user) (act : ℕ) (coroutine : Ptr) (m : Mem Ptr Head) (returned : Bool) :
    Placed (s.afterBack act coroutine p returned m) es
      (Function.update (Function.update q (.stack p) (q (.field s.sp) ++ q (.stack p)))
        (.field s.sp) []) := by
  have hsub : ∀ h, ∀ c ∈ Function.update (Function.update q (.stack p)
      (q (.field s.sp) ++ q (.stack p))) (.field s.sp) [] h,
      h ≠ .field s.sp ∧ (h = .stack p ∨ c ∈ q h) ∧ ∃ k, c ∈ q k := by
    intro h c hc
    by_cases hne : h = .field s.sp
    · subst hne
      simp at hc
    rw [Function.update_of_ne hne] at hc
    by_cases hne' : h = .stack p
    · subst hne'
      rw [Function.update_self] at hc
      exact ⟨hne, Or.inl rfl, (List.mem_append.1 hc).elim (fun h => ⟨_, h⟩) fun h => ⟨_, h⟩⟩
    · rw [Function.update_of_ne hne'] at hc
      exact ⟨hne, Or.inr hc, h, hc⟩
  refine ⟨fun us c vs hus => ?_, fun h c hmem hret => ?_⟩
  · have hus' : s.sp :: p :: es = (s.sp :: us) ++ c :: vs := congrArg (s.sp :: ·) hus
    obtain ⟨hfield, hstack⟩ := hp.above (s.sp :: us) c vs hus'
    refine ⟨fun x hx => ?_, fun r hr => ?_⟩
    · obtain ⟨hne, hold, -⟩ := hsub _ _ hx
      have hxs : x ≠ s.sp := by simpa using hne
      exact (List.mem_cons.1 (hfield x (hold.resolve_left (by simp)))).resolve_left hxs
    · obtain ⟨-, hold, -⟩ := hsub _ _ hr
      rcases hold with hrp | hold
      · obtain rfl : r = p := by simpa using hrp
        cases us with
        | nil => exact Or.inl (List.cons.inj hus).1
        | cons u us => exact Or.inr (by simp [show r = u from (List.cons.inj hus).1])
      · have hrs : r ≠ s.sp := by
          rintro rfl
          rw [hq.stack_off (by simp [hc.top.user hu])] at hold
          cases hold
        exact (hstack r hold).imp_right fun h => (List.mem_cons.1 h).resolve_left hrs
  · obtain ⟨-, -, k, hk⟩ := hsub h c hmem
    have hne : c ≠ s.sp := fun h => hp.sp_not_linked hq hc hu k (h ▸ hk)
    apply hp.unreturned k c hk
    cases returned <;> simpa [State.afterBack, hne] using hret

/-- **Every effect of a careful call keeps active coroutines in place.** -/
theorem Effect.placed {s t : State F D} {ds ds' : List Ptr} {a : Action F D}
    (he : Effect s ds a t ds') (hc : Chained s ds) (hok : Careful s a) {q : Head → List Ptr}
    (hq : Queued s q) (hp : Placed s ds q) : ∃ q', Queued t q' ∧ Placed t ds' q' := by
  cases he with
  | create cb userData hu =>
    refine ⟨q, hq.afterCreate hc cb userData, hp.above, fun h c hmem hret => ?_⟩
    exact hp.unreturned h c hmem (by simpa [State.afterCreate] using hret)
  | noMemory cb userData hu => exact ⟨q, hq, hp⟩
  | enter a c m hu ha hca hm =>
    have hcare : c ≠ dummy ∧ .ret c ∉ s.log ∧ ¬s.Linked c := by
      rcases ha with rfl | ⟨rfl, -⟩ <;> exact hok c rfl
    refine ⟨_, hq.afterEnter hc hu hca hcare.2.2 hm, ?_⟩
    exact hp.insert (Or.inl rfl) hcare.2.1 (by simp) (by simp) rfl (by simp [State.afterEnter])
  | defer act c coroutine p es m hu hds hsp hf hca hne hm =>
    obtain ⟨-, hret, hfresh⟩ := hok c rfl
    refine ⟨_, hq.afterDefer hc hsp act hca hfresh hm, ?_⟩
    refine hp.insert (Or.inr rfl) hret (fun _ => hne) (fun y hy => ?_) rfl
      (by simp [State.afterDefer])
    exact (List.mem_append.1 hy).elim Or.inr fun h => Or.inl (List.mem_singleton.1 h)
  | leave act coroutine callee hl hf hempty =>
    refine ⟨q, hq.afterLeave (hq.loop_empty hc hf hempty) act, hp.above, fun h c hmem hret => ?_⟩
    exact hp.unreturned h c hmem (by simpa [State.afterLeave] using hret)
  | wake act coroutine x callee m pt e hl hf hx hm h0 hxa hxc hret hpt =>
    have hxf : (s.frame x).isLoop = false ∧ ∀ c, e ≠ .ret c := by
      rcases hpt with ⟨hun, -, cb, userData, -, -, rfl⟩ | ⟨hsu, -, rfl⟩
      · simp [hun.frame]
      · simp [hsu.frame]
    obtain ⟨xs, hxs, hq'⟩ := hq.afterWake hc pt e hf hx hm hxc hxf.1
    exact ⟨_, hq', hp.afterWake hq m pt hxs hxf.2⟩
  | back act coroutine p es m₁ m₂ returned hu hds hsp hf hco hm₁ hm₂ =>
    subst hds
    exact ⟨_, hq.afterBack hc hu returned hf hm₁ hm₂,
      hp.afterBack hq hc hu act coroutine m₂ returned⟩

/-! ## Destroyed coroutines -/

/-- What has been destroyed as long as every coroutine that returns is its loop's argument. -/
structure Lived (s : State F D) : Prop where
  destroyed : ∀ c, c ∈ s.destroyed ↔ .ret c ∈ s.log
  handled : ∀ c, .ret c ∈ s.log ↔ ∃ act, .received act c Status.terminated.val ∈ s.log
  once : s.destroyed.Nodup

/-- Events that are not the end of a callback change nothing. -/
theorem Lived.quiet {s t : State F D} (hl : Lived s) (es : List (Event F D))
    (hlog : t.log = s.log ++ es) (hret : ∀ c, .ret c ∉ es)
    (hreceived : ∀ act c, .received act c Status.terminated.val ∉ es)
    (hdestroyed : t.destroyed = s.destroyed) : Lived t := by
  have hrets : ∀ c, .ret c ∈ t.log ↔ .ret c ∈ s.log := by
    intro c
    simp [hlog, hret c]
  refine ⟨?_, ?_, ?_⟩
  · intro c
    rw [hdestroyed, hrets c]
    exact hl.destroyed c
  · intro c
    rw [hrets c, hl.handled c]
    simp [hlog, hreceived]
  · rw [hdestroyed]
    exact hl.once

theorem Lived.afterYield {s : State F D} (hl : Lived s) (act : ℕ) (coroutine p : Ptr)
    (m : Mem Ptr Head) : Lived (s.afterBack act coroutine p false m) := by
  refine hl.quiet [.jump s.sp p .suspend (.exec p (s.execs p)),
    .received act s.sp Status.suspend.val] ?_ (by simp) ?_ ?_
  · simp [State.afterBack, backStatus]
  · simp [Status.val]
  · simp [State.afterBack, State.setCaller, State.setEnv]

/-- The coroutine that returns is the argument of the loop, which destroys it. -/
theorem Lived.afterRet {s : State F D} (hl : Lived s) (hnew : s.sp ∉ s.destroyed) (act : ℕ)
    (p : Ptr) (m : Mem Ptr Head) : Lived (s.afterBack act s.sp p true m) := by
  refine ⟨?_, ?_, ?_⟩
  · intro c
    simp [State.afterBack, hl.destroyed c]
  · intro c
    simp only [State.afterBack, if_true, List.mem_append, List.mem_cons, List.not_mem_nil,
      or_false, Event.ret.injEq, reduceCtorEq, hl.handled c, Event.received.injEq, false_or]
    constructor
    · rintro (⟨act', h⟩ | rfl)
      · exact ⟨act', Or.inl h⟩
      · exact ⟨act, Or.inr ⟨rfl, rfl, rfl⟩⟩
    · rintro ⟨act', h | ⟨-, rfl, -⟩⟩
      · exact Or.inl ⟨act', h⟩
      · exact Or.inr rfl
  · have hnodup : (s.destroyed ++ [s.sp]).Nodup := by
      rw [List.nodup_append]
      refine ⟨hl.once, by simp, ?_⟩
      intro c hc d hd heq
      obtain rfl := List.mem_singleton.1 hd
      exact hnew (heq ▸ hc)
    simpa [State.afterBack] using hnodup

/-- The destroyed coroutines of an effect; the argument of the loop, if a callback has returned. -/
theorem Effect.lived {s t : State F D} {ds ds' : List Ptr} {a : Action F D}
    (he : Effect s ds a t ds') (hc : Chained s ds) (hown : OwnReturn s a) (hl : Lived s) :
    Lived t := by
  cases he with
  | create cb userData hu =>
    exact hl.quiet [.create (s.created + 1) cb userData] rfl (by simp) (by simp) rfl
  | noMemory cb userData hu => exact hl.quiet [] (List.append_nil _).symm (by simp) (by simp) rfl
  | enter a c m => exact hl.quiet [.enter s.log.length s.sp c] rfl (by simp) (by simp) rfl
  | defer act c coroutine p es m =>
    exact hl.quiet [.process act s.log.length s.sp c] rfl (by simp) (by simp) rfl
  | leave act coroutine callee => exact hl.quiet [.leave act] rfl (by simp) (by simp) rfl
  | wake act coroutine x callee m pt e hl' hf hx hm h0 hxa hxc hret hpt =>
    refine hl.quiet [.resumed act x, .jump s.sp x .running pt, e] rfl ?_ ?_ ?_
    · rcases hpt with ⟨-, -, cb, userData, -, -, rfl⟩ | ⟨-, -, rfl⟩ <;> simp
    · rcases hpt with ⟨-, -, cb, userData, -, -, rfl⟩ | ⟨-, -, rfl⟩ <;> simp
    · simp [State.afterWake, State.setCaller, State.setEnv]
  | back act coroutine p es m₁ m₂ returned hu hds hsp hf hco hm₁ hm₂ =>
    subst hds
    cases returned with
    | false => exact hl.afterYield act coroutine p m₂
    | true =>
      have hcaller : s.caller s.sp = some p := hc.callers.1
      obtain rfl : coroutine = s.sp := by
        simpa [OwnReturn, hcaller, State.argument, hf] using hown
      exact hl.afterRet hc.alive_sp.2 act p m₂

theorem Lived.lifetime {s : State F D} {ds : List Ptr} {q : Head → List Ptr} (hl : Lived s)
    (hq : Queued s q) (hp : Placed s ds q) : Lifetime s where
  exact c := by rw [hl.destroyed, hl.handled, and_self]
  once := hl.once
  unfinished c hret hmem := hret ((hl.destroyed c).1 hmem)
  pending _ c hlink hmem := by
    obtain ⟨h, hc⟩ := (hq.linked_iff c).1 hlink
    exact hp.unreturned h c hc ((hl.destroyed c).1 hmem)

/-- A step that ends the run destroys nothing. -/
theorem Dead.lifetime {s t : State F D} {a : Action F D} (hd : Dead s a t) (hl : Lived s) :
    Lifetime t := by
  obtain ⟨es, hlog, hes⟩ := hd.log
  have hdes := hd.destroyed
  have hrec : ∀ c, (∃ act, .received act c Status.terminated.val ∈ t.log) ↔ .ret c ∈ s.log := by
    intro c
    rw [hl.handled, hlog]
    simp only [List.mem_append, hes, or_false]
  refine ⟨fun c => ?_, hdes ▸ hl.once, fun c hret hmem => ?_, fun hlive => ?_⟩
  · rw [hdes, hl.destroyed, hrec, hlog]
    simp +contextual
  · rw [hdes, hl.destroyed] at hmem
    exact hret (by rw [hlog]; exact List.mem_append_left _ hmem)
  · exact absurd hlive (not_or.2 hd.control)

theorem Lived.init : Lived (State.init : State F D) :=
  ⟨by simp [State.init], by simp [State.init], by simp [State.init]⟩

theorem Placed.init : Placed (State.init : State F D) [] fun _ => [] :=
  ⟨fun _ _ _ _ => by simp, by simp⟩

/-! ## Runs -/

/-- A callback that returns to a loop with another argument makes the loop destroy the wrong
coroutine. -/
theorem Lifetime.ownReturn {s t : State F D} {ds : List Ptr} {q : Head → List Ptr}
    (hl : Lifetime s) (hl' : Lifetime t) (hc : Chained s ds) (hh : Heads s ds) (hq : Queued s q)
    (ht : step s .ret = some t) : OwnReturn s .ret := by
  have hlive : s.control = .user ∧ s.sp ≠ dummy := by
    cases hcon : s.control <;> simp_all [step]
  have hdead : ∀ c, s.Linked c → s.Alive c := fun c hlink => by
    obtain ⟨h, hmem⟩ := (hq.linked_iff c).1 hlink
    exact ⟨hq.created h c hmem, hl.pending (Or.inl hlive.1) c hlink⟩
  rcases step_effect hc hh ht with ⟨ds', he⟩ | hd
  · generalize ha : (Action.ret : Action F D) = a at he
    cases he with
    | back act coroutine p es m₁ m₂ returned hu hds hsp hf hco hm₁ hm₂ =>
      subst hds
      cases returned with
      | false => cases ha
      | true =>
        have hcaller : s.caller s.sp = some p := hc.callers.1
        have hmem : s.sp ∈ s.destroyed ++ [coroutine] :=
          (hl'.exact s.sp).2 ⟨by simp [State.afterBack], act, by simp [State.afterBack, backStatus]⟩
        have hcoroutine : s.sp = coroutine := by
          rcases List.mem_append.1 hmem with h | h
          · exact absurd h hc.alive_sp.2
          · exact List.mem_singleton.1 h
        simp [OwnReturn, hcaller, State.argument, hf, ← hcoroutine]
    | enter _ _ _ _ h => subst ha; rcases h with h | ⟨h, -⟩ <;> cases h
    | _ => cases ha
  · -- nothing destroyed is linked, so that the run goes on
    rcases hd.why with
      ⟨-, ⟨-, h⟩ | ⟨-, h⟩ | ⟨-, h, -⟩⟩ | ⟨-, c, hdc, h | ⟨-, -, h⟩ | ⟨h, -⟩⟩ | ⟨h, -⟩
    · cases h
    · cases h
    · cases h
    · cases h
    · have hfield : s.HeadLive (.field s.sp) := ⟨Nat.pos_of_ne_zero hlive.2, hc.alive_sp.1⟩
      have hlast := (hq.queues.queue _ hfield).last
      rw [h] at hlast
      have hmem : c ∈ q (.field s.sp) := by
        by_contra hno
        exact tailCell_ne_next hno (Option.some.inj hlast).symm
      exact absurd (hdead c ((hq.linked_iff c).2 ⟨_, hmem⟩)) hdc
    · cases hlive.1.symm.trans h
    · cases h

/-- **The lifetime of coroutines.** In a run of a careful program, exactly the coroutines that have
returned to their loops are destroyed, in every state, if and only if each coroutine that returns
is the argument of the loop that runs it. -/
theorem lifetime_iff {as : List (Action F D)} {t : State F D}
    (hok : Obeys step Careful State.init as) (ht : run step State.init as = some t) :
    (∀ bs u, bs <+: as → run step State.init bs = some u → Lifetime u) ↔
      Obeys step OwnReturn State.init as := by
  constructor
  · intro hlife
    apply obeys_of_forall
    intro bs a cs s has hs
    subst has
    rw [run_append, hs] at ht
    simp only [Option.bind_some, run] at ht
    obtain ⟨u, hu, -⟩ := Option.bind_eq_some_iff.1 ht
    cases a with
    | ret =>
      have hfresh : Obeys step FreshHand State.init bs :=
        hok.of_append.mono fun _ _ h => Careful.fresh h
      have hlive : s.Live := by
        left
        cases hcon : s.control <;> simp [step, hcon] at hu ⊢
      obtain ⟨q, ds, hc, hh, hq⟩ := run_queued hfresh hs hlive
      have hrun : run step State.init (bs ++ [.ret]) = some u := run_concat.2 ⟨s, hs, hu⟩
      exact (hlife bs s (List.prefix_append _ _) hs).ownReturn
        (hlife _ u ⟨cs, by simp⟩ hrun) hc hh hq hu
    | _ => trivial
  · rintro hown bs u ⟨cs, rfl⟩ hu
    have h := run_effects (P := fun s ds => Lived s ∧ ∃ q, Queued s q ∧ Placed s ds q)
      ⟨Lived.init, _, Queued.init, Placed.init⟩ (by
        rintro s ds a t ds' hc - ⟨hl, q, hq, hp⟩ hok he
        exact ⟨he.lived hc hok.2 hl, he.placed hc hok.1 hq hp⟩)
      (hok.of_append.and hown.of_append) hu
    rcases h with ⟨ds, -, -, hl, q, hq, hp⟩ | ⟨s, ds, a, -, -, ⟨hl, -⟩, -, hd⟩
    · exact hl.lifetime hq hp
    · exact hd.lifetime hl

/-- A coroutine that is resumed directly, yields, is resumed again and returns. -/
theorem lifetime_iff_direct : ∃ t : State ℕ ℕ,
    run step State.init [.create 0 0 true, .resume 1, .tick, .yield, .tick, .resume 1, .tick,
      .ret, .tick] = some t ∧
    ∀ bs u, bs <+: [.create 0 0 true, .resume 1, .tick, .yield, .tick, .resume 1, .tick, .ret,
      .tick] → run step State.init bs = some u → Lifetime (u : State ℕ ℕ) := by
  have h : ∃ t : State ℕ ℕ,
      run step State.init [.create 0 0 true, .resume 1, .tick, .yield, .tick, .resume 1, .tick,
        .ret, .tick] = some t := ⟨_, rfl⟩
  obtain ⟨t, ht⟩ := h
  exact ⟨t, ht, (lifetime_iff (by decide) ht).2 (by decide)⟩

/-- Coroutine 1 defers 2 and yields; 2 returns to the loop that 1 was given to, and 1 is destroyed
while it is suspended. -/
theorem lifetime_fails :
    Obeys step Careful (State.init : State ℕ ℕ) [.create 0 0 true, .create 0 0 true, .resume 1,
      .tick, .process 2, .yield, .tick, .ret] ∧
    ∃ t : State ℕ ℕ, run step State.init [.create 0 0 true, .create 0 0 true, .resume 1, .tick,
      .process 2, .yield, .tick, .ret] = some t ∧ t.destroyed = [1] ∧ .ret 1 ∉ t.log ∧
      t.frame 1 = .yield ∧ .ret 2 ∈ t.log ∧ ¬Lifetime t := by
  refine ⟨by decide, _, rfl, rfl, by decide, rfl, by decide, fun hl => ?_⟩
  exact absurd (hl.unfinished 1 (by decide)) (by decide)

end XcpNgGeneric.Coroutine
