import XcpNgGeneric.Coroutine.Deferred

/-!
# What a call of `xcp_coroutine_resume` serves

The history of the calls: which of them are open (`Opened`), that the work list of a returned call
accepts all its events (`Accepted`), that tickets are never used twice (`Ticketed`), and which
coroutines a loop has run (`Ran`).

## Main results

* `deferrals_recorded`: the calls of `xcp_coroutine_process` that are deferred in a run are those
  that its log records, in order.
* `deferred_served`: in a run that hands over no linked coroutine, every call serves the coroutines
  deferred by its callees as a depth-first work list does, each of them once, and leaves no pending
  list behind.
-/

namespace XcpNgGeneric.Coroutine

open TailQueue Runs

variable {F D : Type}

/-! ## Calls that have returned -/

/-- A call that has not returned is on the chain. -/
def Opened (s : State F D) (ds : List Ptr) : Prop :=
  ∀ act p coroutine, .enter act p coroutine ∈ s.log → .leave act ∈ s.log ∨
    p ∈ s.sp :: ds ∧ ∃ callee, s.frame p = .resume act coroutine p callee

theorem Effect.opened {s t : State F D} {ds ds' : List Ptr} {a : Action F D}
    (he : Effect s ds a t ds') (hc : Chained s ds) (ho : Opened s ds) : Opened t ds' := by
  intro act p coroutine hent
  have hidle : s.control = .user → ∀ callee, s.frame p = .resume act coroutine p callee →
      p ≠ s.sp := by
    rintro hu callee hf rfl
    cases hf.symm.trans (hc.top.user hu)
  cases he with
  | create cb userData hu =>
    exact (ho act p coroutine (by simpa [State.afterCreate] using hent)).imp_left
      (by simp +contextual [State.afterCreate])
  | noMemory cb userData hu => exact ho act p coroutine hent
  | enter a c m hu =>
    simp only [State.afterEnter, List.mem_append, List.mem_singleton, Event.enter.injEq] at hent ⊢
    rcases hent with hent | ⟨rfl, rfl, rfl⟩
    · rcases ho act p coroutine hent with h | ⟨hp, callee, hf⟩
      · exact Or.inl (Or.inl h)
      · exact Or.inr ⟨hp, callee, by simpa [hidle hu callee hf] using hf⟩
    · exact Or.inr ⟨by simp, none, by simp⟩
  | defer act' c coroutine' q es m hu =>
    exact (ho act p coroutine (by simpa [State.afterDefer] using hent)).imp_left
      (by simp +contextual [State.afterDefer])
  | leave act' coroutine' callee' hl hf' =>
    simp only [State.afterLeave, List.mem_append, List.mem_singleton, reduceCtorEq, or_false,
      Event.leave.injEq] at hent ⊢
    rcases ho act p coroutine hent with h | ⟨hp, callee, hf⟩
    · exact Or.inl (Or.inl h)
    · by_cases hne : p = s.sp
      · subst hne
        obtain ⟨rfl, -⟩ : act = act' ∧ _ := by simpa using hf.symm.trans hf'
        exact Or.inl (Or.inr rfl)
      · exact Or.inr ⟨hp, callee, by simpa [hne] using hf⟩
  | wake act' coroutine' x callee' m pt e hl hf' hx hm h0 hxa hxc hret hpt =>
    have hent' : .enter act p coroutine ∈ s.log := by
      rcases hpt with ⟨-, -, cb, userData, -, -, rfl⟩ | ⟨-, -, rfl⟩ <;>
        simpa [State.afterWake] using hent
    rcases ho act p coroutine hent' with h | ⟨hp, callee, hf⟩
    · exact Or.inl (by simp [State.afterWake, h])
    · have hpx : p ≠ x := fun h => hxc (h ▸ hp)
      refine Or.inr ⟨List.mem_cons_of_mem _ hp, ?_⟩
      by_cases hne : p = s.sp
      · subst hne
        obtain ⟨rfl, rfl, -⟩ : act = act' ∧ coroutine = coroutine' ∧ _ := by
          simpa using hf.symm.trans hf'
        exact ⟨some x, by simp [State.afterWake, hpx]⟩
      · exact ⟨callee, by simpa [State.afterWake, hpx, hne] using hf⟩
  | back act' coroutine' r es m₁ m₂ returned hu hds =>
    subst hds
    have hent' : .enter act p coroutine ∈ s.log := by
      cases returned <;> simpa [State.afterBack] using hent
    rcases ho act p coroutine hent' with h | ⟨hp, callee, hf⟩
    · exact Or.inl (by simp [State.afterBack, h])
    · have hne := hidle hu callee hf
      exact Or.inr ⟨(List.mem_cons.1 hp).resolve_left hne, callee, by
        simpa [State.afterBack, hne] using hf⟩

/-- The events of a step belong to calls that have not returned. -/
theorem Effect.work_eq_nil {s t : State F D} {ds ds' : List Ptr} {a : Action F D}
    (he : Effect s ds a t ds') (hn : Numbered s) :
    ∃ es, t.log = s.log ++ es ∧ ∀ act, .leave act ∈ s.log → workOf act es = [] := by
  have hopen : ∀ {act act' : ℕ} {p coroutine self : Ptr} {callee : Option Ptr},
      s.frame p = .resume act coroutine self callee → .leave act' ∈ s.log → act ≠ act' := by
    rintro act act' p coroutine self callee hf hleave rfl
    exact (hn.frame _ _ _ _ _ hf).2 hleave
  cases he with
  | create cb userData hu => exact ⟨_, rfl, fun _ _ => rfl⟩
  | noMemory cb userData hu => exact ⟨[], (List.append_nil _).symm, fun _ _ => rfl⟩
  | enter a c m => exact ⟨_, rfl, fun _ _ => rfl⟩
  | defer act c coroutine p es m hu hds hsp hf =>
    exact ⟨_, rfl, fun act' h => by simp [workOf, Event.work, hopen hf h]⟩
  | leave act coroutine callee hl hf =>
    exact ⟨_, rfl, fun act' h => by simp [workOf, Event.work, hopen hf h]⟩
  | wake act coroutine x callee m pt e hl hf hx hm h0 hxa hxc hret hpt =>
    refine ⟨_, rfl, fun act' h => ?_⟩
    rcases hpt with ⟨-, -, cb, userData, -, -, rfl⟩ | ⟨-, -, rfl⟩ <;>
      simp [workOf, List.filterMap_cons, Event.work, hopen hf h]
  | back act coroutine p es m₁ m₂ returned hu hds hsp hf =>
    refine ⟨_, List.append_assoc _ _ _, fun act' h => ?_⟩
    cases returned <;> simp [workOf, List.filterMap_cons, Event.work, hopen hf h]

/-- The work list of a call that has returned accepts its events. -/
def Accepted (s : State F D) : Prop :=
  ∀ act p coroutine, .enter act p coroutine ∈ s.log → .leave act ∈ s.log →
    ∃ w, run WorkList.step (.start act coroutine) (workOf act s.log) = some w

theorem Numbered.enter_get {s : State F D} (hn : Numbered s) {act : ℕ} {p c : Ptr}
    (h : .enter act p c ∈ s.log) : s.log[act]? = some (Event.enter act p c) := by
  obtain ⟨i, hi, he⟩ := List.getElem_of_mem h
  have hget := List.getElem?_eq_some_iff.2 ⟨hi, he⟩
  obtain rfl := hn.enter i act p c hget
  exact hget

/-- A call that returns has left nothing in its work list. -/
theorem Working.accepts_leave {s : State F D} {ds : List Ptr} {q : Head → List Ptr}
    (hw : Working s ds q) (hq : Queued s q) (hc : Chained s ds) (hl : s.control = .loop) {act : ℕ}
    {coroutine : Ptr} {callee : Option Ptr}
    (hf : s.frame s.sp = .resume act coroutine s.sp callee)
    (hempty : s.mem.first (.stack s.sp) = none) :
    ∃ w, run WorkList.step (.start act coroutine) (workOf act (s.afterLeave act).log) = some w := by
  have hserved := hw.loop hl act coroutine s.sp callee hf
  rw [hq.loop_empty hc hf hempty] at hserved
  have hclosed : Served (s.afterLeave act).log act coroutine none [] [] := by
    apply hserved.next (e := .close) (by simp [workOf, Event.work])
    intro w hrun htodo hreq
    exact ⟨w, WorkList.step_close.2 ⟨hrun, List.map_eq_nil_iff.1 htodo, rfl⟩, hrun, htodo, hreq⟩
  obtain ⟨w, hw', -⟩ := hclosed
  exact ⟨w, hw'⟩

theorem Effect.accepted {s t : State F D} {ds ds' : List Ptr} {a : Action F D}
    (he : Effect s ds a t ds') (hn : Numbered s) {q : Head → List Ptr}
    (hw : Working s ds q) (hq : Queued s q) (hc : Chained s ds) (ha : Accepted s) :
    Accepted t := by
  intro act p coroutine hent hleave
  have hn' := he.numbered hn
  obtain ⟨es, hlog, hes⟩ := he.work_eq_nil hn
  by_cases hold : .leave act ∈ s.log
  · obtain ⟨p', c', hget⟩ := hn.event _ hold act rfl
    have hget' := getElem?_append_of_some hget es
    rw [← hlog, hn'.enter_get hent] at hget'
    obtain ⟨-, rfl, rfl⟩ : act = act ∧ p = p' ∧ coroutine = c' := by simpa using hget'
    obtain ⟨w, hw⟩ := ha act p coroutine (List.mem_of_getElem? hget) hold
    exact ⟨w, by rw [hlog, workOf_append, hes act hold, List.append_nil, hw]⟩
  · -- the step is the return of the call
    cases he with
    | leave act' coroutine' callee hl hf hempty =>
      obtain rfl : act' = act := by
        simpa [State.afterLeave, hold, eq_comm] using hleave
      have hcor : coroutine' = coroutine := by
        have h₁ := hn'.enter_get hent
        have h₂ := getElem?_append_of_some (hn.frame _ _ _ _ _ hf).1 [Event.leave act']
        have h₃ := h₁.symm.trans h₂
        simp only [Option.some.injEq, Event.enter.injEq] at h₃
        exact h₃.2.2.symm
      subst hcor
      exact hw.accepts_leave hq hc hl hf hempty
    | noMemory => exact absurd hleave hold
    | create => simp [State.afterCreate, hold] at hleave
    | enter => simp [State.afterEnter, hold] at hleave
    | defer => simp [State.afterDefer, hold] at hleave
    | wake act' coroutine' x callee m pt e hl hf hx hm h0 hxa hxc hret hpt =>
      rcases hpt with ⟨-, -, cb, userData, -, -, rfl⟩ | ⟨-, -, rfl⟩ <;>
        simp [State.afterWake, hold] at hleave
    | back act' coroutine' p' es' m₁ m₂ returned =>
      cases returned <;> simp [State.afterBack, hold] at hleave

/-! ## Tickets -/

/-- The tickets of deferred calls are places of the log. -/
def Ticketed (s : State F D) : Prop :=
  ∀ act, ((processed act s.log).map Prod.fst).Nodup ∧
    ∀ k ∈ (processed act s.log).map Prod.fst, act < k ∧ k < s.log.length

theorem Ticketed.append {s t : State F D} (ht : Ticketed s) {es : List (Event F D)}
    (hlog : t.log = s.log ++ es) (hes : ∀ act, processed act es = []) : Ticketed t := by
  intro act
  have hsame : processed act t.log = processed act s.log := by
    rw [hlog, processed, List.filterMap_append]
    exact (congrArg _ (hes act)).trans (List.append_nil _)
  rw [hsame]
  refine ⟨(ht act).1, fun k hk => ⟨((ht act).2 k hk).1, ?_⟩⟩
  rw [hlog, List.length_append]
  exact Nat.lt_of_lt_of_le ((ht act).2 k hk).2 (Nat.le_add_right _ _)

theorem processed_afterDefer (s : State F D) (act act' : ℕ) (c : Ptr) (m : Mem Ptr Head) :
    processed act' (s.afterDefer act c m).log = processed act' s.log ++
      if act = act' then [(s.log.length, c)] else [] := by
  simp only [State.afterDefer, processed, List.filterMap_append]
  by_cases h : act = act' <;> simp [h]

/-- A call that is deferred gets the next place of the log as its ticket. -/
theorem Ticketed.afterDefer {s : State F D} (ht : Ticketed s) {act : ℕ} (hlt : act < s.log.length)
    (c : Ptr) (m : Mem Ptr Head) : Ticketed (s.afterDefer act c m) := by
  intro act'
  obtain ⟨hnd, hlt'⟩ := ht act'
  rw [processed_afterDefer, List.map_append]
  by_cases h : act = act'
  · subst h
    simp only [if_true, List.map_singleton]
    refine ⟨List.nodup_append.2 ⟨hnd, by simp, ?_⟩, fun k hk => ?_⟩
    · intro k hk k' hk' heq
      obtain rfl := List.mem_singleton.1 hk'
      exact Nat.lt_irrefl _ (heq ▸ (hlt' k hk).2)
    · simp only [State.afterDefer, List.length_append, List.length_singleton]
      rcases List.mem_append.1 hk with hk | hk
      · have hplace := hlt' k hk
        omega
      · obtain rfl := List.mem_singleton.1 hk
        omega
  · simp only [h, if_false, List.map_nil, List.append_nil]
    refine ⟨hnd, fun k hk => ?_⟩
    have hplace := hlt' k hk
    simp only [State.afterDefer, List.length_append, List.length_singleton]
    omega

theorem Effect.ticketed {s t : State F D} {ds ds' : List Ptr} {a : Action F D}
    (he : Effect s ds a t ds') (hn : Numbered s) (ht : Ticketed s) : Ticketed t := by
  cases he with
  | create => exact ht.append rfl fun _ => rfl
  | noMemory => exact ht
  | enter => exact ht.append rfl fun _ => rfl
  | leave => exact ht.append rfl fun _ => rfl
  | wake act coroutine x callee m pt e hl hf hx hm h0 hxa hxc hret hpt =>
    apply ht.append rfl
    intro _
    rcases hpt with ⟨-, -, cb, userData, -, -, rfl⟩ | ⟨-, -, rfl⟩ <;> rfl
  | back act coroutine p es m₁ m₂ returned =>
    apply ht.append (List.append_assoc _ _ _)
    intro _
    cases returned <;> rfl
  | defer act c coroutine p es m hu hds hsp hf => exact ht.afterDefer (hn.frame_lt hf) c m

/-! ## The coroutines that a loop has run -/

/-- A loop runs created coroutines that are not active below it. -/
def Ran (s : State F D) (ds : List Ptr) : Prop :=
  ∀ us p es, s.sp :: ds = us ++ p :: es → ∀ act coroutine self callee,
    s.frame p = .resume act coroutine self callee → ∀ y, .resumed act y ∈ s.log →
      0 < y ∧ y ≤ s.created ∧ y ∉ p :: es

/-- A step that resumes nothing and keeps or ends the loops. -/
theorem Ran.quiet {s t : State F D} {ds : List Ptr} (hr : Ran s ds) {es : List (Event F D)}
    (hlog : t.log = s.log ++ es) (hes : ∀ act y, .resumed act y ∉ es) (hsp : t.sp = s.sp)
    (hcr : s.created ≤ t.created)
    (hframe : ∀ p act coroutine self callee, t.frame p = .resume act coroutine self callee →
      s.frame p = .resume act coroutine self callee ∨ ∀ y, .resumed act y ∉ s.log) : Ran t ds := by
  intro us p qs hus act coroutine self callee hf y hy
  rw [hlog] at hy
  have hy' := (List.mem_append.1 hy).resolve_right (hes act y)
  rw [hsp] at hus
  rcases hframe p act coroutine self callee hf with hf | hnone
  · obtain ⟨h0, hle, hmem⟩ := hr us p qs hus act coroutine self callee hf y hy'
    exact ⟨h0, Nat.le_trans hle hcr, hmem⟩
  · exact absurd hy' (hnone y)

theorem Ran.afterWake {s : State F D} {ds : List Ptr} (hr : Ran s ds) (hn : Numbered s) {act : ℕ}
    {coroutine x : Ptr} {callee : Option Ptr} (m : Mem Ptr Head) (pt : JmpBuf) {e : Event F D}
    (hf : s.frame s.sp = .resume act coroutine s.sp callee) (h0 : 0 < x) (hle : x ≤ s.created)
    (hxc : x ∉ s.sp :: ds) (he : ∀ act y, e ≠ .resumed act y) :
    Ran (s.afterWake act coroutine x m pt e) (s.sp :: ds) := by
  intro us p qs hus act' coroutine' self callee' hf' y hy
  have hlog : (act' = act ∧ y = x) ∨ .resumed act' y ∈ s.log := by
    simpa [State.afterWake, (he act' y).symm, or_comm] using hy
  obtain ⟨hpx, hframe⟩ := State.resume_afterWake hf'
  cases us with
  | nil =>
    obtain ⟨rfl, -⟩ : x = p ∧ _ := by simpa [State.afterWake] using hus
    exact absurd rfl hpx
  | cons u us =>
    obtain ⟨-, hus'⟩ : x = u ∧ s.sp :: ds = us ++ p :: qs := by
      simpa [State.afterWake] using hus
    rcases hframe with ⟨rfl, rfl, rfl, rfl, -⟩ | ⟨hne, hf₀⟩
    · rcases hlog with ⟨-, rfl⟩ | hold
      · refine ⟨h0, hle, fun h => hxc ?_⟩
        rw [hus']
        exact List.mem_append_right _ h
      · exact hr us s.sp qs hus' _ _ s.sp callee hf y hold
    · rcases hlog with ⟨rfl, -⟩ | hold
      · exact absurd (hn.stack_unique hf₀ hf) hne
      · exact hr us p qs hus' act' coroutine' self callee' hf₀ y hold

theorem Ran.afterBack {s : State F D} {p : Ptr} {es : List Ptr} (hr : Ran s (p :: es)) (act : ℕ)
    (coroutine : Ptr) (m : Mem Ptr Head) (returned : Bool) :
    Ran (s.afterBack act coroutine p returned m) es := by
  intro us r qs hus act' coroutine' self callee hf y hy
  have hus' : s.sp :: p :: es = (s.sp :: us) ++ r :: qs := congrArg (s.sp :: ·) hus
  have hy' : .resumed act' y ∈ s.log := by
    cases returned <;> simpa [State.afterBack] using hy
  exact hr (s.sp :: us) r qs hus' act' coroutine' self callee (State.resume_afterBack hf).2 y hy'

theorem Effect.ran {s t : State F D} {ds ds' : List Ptr} {a : Action F D}
    (he : Effect s ds a t ds') (hn : Numbered s) (hr : Ran s ds) : Ran t ds' := by
  cases he with
  | create cb userData hu =>
    exact hr.quiet rfl (by simp) rfl (Nat.le_succ _) fun _ _ _ _ _ h => Or.inl h
  | noMemory cb userData hu => exact hr
  | enter a c m hu =>
    refine hr.quiet rfl (by simp) rfl (Nat.le_refl _) fun p act coroutine self callee h => ?_
    rcases State.resume_afterEnter h with ⟨-, rfl, -⟩ | ⟨-, hf⟩
    · exact Or.inr fun y hy => Nat.lt_irrefl _ (hn.lt_length hy rfl)
    · exact Or.inl hf
  | defer act c coroutine p es m =>
    exact hr.quiet rfl (by simp) rfl (Nat.le_refl _) fun _ _ _ _ _ h => Or.inl h
  | leave act coroutine callee hl hf =>
    exact hr.quiet rfl (by simp) rfl (Nat.le_refl _) fun _ _ _ _ _ h =>
      Or.inl (State.resume_afterLeave h).2
  | wake act coroutine x callee m pt e hl hf hx hm h0 hxa hxc hret hpt =>
    apply hr.afterWake hn m pt hf h0 hxa.1 hxc
    rcases hpt with ⟨-, -, cb, userData, -, -, rfl⟩ | ⟨-, -, rfl⟩ <;> simp
  | back act coroutine p es m₁ m₂ returned hu hds =>
    subst hds
    exact hr.afterBack act coroutine m₂ returned

/-- When a call has just returned, its list and the queues of the coroutines it ran are empty. -/
def LeftEmpty (s : State F D) : Prop :=
  ∀ past act p coroutine, s.log = past ++ [.leave act] → .enter act p coroutine ∈ s.log →
    Queue s.mem (.stack p) [] ∧ ∀ x, .resumed act x ∈ s.log → Queue s.mem (.field x) []

theorem Effect.leftEmpty {s t : State F D} {ds ds' : List Ptr} {a : Action F D}
    (he : Effect s ds a t ds') (hh : Heads s ds) (hn : Numbered s) (hr : Ran s ds)
    (hl : LeftEmpty s) : LeftEmpty t := by
  intro past act p coroutine hlog hent
  cases he with
  | leave act' coroutine' callee hcon hf hempty =>
    obtain ⟨rfl, rfl⟩ : s.log = past ∧ act' = act := by
      simpa [State.afterLeave] using List.append_inj' hlog rfl
    have hent' : .enter act' p coroutine ∈ s.log := by simpa [State.afterLeave] using hent
    have hget := (hn.enter_get hent').symm.trans (hn.frame _ _ _ _ _ hf).1
    obtain ⟨rfl, rfl⟩ : p = s.sp ∧ coroutine = coroutine' := by simpa using hget
    refine ⟨(hh.loop hcon).queue_nil hempty, fun x hx => ?_⟩
    have hx' : .resumed act' x ∈ s.log := by simpa [State.afterLeave] using hx
    obtain ⟨h0, hle, hmem⟩ := hr [] s.sp ds rfl act' coroutine s.sp callee hf x hx'
    exact (hh.field x h0 hle).queue_nil (hh.empty x hmem)
  | noMemory => exact hl past act p coroutine hlog hent
  | create => simp [State.afterCreate] at hlog
  | enter => simp [State.afterEnter] at hlog
  | defer => simp [State.afterDefer] at hlog
  | wake act' coroutine' x callee m pt e hl hf hx hm h0 hxa hxc hret hpt =>
    rcases hpt with ⟨-, -, cb, userData, -, -, rfl⟩ | ⟨-, -, rfl⟩ <;>
      · have := congrArg List.getLast? hlog
        simp [State.afterWake] at this
  | back act' coroutine' r es m₁ m₂ returned =>
    cases returned <;>
      · have := congrArg List.getLast? hlog
        simp [State.afterBack] at this

/-! ## Deferred calls are recorded -/

/-- The deferred calls that a log records: who defers whom. -/
def deferrals (log : List (Event F D)) : List (Ptr × Ptr) :=
  log.filterMap fun
    | .process _ _ q c => some (q, c)
    | _ => none

/-- The deferred call that an action makes, if it is an `xcp_coroutine_process` in a coroutine. -/
def State.defers (s : State F D) : Action F D → List (Ptr × Ptr)
  | .process c => if s.sp = dummy then [] else [(s.sp, c)]
  | _ => []

/-- The deferred calls that the actions of a run make. -/
def State.deferredBy (s : State F D) : List (Action F D) → List (Ptr × Ptr)
  | [] => []
  | a :: as => s.defers a ++ ((step s a).map fun t => t.deferredBy as).getD []

theorem deferrals_append (log log' : List (Event F D)) :
    deferrals (log ++ log') = deferrals log ++ deferrals log' := List.filterMap_append

/-- A deferred call is recorded once, and nothing else is. -/
theorem Effect.deferrals {s t : State F D} {ds ds' : List Ptr} {a : Action F D}
    (he : Effect s ds a t ds') : deferrals t.log = deferrals s.log ++ s.defers a := by
  cases he with
  | create => exact deferrals_append _ _
  | noMemory => exact (List.append_nil _).symm
  | enter a c m hu ha =>
    have hdefers : s.defers a = [] := by
      rcases ha with rfl | ⟨rfl, hsp⟩
      · rfl
      · exact if_pos hsp
    rw [hdefers]
    exact deferrals_append _ _
  | defer act c coroutine p es m hu hds hsp =>
    rw [State.defers, if_neg hsp]
    exact deferrals_append _ _
  | leave => exact deferrals_append _ _
  | wake act coroutine x callee m pt e hl hf hx hm h0 hxa hxc hret hpt =>
    rcases hpt with ⟨-, -, cb, userData, -, -, rfl⟩ | ⟨-, -, rfl⟩ <;> exact deferrals_append _ _
  | back act coroutine p es m₁ m₂ returned =>
    cases returned <;> simp [State.afterBack, Coroutine.deferrals, State.defers]

theorem run_deferrals {s t : State F D} {ds : List Ptr} (hc : Chained s ds) (hh : Heads s ds)
    {as : List (Action F D)} (ht : run step s as = some t) (hlive : t.Live) :
    deferrals t.log = deferrals s.log ++ s.deferredBy as := by
  induction as generalizing s ds with
  | nil =>
    obtain rfl := Option.some.inj ht
    exact (List.append_nil _).symm
  | cons a as ih =>
    rw [run, Option.bind_eq_some_iff] at ht
    obtain ⟨u, hu, ht⟩ := ht
    rcases step_effect hc hh hu with ⟨ds', he⟩ | hdead
    · rw [ih (he.chained hc hh) (he.heads hc hh) ht, he.deferrals, State.deferredBy, hu,
        List.append_assoc]
      rfl
    · -- the run has ended with this step
      cases as with
      | nil =>
        obtain rfl := Option.some.inj ht
        exact absurd hlive (not_or.2 hdead.control)
      | cons b as =>
        rw [run, step_none hdead.control] at ht
        cases ht

/-- **Every deferred call is recorded.** The log of a run names the calls of `xcp_coroutine_process`
made inside coroutines, each once and in order, and no others. -/
theorem deferrals_recorded {as : List (Action F D)} {s : State F D}
    (hs : run step State.init as = some s) (hlive : s.Live) :
    deferrals s.log = State.init.deferredBy as :=
  run_deferrals Chained.init Heads.init hs hlive

/-! ## Runs -/

/-- The history of the calls. -/
structure History (s : State F D) (ds : List Ptr) : Prop where
  numbered : Numbered s
  opened : Opened s ds
  accepted : Accepted s
  ticketed : Ticketed s
  ran : Ran s ds
  leftEmpty : LeftEmpty s
  working : ∃ q, Queued s q ∧ Working s ds q

theorem Effect.history {s t : State F D} {ds ds' : List Ptr} {a : Action F D}
    (he : Effect s ds a t ds') (hc : Chained s ds) (hh : Heads s ds) (hok : FreshHand s a)
    (h : History s ds) : History t ds' := by
  obtain ⟨hn, ho, ha, ht, hr, hl, q, hq, hw⟩ := h
  exact ⟨he.numbered hn, he.opened hc ho, he.accepted hn hw hq hc ha, he.ticketed hn ht,
    he.ran hn hr, he.leftEmpty hh hn hr hl, he.working hc hh hn hok hq hw⟩

theorem History.init : History (State.init : State F D) [] where
  numbered := Numbered.init
  opened := by simp [Opened, State.init]
  accepted := by simp [Accepted, State.init]
  ticketed := by simp [Ticketed, State.init, processed]
  ran := by simp [Ran, State.init]
  leftEmpty := by simp [LeftEmpty, State.init]
  working := ⟨_, Queued.init, fun _ h => (by cases h), fun h => by cases h⟩

/-- The lists of the open call `act` for `coroutine`, made on the stack `p`, are those in memory:
its own is the local `pendings`, the requests of the callee are in the field `pendings`. -/
def Represents (s : State F D) (act : ℕ) (p coroutine : Ptr) (w : WorkList.Work ℕ Ptr) : Prop :=
  ∃ callee, s.frame p = .resume act coroutine p callee ∧
    Queue s.mem (.stack p) (w.todo.map Prod.snd) ∧
    ∀ x, w.running = some x → callee = some x ∧
      Queue s.mem (.field x) (w.requests.map Prod.snd)

/-- What the call `act` for `coroutine`, made on the stack `p`, has done: its events are the run of
a depth-first work list that has reached `w`. -/
structure Serves (s : State F D) (act : ℕ) (p coroutine : Ptr) (w : WorkList.Work ℕ Ptr) :
    Prop where
  accepts : run WorkList.step (.start act coroutine) (workOf act s.log) = some w
  /-- The requests done are those of the coroutines resumed, in order. -/
  order : w.done.map Prod.snd = resumptions act s.log
  tickets : (((act, coroutine) :: processed act s.log).map Prod.fst).Nodup
  once : (w.done.map Prod.fst).Nodup
  requested : ∀ r ∈ w.done, r ∈ (act, coroutine) :: processed act s.log
  all : .leave act ∈ s.log → w.done.Perm ((act, coroutine) :: processed act s.log)
  lists : .leave act ∉ s.log → Represents s act p coroutine w
  left : ∀ past, s.log = past ++ [.leave act] → Queue s.mem (.stack p) [] ∧
    ∀ x, .resumed act x ∈ s.log → Queue s.mem (.field x) []

/-- An open call has its work list in memory. -/
theorem History.open_call {s : State F D} {ds : List Ptr} (h : History s ds) (hc : Chained s ds)
    (hlive : s.Live) {act : ℕ} {p coroutine : Ptr} (hent : .enter act p coroutine ∈ s.log)
    (hleave : .leave act ∉ s.log) :
    ∃ w, run WorkList.step (.start act coroutine) (workOf act s.log) = some w ∧
      Represents s act p coroutine w := by
  obtain ⟨q, hq, hw⟩ := h.working
  obtain ⟨hp, callee, hf⟩ := (h.opened act p coroutine hent).resolve_left hleave
  have hstack : Queue s.mem (.stack p) (q (.stack p)) :=
    hq.queues.queue _ ⟨(hc.alive p hp).1, by simp [hf]⟩
  rcases List.mem_cons.1 hp with rfl | hp
  · -- the loop is running
    have hl : s.control = .loop := by
      apply hlive.resolve_left
      intro hu
      cases hf.symm.trans (hc.top.user hu)
    obtain ⟨w, hrun, hnone, htodo, -⟩ := hw.loop hl act coroutine s.sp callee hf
    refine ⟨w, hrun, callee, hf, by rwa [htodo], fun x hx => ?_⟩
    cases hnone.symm.trans hx
  · -- it waits for a callee
    obtain ⟨y, es, hwait⟩ := hc.waiting.of_mem hp
    obtain ⟨act', coroutine', hf', -⟩ := hwait.frame
    have hcallee : callee = some y := by
      have heq := hf.symm.trans hf'
      simp only [Frame.resume.injEq] at heq
      exact heq.2.2.2
    subst hcallee
    obtain ⟨w, hrun, hsome, htodo, hreq⟩ := hw.waiting p hp act coroutine p y hf
    refine ⟨w, hrun, some y, hf, by rwa [htodo], fun x hx => ⟨hsome.symm.trans hx, ?_⟩⟩
    obtain rfl : y = x := Option.some.inj (hsome.symm.trans hx)
    have hy := (hc.caller_of_frame hp hf)
    have hne : y ≠ dummy := by
      rintro rfl
      cases hc.callers.dummy_mem.2.symm.trans hy.1
    rw [hreq]
    exact hq.queues.queue _ (show s.HeadLive (.field y) from
      ⟨Nat.pos_of_ne_zero hne, (hc.alive y hy.2).1⟩)

/-- **Deferred coroutines are neither lost, duplicated nor reordered.** In a run that hands over no
linked coroutine, every call of `xcp_coroutine_resume` serves its argument and the coroutines
deferred by its callees as a depth-first work list, each request once, and when it returns its
list and those of the coroutines it ran are empty. -/
theorem deferred_served {as : List (Action F D)} {s : State F D}
    (hok : Obeys step FreshHand State.init as) (hs : run step State.init as = some s)
    (hlive : s.Live) {act : ℕ} {p coroutine : Ptr} (hent : .enter act p coroutine ∈ s.log) :
    ∃ w, Serves s act p coroutine w := by
  obtain ⟨ds, hc, hh, h⟩ := run_holds (P := History) History.init
    (fun s ds a t ds' hc hh h hok he => he.history hc hh hok h) hok hs hlive
  have hw : ∃ w, run WorkList.step (.start act coroutine) (workOf act s.log) = some w ∧
      (.leave act ∉ s.log → Represents s act p coroutine w) := by
    by_cases hleave : .leave act ∈ s.log
    · obtain ⟨w, hw⟩ := h.accepted act p coroutine hent hleave
      exact ⟨w, hw, fun hn => absurd hleave hn⟩
    · obtain ⟨w, hw, hr⟩ := h.open_call hc hlive hent hleave
      exact ⟨w, hw, fun _ => hr⟩
  obtain ⟨w, hrun, hrep⟩ := hw
  obtain ⟨hnd, hlt⟩ := h.ticketed act
  have htickets : (((act, coroutine) :: processed act s.log).map Prod.fst).Nodup := by
    rw [List.map_cons]
    exact List.nodup_cons.2 ⟨fun hmem => Nat.lt_irrefl _ (hlt act hmem).1, hnd⟩
  have hmatch := WorkList.run_matched hrun (by rwa [deferred_workOf])
  rw [deferred_workOf, taken_workOf] at hmatch
  obtain ⟨horder, honce, hreq, hall⟩ := hmatch
  exact ⟨w, hrun, horder, htickets, honce, hreq, fun hleave => hall (close_mem_workOf hleave), hrep,
    fun past hlog => h.leftEmpty past act p coroutine hlog hent⟩

/-- Two coroutines deferred by a callee of the loop, one of which defers a third. -/
theorem deferred_served_nested : ∃ s : State ℕ ℕ,
    run step State.init [.create 0 0 true, .create 0 0 true, .create 0 0 true, .create 0 0 true,
      .resume 1, .tick, .process 2, .process 3, .yield, .tick, .process 4, .yield, .tick] =
        some s ∧ resumptions 4 s.log = [1, 2, 4] ∧ ∃ w, Serves s 4 dummy 1 w := by
  have h : ∃ s : State ℕ ℕ,
      run step State.init [.create 0 0 true, .create 0 0 true, .create 0 0 true, .create 0 0 true,
        .resume 1, .tick, .process 2, .process 3, .yield, .tick, .process 4, .yield, .tick] =
          some s ∧ s.control = .user ∧ .enter 4 dummy 1 ∈ s.log ∧ resumptions 4 s.log = [1, 2, 4] :=
    ⟨_, rfl, rfl, by decide, by decide⟩
  obtain ⟨s, hs, hu, hent, hres⟩ := h
  exact ⟨s, hs, hres, deferred_served (by decide) hs (Or.inl hu) hent⟩

end XcpNgGeneric.Coroutine
