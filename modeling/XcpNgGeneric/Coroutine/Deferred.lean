import XcpNgGeneric.Coroutine.Activations
import XcpNgGeneric.Coroutine.Pendings
import XcpNgGeneric.Foundations.WorkList

/-!
# Every loop is a depth-first work list

The events of one call of `xcp_coroutine_resume` are a run of the work list of
`Foundations/WorkList.lean`: a deferred `xcp_coroutine_process` asks for a task, the loop takes the
first one off its list, and the callee that gives control back puts its requests in front. The
lists are those in memory (`Working`).

## Main results

* `Effect.working`: every effect of an obedient call is a step of the work lists of the calls.
-/

namespace XcpNgGeneric.Coroutine

open TailQueue Runs

variable {F D : Type}

/-! ## The events of one call -/

/-- What an event is to the work list of the activation `act`. -/
def Event.work (act : ℕ) : Event F D → Option (WorkList.Event ℕ Ptr)
  | .process a k q c => if a = act then some (.defer q k c) else none
  | .resumed a c => if a = act then some (.take c) else none
  | .received a c _ => if a = act then some (.back c) else none
  | .leave a => if a = act then some .close else none
  | _ => none

/-- The run of the work list of `act`. -/
def workOf (act : ℕ) (log : List (Event F D)) : List (WorkList.Event ℕ Ptr) :=
  log.filterMap (Event.work act)

/-- The calls of `xcp_coroutine_process` that were deferred to `act`, with their tickets. -/
def processed (act : ℕ) (log : List (Event F D)) : List (ℕ × Ptr) :=
  log.filterMap fun
    | .process a k _ c => if a = act then some (k, c) else none
    | _ => none

/-- The coroutines that the loop of `act` has resumed, in order. -/
def resumptions (act : ℕ) (log : List (Event F D)) : List Ptr :=
  log.filterMap fun
    | .resumed a c => if a = act then some c else none
    | _ => none

theorem workOf_append (act : ℕ) (log log' : List (Event F D)) :
    workOf act (log ++ log') = workOf act log ++ workOf act log' := List.filterMap_append

theorem deferred_workOf (act : ℕ) (log : List (Event F D)) :
    WorkList.deferred (workOf act log) = processed act log := by
  unfold WorkList.deferred workOf processed
  rw [List.filterMap_filterMap]
  apply List.filterMap_congr
  intro e _
  cases e with
  | process a k q c => by_cases h : a = act <;> simp [Event.work, h]
  | resumed a c => by_cases h : a = act <;> simp [Event.work, h]
  | received a c v => by_cases h : a = act <;> simp [Event.work, h]
  | leave a => by_cases h : a = act <;> simp [Event.work, h]
  | _ => rfl

theorem taken_workOf (act : ℕ) (log : List (Event F D)) :
    WorkList.taken (workOf act log) = resumptions act log := by
  unfold WorkList.taken workOf resumptions
  rw [List.filterMap_filterMap]
  apply List.filterMap_congr
  intro e _
  cases e with
  | process a k q c => by_cases h : a = act <;> simp [Event.work, h]
  | resumed a c => by_cases h : a = act <;> simp [Event.work, h]
  | received a c v => by_cases h : a = act <;> simp [Event.work, h]
  | leave a => by_cases h : a = act <;> simp [Event.work, h]
  | _ => rfl

theorem Event.work_eq_none {e : Event F D} {act : ℕ} (h : e.act? ≠ some act) :
    e.work act = none := by
  cases e <;> simp_all [Event.work, Event.act?]

theorem close_mem_workOf {act : ℕ} {log : List (Event F D)} (h : .leave act ∈ log) :
    .close ∈ workOf act log :=
  List.mem_filterMap.2 ⟨.leave act, h, by simp [Event.work]⟩

/-! ## Work lists in memory -/

/-- The work list of `act`, started with `coroutine`, is running `running`, whose requests are
`requests`, and has `todo` left. -/
def Served (log : List (Event F D)) (act : ℕ) (coroutine : Ptr) (running : Option Ptr)
    (todo requests : List Ptr) : Prop :=
  ∃ w, run WorkList.step (.start act coroutine) (workOf act log) = some w ∧ w.running = running ∧
    w.todo.map Prod.snd = todo ∧ w.requests.map Prod.snd = requests

/-- Events of other calls. -/
theorem Served.append {log : List (Event F D)} {act : ℕ} {coroutine : Ptr} {running : Option Ptr}
    {todo requests : List Ptr} (h : Served log act coroutine running todo requests)
    {es : List (Event F D)} (hes : workOf act es = []) :
    Served (log ++ es) act coroutine running todo requests := by
  unfold Served
  rw [workOf_append, hes, List.append_nil]
  exact h

/-- An event of the call. -/
theorem Served.next {log : List (Event F D)} {act : ℕ} {coroutine : Ptr}
    {running running' : Option Ptr} {todo todo' requests requests' : List Ptr}
    (h : Served log act coroutine running todo requests) {es : List (Event F D)}
    {e : WorkList.Event ℕ Ptr} (hes : workOf act es = [e])
    (hstep : ∀ w : WorkList.Work ℕ Ptr, w.running = running → w.todo.map Prod.snd = todo →
      w.requests.map Prod.snd = requests → ∃ w', WorkList.step w e = some w' ∧
        w'.running = running' ∧ w'.todo.map Prod.snd = todo' ∧
        w'.requests.map Prod.snd = requests') :
    Served (log ++ es) act coroutine running' todo' requests' := by
  obtain ⟨w, hw, hrun, htodo, hreq⟩ := h
  obtain ⟨w', hw', h'⟩ := hstep w hrun htodo hreq
  refine ⟨w', ?_, h'⟩
  rw [workOf_append, hes]
  exact run_concat.2 ⟨w, hw, hw'⟩

/-- The pending lists in memory are the work lists of the calls. -/
structure Working (s : State F D) (ds : List Ptr) (q : Head → List Ptr) : Prop where
  waiting : ∀ p ∈ ds, ∀ act coroutine self x, s.frame p = .resume act coroutine self (some x) →
    Served s.log act coroutine (some x) (q (.stack p)) (q (.field x))
  loop : s.control = .loop → ∀ act coroutine self callee,
    s.frame s.sp = .resume act coroutine self callee →
    Served s.log act coroutine none (q (.stack s.sp)) []

/-! ## Waiting coroutines -/

theorem CallerChain.at_split {f : Ptr → Option Ptr} {us : List Ptr} {x y p : Ptr}
    {ds es : List Ptr} (h : CallerChain f x ds) (he : x :: ds = us ++ y :: p :: es) :
    f y = some p := by
  induction us generalizing x ds with
  | nil =>
    obtain ⟨rfl, rfl⟩ : x = y ∧ ds = p :: es := by simpa using he
    exact h.1
  | cons u us ih =>
    obtain ⟨-, he⟩ : x = u ∧ ds = us ++ y :: p :: es := by simpa using he
    cases ds with
    | nil => simp at he
    | cons d ds => exact ih h.2 he

/-- A waiting coroutine is the caller of the one it waits for. -/
theorem Chained.caller_of_frame {s : State F D} {ds : List Ptr} (hc : Chained s ds) {p : Ptr}
    (hp : p ∈ ds) {act : ℕ} {coroutine self x : Ptr}
    (hf : s.frame p = .resume act coroutine self (some x)) :
    s.caller x = some p ∧ x ∈ s.sp :: ds := by
  obtain ⟨as, es, rfl⟩ := List.append_of_mem hp
  obtain ⟨us, y, hus⟩ : ∃ us y, s.sp :: as = us ++ [y] := by
    rcases List.eq_nil_or_concat (s.sp :: as) with h | ⟨us, y, h⟩
    · cases h
    · exact ⟨us, y, by rw [h, List.concat_eq_append]⟩
  have he : s.sp :: (as ++ p :: es) = us ++ y :: p :: es := by
    rw [← List.cons_append, hus, List.append_assoc]
    rfl
  obtain ⟨act', coroutine', hf', -⟩ := (hc.waiting.at_split he).frame
  obtain rfl : x = y := by
    have := hf.symm.trans hf'
    simp only [Frame.resume.injEq, Option.some.injEq] at this
    exact this.2.2.2
  exact ⟨hc.callers.at_split he, by rw [he]; simp⟩

/-! ## The effects -/

/-- A step that stays on its stack and leaves the waiting loops alone. -/
theorem Working.quiet {s t : State F D} {ds : List Ptr} {q q' : Head → List Ptr}
    (hw : Working s ds q) (hc : Chained s ds) (es : List (Event F D)) (hlog : t.log = s.log ++ es)
    (hframe : ∀ p ∈ ds, t.frame p = s.frame p)
    (hes : ∀ p ∈ ds, ∀ act coroutine self callee,
      s.frame p = .resume act coroutine self callee → workOf act es = [])
    (hq : ∀ p ∈ ds, q' (.stack p) = q (.stack p))
    (hq' : ∀ x ∈ s.sp :: ds, q' (.field x) = q (.field x))
    (hloop : t.control = .loop → ∀ act coroutine self callee,
      t.frame t.sp = .resume act coroutine self callee →
      Served t.log act coroutine none (q' (.stack t.sp)) []) : Working t ds q' := by
  refine ⟨fun p hp act coroutine self x hf => ?_, hloop⟩
  rw [hframe p hp] at hf
  rw [hlog, hq p hp, hq' x (hc.caller_of_frame hp hf).2]
  exact (hw.waiting p hp act coroutine self x hf).append (hes p hp act coroutine self (some x) hf)

theorem Working.afterEnter {s : State F D} {ds : List Ptr} {q : Head → List Ptr}
    (hw : Working s ds q) (hc : Chained s ds) (hn : Numbered s) (c : Ptr) (m : Mem Ptr Head) :
    Working (s.afterEnter c m) ds (Function.update q (.stack s.sp) [c]) := by
  have hold : workOf s.log.length s.log = [] := by
    refine List.filterMap_eq_nil_iff.2 fun e he => Event.work_eq_none fun ha => ?_
    exact Nat.lt_irrefl _ (hn.lt_length he ha)
  refine hw.quiet hc [.enter s.log.length s.sp c] rfl (fun p hp => ?_) ?_ (fun p hp => ?_)
    (fun x _ => ?_) ?_
  · simp [State.afterEnter, hc.ne_sp hp]
  · exact fun _ _ _ _ _ _ _ => rfl
  · rw [Function.update_of_ne (by simpa using hc.ne_sp hp)]
  · rw [Function.update_of_ne (by simp)]
  · intro _ act coroutine self callee hf
    obtain ⟨rfl, rfl, -⟩ : s.log.length = act ∧ c = coroutine ∧ _ := by
      simpa [State.afterEnter] using hf
    refine ⟨.start s.log.length c, ?_, rfl, ?_, rfl⟩
    · simp only [State.afterEnter]
      rw [workOf_append, hold]
      rfl
    · simp [State.afterEnter, WorkList.Work.start]

theorem Working.afterDefer {s : State F D} {p : Ptr} {es : List Ptr} {q : Head → List Ptr}
    (hw : Working s (p :: es) q) (hc : Chained s (p :: es)) (hn : Numbered s)
    (hu : s.control = .user) {act : ℕ} {coroutine : Ptr}
    (hf : s.frame p = .resume act coroutine p (some s.sp)) (c : Ptr) (m : Mem Ptr Head) :
    Working (s.afterDefer act c m) (p :: es)
      (Function.update q (.field s.sp) (q (.field s.sp) ++ [c])) := by
  refine ⟨fun r hr act' coroutine' self x hf' => ?_, fun h => by cases hu.symm.trans h⟩
  have hstack : Function.update q (.field s.sp) (q (.field s.sp) ++ [c]) (.stack r) =
      q (.stack r) := Function.update_of_ne (by simp) _ _
  have hold := hw.waiting r hr act' coroutine' self x hf'
  rw [hstack]
  by_cases hne : r = p
  · subst hne
    obtain ⟨rfl, rfl, -, rfl⟩ : act = act' ∧ coroutine = coroutine' ∧ r = self ∧ s.sp = x := by
      simpa using hf.symm.trans hf'
    rw [Function.update_self]
    apply hold.next (e := .defer s.sp s.log.length c) (by simp [workOf, Event.work])
    intro w hrun htodo hreq
    exact ⟨_, WorkList.step_defer.2 ⟨hrun, rfl⟩, hrun, htodo, by simp [hreq]⟩
  · have hx : x ≠ s.sp := by
      rintro rfl
      have h₁ := (hc.caller_of_frame hr hf').1
      have h₂ := (hc.caller_of_frame (by simp) hf).1
      exact hne (Option.some.inj (h₁.symm.trans h₂))
    have hact : act ≠ act' := by
      rintro rfl
      exact hne (hn.stack_unique hf' hf)
    rw [Function.update_of_ne (by simpa using hx)]
    exact hold.append (by simp [workOf, Event.work, hact])

theorem Working.afterLeave {s : State F D} {ds : List Ptr} {q : Head → List Ptr}
    (hw : Working s ds q) (hc : Chained s ds) (hn : Numbered s) {act : ℕ} {coroutine : Ptr}
    {callee : Option Ptr} (hf : s.frame s.sp = .resume act coroutine s.sp callee) :
    Working (s.afterLeave act) ds q := by
  refine hw.quiet hc [.leave act] rfl (fun p hp => ?_) ?_ (fun _ _ => rfl)
    (fun _ _ => rfl) (fun h => by cases h)
  · simp [State.afterLeave, hc.ne_sp hp]
  · intro p hp act' coroutine' self callee' hf'
    have hact : act ≠ act' := by
      rintro rfl
      exact hc.ne_sp hp (hn.stack_unique hf' hf)
    simp [workOf, Event.work, hact]

theorem Working.afterWake {s : State F D} {ds : List Ptr} {q : Head → List Ptr}
    (hw : Working s ds q) (hn : Numbered s) (hl : s.control = .loop) {act : ℕ}
    {coroutine x : Ptr} {callee : Option Ptr} (m : Mem Ptr Head) (pt : JmpBuf)
    {e : Event F D} (hf : s.frame s.sp = .resume act coroutine s.sp callee)
    (hxc : x ∉ s.sp :: ds) {xs : List Ptr} (hxs : q (.stack s.sp) = x :: xs)
    (hqx : q (.field x) = [])
    (he : (∃ cb arg, e = .start x cb arg) ∨ ∃ val, e = .woken x val) :
    Working (s.afterWake act coroutine x m pt e) (s.sp :: ds)
      (Function.update q (.stack s.sp) xs) := by
  refine ⟨fun p hp act' coroutine' self y hf' => ?_, fun h => by cases h⟩
  have hpx : p ≠ x := fun h => hxc (h ▸ hp)
  have hes : ∀ a, workOf a [.resumed act x, .jump s.sp x .running pt, e] =
      if act = a then [.take x] else [] := by
    intro a
    rcases he with ⟨cb, arg, rfl⟩ | ⟨val, rfl⟩ <;> by_cases ha : act = a <;>
      simp [workOf, List.filterMap_cons, Event.work, ha]
  rw [Function.update_of_ne (show Head.field y ≠ .stack s.sp by simp)]
  rcases (State.resume_afterWake hf').2 with ⟨rfl, rfl, rfl, -, hy⟩ | ⟨hne, hf₀⟩
  · obtain rfl := Option.some.inj hy
    have hold := hw.loop hl act' coroutine' s.sp callee hf
    rw [Function.update_self, hqx]
    rw [hxs] at hold
    apply hold.next (e := .take y) ((hes act').trans (if_pos rfl))
    intro w hrun htodo hreq
    obtain ⟨⟨k, z⟩, todo, htodo', hz, hmap⟩ := List.map_eq_cons_iff.1 htodo
    obtain rfl : z = y := hz
    exact ⟨_, WorkList.step_take.2 ⟨hrun, k, todo, htodo', rfl⟩, rfl, hmap, hreq⟩
  · have hp' : p ∈ ds := (List.mem_cons.1 hp).resolve_left hne
    have hact : act ≠ act' := by
      rintro rfl
      exact hne (hn.stack_unique hf₀ hf)
    rw [Function.update_of_ne (by simpa using hne)]
    exact (hw.waiting p hp' act' coroutine' self y hf₀).append ((hes act').trans (if_neg hact))

theorem Working.afterBack {s : State F D} {p : Ptr} {es : List Ptr} {q : Head → List Ptr}
    (hw : Working s (p :: es) q) (hc : Chained s (p :: es)) (hn : Numbered s) {act : ℕ}
    {coroutine : Ptr} (m : Mem Ptr Head) (returned : Bool)
    (hf : s.frame p = .resume act coroutine p (some s.sp)) :
    Working (s.afterBack act coroutine p returned m) es
      (Function.update (Function.update q (.stack p) (q (.field s.sp) ++ q (.stack p)))
        (.field s.sp) []) := by
  have hps : p ≠ s.sp := hc.ne_sp (by simp)
  have hlog : (s.afterBack act coroutine p returned m).log = s.log ++
      ((if returned then [Event.ret s.sp] else []) ++
        [.jump s.sp p (backStatus returned) (.exec p (s.execs p)),
          .received act s.sp (backStatus returned).val]) := by
    simp [State.afterBack]
  refine ⟨fun r hr act' coroutine' self x hf' => ?_, fun _ act' coroutine' self callee hf' => ?_⟩
  · have hrs : r ≠ s.sp := hc.ne_sp (List.mem_cons_of_mem _ hr)
    have hrp : r ≠ p := fun h => (List.nodup_cons.1 (List.nodup_cons.1 hc.nodup).2).1 (h ▸ hr)
    have hf₀ : s.frame r = .resume act' coroutine' self (some x) := (State.resume_afterBack hf').2
    have hx : x ≠ s.sp := by
      rintro rfl
      have h₁ := (hc.caller_of_frame (List.mem_cons_of_mem _ hr) hf₀).1
      have h₂ := (hc.caller_of_frame (by simp) hf).1
      exact hrp (Option.some.inj (h₁.symm.trans h₂))
    have hact : act ≠ act' := by
      rintro rfl
      exact hrp (hn.stack_unique hf₀ hf)
    rw [hlog, Function.update_of_ne (by simp), Function.update_of_ne (by simpa using hrp),
      Function.update_of_ne (by simpa using hx), Function.update_of_ne (by simp)]
    apply (hw.waiting r (List.mem_cons_of_mem _ hr) act' coroutine' self x hf₀).append
    cases returned <;> simp [workOf, List.filterMap_cons, Event.work, hact]
  · obtain ⟨rfl, rfl, -⟩ : act = act' ∧ coroutine = coroutine' ∧ _ := by
      simpa [State.afterBack, hps, hf] using hf'
    have hold := hw.waiting p (by simp) act coroutine p s.sp hf
    rw [hlog, Function.update_of_ne (by simp)]
    simp only [State.afterBack, Function.update_self]
    refine hold.next (e := .back s.sp) (by
      cases returned <;> simp [workOf, List.filterMap_cons, Event.work]) ?_
    intro w hrun htodo hreq
    exact ⟨_, WorkList.step_back.2 ⟨hrun, rfl⟩, rfl, by simp [htodo, hreq], rfl⟩

/-- **Every effect of an obedient call is a step of the work lists.** -/
theorem Effect.working {s t : State F D} {ds ds' : List Ptr} {a : Action F D}
    (he : Effect s ds a t ds') (hc : Chained s ds) (hh : Heads s ds) (hn : Numbered s)
    (hok : FreshHand s a) {q : Head → List Ptr} (hq : Queued s q) (hw : Working s ds q) :
    ∃ q', Queued t q' ∧ Working t ds' q' := by
  cases he with
  | create cb userData hu =>
    refine ⟨q, hq.afterCreate hc cb userData, hw.quiet hc [.create (s.created + 1) cb userData]
      rfl (fun _ _ => rfl) (fun _ _ _ _ _ _ _ => rfl) (fun _ _ => rfl) (fun _ _ => rfl) ?_⟩
    exact fun h => by cases h
  | noMemory cb userData hu => exact ⟨q, hq, hw⟩
  | enter a c m hu ha hca hm =>
    have hfresh : ¬s.Linked c := by
      rcases ha with rfl | ⟨rfl, -⟩ <;> exact hok c rfl
    exact ⟨_, hq.afterEnter hc hu hca hfresh hm, hw.afterEnter hc hn c m⟩
  | defer act c coroutine p es m hu hds hsp hf hca hne hm =>
    subst hds
    exact ⟨_, hq.afterDefer hc hsp act hca (hok c rfl) hm, hw.afterDefer hc hn hu hf c m⟩
  | leave act coroutine callee hl hf hempty =>
    exact ⟨q, hq.afterLeave (hq.loop_empty hc hf hempty) act, hw.afterLeave hc hn hf⟩
  | wake act coroutine x callee m pt e hl hf hx hm h0 hxa hxc hret hpt =>
    have hxf : (s.frame x).isLoop = false := by
      rcases hpt with ⟨hun, -⟩ | ⟨hsu, -⟩
      · simp [hun.frame]
      · simp [hsu.frame]
    have he : (∃ cb arg, e = .start x cb arg) ∨ ∃ val, e = .woken x val := by
      rcases hpt with ⟨-, -, cb, userData, -, -, rfl⟩ | ⟨-, -, rfl⟩
      · exact Or.inl ⟨cb, _, rfl⟩
      · exact Or.inr ⟨_, rfl⟩
    have hqx : q (.field x) = [] :=
      ((hq.queues.queue (.field x) ⟨h0, hxa.1⟩).first_eq_none).1 (hh.empty x hxc)
    obtain ⟨xs, hxs, hq'⟩ := hq.afterWake hc pt e hf hx hm hxc hxf
    exact ⟨_, hq', hw.afterWake hn hl m pt hf hxc hxs hqx he⟩
  | back act coroutine p es m₁ m₂ returned hu hds hsp hf hco hm₁ hm₂ =>
    subst hds
    exact ⟨_, hq.afterBack hc hu returned hf hm₁ hm₂, hw.afterBack hc hn m₂ returned hf⟩

end XcpNgGeneric.Coroutine
