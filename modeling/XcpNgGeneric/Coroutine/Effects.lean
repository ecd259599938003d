import XcpNgGeneric.Coroutine.Chain

/-!
# The functions of `coroutine.c` have the effects listed

One lemma for each function of `Machine.lean`: under the invariants of `Chain.lean` a call is one
of the effects of `Effect`, or it ends the run. `step_effect` puts them together.

The stack that executes is followed through three states of `xcp_coroutine_exec`: `leaving` and
`waking` are the states it is called in, `switched` is the state in which it jumps, and the lemmas
`land_entry`, `land_yield` and `exec_waiting` say where the jump arrives.
-/

namespace XcpNgGeneric.Coroutine

open TailQueue

variable {F D : Type}

/-! ## Accesses and queue operations -/

namespace State

/-- The stack `p` executes. -/
def onStack (s : State F D) (p : Ptr) : State F D := { s with sp := p }

theorem touching_of_alive {s k : State F D} {ps : List Ptr} (h : ∀ p ∈ ps, s.Alive p) :
    s.touching ps k = k := if_pos h

/-- An access either goes through or ends the run. -/
theorem touching_cases (s k : State F D) (ps : List Ptr) :
    ((∀ p ∈ ps, s.Alive p) ∧ s.touching ps k = k) ∨
      (s.touching ps k = s.fault .destroyed ∧ ∃ p ∈ ps, ¬s.Alive p) := by
  by_cases h : ∀ p ∈ ps, s.Alive p
  · exact Or.inl ⟨h, if_pos h⟩
  · refine Or.inr ⟨if_neg h, ?_⟩
    push Not at h
    exact h

theorem Alive.ne_fresh {s : State F D} {p : Ptr} (h : s.Alive p) : p ≠ s.created + 1 :=
  Nat.ne_of_lt (Nat.lt_succ_of_le h.1)

/-- An insertion accesses the element and the cell that ends the queue. -/
theorem insertTail_cases (s : State F D) (h : Head) (c : Ptr) (k : State F D → State F D)
    {m : Mem Ptr Head} (hm : s.mem.insertTail h c = some m) :
    (s.Alive c ∧ s.insertTail h c k = k { s with mem := m }) ∨
      (s.insertTail h c k = s.fault .destroyed ∧ (¬s.Alive c ∨ ¬s.Alive h.owner ∨
        ∃ cell, s.mem.last h = some cell ∧ ¬s.Alive (cellOwner cell))) := by
  unfold State.insertTail
  rw [hm]
  rcases s.touching_cases (k { s with mem := m })
    (c :: h.owner :: ((s.mem.last h).map cellOwner).toList) with ⟨halive, he⟩ | ⟨he, p, hp, hdead⟩
  · exact Or.inl ⟨halive c (by simp), he⟩
  · refine Or.inr ⟨he, ?_⟩
    simp only [List.mem_cons, Option.mem_toList, Option.map_eq_some_iff] at hp
    rcases hp with rfl | rfl | ⟨cell, hcell, rfl⟩
    · exact Or.inl hdead
    · exact Or.inr (Or.inl hdead)
    · exact Or.inr (Or.inr ⟨cell, hcell, hdead⟩)

/-- A concatenation accesses the owner of the second queue and, unless this queue is empty, the
owner and the last cell of the first. -/
theorem concat_cases (s : State F D) (h₁ h₂ : Head) (k : State F D → State F D)
    {m : Mem Ptr Head} (hm : s.mem.concat h₁ h₂ = some m) (h₁a : s.Alive h₁.owner)
    (h₂a : s.Alive h₂.owner) :
    s.concat h₁ h₂ k = k { s with mem := m } ∨
      (s.concat h₁ h₂ k = s.fault .destroyed ∧ s.mem.first h₂ ≠ none ∧
        ∃ cell, s.mem.last h₁ = some cell ∧ ¬s.Alive (cellOwner cell)) := by
  unfold State.concat
  rw [hm]
  rcases s.touching_cases (k { s with mem := m }) (h₂.owner :: if s.mem.first h₂ = none then [] else
    h₁.owner :: ((s.mem.last h₁).map cellOwner).toList) with ⟨-, he⟩ | ⟨he, p, hp, hdead⟩
  · exact Or.inl he
  · refine Or.inr ⟨he, ?_⟩
    by_cases hne : s.mem.first h₂ = none
    · simp only [hne, if_true, List.mem_singleton] at hp
      exact absurd (hp ▸ h₂a) hdead
    · simp only [hne, if_false, List.mem_cons, Option.mem_toList, Option.map_eq_some_iff] at hp
      rcases hp with rfl | rfl | ⟨cell, hcell, rfl⟩
      · exact absurd h₂a hdead
      · exact absurd h₁a hdead
      · exact ⟨hne, cell, hcell, hdead⟩

end State

/-! ## Calls that stay on their stack -/

theorem Chained.create_eq {s : State F D} {ds : List Ptr} (hc : Chained s ds)
    (hu : s.control = .user) (cb : F) (userData : D) :
    s.create cb userData true = s.afterCreate cb userData := by
  have hsp : s.sp ≠ s.created + 1 := (hc.alive s.sp (by simp)).ne_fresh
  have hf : Function.update s.frame s.sp .idle = s.frame := by
    rw [← hc.top.user hu, Function.update_eq_self]
  simp [State.create, State.initCoroutine, State.runTrampoline, State.land, State.run,
    State.landSaved, State.createAfterInit, State.afterCreate, State.setArg, State.setEnv,
    State.arg, State.cb, hf]

theorem Chained.alive_sp {s : State F D} {ds : List Ptr} (hc : Chained s ds) : s.Alive s.sp :=
  hc.alive s.sp (by simp)

/-- A new loop starts with `c` on its list. -/
theorem Chained.resume_eq {s : State F D} {ds : List Ptr} (hc : Chained s ds) {c : Ptr}
    {m : Mem Ptr Head} (hca : s.Alive c)
    (hm : (s.mem.init (.stack s.sp)).insertTail (.stack s.sp) c = some m) :
    s.resume c = s.afterEnter c m := by
  have hself := hc.self
  unfold State.resume State.insertTail
  simp only [State.self] at hself ⊢
  rw [State.touching_of_alive, hm, hself]
  · rfl
  · simp only [Mem.init_last, Function.update_self, Option.map_some, Option.toList_some,
      List.mem_cons, List.not_mem_nil, or_false]
    rintro p (rfl | rfl | rfl)
    · exact hca
    · exact hc.alive_sp
    · exact hc.alive_sp

theorem Chained.resume_effect {s : State F D} {ds : List Ptr} (hc : Chained s ds)
    (hu : s.control = .user) {a : Action F D} {c : Ptr}
    (ha : a = .resume c ∨ a = .process c ∧ s.sp = dummy) :
    Effect s ds a (s.resume c) ds ∨ Dead s a (s.resume c) := by
  obtain ⟨m, hm, -⟩ := (Anchored.init s.mem (.stack s.sp)).insertTail c
  by_cases hca : s.Alive c
  · rw [hc.resume_eq hca hm]
    exact Or.inl (.enter a c m hu ha hca hm)
  · unfold State.resume State.insertTail State.touching
    rw [if_neg fun h => hca (h c (by simp))]
    refine Or.inr (Dead.of_touches rfl rfl rfl hca (Or.inl ?_))
    rcases ha with rfl | ⟨rfl, -⟩ <;> rfl

theorem Chained.process_effect {s : State F D} {ds : List Ptr} (hc : Chained s ds)
    (hh : Heads s ds) (hu : s.control = .user) (c : Ptr) :
    Effect s ds (.process c) (s.process c) ds ∨ Dead s (.process c) (s.process c) := by
  unfold State.process
  rw [hc.self, State.touching_of_alive (by simpa using hc.alive_sp)]
  cases ds with
  | nil =>
    rw [hc.callers.1, hc.callers.2]
    exact hc.resume_effect hu (Or.inr ⟨rfl, hc.callers.1⟩)
  | cons p es =>
    have hsp : s.sp ≠ dummy := by
      intro h0
      have := hc.callers.2.dummy_mem.1
      rw [← h0] at this
      exact (List.nodup_cons.1 hc.nodup).1 this
    rw [hc.callers.1]
    simp only
    split
    next heq =>
      exact Or.inr (Dead.of_log_eq rfl rfl (Or.inr (Or.inl ⟨rfl, by rw [heq]⟩)))
    next hne =>
      have hfield := hh.field s.sp (Nat.pos_of_ne_zero hsp) hc.alive_sp.1
      obtain ⟨m, hm, -⟩ := hfield.insertTail c
      obtain ⟨act, coroutine, hf, -⟩ := hc.waiting.1.frame
      rcases s.insertTail_cases (.field s.sp) c _ hm with ⟨halive, he⟩ | ⟨he, hdead⟩
      · left
        rw [he]
        have hself := hc.self
        simp only [State.self, State.actOf, hf] at hself ⊢
        rw [hself]
        exact .defer act c coroutine p es m hu rfl hsp hf halive hne hm
      · rw [he]
        rcases hdead with h | h | ⟨cell, hcell, h⟩
        · exact Or.inr (Dead.of_touches rfl rfl rfl h (Or.inl rfl))
        · exact absurd hc.alive_sp h
        · rcases hfield.last_cell hcell with rfl | ⟨x, rfl⟩
          · exact absurd hc.alive_sp h
          · exact Or.inr (Dead.of_touches rfl rfl rfl h (Or.inr (Or.inl ⟨hu, hsp, hcell⟩)))

/-! ## `xcp_coroutine_exec` -/

namespace State

/-- The loop of the running stack has received `ret` from its callee. -/
def received (s : State F D) (act : ℕ) (callee : Ptr) (ret : ℕ) (m : Mem Ptr Head) : State F D :=
  { s with mem := m, log := s.log ++ [Event.received act callee ret], control := .loop }

/-- What the loop does once a callee has given control back; it fails if something is moved behind
the last of the callee's requests and this one is destroyed. -/
theorem resumeAfterExec_cases (s : State F D) (act : ℕ) (coroutine callee : Ptr) (ret : ℕ)
    {m₁ m₂ : Mem Ptr Head} (hm₁ : s.mem.concat (.field callee) (.stack s.sp) = some m₁)
    (hm₂ : m₁.concat (.stack s.sp) (.field callee) = some m₂) (hsp : s.Alive s.sp)
    (hcallee : s.Alive callee) (hf : Anchored s.mem (.field callee))
    (hs : Anchored s.mem (.stack s.sp)) :
    s.resumeAfterExec act coroutine callee ret =
        (if ret = Status.terminated.val then (s.received act callee ret m₂).destroy coroutine
          else if ret = Status.suspend.val then s.received act callee ret m₂
          else (s.received act callee ret m₂).abort .badStatus) ∨
      (s.resumeAfterExec act coroutine callee ret = s.fault .destroyed ∧
        s.mem.first (.stack s.sp) ≠ none ∧
        ∃ x, ¬s.Alive x ∧ s.mem.last (.field callee) = some (.next x)) := by
  unfold State.resumeAfterExec
  rcases s.concat_cases (.field callee) (.stack s.sp) _ hm₁ hcallee hsp with
    he | ⟨he, hne, cell, hcell, hdead⟩
  · rw [he]
    rcases State.concat_cases { s with mem := m₁ } (.stack s.sp) (.field callee) _ hm₂ hsp hcallee
      with he | ⟨-, -, cell, hcell, hdead⟩
    · exact Or.inl he
    · -- the loop's list is empty by now, so that its last cell is its head
      obtain ⟨m, hm, -, hs', hempty, -⟩ := hf.concat hs (by simp)
      obtain rfl : m = m₁ := Option.some.inj (hm.symm.trans hm₁)
      have hlast := (hs'.queue_nil hempty).last
      obtain rfl : cell = .first (.stack s.sp) := Option.some.inj (hcell.symm.trans hlast)
      exact absurd hsp hdead
  · rcases hf.last_cell hcell with rfl | ⟨x, rfl⟩
    · exact absurd hcallee hdead
    · exact Or.inr ⟨he, hne, x, hdead, hcell⟩

/-- What `xcp_coroutine_exec` writes before it jumps to `pt`. -/
def switched (s : State F D) (callee : Ptr) (st : Status) (pt : JmpBuf) : State F D :=
  { s.setEnv s.sp (some (.exec s.sp (s.execs s.sp + 1))) with
    current := some callee
    execs := Function.update s.execs s.sp (s.execs s.sp + 1)
    log := s.log ++ [Event.jump s.sp callee st pt] }

theorem exec_eq {s : State F D} {callee : Ptr} (st : Status) (pt : JmpBuf) (hsp : s.Alive s.sp)
    (hp : s.Alive callee)
    (henv : Function.update s.env s.sp (some (.exec s.sp (s.execs s.sp + 1))) callee = some pt) :
    s.exec s.sp callee st = (s.switched callee st pt).land pt st.val := by
  unfold State.exec
  rw [State.touching_of_alive (by simp [hsp, hp])]
  rw [← State.env_setEnv] at henv
  simp only [State.env] at henv ⊢
  simp only [henv]
  rfl

theorem cb_switched (s : State F D) (callee : Ptr) (st : Status) (pt : JmpBuf) :
    (s.switched callee st pt).cb = s.cb := s.cb_setEnv s.sp _

theorem arg_switched (s : State F D) (callee : Ptr) (st : Status) (pt : JmpBuf) :
    (s.switched callee st pt).arg = s.arg := s.arg_setEnv s.sp _

/-- Landing in `xcp_coroutine_run` starts the callback. -/
theorem land_entry {s : State F D} {c : Ptr} {cb : F} {arg : Arg D} (val : ℕ)
    (hrun : s.runLocal c = some c) (hc : s.Alive c) (hcb : s.cb c = some cb)
    (harg : s.arg c = some arg) :
    s.land (.entry c) val =
      { s with sp := c, control := .user, log := s.log ++ [Event.start c cb arg] } := by
  simp only [State.cb, State.arg] at hcb harg
  have halive : ∀ p ∈ [c], (s.onStack c).Alive p := by
    simpa [State.onStack, State.Alive] using hc
  have htouch := fun k : State F D => State.touching_of_alive (k := k) halive
  simp only [State.onStack] at htouch
  simp only [State.land, State.landSaved, State.runCallback, hrun, htouch, State.cb, State.arg, hcb,
    harg]

/-- Landing in `xcp_coroutine_yield` returns to its caller. -/
theorem land_yield {s : State F D} {p : Ptr} {n : ℕ} (val : ℕ) (hf : s.frame p = .yield)
    (hn : n = s.execs p) :
    s.land (.exec p n) val =
      { s with
        sp := p
        frame := Function.update s.frame p .idle
        control := .user
        log := s.log ++ [Event.woken p val] } := by
  simp only [State.land, State.landSaved, hn, hf, if_true]

/-- `xcp_coroutine_exec` towards a stack that waits in `xcp_coroutine_resume`. -/
theorem exec_waiting {s : State F D} {p x : Ptr} {act : ℕ} {coroutine self : Ptr} (st : Status)
    (hsp : s.Alive s.sp) (hp : s.Alive p) (hne : p ≠ s.sp)
    (henv : s.env p = some (.exec p (s.execs p)))
    (hf : s.frame p = .resume act coroutine self (some x)) :
    s.exec s.sp p st =
      ((s.switched p st (.exec p (s.execs p))).onStack p).resumeAfterExec act coroutine x
        st.val := by
  rw [exec_eq st (.exec p (s.execs p)) hsp hp (by rw [Function.update_of_ne hne, henv])]
  simp [land, landSaved, switched, Function.update_of_ne hne, hf, setEnv, onStack]

end State

/-! ## Giving control back -/

/-- The coroutine that runs is not its own caller. -/
theorem Chained.sp_ne_dummy {s : State F D} {p : Ptr} {es : List Ptr} (hc : Chained s (p :: es)) :
    s.sp ≠ dummy := by
  intro h0
  have := hc.callers.2.dummy_mem.1
  rw [← h0] at this
  exact (List.nodup_cons.1 hc.nodup).1 this

/-- Both concatenations of the loop go through on anchored heads. -/
theorem Heads.concats {s : State F D} {p : Ptr} {es : List Ptr} (hc : Chained s (p :: es))
    (hh : Heads s (p :: es)) : ∃ m₁ m₂, s.mem.concat (.field s.sp) (.stack p) = some m₁ ∧
      m₁.concat (.stack p) (.field s.sp) = some m₂ := by
  have hfield := hh.field s.sp (Nat.pos_of_ne_zero hc.sp_ne_dummy) (hc.alive s.sp (by simp)).1
  obtain ⟨m₁, hm₁, h₁, h₂, -⟩ := hfield.concat (hh.stack p (by simp)) (by simp)
  obtain ⟨m₂, hm₂, -⟩ := h₂.concat h₁ (by simp)
  exact ⟨m₁, m₂, hm₁, hm₂⟩

/-- The state in which a coroutine called by `p` executes its last `xcp_coroutine_exec` before it
gives control back. -/
def State.leaving (s : State F D) (p : Ptr) (returned : Bool) : State F D :=
  { s.setCaller s.sp (if returned then some p else none) with
    frame := Function.update s.frame s.sp (if returned then .run else .yield)
    log := s.log ++ if returned then [Event.ret s.sp] else [] }

theorem Chained.back_effect {s : State F D} {p : Ptr} {es : List Ptr} (hc : Chained s (p :: es))
    (hh : Heads s (p :: es)) (hu : s.control = .user) (returned : Bool) :
    let t := (s.leaving p returned).exec s.sp p (backStatus returned)
    Effect s (p :: es) (if returned then .ret else .yield) t es ∨
      Dead s (if returned then .ret else .yield) t := by
  intro t
  obtain ⟨m₁, m₂, hm₁, hm₂⟩ := hh.concats hc
  obtain ⟨act, coroutine, hf, hco⟩ := hc.waiting.1.frame
  have hne : p ≠ s.sp := fun h => (List.nodup_cons.1 hc.nodup).1 (by simp [← h])
  have henv : (s.leaving p returned).env p = some (.exec p (s.execs p)) := by
    have := hc.waiting.1.env
    rwa [← State.env_setCaller s s.sp (if returned then some p else none)] at this
  have ht : t = _ := State.exec_waiting (s := s.leaving p returned) _ hc.alive_sp
    (hc.alive p (by simp)) hne henv (by simpa [State.leaving, Function.update_of_ne hne] using hf)
  rcases State.resumeAfterExec_cases (((s.leaving p returned).switched p
      (backStatus returned) (.exec p (s.execs p))).onStack p) act coroutine
      s.sp (backStatus returned).val hm₁ hm₂ (hc.alive p (by simp)) hc.alive_sp
      (hh.field s.sp (Nat.pos_of_ne_zero hc.sp_ne_dummy) hc.alive_sp.1) (hh.stack p (by simp))
    with he | ⟨he, -, x, hdead, hlast⟩
  · left
    have heff := Effect.back act coroutine p es m₁ m₂ returned hu rfl hc.sp_ne_dummy hf hco hm₁ hm₂
    convert heff using 1
    apply (ht.trans he).trans
    cases returned <;>
      simp [State.leaving, State.switched, State.afterBack, State.setCaller, State.setEnv,
        State.destroy, Status.val, backStatus, State.Alive, State.received, State.onStack]
  · obtain ht' := ht.trans he
    have hlog : t.log = s.log ++ ((if returned then [Event.ret s.sp] else []) ++
        [.jump s.sp p (backStatus returned) (.exec p (s.execs p))]) := by
      rw [ht']
      exact List.append_assoc _ _ _
    refine Or.inr ⟨by rw [ht']; rfl, ⟨_, hlog, fun a c => ?_⟩,
      Or.inr (Or.inl ⟨by rw [ht']; rfl, x, hdead, Or.inr (Or.inl ⟨hu, hc.sp_ne_dummy, hlast⟩)⟩)⟩
    cases returned <;> simp

theorem Chained.yield_effect {s : State F D} {ds : List Ptr} (hc : Chained s ds)
    (hh : Heads s ds) (hu : s.control = .user) :
    (∃ ds', Effect s ds .yield s.yield ds') ∨ Dead s .yield s.yield := by
  unfold State.yield
  rw [hc.self, State.touching_of_alive (by simpa using hc.alive_sp)]
  cases ds with
  | nil =>
    rw [hc.callers.1, hc.callers.2]
    exact Or.inr (Dead.of_log_eq rfl rfl (Or.inr (Or.inr ⟨rfl, rfl, hc.callers.1⟩)))
  | cons p es =>
    rw [hc.callers.1]
    have h := hc.back_effect hh hu false
    simp only [State.leaving, Bool.false_eq_true, if_false, List.append_nil, backStatus] at h
    exact h.imp_left fun h => ⟨es, h⟩

theorem Chained.ret_effect {s : State F D} {ds : List Ptr} (hc : Chained s ds)
    (hh : Heads s ds) (hu : s.control = .user) (hsp : s.sp ≠ dummy) :
    (∃ ds', Effect s ds .ret s.runReturn ds') ∨ Dead s .ret s.runReturn := by
  unfold State.runReturn
  rw [(hc.owned s.sp (Nat.pos_of_ne_zero hsp) hc.alive_sp.1).1]
  simp only
  rw [State.touching_of_alive (by simpa using hc.alive_sp)]
  cases ds with
  | nil => exact absurd hc.callers.1 hsp
  | cons p es =>
    have hp := hc.callers.1
    rw [hp]
    have h := hc.back_effect hh hu true
    have hset : s.setCaller s.sp (some p) = s := by
      simp only [State.caller] at hp
      simp [State.setCaller, ← hp]
    simp only [State.leaving, if_true, backStatus, hset] at h
    exact h.imp_left fun h => ⟨es, h⟩

/-! ## Resuming -/

/-- `t` ends the run of `s` without having destroyed anything. -/
structure State.Ended (s t : State F D) : Prop where
  destroyed : t.destroyed = s.destroyed
  log : ∃ es, t.log = s.log ++ es ∧ ∀ act c, .received act c Status.terminated.val ∉ es
  control : t.control = .aborted .badStatus ∨ ∃ why, t.control = .fault why

theorem State.concat_ended {s u : State F D} {h₁ h₂ : Head} {k : State F D → State F D}
    (hs : s.Ended (u.fault .destroyed)) (hk : ∀ m, s.Ended (k { u with mem := m })) :
    s.Ended (u.concat h₁ h₂ k) := by
  unfold State.concat
  rcases u.touching_cases _ _ with ⟨-, he⟩ | ⟨he, -⟩
  · rw [he]
    cases u.mem.concat h₁ h₂ with
    | none => exact ⟨hs.destroyed, hs.log, Or.inr ⟨_, rfl⟩⟩
    | some m => exact hk m
  · rw [he]
    exact hs

/-- A loop that receives `Running` ends the run. -/
theorem State.resumeAfterExec_running (s : State F D) (act : ℕ) (coroutine callee : Ptr) :
    s.Ended (s.resumeAfterExec act coroutine callee Status.running.val) := by
  have hnow : s.Ended (s.fault .destroyed) := ⟨rfl, ⟨[], by simp [State.fault]⟩, Or.inr ⟨_, rfl⟩⟩
  apply State.concat_ended hnow
  intro m₁
  refine State.concat_ended ⟨rfl, ⟨[], by simp [State.fault]⟩, Or.inr ⟨_, rfl⟩⟩ fun m₂ => ?_
  exact ⟨rfl, ⟨_, rfl, by simp [Status.val]⟩, Or.inl rfl⟩

/-- The state in which the loop executes `xcp_coroutine_exec` towards `x`. -/
def State.waking (s : State F D) (act : ℕ) (coroutine x : Ptr) (m : Mem Ptr Head) : State F D :=
  { s.setCaller x (some s.sp) with
    mem := m
    frame := Function.update s.frame s.sp (.resume act coroutine s.sp (some x))
    log := s.log ++ [Event.resumed act x] }

/-- The thread's own stack is waiting for `y` in the loop of a call, or it is the one that runs. -/
def RootLoop (s : State F D) (act : ℕ) (coroutine y : Ptr) : Prop :=
  (s.sp = dummy ∧ y = dummy) ∨
    (s.sp ≠ dummy ∧ s.frame dummy = .resume act coroutine dummy (some y))

/-- Resuming the thread's own stack jumps back into a loop: its own, which has just saved the point
it jumps to, or one that is waiting for something else. -/
theorem Chained.exec_dummy {s : State F D} {ds : List Ptr} (hc : Chained s ds) (act : ℕ)
    (coroutine : Ptr) (m : Mem Ptr Head) : ∃ (u : State F D) (a : ℕ) (co y : Ptr) (pt : JmpBuf),
      (s.waking act coroutine dummy m).exec s.sp dummy .running =
        u.resumeAfterExec a co y Status.running.val ∧
      u.sp = dummy ∧ u.mem = m ∧ u.created = s.created ∧ u.destroyed = s.destroyed ∧
      u.log = s.log ++ [.resumed act dummy, .jump s.sp dummy .running pt] ∧
      RootLoop s a co y := by
  have hmem := hc.callers.dummy_mem.1
  rcases List.mem_cons.1 hmem with h0 | h0
  · -- the thread's own stack jumps to the point it has just saved
    refine ⟨((s.waking act coroutine dummy m).switched dummy .running
      (.exec s.sp (s.execs s.sp + 1))).onStack s.sp, act, coroutine, dummy, _, ?_, h0.symm, rfl,
      rfl, rfl, List.append_assoc _ _ _, Or.inl ⟨h0.symm, rfl⟩⟩
    have hexec := State.exec_eq (s := s.waking act coroutine dummy m) .running
      (.exec s.sp (s.execs s.sp + 1)) hc.alive_sp (hc.alive dummy hmem)
      (by simp [h0, State.waking, State.setCaller])
    apply hexec.trans
    simp [State.land, State.landSaved, State.switched, State.waking, State.onStack,
      State.setEnv, State.setCaller]
  · obtain ⟨y, es, hw⟩ := hc.waiting.of_mem h0
    obtain ⟨a, co, hf, -⟩ := hw.frame
    have hne : dummy ≠ s.sp := fun h => (List.nodup_cons.1 hc.nodup).1 (h ▸ h0)
    have henv : (s.waking act coroutine dummy m).env dummy =
        some (.exec dummy (s.execs dummy)) := by
      have := hw.env
      rwa [← State.env_setCaller s dummy (some s.sp)] at this
    have hf' : (s.waking act coroutine dummy m).frame dummy = .resume a co dummy (some y) := by
      simpa [State.waking, Function.update_of_ne hne] using hf
    exact ⟨((s.waking act coroutine dummy m).switched dummy .running
      (.exec dummy (s.execs dummy))).onStack dummy, a, co, y, _,
      State.exec_waiting (s := s.waking act coroutine dummy m) .running hc.alive_sp
        (hc.alive dummy hmem) hne henv hf',
      rfl, rfl, rfl, rfl, List.append_assoc _ _ _, Or.inr ⟨hne.symm, hf⟩⟩

theorem Chained.wake_dummy {s : State F D} {ds : List Ptr} (hc : Chained s ds) (act : ℕ)
    (coroutine : Ptr) (m : Mem Ptr Head) (hx : s.mem.first (.stack s.sp) = some dummy) :
    Dead s .tick ((s.waking act coroutine dummy m).exec s.sp dummy .running) := by
  obtain ⟨u, a, co, y, pt, he, -, -, -, hud, hlog, -⟩ := hc.exec_dummy act coroutine m
  rw [he]
  obtain ⟨hd, ⟨es, hlog', hes⟩, hcon⟩ := u.resumeAfterExec_running a co y
  refine ⟨hd.trans hud, ⟨_, by rw [hlog', hlog, List.append_assoc], fun act' c h => ?_⟩,
    Or.inr (Or.inr ⟨rfl, hx, hcon⟩)⟩
  rcases List.mem_append.1 h with h | h
  · simp at h
  · exact hes act' c h

/-- The coroutine that a loop resumes starts its callback or continues after its last yield. -/
theorem Chained.wake_eq {s : State F D} {ds : List Ptr} (hc : Chained s ds) (act : ℕ)
    (coroutine : Ptr) {x : Ptr} (m : Mem Ptr Head) (h0 : 0 < x) (hx : s.Alive x)
    (hxc : x ∉ s.sp :: ds) (hcaller : s.caller x = none) :
    ∃ pt e, .ret x ∉ s.log ∧
      ((Unstarted s x ∧ pt = .entry x ∧ ∃ cb userData, s.cb x = some cb ∧
          .create x cb userData ∈ s.log ∧ e = .start x cb (.userData userData)) ∨
        (Suspended s x ∧ pt = .exec x (s.execs x) ∧ e = .woken x Status.running.val)) ∧
      (s.waking act coroutine x m).exec s.sp x .running = s.afterWake act coroutine x m pt e := by
  have hne : x ≠ s.sp := fun h => hxc (by simp [h])
  have hexec : ∀ pt, s.env x = some pt → (s.waking act coroutine x m).exec s.sp x .running =
      ((s.waking act coroutine x m).switched x .running pt).land pt Status.running.val :=
    fun pt hpt => State.exec_eq (s := s.waking act coroutine x m) .running pt hc.alive_sp hx (by
      rw [Function.update_of_ne (show x ≠ (s.waking act coroutine x m).sp from hne)]
      rwa [← State.env_setCaller s x (some s.sp)] at hpt)
  rcases hc.inactive x h0 hx.1 hxc with ⟨hret, hun | hsu⟩ | ⟨-, hcaller'⟩
  · obtain ⟨hrun, cb, userData, hcb, harg, hlog⟩ := hc.owned x h0 hx.1
    refine ⟨.entry x, .start x cb (.userData userData), hret,
      Or.inl ⟨hun, rfl, cb, userData, hcb, hlog, rfl⟩, ?_⟩
    have hcb' : (s.waking act coroutine x m).cb x = some cb := by
      rwa [← State.cb_setCaller s x (some s.sp)] at hcb
    have harg' : (s.waking act coroutine x m).arg x = some (.userData userData) := by
      rwa [← State.arg_setCaller s x (some s.sp)] at harg
    rw [hexec _ hun.env, State.land_entry _ (by exact hrun) (by exact hx)
      (by rwa [State.cb_switched]) (by rwa [State.arg_switched])]
    simp [State.switched, State.afterWake, State.waking, State.setEnv, State.setCaller, hne,
      hun.frame]
  · refine ⟨.exec x (s.execs x), .woken x Status.running.val, hret, Or.inr ⟨hsu, rfl, rfl⟩, ?_⟩
    rw [hexec _ hsu.env]
    have hfx : (s.waking act coroutine x m).frame x = .yield := by
      simpa [State.waking, Function.update_of_ne hne] using hsu.frame
    rw [State.land_yield]
    · simp [State.switched, State.afterWake, State.waking, State.setEnv, State.setCaller]
    · exact hfx
    · simp [State.switched, State.waking, State.setCaller, hne]
  · exact absurd hcaller hcaller'

/-- One iteration of the loop takes `x` off its list and resumes it, unless it is already called. -/
theorem State.resumeLoop_first {s : State F D} {act : ℕ} {coroutine x : Ptr}
    {callee : Option Ptr} {m : Mem Ptr Head}
    (hf : s.frame s.sp = .resume act coroutine s.sp callee)
    (hx : s.mem.first (.stack s.sp) = some x) (hm : s.mem.removeHead (.stack s.sp) = some m)
    (hsp : s.Alive s.sp) (hxa : s.Alive x) :
    s.resumeLoop = if s.caller x = none then (s.waking act coroutine x m).exec s.sp x .running
      else State.abort { s with mem := m } .alreadyCalled := by
  unfold State.resumeLoop
  rw [hf]
  simp only [hx]
  unfold State.removeHead
  rw [hm, State.touching_of_alive (by simp [hx, hxa, Head.owner, hsp])]
  cases hcaller : s.caller x with
  | some q =>
    simp only [State.caller] at hcaller
    simp [State.caller, hcaller]
  | none =>
    simp only [State.caller] at hcaller
    simp only [State.caller, hcaller, if_true]
    rfl

theorem Chained.tick_effect {s : State F D} {ds : List Ptr} (hc : Chained s ds)
    (hh : Heads s ds) (hl : s.control = .loop) :
    (∃ ds', Effect s ds .tick s.resumeLoop ds') ∨ Dead s .tick s.resumeLoop := by
  obtain ⟨act, coroutine, callee, hf, -⟩ := hc.top.loop hl
  cases hx : s.mem.first (.stack s.sp) with
  | none =>
    unfold State.resumeLoop
    rw [hf]
    simp only [hx]
    exact Or.inl ⟨ds, .leave act coroutine callee hl hf hx⟩
  | some x =>
    obtain ⟨m, hm, -⟩ := (hh.loop hl).removeHead hx
    by_cases hxa : s.Alive x
    · rw [State.resumeLoop_first hf hx hm hc.alive_sp hxa]
      split
      next hcaller =>
        rcases Nat.eq_zero_or_pos x with rfl | h0
        · exact Or.inr (hc.wake_dummy act coroutine m hx)
        · have hxc : x ∉ s.sp :: ds := fun h =>
            hc.callers.caller_ne_none h (Nat.ne_of_gt h0) hcaller
          obtain ⟨pt, e, hret, hpt, he⟩ := hc.wake_eq act coroutine m h0 hxa hxc hcaller
          rw [he]
          exact Or.inl ⟨_, .wake act coroutine x callee m pt e hl hf hx hm h0 hxa hxc hret hpt⟩
      next => exact Or.inr (Dead.of_log_eq rfl rfl (Or.inl ⟨rfl, rfl⟩))
    · -- the link of `x` is read when it is taken off the list
      unfold State.resumeLoop
      rw [hf]
      simp only [hx]
      unfold State.removeHead State.touching
      rw [if_neg fun h => hxa (h x (by simp [hx]))]
      exact Or.inr (Dead.of_touches rfl rfl rfl hxa (Or.inr (Or.inr ⟨hl, hx⟩)))

/-! ## All steps -/

/-- **What a step does**: one of the effects, or it ends the run. -/
theorem step_effect {s t : State F D} {ds : List Ptr} {a : Action F D} (hc : Chained s ds)
    (hh : Heads s ds) (hs : step s a = some t) :
    (∃ ds', Effect s ds a t ds') ∨ Dead s a t := by
  cases hcon : s.control with
  | user =>
    cases a with
    | create cb userData alloc =>
      obtain rfl : s.create cb userData alloc = t := by simpa [step, hcon] using hs
      cases alloc with
      | true =>
        rw [hc.create_eq hcon]
        exact Or.inl ⟨ds, .create cb userData hcon⟩
      | false => exact Or.inl ⟨ds, .noMemory cb userData hcon⟩
    | resume c =>
      obtain rfl : s.resume c = t := by simpa [step, hcon] using hs
      exact (hc.resume_effect hcon (Or.inl rfl)).imp_left fun h => ⟨ds, h⟩
    | process c =>
      obtain rfl : s.process c = t := by simpa [step, hcon] using hs
      exact (hc.process_effect hh hcon c).imp_left fun h => ⟨ds, h⟩
    | yield =>
      obtain rfl : s.yield = t := by simpa [step, hcon] using hs
      exact hc.yield_effect hh hcon
    | ret =>
      obtain ⟨hsp, rfl⟩ : s.sp ≠ dummy ∧ s.runReturn = t := by simpa [step, hcon] using hs
      exact hc.ret_effect hh hcon hsp
    | tick => simp [step, hcon] at hs
  | loop =>
    cases a with
    | tick =>
      obtain rfl : s.resumeLoop = t := by simpa [step, hcon] using hs
      exact hc.tick_effect hh hcon
    | _ => simp [step, hcon] at hs
  | aborted site => simp [step, hcon] at hs
  | fault why => simp [step, hcon] at hs

end XcpNgGeneric.Coroutine
