import XcpNgGeneric.Coroutine.Invariant

/-!
# Resuming an active coroutine

What happens when a coroutine on the chain of callers is resumed, by a call or by a loop that finds
it among its pending coroutines. All of them but one have a `caller`, which the loop tests. The
thread's own stack has none: it is really jumped to, the loop that runs there receives `Running`,
joins the list of its callee with its own, and only then does the `switch` end the process.

Between the jump and the `switch` two things can go wrong. If the thread's own stack has taken
itself off its list, its callee is `threadData.dummy`, whose `pendings` was never initialised: what
is left on the list is moved behind a `NULL` tail address (`RootFollowed`). If it is waiting for
another coroutine whose last request is destroyed by now, that request is written (`Dangling`).

## Main results

* `Chained.pop_active`: what one iteration of the loop does with an active coroutine.
* `reentry_rejected_iff`: every attempt is rejected by `abort` except in these two situations.
-/

namespace XcpNgGeneric.Coroutine

open TailQueue Runs

variable {F D : Type}

/-! ## Attempts and their rejection -/

/-- `c` is reached from `threadData->current` by following `caller`. -/
inductive Active (s : State F D) : Ptr → Prop
  | self : Active s s.self
  | caller {c p : Ptr} : Active s c → s.caller c = some p → Active s p

/-- An attempt to resume `c`, and the steps up to the point where the loop has dealt with it. -/
inductive Attempt (s : State F D) (c : Ptr) : List (Action F D) → Prop
  /-- `xcp_coroutine_resume(c)`. -/
  | resume (hu : s.control = .user) : Attempt s c [.resume c, .tick]
  /-- `xcp_coroutine_process(c)` without a caller, which resumes at once. -/
  | process (hu : s.control = .user) (h0 : s.caller s.self = none) :
    Attempt s c [.process c, .tick]
  /-- The loop finds `c` at the head of its list. -/
  | pop (hl : s.control = .loop) (hx : s.mem.first (.stack s.sp) = some c) : Attempt s c [.tick]

/-- Code of the program goes on after the event. -/
def Event.EntersUser : Event F D → Prop
  | .create .. | .process .. | .start .. | .woken .. | .leave .. => True
  | .enter .. | .jump .. | .ret .. | .resumed .. | .received .. => False

/-- From `s` to `t` no code of the program runs, and the fields `pendings` that were never
initialised, whose tail address is the `NULL` of the zeroed thread data, stay as they are. -/
structure Quiet (s t : State F D) : Prop where
  log : ∃ es, t.log = s.log ++ es ∧ ∀ e ∈ es, ¬e.EntersUser
  heads : ∀ d, s.mem.last (.field d) = none → SameHead s.mem t.mem (.field d)

/-- The steps `bs` end in `abort` before code of the program runs. A `STAILQ_INSERT_TAIL` or
`STAILQ_CONCAT` through the tail address of a head that was never initialised is the fault
`nullPointer`, so that there is none on the way to an `abort`. -/
def Rejected (s : State F D) (bs : List (Action F D)) : Prop :=
  ∃ t site, run step s bs = some t ∧ t.control = .aborted site ∧ Quiet s t

/-- The loop of the thread's own stack is about to take this stack off its list, and something is
linked behind it. -/
def RootFollowed (s : State F D) : Prop :=
  s.control = .loop ∧ s.sp = dummy ∧ s.mem.next dummy ≠ none

/-- The loop of the thread's own stack has coroutines on its list, and it is waiting for one whose
last request is destroyed. -/
def Dangling (s : State F D) : Prop :=
  s.sp ≠ dummy ∧ s.mem.first (.stack dummy) ≠ none ∧
    ∃ act coroutine y z, s.frame dummy = .resume act coroutine dummy (some y) ∧
      s.mem.last (.field y) = some (.next z) ∧ ¬s.Alive z

/-! ## The chain -/

/-- The callers of a chain are on it. -/
theorem CallerChain.caller_mem {f : Ptr → Option Ptr} {x y p : Ptr} {ds : List Ptr}
    (h : CallerChain f x ds) (hy : y ∈ x :: ds) (hp : f y = some p) : p ∈ x :: ds := by
  induction ds generalizing x with
  | nil =>
    obtain rfl : y = x := by simpa using hy
    rw [h.1, h.2] at hp
    cases hp
  | cons d ds ih =>
    rcases List.mem_cons.1 hy with rfl | hy
    · obtain rfl : d = p := Option.some.inj (h.1.symm.trans hp)
      simp
    · exact List.mem_cons_of_mem _ (ih h.2 hy)

theorem Active.mem {s : State F D} {ds : List Ptr} {c : Ptr} (ha : Active s c)
    (hc : Chained s ds) : c ∈ s.sp :: ds := by
  induction ha with
  | self =>
    rw [hc.self]
    exact List.mem_cons_self
  | caller _ hp ih => exact hc.callers.caller_mem ih hp

/-! ## Quiet steps -/

theorem Quiet.trans {s t u : State F D} (h₁ : Quiet s t) (h₂ : Quiet t u) : Quiet s u := by
  obtain ⟨⟨es₁, hlog₁, hes₁⟩, hheads₁⟩ := h₁
  obtain ⟨⟨es₂, hlog₂, hes₂⟩, hheads₂⟩ := h₂
  refine ⟨⟨es₁ ++ es₂, by rw [hlog₂, hlog₁, List.append_assoc], fun e he => ?_⟩, fun d hd => ?_⟩
  · exact (List.mem_append.1 he).elim (hes₁ e) (hes₂ e)
  · have hsame := hheads₁ d hd
    exact hsame.trans (hheads₂ d (hsame.2.trans hd))

/-- Only the heads on stacks have changed. -/
theorem Quiet.of_stack {s t : State F D} {p : Ptr} (es : List (Event F D))
    (hlog : t.log = s.log ++ es) (hes : ∀ e ∈ es, ¬e.EntersUser)
    (hmem : ∀ h, h ≠ .stack p → SameHead s.mem t.mem h) : Quiet s t :=
  ⟨⟨es, hlog, hes⟩, fun d _ => hmem (.field d) (by simp)⟩

/-! ## What the macros do with the lists -/

namespace State

/-- Nothing is moved from an empty list. -/
theorem concat_empty {s : State F D} {h₂ : Head} (he : s.mem.first h₂ = none)
    (ha : s.Alive h₂.owner) (h₁ : Head) (k : State F D → State F D) : s.concat h₁ h₂ k = k s := by
  unfold State.concat
  rw [touching_of_alive (by simpa [he] using ha), Mem.concat_empty he h₁]

/-- A list is not moved behind the tail address of a head that was never initialised. -/
theorem concat_uninitialised {s : State F D} {h₁ h₂ : Head} (hx : s.mem.first h₂ ≠ none)
    (hl : s.mem.last h₁ = none) (h₁a : s.Alive h₁.owner) (h₂a : s.Alive h₂.owner)
    (k : State F D → State F D) : s.concat h₁ h₂ k = s.fault .nullPointer := by
  obtain ⟨x, hx'⟩ := Option.ne_none_iff_exists'.1 hx
  have hm : s.mem.concat h₁ h₂ = none := by simp [Mem.concat, hx', hl]
  unfold State.concat
  rw [touching_of_alive (by simp [hx, hl, h₁a, h₂a]), hm]

/-- Moving a list behind a destroyed element. -/
theorem concat_dangling {s : State F D} {h₁ h₂ : Head} {z : Ptr} (hx : s.mem.first h₂ ≠ none)
    (hl : s.mem.last h₁ = some (.next z)) (hz : ¬s.Alive z) (k : State F D → State F D) :
    s.concat h₁ h₂ k = s.fault .destroyed := by
  unfold State.concat State.touching
  rw [if_neg fun h => hz (h z (by simp [hx, hl, cellOwner]))]

/-- The loop that receives `Running` joins the lists and reaches the `default` of its `switch`,
unless it has to move something behind a destroyed element. -/
theorem resumeAfterExec_joins {u : State F D} (act : ℕ) (coroutine : Ptr) {y : Ptr}
    (hsp : u.Alive u.sp) (hy : u.Alive y) (hf : Anchored u.mem (.field y))
    (hs : Anchored u.mem (.stack u.sp))
    (hz : u.mem.first (.stack u.sp) ≠ none →
      ∀ z, u.mem.last (.field y) = some (.next z) → u.Alive z) :
    ∃ m, u.resumeAfterExec act coroutine y Status.running.val =
        (u.received act y Status.running.val m).abort .badStatus ∧
      ∀ h, h ≠ .field y → h ≠ .stack u.sp → SameHead u.mem m h := by
  obtain ⟨m₁, hm₁, hf₁, hs₁, -, hother₁⟩ := hf.concat hs (by simp)
  obtain ⟨m₂, hm₂, -, -, -, hother₂⟩ := hs₁.concat hf₁ (by simp)
  refine ⟨m₂, ?_, fun h h₁ h₂ => SameHead.trans (hother₁ h h₁ h₂) (hother₂ h h₂ h₁)⟩
  rcases u.resumeAfterExec_cases act coroutine y Status.running.val hm₁ hm₂ hsp hy hf hs
    with he | ⟨-, hne, z, hdead, hlast⟩
  · simpa [Status.val] using he
  · exact absurd (hz hne z hlast) hdead

end State

/-- What is left at the head of the list is what was linked behind the element removed. -/
theorem removeHead_first {m m' : Mem Ptr Head} {h : Head} {x : Ptr} (hx : m.first h = some x)
    (hm : m.removeHead h = some m') : m'.first h = m.next x := by
  cases hn : m.next x with
  | none =>
    obtain rfl := Option.some.inj ((Mem.removeHead_last hx hn).symm.trans hm)
    simp
  | some y =>
    obtain rfl := Option.some.inj ((Mem.removeHead_next hx hn).symm.trans hm)
    simp

/-- Nothing is linked behind the element inserted in a new list. -/
theorem insertTail_init_next {m m' : Mem Ptr Head} {h : Head} {x : Ptr}
    (hm : (m.init h).insertTail h x = some m') : m'.next x = none := by
  have hl : (m.init h).last h = some (.first h) := by simp
  obtain rfl := Option.some.inj ((Mem.insertTail_eq hl x).symm.trans hm)
  simp

/-! ## The loop finds an active coroutine -/

section Pop

variable {s : State F D} {ds : List Ptr}

/-- The callee that the thread's own stack waits for is another coroutine of the chain. -/
theorem Chained.root_callee (hc : Chained s ds) (h0 : s.sp ≠ dummy) {act : ℕ} {coroutine y : Ptr}
    (hf : s.frame dummy = .resume act coroutine dummy (some y)) : 0 < y ∧ s.Alive y := by
  obtain ⟨us, es, hds⟩ := List.append_of_mem
    ((List.mem_cons.1 hc.callers.dummy_mem.1).resolve_left h0.symm)
  obtain ⟨vs, x, hvs⟩ := (List.eq_nil_or_concat (s.sp :: us)).resolve_left (by simp)
  have hsplit : s.sp :: ds = vs ++ x :: dummy :: es := by
    rw [hds, ← List.cons_append, hvs, List.concat_eq_append, List.append_assoc]
    rfl
  obtain ⟨act', coroutine', hf', -⟩ := (hc.waiting.at_split hsplit).frame
  obtain rfl : y = x := by
    have := hf.symm.trans hf'
    simp only [Frame.resume.injEq, Option.some.injEq] at this
    exact this.2.2.2
  have hnd := hc.nodup
  rw [hsplit] at hnd
  have hy := (List.nodup_cons.1 (List.nodup_append.1 hnd).2.1).1
  exact ⟨Nat.pos_of_ne_zero fun h => hy (by simp [h]), hc.alive y (by simp [hsplit])⟩

/-- A coroutine with a caller is not resumed. -/
theorem Chained.pop_called (hc : Chained s ds) (hh : Heads s ds) (hl : s.control = .loop)
    {c : Ptr} (hx : s.mem.first (.stack s.sp) = some c) (hmem : c ∈ s.sp :: ds)
    (h0 : c ≠ dummy) :
    Quiet s s.resumeLoop ∧ s.resumeLoop.control = .aborted .alreadyCalled := by
  obtain ⟨act, coroutine, callee, hf, -⟩ := hc.top.loop hl
  obtain ⟨m, hm, -, hother⟩ := (hh.loop hl).removeHead hx
  rw [State.resumeLoop_first hf hx hm hc.alive_sp (hc.alive c hmem),
    if_neg (hc.callers.caller_ne_none hmem h0)]
  exact ⟨.of_stack [] (by simp [State.abort]) (by simp) hother, rfl⟩

/-- The thread's own stack takes itself off its list. -/
theorem Chained.pop_root_self (hc : Chained s ds) (hh : Heads s ds) (hl : s.control = .loop)
    (hx : s.mem.first (.stack s.sp) = some dummy) (hsp : s.sp = dummy) :
    Quiet s s.resumeLoop ∧ s.resumeLoop.control =
      if s.mem.next dummy = none then .aborted .badStatus else .fault .nullPointer := by
  obtain ⟨act, coroutine, callee, hf, -⟩ := hc.top.loop hl
  obtain ⟨m, hm, -, hother⟩ := (hh.loop hl).removeHead hx
  have hdummy := hc.alive dummy hc.callers.dummy_mem.1
  rw [State.resumeLoop_first hf hx hm hc.alive_sp hdummy, if_pos hc.callers.dummy_mem.2]
  obtain ⟨u, a, co, y, pt, he, husp, rfl, hucr, hud, hlog, hroot⟩ :=
    hc.exec_dummy act coroutine m
  rw [he]
  obtain rfl : y = dummy := hroot.elim (·.2) fun h => absurd hsp h.1
  have hua : u.Alive dummy := by rwa [State.Alive, hucr, hud]
  have hnext : u.mem.first (.stack u.sp) = s.mem.next dummy := by
    have := removeHead_first hx hm
    rw [hsp] at this
    rwa [husp]
  -- the second queue of both concatenations is empty, unless something is linked behind
  have hfield : u.mem.first (.field dummy) = none ∧ u.mem.last (.field dummy) = none := by
    obtain ⟨h₁, h₂⟩ := hother (.field dummy) (by simp)
    exact ⟨h₁.trans hh.root.1, h₂.trans hh.root.2⟩
  cases hn : s.mem.next dummy with
  | none =>
    have he' : u.resumeAfterExec a co dummy Status.running.val =
        (u.received a dummy Status.running.val u.mem).abort .badStatus := by
      unfold State.resumeAfterExec
      rw [State.concat_empty (hnext.trans hn) (by rwa [husp]), State.concat_empty hfield.1 hua]
      simp [Status.val, State.received]
    have hlog' : ((u.received a dummy Status.running.val u.mem).abort .badStatus).log = s.log ++
        [.resumed act dummy, .jump s.sp dummy .running pt,
          .received a dummy Status.running.val] :=
      (congrArg (· ++ _) hlog).trans (List.append_assoc _ _ _)
    rw [he']
    exact ⟨.of_stack _ hlog' (by simp [Event.EntersUser]) hother, by simp [State.abort]⟩
  | some z =>
    have he' : u.resumeAfterExec a co dummy Status.running.val = u.fault .nullPointer :=
      State.concat_uninitialised (by simp [hnext, hn]) hfield.2 hua (by rwa [husp]) _
    rw [he']
    exact ⟨.of_stack _ hlog (by simp [Event.EntersUser]) hother, by simp [State.fault]⟩

/-- What is dangling is the last request of the coroutine that the thread's own stack waits for. -/
theorem dangling_iff {act : ℕ} {coroutine y : Ptr} (hsp : s.sp ≠ dummy)
    (hf : s.frame dummy = .resume act coroutine dummy (some y)) :
    Dangling s ↔ s.mem.first (.stack dummy) ≠ none ∧
      ∃ z, s.mem.last (.field y) = some (.next z) ∧ ¬s.Alive z := by
  constructor
  · rintro ⟨-, hne, act', coroutine', y', z, hf', hz, hdead⟩
    have hframe := hf.symm.trans hf'
    simp only [Frame.resume.injEq, Option.some.injEq] at hframe
    obtain ⟨-, -, -, rfl⟩ := hframe
    exact ⟨hne, z, hz, hdead⟩
  · rintro ⟨hne, z, hz, hdead⟩
    exact ⟨hsp, hne, act, coroutine, y, z, hf, hz, hdead⟩

/-- The thread's own stack is found by another coroutine. -/
theorem Chained.pop_root_waiting (hc : Chained s ds) (hh : Heads s ds) (hl : s.control = .loop)
    (hx : s.mem.first (.stack s.sp) = some dummy) (hsp : s.sp ≠ dummy) :
    Quiet s s.resumeLoop ∧ ((∃ site, s.resumeLoop.control = .aborted site) ↔ ¬Dangling s) := by
  obtain ⟨act, coroutine, callee, hf, -⟩ := hc.top.loop hl
  obtain ⟨m, hm, -, hother⟩ := (hh.loop hl).removeHead hx
  have hdummy := hc.callers.dummy_mem.1
  rw [State.resumeLoop_first hf hx hm hc.alive_sp (hc.alive dummy hdummy),
    if_pos hc.callers.dummy_mem.2]
  obtain ⟨u, a, co, y, pt, he, husp, rfl, hucr, hud, hlog, hroot⟩ :=
    hc.exec_dummy act coroutine m
  rw [he]
  replace hroot : s.frame dummy = .resume a co dummy (some y) :=
    hroot.elim (fun h => absurd h.1 hsp) (·.2)
  obtain ⟨hy0, hya⟩ := hc.root_callee hsp hroot
  have halive : ∀ p, u.Alive p ↔ s.Alive p := fun p => by rw [State.Alive, hucr, hud, State.Alive]
  -- the two lists that are joined are not the one the loop has taken an element from
  have hstack : SameHead s.mem u.mem (.stack u.sp) := hother _ (by simpa [husp] using hsp.symm)
  have hfield : SameHead s.mem u.mem (.field y) := hother _ (by simp)
  have hstack_u := hstack.anchored
    (hh.stack u.sp ((List.mem_cons.1 (husp ▸ hdummy)).resolve_left (by rw [husp]; exact hsp.symm)))
  have hfield_s := hh.field y hy0 hya.1
  rw [dangling_iff hsp hroot]
  by_cases hd : s.mem.first (.stack dummy) ≠ none ∧
      ∃ z, s.mem.last (.field y) = some (.next z) ∧ ¬s.Alive z
  · obtain ⟨hne, z, hz, hdead⟩ := hd
    have hfault : u.resumeAfterExec a co y Status.running.val = u.fault .destroyed := by
      apply State.concat_dangling
      · rw [hstack.1, husp]
        exact hne
      · exact hfield.2.trans hz
      · exact fun h => hdead ((halive z).1 h)
    rw [hfault]
    refine ⟨.of_stack _ hlog (by simp [Event.EntersUser]) hother, ?_⟩
    simp [State.fault, hne, hz, hdead]
  · have hlast : u.mem.first (.stack u.sp) ≠ none →
        ∀ z, u.mem.last (.field y) = some (.next z) → u.Alive z := fun hne z hz => by
      by_contra hdead
      rw [hstack.1, husp] at hne
      exact hd ⟨hne, z, hfield.2.symm.trans hz, fun h => hdead ((halive z).2 h)⟩
    have hdummy_u : u.Alive u.sp := by
      rw [husp]
      exact (halive dummy).2 (hc.alive dummy hdummy)
    obtain ⟨m', he', hother'⟩ := State.resumeAfterExec_joins a co hdummy_u ((halive y).2 hya)
      (hfield.anchored hfield_s) hstack_u hlast
    have hlog' : ((u.received a y Status.running.val m').abort .badStatus).log = s.log ++
        [.resumed act dummy, .jump s.sp dummy .running pt, .received a y Status.running.val] :=
      (congrArg (· ++ _) hlog).trans (List.append_assoc _ _ _)
    rw [he']
    refine ⟨⟨⟨_, hlog', by simp [Event.EntersUser]⟩, fun d hdl => ?_⟩, by simp [State.abort, hd]⟩
    · -- the callee's list was initialised
      have hdy : d ≠ y := by
        rintro rfl
        obtain ⟨cell, hcell, -⟩ := hfield_s.exists_last
        cases hdl.symm.trans hcell
      exact SameHead.trans (hother (.field d) (by simp))
        (hother' (.field d) (by simpa using hdy) (by simp))

/-- **What one iteration of the loop does with an active coroutine.** -/
theorem Chained.pop_active (hc : Chained s ds) (hh : Heads s ds) (hl : s.control = .loop)
    {c : Ptr} (hx : s.mem.first (.stack s.sp) = some c) (hmem : c ∈ s.sp :: ds) :
    Quiet s s.resumeLoop ∧ ((∃ site, s.resumeLoop.control = .aborted site) ↔
      ¬(c = dummy ∧ (RootFollowed s ∨ Dangling s))) := by
  rcases eq_or_ne c dummy with rfl | h0
  · rcases eq_or_ne s.sp dummy with hsp | hsp
    · obtain ⟨hq, hcon⟩ := hc.pop_root_self hh hl hx hsp
      refine ⟨hq, ?_⟩
      rw [hcon]
      cases hn : s.mem.next dummy <;> simp [RootFollowed, Dangling, hl, hsp, hn]
    · obtain ⟨hq, hcon⟩ := hc.pop_root_waiting hh hl hx hsp
      refine ⟨hq, hcon.trans (not_congr ?_)⟩
      simp [RootFollowed, hsp]
  · obtain ⟨hq, hcon⟩ := hc.pop_called hh hl hx hmem h0
    exact ⟨hq, by simp [hcon, h0]⟩

end Pop

/-! ## Attempts -/

section Enter

variable {s : State F D} {ds : List Ptr} {c : Ptr} {m : Mem Ptr Head}

theorem Quiet.afterEnter (hm : (s.mem.init (.stack s.sp)).insertTail (.stack s.sp) c = some m) :
    Quiet s (s.afterEnter c m) :=
  .of_stack [.enter s.log.length s.sp c] rfl (by simp [Event.EntersUser])
    fun _ hne => SameHead.enter hm hne

/-- A new loop finds the thread's own stack alone on its list, and leaves the other lists alone. -/
theorem Chained.afterEnter_root (hu : s.control = .user)
    (hm : (s.mem.init (.stack s.sp)).insertTail (.stack s.sp) dummy = some m) :
    RootFollowed (s.afterEnter dummy m) ∨ Dangling (s.afterEnter dummy m) ↔
      RootFollowed s ∨ Dangling s := by
  have hfollowed : ¬RootFollowed (s.afterEnter dummy m) := fun h =>
    h.2.2 (insertTail_init_next hm)
  have hfollowed' : ¬RootFollowed s := fun h => by cases hu.symm.trans h.1
  rw [or_iff_right hfollowed, or_iff_right hfollowed']
  unfold Dangling
  refine and_congr_right fun hsp => ?_
  replace hsp : s.sp ≠ dummy := hsp
  have hfirst : m.first (.stack dummy) = s.mem.first (.stack dummy) :=
    (SameHead.enter hm (by simpa using hsp.symm)).1
  have hlast : ∀ y, m.last (.field y) = s.mem.last (.field y) := fun y =>
    (SameHead.enter hm (by simp)).2
  simp [State.afterEnter, hfirst, hlast, hsp.symm, State.Alive]

/-- A call that resumes an active coroutine and the first iteration of its loop. -/
theorem Chained.rejected_enter (hc : Chained s ds) (hh : Heads s ds) (hu : s.control = .user)
    (hmem : c ∈ s.sp :: ds) {a : Action F D} (ha : step s a = some (s.resume c)) :
    Rejected s [a, .tick] ↔ ¬(c = dummy ∧ (RootFollowed s ∨ Dangling s)) := by
  obtain ⟨m, hm, -⟩ := (Anchored.init s.mem (.stack s.sp)).insertTail c
  rw [hc.resume_eq (hc.alive c hmem) hm] at ha
  obtain ⟨hh', hfirst⟩ := hh.afterEnter hc hm
  have hc' := hc.afterEnter c hfirst
  obtain ⟨hq, hcon⟩ := hc'.pop_active hh' rfl hfirst hmem
  have hcond : c = dummy ∧ (RootFollowed (s.afterEnter c m) ∨ Dangling (s.afterEnter c m)) ↔
      c = dummy ∧ (RootFollowed s ∨ Dangling s) := by
    apply and_congr_right
    rintro rfl
    exact Chained.afterEnter_root hu hm
  have hrun : run step s [a, .tick] = some (s.afterEnter c m).resumeLoop := by
    rw [run, ha]
    rfl
  rw [← not_congr hcond, ← hcon]
  constructor
  · rintro ⟨t, site, ht, htcon, -⟩
    obtain rfl := Option.some.inj (hrun.symm.trans ht)
    exact ⟨site, htcon⟩
  · rintro ⟨site, hsite⟩
    exact ⟨_, site, hrun, hsite, (Quiet.afterEnter hm).trans hq⟩

end Enter

/-- Every attempt, in a state that keeps the invariants. -/
theorem Attempt.rejected_iff {s : State F D} {ds : List Ptr} {c : Ptr} {bs : List (Action F D)}
    (hb : Attempt s c bs) (hc : Chained s ds) (hh : Heads s ds) (hmem : c ∈ s.sp :: ds) :
    Rejected s bs ↔ ¬(c = dummy ∧ (RootFollowed s ∨ Dangling s)) := by
  cases hb with
  | resume hu => exact hc.rejected_enter hh hu hmem (by simp [step, hu])
  | process hu h0 =>
    apply hc.rejected_enter hh hu hmem
    have hself : s.Alive s.self := by
      rw [hc.self]
      exact hc.alive_sp
    simp [step, hu, State.process, State.touching_of_alive, hself, h0]
  | pop hl hx =>
    obtain ⟨hq, hcon⟩ := hc.pop_active hh hl hx hmem
    have hrun : run step s [.tick] = some s.resumeLoop := by simp [run, step, hl]
    rw [← hcon]
    constructor
    · rintro ⟨t, site, ht, htcon, -⟩
      obtain rfl := Option.some.inj (hrun.symm.trans ht)
      exact ⟨site, htcon⟩
    · rintro ⟨site, hsite⟩
      exact ⟨_, site, hrun, hsite, hq⟩

/-! ## Runs -/

/-- **Re-entry.** In every state of a run, an attempt to resume an active coroutine ends in `abort`
before code of the program runs, without touching a queue that was never initialised, if and only
if it is not the thread's own stack that is resumed with coroutines linked behind it on its own
list, or while it waits with coroutines on its list for one whose last request is destroyed. -/
theorem reentry_rejected_iff {as : List (Action F D)} {s : State F D}
    (hs : run step State.init as = some s) {c : Ptr} (ha : Active s c) {bs : List (Action F D)}
    (hb : Attempt s c bs) :
    Rejected s bs ↔ ¬(c = dummy ∧ (RootFollowed s ∨ Dangling s)) := by
  have hlive : s.Live := by
    cases hb with
    | resume hu => exact Or.inl hu
    | process hu => exact Or.inl hu
    | pop hl => exact Or.inr hl
  obtain ⟨ds, hc, hh, -⟩ := run_holds (P := fun _ _ => True) trivial
    (fun _ _ _ _ _ _ _ _ _ _ => trivial) (obeys_true _ as) hs hlive
  exact hb.rejected_iff hc hh (ha.mem hc)

/-- A coroutine resumes the one that called it. -/
theorem reentry_rejected_caller : ∃ s : State ℕ ℕ,
    run step State.init [.create 0 0 true, .create 0 0 true, .resume 1, .tick, .resume 2, .tick] =
      some s ∧ s.self = 2 ∧ s.caller 2 = some 1 ∧ Rejected s [.resume 1, .tick] := by
  have hrun : ∃ s : State ℕ ℕ, run step State.init [.create 0 0 true, .create 0 0 true,
      .resume 1, .tick, .resume 2, .tick] = some s ∧ s.self = 2 ∧ s.caller 2 = some 1 ∧
      s.control = .user := ⟨_, rfl, rfl, rfl, rfl⟩
  obtain ⟨s, hs, hself, hcaller, hu⟩ := hrun
  refine ⟨s, hs, hself, hcaller, (reentry_rejected_iff hs ?_ (.resume hu)).2 (by simp)⟩
  exact .caller .self (by rw [hself, hcaller])

/-- A coroutine requests the thread's own stack and, behind it, another coroutine; when it yields,
the loop that takes its requests moves the second one behind a `NULL` tail address. -/
theorem reentry_unguarded : ∃ s : State ℕ ℕ,
    run step State.init [.create 0 0 true, .create 0 0 true, .resume 1, .tick, .process dummy,
      .process 2, .yield] = some s ∧
      Active s dummy ∧ Attempt s dummy [.tick] ∧ ¬Rejected s [.tick] ∧
      (step s .tick).map State.control = some (.fault .nullPointer) := by
  refine ⟨_, rfl, .self, .pop rfl rfl, ?_, rfl⟩
  rintro ⟨t, site, ht, hcon, -⟩
  have hfault := congrArg (Option.map State.control) ht
  rw [Option.map_some, hcon] at hfault
  cases hfault

end XcpNgGeneric.Coroutine
