import XcpNgGeneric.Coroutine.Activations

/-!
# Where the jumps arrive

`Sound log` reads a run as one of asymmetric coroutines: every jump of `xcp_coroutine_exec` goes to
the first entry of its target, once, or to the last `xcp_coroutine_exec` that the target itself has
executed; what a loop or a yield receives is what the jump just before sent. The invariant behind
it is `Traced`, which ties the saved control points to the log.

## Main results

* `transfer_sound`: the log of every run in which the thread's own stack is not handed to the
  interface is `Sound`, and the run does not end in one of the two `abort` calls that guard the
  protocol.
-/

namespace XcpNgGeneric.Coroutine

open TailQueue Runs

variable {F D : Type}

/-! ## Programs that never hand out the thread's own stack -/

/-- The thread's own stack is not handed to the interface. -/
def NoRoot (_ : State F D) (a : Action F D) : Prop := a.handed ≠ some dummy

instance (s : State F D) (a : Action F D) : Decidable (NoRoot s a) :=
  inferInstanceAs (Decidable (_ ≠ _))

/-- No queue leads to the thread's own stack. -/
theorem Effect.avoids {s t : State F D} {ds ds' : List Ptr} {a : Action F D}
    (he : Effect s ds a t ds') (hok : NoRoot s a) (hm : Avoids s.mem dummy) :
    Avoids t.mem dummy := by
  cases he with
  | create => exact hm.init _
  | noMemory => exact hm
  | enter _ c m hu ha hc hm' =>
    have hne : c ≠ dummy := by
      rintro rfl
      rcases ha with rfl | ⟨rfl, -⟩ <;> exact hok rfl
    exact (hm.init _).insertTail hne hm'
  | defer act c coroutine p es m hu hds hsp hf hc hne hm' =>
    have hne : c ≠ dummy := by
      rintro rfl
      exact hok rfl
    exact hm.insertTail hne hm'
  | leave => exact hm
  | wake act coroutine x callee m pt e hl hf hx hm' => exact hm.removeHead hm'
  | back act coroutine p es m₁ m₂ returned hu hds hsp hf hco hm₁ hm₂ =>
    exact (hm.concat hm₁).concat hm₂

theorem Avoids.init_state : Avoids (State.init : State F D).mem dummy :=
  ⟨fun _ => by simp [State.init], fun _ => by simp [State.init]⟩

/-! ## What the log says -/

/-- The number of `xcp_coroutine_exec` that were executed on the stack `q`. -/
def execCount (q : Ptr) (past : List (Event F D)) : ℕ :=
  past.countP fun
    | .jump p _ _ _ => p = q
    | _ => false

/-- The coroutine that the loop of `act` resumed last. -/
def lastResumed (act : ℕ) (past : List (Event F D)) : Option Ptr :=
  (past.filterMap fun
    | .resumed a c => if a = act then some c else none
    | _ => none).getLast?

/-- The event `e` continues the history `past` of asymmetric coroutines. -/
def Continues (past : List (Event F D)) : Event F D → Prop
  | .create c _ _ => ∀ cb userData, .create c cb userData ∉ past
  -- to the first entry, if nothing has jumped to `q` yet, or to the last exec of `q`
  | .jump _ q _ pt =>
    (pt = .entry q ∧ ∀ p st pt', .jump p q st pt' ∉ past) ∨
      (pt = .exec q (execCount q past) ∧ 0 < execCount q past)
  | .start c cb arg =>
    ∃ userData p, arg = .userData userData ∧ .create c cb userData ∈ past ∧
      past.getLast? = some (.jump p c .running (.entry c))
  | .received act c val =>
    ∃ p coroutine n st, past.getLast? = some (.jump c p st (.exec p n)) ∧ val = st.val ∧
      past[act]? = some (.enter act p coroutine) ∧ lastResumed act past = some c ∧
      ((st = .suspend ∧ .ret c ∉ past) ∨ (st = .terminated ∧ .ret c ∈ past))
  | .woken c val =>
    ∃ p n, past.getLast? = some (.jump p c .running (.exec c n)) ∧ val = Status.running.val
  | _ => True

/-- The events with which a jump arrives. -/
def Event.arrival : Event F D → Bool
  | .start _ _ _ => true
  | .received _ _ _ => true
  | .woken _ _ => true
  | _ => false

/-- The last event is a jump, which has not arrived. -/
def Jumping (past : List (Event F D)) : Prop :=
  ∃ p q st pt, past.getLast? = some (.jump p q st pt)

/-- A run of asymmetric coroutines: every event continues those before it, and what follows a jump
is its arrival. -/
def Sound (log : List (Event F D)) : Prop :=
  ∀ past e, past ++ [e] <+: log → Continues past e ∧ (Jumping past → e.arrival = true)

theorem Sound.concat {log : List (Event F D)} (h : Sound log) {e : Event F D}
    (he : Continues log e) (ha : Jumping log → e.arrival = true) : Sound (log ++ [e]) := by
  intro past f hp
  rcases List.prefix_concat_iff.1 hp with heq | hp
  · obtain ⟨rfl, hfe⟩ := List.append_inj' heq rfl
    obtain rfl := List.singleton_inj.1 hfe
    exact ⟨he, ha⟩
  · exact h past f hp

theorem execCount_concat (q : Ptr) (past : List (Event F D)) (e : Event F D) :
    execCount q (past ++ [e]) = execCount q past + match e with
      | .jump p _ _ _ => if p = q then 1 else 0
      | _ => 0 := by
  unfold execCount
  rw [List.countP_append, List.countP_singleton]
  cases e <;> simp

theorem lastResumed_concat (act : ℕ) (past : List (Event F D)) (e : Event F D) :
    lastResumed act (past ++ [e]) = match e with
      | .resumed a c => if a = act then some c else lastResumed act past
      | _ => lastResumed act past := by
  unfold lastResumed
  rw [List.filterMap_append]
  cases e with
  | resumed a c =>
    by_cases h : a = act <;> simp [h]
  | _ => simp

/-! ## The invariant -/

/-- How the saved control points and the loops depend on the log. -/
structure Traced (s : State F D) (ds : List Ptr) : Prop where
  sound : Sound s.log
  landed : ¬Jumping s.log
  execs : ∀ q, s.execs q = execCount q s.log
  saved : ∀ p q n, s.env p = some (.exec q n) → 0 < n
  created : ∀ c cb userData, .create c cb userData ∈ s.log → c ≤ s.created
  unstarted : ∀ c, s.created < c ∨ (c ∉ s.sp :: ds ∧ Unstarted s c) →
    ∀ p st pt, .jump p c st pt ∉ s.log
  callee : ∀ p act coroutine self x, s.frame p = .resume act coroutine self (some x) →
    lastResumed act s.log = some x

theorem jumping_concat {past : List (Event F D)} {e : Event F D} :
    Jumping (past ++ [e]) ↔ ∃ p q st pt, e = .jump p q st pt := by
  unfold Jumping
  simp

/-- A step that stays on its stack adds an event that neither jumps nor resumes. -/
theorem Traced.quiet {s t : State F D} {ds : List Ptr} (hT : Traced s ds) {e : Event F D}
    (hlog : t.log = s.log ++ [e]) (he : Continues s.log e) (hj : ∀ p q st pt, e ≠ .jump p q st pt)
    (hr : ∀ act c, e ≠ .resumed act c) (hexecs : t.execs = s.execs)
    (henv : ∀ p q n, t.env p = some (.exec q n) → s.env p = some (.exec q n))
    (hle : s.created ≤ t.created)
    (hnew : ∀ c cb userData, e = .create c cb userData → c ≤ t.created)
    (hun : ∀ c, t.created < c ∨ (c ∉ t.sp :: ds ∧ Unstarted t c) →
      s.created < c ∨ (c ∉ s.sp :: ds ∧ Unstarted s c))
    (hframe : ∀ p act coroutine self x, t.frame p = .resume act coroutine self (some x) →
      s.frame p = .resume act coroutine self (some x)) : Traced t ds := by
  refine ⟨?_, ?_, fun q => ?_, fun p q n h => hT.saved p q n (henv p q n h), ?_, ?_, ?_⟩
  · rw [hlog]
    exact hT.sound.concat he fun h => absurd h hT.landed
  · rw [hlog, jumping_concat]
    rintro ⟨p, q, st, pt, h⟩
    exact hj p q st pt h
  · rw [hexecs, hT.execs, hlog, execCount_concat]
    cases e with
    | jump p q st pt => exact absurd rfl (hj p q st pt)
    | _ => rfl
  · intro c cb userData h
    rw [hlog] at h
    rcases List.mem_append.1 h with h | h
    · exact Nat.le_trans (hT.created c cb userData h) hle
    · exact hnew c cb userData (List.mem_singleton.1 h).symm
  · intro c hc p st pt h
    rw [hlog] at h
    rcases List.mem_append.1 h with h | h
    · exact hT.unstarted c (hun c hc) p st pt h
    · exact hj p c st pt (List.mem_singleton.1 h).symm
  · intro p act coroutine self x h
    rw [hlog, lastResumed_concat]
    have hold := hT.callee p act coroutine self x (hframe p act coroutine self x h)
    cases e with
    | resumed a c => exact absurd rfl (hr a c)
    | _ => exact hold

theorem Traced.afterCreate {s : State F D} {ds : List Ptr} (hT : Traced s ds) (cb : F)
    (userData : D) : Traced (s.afterCreate cb userData) ds := by
  refine hT.quiet (e := .create (s.created + 1) cb userData) rfl ?_ (by simp) (by simp) rfl ?_
    (Nat.le_succ _) (by simp [State.afterCreate]) ?_ (fun p act coroutine self x h => h)
  · intro cb' userData' h
    exact Nat.not_succ_le_self _ (hT.created _ _ _ h)
  · intro p q n h
    by_cases hne : p = s.created + 1
    · subst hne
      simp [State.afterCreate, State.env] at h
    · simpa [State.afterCreate, State.env, hne] using h
  · rintro c (hc | ⟨hcs, hcaller, henv, hframe⟩)
    · exact Or.inl (Nat.lt_of_succ_lt hc)
    · rcases Nat.lt_or_ge s.created c with hlt | hge
      · exact Or.inl hlt
      · have hne : c ≠ s.created + 1 := Nat.ne_of_lt (Nat.lt_succ_of_le hge)
        refine Or.inr ⟨hcs, ?_, ?_, hframe⟩
        · simpa [State.afterCreate, State.caller, hne] using hcaller
        · simpa [State.afterCreate, State.env, hne] using henv

theorem Traced.afterEnter {s : State F D} {ds : List Ptr} (hT : Traced s ds) (c : Ptr)
    (m : Mem Ptr Head) : Traced (s.afterEnter c m) ds := by
  refine hT.quiet (e := .enter s.log.length s.sp c) rfl trivial (by simp) (by simp) rfl
    (fun p q n h => h) (Nat.le_refl _) (by simp) ?_ ?_
  · rintro d (hd | ⟨hds, hcaller, henv, hframe⟩)
    · exact Or.inl hd
    · have hne : d ≠ s.sp := fun h => hds (by simp [State.afterEnter, h])
      exact Or.inr ⟨hds, hcaller, henv, by simpa [State.afterEnter, hne] using hframe⟩
  · intro p act coroutine self x h
    by_cases hps : p = s.sp
    · subst hps
      simp [State.afterEnter] at h
    · simpa [State.afterEnter, hps] using h

theorem Traced.afterDefer {s : State F D} {ds : List Ptr} (hT : Traced s ds) (act : ℕ) (c : Ptr)
    (m : Mem Ptr Head) : Traced (s.afterDefer act c m) ds := by
  refine hT.quiet (e := .process act s.log.length s.sp c) rfl trivial (by simp) (by simp) rfl
    (fun p q n h => h) (Nat.le_refl _) (by simp) ?_ (fun p act coroutine self x h => h)
  rintro d (hd | ⟨hds, hcaller, henv, hframe⟩)
  · exact Or.inl hd
  · exact Or.inr ⟨hds, hcaller, henv, hframe⟩

theorem Traced.afterLeave {s : State F D} {ds : List Ptr} (hT : Traced s ds) (act : ℕ) :
    Traced (s.afterLeave act) ds := by
  refine hT.quiet (e := .leave act) rfl trivial (by simp) (by simp) rfl (fun p q n h => h)
    (Nat.le_refl _) (by simp) ?_ ?_
  · rintro d (hd | ⟨hds, hcaller, henv, hframe⟩)
    · exact Or.inl hd
    · have hne : d ≠ s.sp := fun h => hds (by simp [State.afterLeave, h])
      exact Or.inr ⟨hds, hcaller, henv, by simpa [State.afterLeave, hne] using hframe⟩
  · intro p act' coroutine self x h
    exact (State.resume_afterLeave h).2

/-- A jump and its arrival are one exec. -/
theorem execCount_switch {past : List (Event F D)} {p x : Ptr} {st : Status} {pt : JmpBuf}
    {e : Event F D} (he : e.arrival = true) (q : Ptr) :
    execCount q ((past ++ [.jump p x st pt]) ++ [e]) =
      execCount q past + if p = q then 1 else 0 := by
  rw [execCount_concat, execCount_concat]
  cases e with
  | jump => cases he
  | _ => rfl

/-- They resume nothing. -/
theorem lastResumed_switch {past : List (Event F D)} {p x : Ptr} {st : Status} {pt : JmpBuf}
    {e : Event F D} (he : e.arrival = true) (act : ℕ) :
    lastResumed act ((past ++ [.jump p x st pt]) ++ [e]) = lastResumed act past := by
  rw [lastResumed_concat, lastResumed_concat]
  cases e with
  | resumed => cases he
  | _ => rfl

/-- What the log `past` at a jump out of `s` has in common with the log of `s`. -/
structure Departs (s : State F D) (past : List (Event F D)) : Prop where
  sound : Sound past
  landed : ¬Jumping past
  execs : ∀ q, execCount q past = s.execs q
  created : ∀ c cb userData, .create c cb userData ∈ past → .create c cb userData ∈ s.log
  jumps : ∀ p q st pt, .jump p q st pt ∈ past → .jump p q st pt ∈ s.log

/-- A switch from `s.sp` to `x`, which arrives there with `e`. -/
theorem Traced.switched {s t : State F D} {ds ds' : List Ptr} (hT : Traced s ds)
    {past : List (Event F D)} {x : Ptr} {st : Status} {pt : JmpBuf} {e : Event F D}
    (hp : Departs s past) (hlog : t.log = (past ++ [.jump s.sp x st pt]) ++ [e])
    (hjump : Continues past (.jump s.sp x st pt))
    (he : Continues (past ++ [.jump s.sp x st pt]) e) (harrival : e.arrival = true)
    (hexecs : t.execs = Function.update s.execs s.sp (s.execs s.sp + 1))
    (henv : t.env = Function.update s.env s.sp (some (.exec s.sp (s.execs s.sp + 1))))
    (hle : s.created ≤ t.created)
    (hun : ∀ c, t.created < c ∨ (c ∉ t.sp :: ds' ∧ Unstarted t c) →
      c ≠ x ∧ (s.created < c ∨ (c ∉ s.sp :: ds ∧ Unstarted s c)))
    (hcallee : ∀ p act coroutine self y, t.frame p = .resume act coroutine self (some y) →
      lastResumed act past = some y) : Traced t ds' := by
  have hnojump : ∀ p q st pt, e ≠ .jump p q st pt := by
    rintro p q st pt rfl
    cases harrival
  have hnocreate : ∀ c cb userData, e ≠ .create c cb userData := by
    rintro c cb userData rfl
    cases harrival
  refine ⟨?_, ?_, ?_, ?_, ?_, ?_, ?_⟩
  · rw [hlog]
    exact (hp.sound.concat hjump fun h => absurd h hp.landed).concat he fun _ => harrival
  · rw [hlog, jumping_concat]
    rintro ⟨p, q, st, pt, h⟩
    exact hnojump p q st pt h
  · intro q
    rw [hlog, execCount_switch harrival, hp.execs, hexecs]
    by_cases hq : s.sp = q
    · subst hq
      simp
    · simp [hq, Ne.symm hq]
  · intro p q n h
    rw [henv] at h
    by_cases hps : p = s.sp
    · subst hps
      obtain ⟨-, rfl⟩ : s.sp = q ∧ s.execs s.sp + 1 = n := by simpa using h
      exact Nat.succ_pos _
    · exact hT.saved p q n (by simpa [hps] using h)
  · intro c cb userData h
    have hpast : .create c cb userData ∈ past := by
      simpa [hlog, (hnocreate c cb userData).symm] using h
    exact Nat.le_trans (hT.created c cb userData (hp.created c cb userData hpast)) hle
  · intro c hc p st' pt' h
    obtain ⟨hcx, hold⟩ := hun c hc
    have hpast : .jump p c st' pt' ∈ past := by
      simpa [hlog, hcx, (hnojump p c st' pt').symm] using h
    exact hT.unstarted c hold p st' pt' (hp.jumps p c st' pt' hpast)
  · intro p act coroutine self y h
    rw [hlog, lastResumed_switch harrival]
    exact hcallee p act coroutine self y h

theorem Traced.departs_resumed {s : State F D} {ds : List Ptr} (hT : Traced s ds) (act : ℕ)
    (x : Ptr) : Departs s (s.log ++ [.resumed act x]) := by
  refine ⟨?_, ?_, ?_, by simp, by simp⟩
  · exact hT.sound.concat (e := .resumed act x) trivial fun h => absurd h hT.landed
  · simp [jumping_concat]
  · intro q
    rw [execCount_concat, hT.execs]
    rfl

/-- Resuming `x`: the jump goes to its first entry or to the exec of its last yield. -/
theorem Traced.afterWake {s : State F D} {ds : List Ptr} (hT : Traced s ds) (hn : Numbered s)
    {act : ℕ} {coroutine x : Ptr} {callee : Option Ptr} (m : Mem Ptr Head) {pt : JmpBuf}
    {e : Event F D} (hf : s.frame s.sp = .resume act coroutine s.sp callee) (hxc : x ∉ s.sp :: ds)
    (hxa : s.Alive x)
    (hpt : (Unstarted s x ∧ pt = .entry x ∧ ∃ cb userData, s.cb x = some cb ∧
        .create x cb userData ∈ s.log ∧ e = .start x cb (.userData userData)) ∨
      (Suspended s x ∧ pt = .exec x (s.execs x) ∧ e = .woken x Status.running.val)) :
    Traced (s.afterWake act coroutine x m pt e) (s.sp :: ds) := by
  have hjump : Continues (s.log ++ [.resumed act x]) (.jump s.sp x .running pt) := by
    rcases hpt with ⟨hun, rfl, -⟩ | ⟨hsu, rfl, -⟩
    · refine Or.inl ⟨rfl, fun p st pt' h => ?_⟩
      exact hT.unstarted x (Or.inr ⟨hxc, hun⟩) p st pt' (by simpa using h)
    · have hpos := hT.saved x x (s.execs x) hsu.env
      have hcount := (hT.departs_resumed act x).execs x
      exact Or.inr ⟨by rw [hcount], by rwa [hcount]⟩
  have hland : Continues ((s.log ++ [.resumed act x]) ++ [.jump s.sp x .running pt]) e ∧
      e.arrival = true := by
    rcases hpt with ⟨hun, rfl, cb, userData, -, hcr, rfl⟩ | ⟨hsu, rfl, rfl⟩
    · exact ⟨⟨userData, s.sp, rfl, by simp [hcr], by simp⟩, rfl⟩
    · exact ⟨⟨s.sp, s.execs x, by simp, rfl⟩, rfl⟩
  refine hT.switched (hT.departs_resumed act x) (by simp [State.afterWake]) hjump hland.1 hland.2
    rfl (State.env_afterWake ..) (Nat.le_refl _) ?_ ?_
  · intro c hc
    have hcx : c ≠ x := by
      rintro rfl
      rcases hc with hc | ⟨hc, -⟩
      · exact Nat.lt_irrefl _ (Nat.lt_of_le_of_lt hxa.1 hc)
      · exact hc (by simp [State.afterWake])
    refine ⟨hcx, hc.imp_right ?_⟩
    rintro ⟨hcs, hcaller, henv, hframe⟩
    have hcs' : c ≠ s.sp ∧ c ∉ ds := by simpa [State.afterWake, hcx] using hcs
    refine ⟨by simp [hcs'], ?_, ?_, ?_⟩
    · simpa [hcx] using hcaller
    · simpa [hcs'.1] using henv
    · simpa [State.afterWake, hcx, hcs'.1] using hframe
  · intro p act' coroutine' self x' h
    rw [lastResumed_concat]
    show (if act = act' then some x else lastResumed act' s.log) = some x'
    rcases (State.resume_afterWake h).2 with ⟨-, rfl, -, -, hx⟩ | ⟨hps, h'⟩
    · rw [if_pos rfl, hx]
    · have hact : act ≠ act' := by
        rintro rfl
        exact hps (hn.stack_unique h' hf)
      rw [if_neg hact]
      exact hT.callee p act' coroutine' self x' h'

/-- The log at a jump back to a caller: the coroutine has yielded, or it has returned. -/
theorem Traced.departs_back {s : State F D} {ds : List Ptr} (hT : Traced s ds) (returned : Bool) :
    Departs s (s.log ++ if returned then [.ret s.sp] else []) := by
  cases returned with
  | false =>
    rw [if_neg Bool.false_ne_true, List.append_nil]
    exact ⟨hT.sound, hT.landed, fun q => (hT.execs q).symm, fun _ _ _ h => h, fun _ _ _ _ h => h⟩
  | true =>
    refine ⟨?_, ?_, ?_, by simp, by simp⟩
    · exact hT.sound.concat (e := .ret s.sp) trivial fun h => absurd h hT.landed
    · simp [jumping_concat]
    · intro q
      rw [if_pos rfl, execCount_concat, hT.execs]
      rfl

/-- Giving control back: the jump goes to the exec of the caller's loop. -/
theorem Traced.afterBack {s : State F D} {p : Ptr} {es : List Ptr} (hT : Traced s (p :: es))
    (hc : Chained s (p :: es)) (hn : Numbered s) {act : ℕ} {coroutine : Ptr} (m : Mem Ptr Head)
    (returned : Bool) (hf : s.frame p = .resume act coroutine p (some s.sp)) :
    Traced (s.afterBack act coroutine p returned m) es := by
  have hret := hc.active s.sp (by simp)
  have hpos := hT.saved p p (s.execs p) hc.waiting.1.env
  have hdeparts := hT.departs_back returned
  have hlog : (s.afterBack act coroutine p returned m).log =
      ((s.log ++ if returned then [.ret s.sp] else []) ++
        [.jump s.sp p (backStatus returned) (.exec p (s.execs p))]) ++
        [.received act s.sp (backStatus returned).val] := by
    cases returned <;> simp [State.afterBack]
  have hlast : ∀ act', lastResumed act' (s.log ++ if returned then [.ret s.sp] else []) =
      lastResumed act' s.log := by
    intro act'
    cases returned with
    | false => rw [if_neg Bool.false_ne_true, List.append_nil]
    | true => rw [if_pos rfl, lastResumed_concat]
  refine hT.switched hdeparts hlog ?_ ?_ rfl ?_ (State.env_afterBack ..) (Nat.le_refl _) ?_ ?_
  · exact Or.inr ⟨by rw [hdeparts.execs], by rwa [hdeparts.execs]⟩
  · refine ⟨p, coroutine, s.execs p, backStatus returned, by simp, rfl, ?_, ?_, ?_⟩
    · rw [List.append_assoc]
      exact getElem?_append_of_some (hn.frame _ _ _ _ _ hf).1 _
    · rw [lastResumed_concat, hlast]
      exact hT.callee p act coroutine p s.sp hf
    · cases returned with
      | false => exact Or.inl ⟨rfl, by simp [hret]⟩
      | true => exact Or.inr ⟨rfl, by simp⟩
  · cases returned <;> rfl
  · intro c hcu
    have hcs : c ≠ s.sp := by
      rintro rfl
      rcases hcu with hlt | ⟨-, hun⟩
      · exact Nat.lt_irrefl _ (Nat.lt_of_le_of_lt hc.alive_sp.1 hlt)
      · have := hun.frame
        cases returned <;> simp [State.afterBack] at this
    have hcp : c ≠ p := by
      rintro rfl
      rcases hcu with hlt | ⟨hmem, -⟩
      · exact Nat.lt_irrefl _ (Nat.lt_of_le_of_lt (hc.alive c (by simp)).1 hlt)
      · exact hmem (by simp [State.afterBack])
    refine ⟨hcp, hcu.imp_right ?_⟩
    rintro ⟨hmem, hcaller, henv, hframe⟩
    refine ⟨?_, ?_, ?_, ?_⟩
    · intro h
      exact (List.mem_cons.1 h).elim hcs hmem
    · simpa [hcs] using hcaller
    · simpa [hcs] using henv
    · simpa [State.afterBack, hcs] using hframe
  · intro q act' coroutine' self x h
    rw [hlast]
    exact hT.callee q act' coroutine' self x (State.resume_afterBack h).2

/-- **Every effect keeps the saved control points in step with the log.** -/
theorem Effect.traced {s t : State F D} {ds ds' : List Ptr} {a : Action F D}
    (he : Effect s ds a t ds') (hc : Chained s ds) (hn : Numbered s) (hT : Traced s ds) :
    Traced t ds' := by
  cases he with
  | create cb userData hu => exact hT.afterCreate cb userData
  | noMemory cb userData hu => exact hT
  | enter a c m => exact hT.afterEnter c m
  | defer act c coroutine p es m => exact hT.afterDefer act c m
  | leave act => exact hT.afterLeave act
  | wake act coroutine x callee m pt e hl hf hx hm h0 hxa hxc hret hpt =>
    exact hT.afterWake hn m hf hxc hxa hpt
  | back act coroutine p es m₁ m₂ returned hu hds hsp hf =>
    subst hds
    exact hT.afterBack hc hn m₂ returned hf

theorem Traced.init : Traced (State.init : State F D) [] := by
  refine ⟨fun past e h => ?_, ?_, fun _ => rfl, fun p q n h => (by cases h), ?_, ?_, ?_⟩
  · simp [State.init] at h
  · simp [State.init, Jumping]
  · simp [State.init]
  · simp [State.init]
  · exact fun p act coroutine self x h => by cases h

/-! ## Runs -/

/-- **Control is transferred as between asymmetric coroutines.** In a run that does not hand out
the thread's own stack and does not access a destroyed coroutine, every jump and every status
received is accounted for, no jump is stale, and neither the `abort` after the last exec of
`xcp_coroutine_run` nor the `default` of the loop of `xcp_coroutine_resume` is reached. -/
theorem transfer_sound {as : List (Action F D)} {t : State F D}
    (hok : Obeys step NoRoot State.init as) (ht : run step State.init as = some t)
    (hd : t.control ≠ .fault .destroyed) :
    Sound t.log ∧ ¬Jumping t.log ∧ t.control ≠ .aborted .runEnd ∧
      t.control ≠ .aborted .badStatus ∧ ∀ why, t.control ≠ .fault why := by
  have h := run_effects
    (P := fun s ds => (Numbered s ∧ Traced s ds ∧ Avoids s.mem dummy) ∧ s.Settled)
    ⟨⟨Numbered.init, Traced.init, Avoids.init_state⟩, Or.inl rfl⟩
    (fun s ds a t ds' hc _ hP ha he =>
      ⟨⟨he.numbered hP.1.1, he.traced hc hP.1.1 hP.1.2.1, he.avoids ha hP.1.2.2⟩, he.settled⟩)
    hok ht
  rcases h with
    ⟨ds, hc, hh, ⟨hn, hT, -⟩, hcon⟩ | ⟨s, ds, a, hc, hh, ⟨⟨hn, hT, hm⟩, -⟩, -, hdead⟩
  · refine ⟨hT.sound, hT.landed, ?_⟩
    rcases hcon with h | h | h
    · simp [h]
    · simp [h]
    · exact absurd h hd
  · rcases hdead.why with ⟨hlog, hcon⟩ | ⟨hcon, -⟩ | ⟨-, hfirst, -⟩
    · rw [hlog]
      refine ⟨hT.sound, hT.landed, ?_⟩
      rcases hcon with ⟨h, -⟩ | ⟨h, -⟩ | ⟨h, -⟩ <;> simp [h]
    · exact absurd hcon hd
    · exact absurd hfirst (hm.first _)

/-- A coroutine that yields, is resumed and returns. -/
theorem transfer_sound_yield_ret : ∃ t : State ℕ ℕ,
    run step State.init [.create 0 7 true, .resume 1, .tick, .yield, .tick, .resume 1, .tick,
      .ret, .tick] = some t ∧ t.control = .user ∧ t.destroyed = [1] ∧ Sound t.log := by
  have ht : ∃ t : State ℕ ℕ,
      run step State.init [.create 0 7 true, .resume 1, .tick, .yield, .tick, .resume 1, .tick,
        .ret, .tick] = some t ∧ t.control = .user ∧ t.destroyed = [1] := ⟨_, rfl, rfl, rfl⟩
  obtain ⟨t, ht, hu, hd⟩ := ht
  exact ⟨t, ht, hu, hd, (transfer_sound (by decide) ht (by simp [hu])).1⟩

end XcpNgGeneric.Coroutine
