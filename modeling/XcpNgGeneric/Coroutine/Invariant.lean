import XcpNgGeneric.Coroutine.Effects
import XcpNgGeneric.Foundations.Runs

/-!
# The control invariant holds in every run

Every effect keeps `Chained` and `Heads` (`Effect.chained`, `Effect.heads`), whatever the program
does. `run_effects` packages the induction for the later modules: a property kept by the effects
holds in every state of a run, except that the last step may have ended it (`Dead`).
-/

namespace XcpNgGeneric.Coroutine

open TailQueue Runs

variable {F D : Type}

/-! ## Coroutines that a step leaves alone -/

/-- The control data of `c` is the same in both states. -/
structure Same (s t : State F D) (c : Ptr) : Prop where
  caller : t.caller c = s.caller c
  env : t.env c = s.env c
  execs : t.execs c = s.execs c
  frame : t.frame c = s.frame c
  ret : .ret c ∈ t.log ↔ .ret c ∈ s.log

theorem Same.waiting {s t : State F D} {x p : Ptr} {ds : List Ptr} (h : Same s t p)
    (hw : Waiting s x p ds) : Waiting t x p ds := by
  obtain ⟨henv, hframe⟩ := hw
  refine ⟨?_, by rw [h.frame]; exact hframe⟩
  rw [h.env, h.execs, henv]

theorem Same.inactive {s t : State F D} {c : Ptr} (h : Same s t c) (hi : Inactive s c) :
    Inactive t c := by
  unfold Inactive at *
  rw [h.ret, h.caller]
  refine hi.imp_left fun ⟨hret, hs⟩ => ⟨hret, hs.imp (fun hu => ?_) fun hu => ?_⟩
  · exact ⟨h.caller.trans hu.caller, h.env.trans hu.env, h.frame.trans hu.frame⟩
  · refine ⟨h.caller.trans hu.caller, ?_, h.frame.trans hu.frame⟩
    rw [h.env, h.execs, hu.env]

theorem Owned.mono {s t : State F D} {c : Ptr} (h : Owned s c)
    (hrun : t.runLocal c = s.runLocal c) (hcb : t.cb c = s.cb c) (harg : t.arg c = s.arg c)
    (hlog : ∀ e ∈ s.log, e ∈ t.log) : Owned t c := by
  obtain ⟨h₁, cb, userData, h₂, h₃, h₄⟩ := h
  exact ⟨hrun.trans h₁, cb, userData, hcb.trans h₂, harg.trans h₃, hlog _ h₄⟩

/-- The waiting coroutines below the top of the chain keep waiting if they are left alone. -/
theorem Chained.waiting_mono {s t : State F D} {ds : List Ptr} (hc : Chained s ds)
    (h : ∀ p ∈ ds, Same s t p) : Along (Waiting t) s.sp ds := by
  refine hc.waiting.mono fun us y p es he hw => (h p ?_).waiting hw
  cases us with
  | nil =>
    obtain ⟨-, rfl⟩ : s.sp = y ∧ ds = p :: es := by simpa using he
    exact List.mem_cons_self
  | cons u us =>
    obtain ⟨-, rfl⟩ : s.sp = u ∧ ds = us ++ y :: p :: es := by simpa using he
    simp

theorem Chained.sp_not_mem {s : State F D} {ds : List Ptr} (hc : Chained s ds) : s.sp ∉ ds :=
  (List.nodup_cons.1 hc.nodup).1

theorem Chained.ne_sp {s : State F D} {ds : List Ptr} (hc : Chained s ds) {p : Ptr}
    (hp : p ∈ ds) : p ≠ s.sp := fun h => hc.sp_not_mem (h ▸ hp)

theorem Chained.fresh_ne_sp {s : State F D} {ds : List Ptr} (hc : Chained s ds) {c : Ptr}
    (h : s.created < c) : c ≠ s.sp :=
  fun he => Nat.lt_irrefl _ (Nat.lt_of_le_of_lt hc.alive_sp.1 (he ▸ h))

/-! ## The chain is kept -/

theorem Chained.afterCreate {s : State F D} {ds : List Ptr} (hc : Chained s ds)
    (hu : s.control = .user) (cb : F) (userData : D) :
    Chained (s.afterCreate cb userData) ds := by
  have hsame : ∀ p, p ≤ s.created → Same s (s.afterCreate cb userData) p := fun p hp => by
    have hne : p ≠ s.created + 1 := Nat.ne_of_lt (Nat.lt_succ_of_le hp)
    constructor <;> simp [State.afterCreate, State.caller, State.env, hne]
  have hnew : s.sp ≠ s.created + 1 := hc.alive_sp.ne_fresh
  refine ⟨hc.self, hc.nodup, ?_, ?_, ?_, ?_, ?_, ?_, ?_, ?_⟩
  · exact hc.callers.congr fun y hy => (hsame y (hc.alive y hy).1).caller
  · exact fun x hx => ⟨Nat.le_succ_of_le (hc.alive x hx).1, (hc.alive x hx).2⟩
  · exact fun x hx h => hc.active x hx ((hsame x (hc.alive x hx).1).ret.1 h)
  · exact hc.waiting_mono fun p hp => hsame p (hc.alive p (by simp [hp])).1
  · exact ⟨fun _ => hc.top.user hu, fun h => by cases h⟩
  · intro c h0 hle hcs
    rcases Nat.le_succ_iff.1 hle with hle | rfl
    · exact (hsame c hle).inactive (hc.inactive c h0 hle hcs)
    · obtain ⟨hidle, hret⟩ := hc.fresh (s.created + 1) (Nat.lt_succ_self _)
      refine Or.inl ⟨by simpa [State.afterCreate] using hret, Or.inl ⟨?_, ?_, hidle⟩⟩ <;>
        simp [State.afterCreate, State.caller, State.env]
  · intro c h0 hle
    rcases Nat.le_succ_iff.1 hle with hle | rfl
    · have hne : c ≠ s.created + 1 := Nat.ne_of_lt (Nat.lt_succ_of_le hle)
      refine (hc.owned c h0 hle).mono ?_ ?_ ?_ ?_ <;>
        simp +contextual [State.afterCreate, State.cb, State.arg, hne]
    · exact ⟨by simp [State.afterCreate], cb, userData, by
        simp [State.afterCreate, State.cb, State.arg]⟩
  · intro c hlt
    obtain ⟨hidle, hret⟩ := hc.fresh c (Nat.lt_of_succ_lt hlt)
    exact ⟨hidle, by simpa [State.afterCreate] using hret⟩

theorem Chained.afterEnter {s : State F D} {ds : List Ptr} (hc : Chained s ds) (c : Ptr)
    {m : Mem Ptr Head} (hm : m.first (.stack s.sp) = some c) : Chained (s.afterEnter c m) ds := by
  have hsame : ∀ p, p ≠ s.sp → Same s (s.afterEnter c m) p := fun p hp => by
    constructor <;> simp [State.afterEnter, State.caller, State.env, hp]
  refine ⟨hc.self, hc.nodup, hc.callers, hc.alive, ?_, ?_, ?_, ?_, ?_, ?_⟩
  · simpa [State.afterEnter] using hc.active
  · exact hc.waiting_mono fun p hp => hsame p (hc.ne_sp hp)
  · refine ⟨fun h => (by cases h), fun _ => ⟨s.log.length, c, none, ?_, fun _ => hm, ?_⟩⟩ <;>
      simp [State.afterEnter]
  · exact fun d h0 hle hd => (hsame d fun h => hd (by simp [State.afterEnter, h])).inactive
      (hc.inactive d h0 hle hd)
  · exact fun d h0 hle => (hc.owned d h0 hle).mono rfl rfl rfl (by simp +contextual
      [State.afterEnter])
  · intro d hlt
    obtain ⟨hidle, hret⟩ := hc.fresh d hlt
    have hne := hc.fresh_ne_sp hlt
    exact ⟨by simp [State.afterEnter, hne, hidle], by simpa [State.afterEnter] using hret⟩

theorem Chained.afterDefer {s : State F D} {ds : List Ptr} (hc : Chained s ds)
    (hu : s.control = .user) (act : ℕ) (c : Ptr) (m : Mem Ptr Head) :
    Chained (s.afterDefer act c m) ds := by
  have hsame : ∀ p, Same s (s.afterDefer act c m) p := fun p => by
    constructor <;> simp [State.afterDefer, State.caller, State.env]
  refine ⟨hc.self, hc.nodup, hc.callers, hc.alive, ?_, ?_, ?_, ?_, ?_, ?_⟩
  · exact fun x hx h => hc.active x hx ((hsame x).ret.1 h)
  · exact hc.waiting_mono fun p _ => hsame p
  · exact ⟨hc.top.user, fun h => by cases hu.symm.trans h⟩
  · exact fun d h0 hle hd => (hsame d).inactive (hc.inactive d h0 hle hd)
  · exact fun d h0 hle => (hc.owned d h0 hle).mono rfl rfl rfl (by simp +contextual
      [State.afterDefer])
  · exact fun d hlt => (hc.fresh d hlt).imp_right (by simp [State.afterDefer])

theorem Chained.afterLeave {s : State F D} {ds : List Ptr} (hc : Chained s ds) (act : ℕ) :
    Chained (s.afterLeave act) ds := by
  have hsame : ∀ p, p ≠ s.sp → Same s (s.afterLeave act) p := fun p hp => by
    constructor <;> simp [State.afterLeave, State.caller, State.env, hp]
  refine ⟨hc.self, hc.nodup, hc.callers, hc.alive, ?_, ?_, ?_, ?_, ?_, ?_⟩
  · simpa [State.afterLeave] using hc.active
  · exact hc.waiting_mono fun p hp => hsame p (hc.ne_sp hp)
  · exact ⟨fun _ => by simp [State.afterLeave], fun h => by cases h⟩
  · exact fun d h0 hle hd => (hsame d fun h => hd (by simp [State.afterLeave, h])).inactive
      (hc.inactive d h0 hle hd)
  · exact fun d h0 hle => (hc.owned d h0 hle).mono rfl rfl rfl (by simp +contextual
      [State.afterLeave])
  · intro d hlt
    obtain ⟨hidle, hret⟩ := hc.fresh d hlt
    have hne := hc.fresh_ne_sp hlt
    exact ⟨by simp [State.afterLeave, hne, hidle], by simpa [State.afterLeave] using hret⟩

/-! The two switches of stacks. -/

@[simp] theorem State.caller_afterWake (s : State F D) (act : ℕ) (coroutine x : Ptr)
    (m : Mem Ptr Head) (pt : JmpBuf) (e : Event F D) :
    (s.afterWake act coroutine x m pt e).caller = Function.update s.caller x (some s.sp) := by
  refine ((s.setCaller x (some s.sp)).caller_setEnv s.sp _).trans (s.caller_setCaller x _)

@[simp] theorem State.env_afterWake (s : State F D) (act : ℕ) (coroutine x : Ptr)
    (m : Mem Ptr Head) (pt : JmpBuf) (e : Event F D) :
    (s.afterWake act coroutine x m pt e).env =
      Function.update s.env s.sp (some (.exec s.sp (s.execs s.sp + 1))) := by
  apply ((s.setCaller x (some s.sp)).env_setEnv s.sp _).trans
  rw [State.env_setCaller]

@[simp] theorem State.caller_afterBack (s : State F D) (act : ℕ) (coroutine p : Ptr)
    (returned : Bool) (m : Mem Ptr Head) :
    (s.afterBack act coroutine p returned m).caller =
      Function.update s.caller s.sp (if returned then some p else none) := by
  refine ((s.setCaller s.sp _).caller_setEnv s.sp _).trans (s.caller_setCaller s.sp _)

@[simp] theorem State.env_afterBack (s : State F D) (act : ℕ) (coroutine p : Ptr)
    (returned : Bool) (m : Mem Ptr Head) :
    (s.afterBack act coroutine p returned m).env =
      Function.update s.env s.sp (some (.exec s.sp (s.execs s.sp + 1))) := by
  apply ((s.setCaller s.sp _).env_setEnv s.sp _).trans
  rw [State.env_setCaller]

theorem State.cb_afterWake (s : State F D) (act : ℕ) (coroutine x : Ptr)
    (m : Mem Ptr Head) (pt : JmpBuf) (e : Event F D) :
    (s.afterWake act coroutine x m pt e).cb = s.cb :=
  ((s.setCaller x (some s.sp)).cb_setEnv s.sp _).trans (s.cb_setCaller x _)

theorem State.arg_afterWake (s : State F D) (act : ℕ) (coroutine x : Ptr)
    (m : Mem Ptr Head) (pt : JmpBuf) (e : Event F D) :
    (s.afterWake act coroutine x m pt e).arg = s.arg :=
  ((s.setCaller x (some s.sp)).arg_setEnv s.sp _).trans (s.arg_setCaller x _)

theorem State.cb_afterBack (s : State F D) (act : ℕ) (coroutine p : Ptr) (returned : Bool)
    (m : Mem Ptr Head) : (s.afterBack act coroutine p returned m).cb = s.cb :=
  ((s.setCaller s.sp _).cb_setEnv s.sp _).trans (s.cb_setCaller s.sp _)

theorem State.arg_afterBack (s : State F D) (act : ℕ) (coroutine p : Ptr) (returned : Bool)
    (m : Mem Ptr Head) : (s.afterBack act coroutine p returned m).arg = s.arg :=
  ((s.setCaller s.sp _).arg_setEnv s.sp _).trans (s.arg_setCaller s.sp _)

theorem Chained.afterWake {s : State F D} {ds : List Ptr} (hc : Chained s ds) {act : ℕ}
    {coroutine x : Ptr} {m : Mem Ptr Head} {pt : JmpBuf} {e : Event F D} (hxa : s.Alive x)
    (hxc : x ∉ s.sp :: ds) (hret : .ret x ∉ s.log) (hco : coroutine ∉ s.sp :: ds)
    (he : ∀ c, e ≠ .ret c) :
    Chained (s.afterWake act coroutine x m pt e) (s.sp :: ds) := by
  have hlog : ∀ c, .ret c ∈ (s.afterWake act coroutine x m pt e).log ↔ .ret c ∈ s.log := fun c => by
    simp [State.afterWake, (he c).symm]
  have hxs : x ≠ s.sp := fun h => hxc (by simp [h])
  have hsame : ∀ p, p ≠ s.sp → p ≠ x → Same s (s.afterWake act coroutine x m pt e) p :=
    fun p hp hx => by
      refine ⟨by simp [hx], by simp [hp], ?_, ?_, hlog p⟩ <;> simp [State.afterWake, hp, hx]
  refine ⟨rfl, List.nodup_cons.2 ⟨hxc, hc.nodup⟩, ⟨?_, ?_⟩, ?_, ?_, ⟨⟨?_, ?_⟩, ?_⟩, ?_, ?_, ?_, ?_⟩
  · simp only [State.caller_afterWake]
    exact Function.update_self x _ _
  · apply hc.callers.congr
    intro y hy
    rw [State.caller_afterWake, Function.update_of_ne fun h : y = x => hxc (h ▸ hy)]
  · exact List.forall_mem_cons.2 ⟨hxa, hc.alive⟩
  · refine List.forall_mem_cons.2 ⟨?_, fun y hy h => hc.active y hy ((hlog y).1 h)⟩
    exact fun h => hret ((hlog x).1 h)
  · rw [State.env_afterWake]
    simp [State.afterWake]
  · exact ⟨act, coroutine, by simp [State.afterWake, hxs.symm], hco⟩
  · exact hc.waiting_mono fun p hp => hsame p (hc.ne_sp hp) fun h => hxc (by simp [← h, hp])
  · exact ⟨fun _ => by simp [State.afterWake], fun h => by cases h⟩
  · intro c h0 hle hcs
    have hcs' : c ≠ x ∧ c ≠ s.sp ∧ c ∉ ds := by simpa [State.afterWake] using hcs
    exact (hsame c hcs'.2.1 hcs'.1).inactive (hc.inactive c h0 hle (by simp [hcs'.2]))
  · refine fun c h0 hle => (hc.owned c h0 hle).mono rfl ?_ ?_ (by simp +contextual
      [State.afterWake])
    · rw [State.cb_afterWake]
    · rw [State.arg_afterWake]
  · intro c hlt
    obtain ⟨hidle, hret'⟩ := hc.fresh c hlt
    have hx : c ≠ x := fun h => Nat.lt_irrefl _ (Nat.lt_of_le_of_lt hxa.1 (h ▸ hlt))
    exact ⟨by simp [State.afterWake, hc.fresh_ne_sp hlt, hx, hidle], fun h => hret' ((hlog c).1 h)⟩

theorem Chained.afterBack {s : State F D} {p : Ptr} {es : List Ptr} (hc : Chained s (p :: es))
    {act : ℕ} {coroutine : Ptr} (m : Mem Ptr Head) (returned : Bool)
    (hf : s.frame p = .resume act coroutine p (some s.sp)) (hco : coroutine ∉ p :: es) :
    Chained (s.afterBack act coroutine p returned m) es := by
  have hlog : ∀ c, .ret c ∈ (s.afterBack act coroutine p returned m).log ↔
      .ret c ∈ s.log ∨ returned = true ∧ c = s.sp := fun c => by
    cases returned <;> simp [State.afterBack]
  have hsame : ∀ c, c ≠ s.sp → Same s (s.afterBack act coroutine p returned m) c := fun c hne => by
    refine ⟨by simp [hne], by simp [hne], ?_, ?_, by simp [hlog, hne]⟩ <;>
      simp [State.afterBack, hne]
  have hps : p ≠ s.sp := hc.ne_sp (by simp)
  refine ⟨rfl, (List.nodup_cons.1 hc.nodup).2, ?_, ?_, ?_, ?_, ?_, ?_, ?_, ?_⟩
  · exact hc.callers.2.congr fun y hy => (hsame y (hc.ne_sp hy)).caller
  · intro x hx
    obtain ⟨hle, hnd⟩ := hc.alive x (List.mem_cons_of_mem _ hx)
    refine ⟨hle, fun h => ?_⟩
    have hxco : x ≠ coroutine := fun h => hco (h ▸ hx)
    cases returned <;> simp [State.afterBack, hnd, hxco] at h
  · exact fun x hx h => hc.active x (List.mem_cons_of_mem _ hx) ((hsame x (hc.ne_sp hx)).ret.1 h)
  · refine hc.waiting.2.mono fun us y q ds he hw => (hsame q (hc.ne_sp ?_)).waiting hw
    simp [he]
  · refine ⟨fun h => ?_, fun _ => ⟨act, coroutine, some s.sp, ?_, by simp, fun _ => hco⟩⟩
    · simp only [State.afterBack] at h
      split at h <;> cases h
    · simpa [State.afterBack, hps] using hf
  · intro c h0 hle hcs
    by_cases hne : c = s.sp
    · subst hne
      have hact := hc.active s.sp (by simp)
      cases returned with
      | true => exact Or.inr ⟨(hlog s.sp).2 (Or.inr ⟨rfl, rfl⟩), by simp⟩
      | false =>
        refine Or.inl ⟨by simp [hlog, hact], Or.inr ⟨by simp, ?_, ?_⟩⟩
        · rw [State.env_afterBack]
          simp [State.afterBack]
        · simp [State.afterBack]
    · refine (hsame c hne).inactive (hc.inactive c h0 hle ?_)
      exact fun h => (List.mem_cons.1 h).elim hne hcs
  · refine fun c h0 hle => (hc.owned c h0 hle).mono rfl ?_ ?_ (by simp +contextual
      [State.afterBack])
    · rw [State.cb_afterBack]
    · rw [State.arg_afterBack]
  · intro c hlt
    obtain ⟨hidle, hret⟩ := hc.fresh c hlt
    have hne := hc.fresh_ne_sp hlt
    exact ⟨by simp [State.afterBack, hne, hidle], fun h => hret ((hsame c hne).ret.1 h)⟩

/-! ## The heads are kept -/

/-- The head `h` is the same in both memories. -/
def SameHead (m m' : Mem Ptr Head) (h : Head) : Prop :=
  m'.first h = m.first h ∧ m'.last h = m.last h

theorem SameHead.anchored {m m' : Mem Ptr Head} {h : Head} (hs : SameHead m m' h)
    (ha : Anchored m h) : Anchored m' h := ha.congr hs.1 hs.2

theorem SameHead.trans {m₁ m₂ m₃ : Mem Ptr Head} {h : Head} (h₁ : SameHead m₁ m₂ h)
    (h₂ : SameHead m₂ m₃ h) : SameHead m₁ m₃ h := ⟨h₂.1.trans h₁.1, h₂.2.trans h₁.2⟩

theorem SameHead.init (m : Mem Ptr Head) {h k : Head} (hne : k ≠ h) : SameHead m (m.init h) k := by
  simp [SameHead, hne]

/-- A new loop writes only its own head. -/
theorem SameHead.enter {m m' : Mem Ptr Head} {h k : Head} {c : Ptr}
    (hm : (m.init h).insertTail h c = some m') (hne : k ≠ h) : SameHead m m' k := by
  obtain ⟨m₁, hm₁, -, -, hother⟩ := (Anchored.init m h).insertTail c
  obtain rfl : m₁ = m' := Option.some.inj (hm₁.symm.trans hm)
  exact (SameHead.init m hne).trans (hother k hne)

/-- A step that writes the head of one queue of an active coroutine only. -/
theorem Heads.mono {s t : State F D} {ds : List Ptr} (hh : Heads s ds) (hsp : t.sp = s.sp)
    (hcr : t.created = s.created) (hl : t.control = .loop → Anchored t.mem (.stack s.sp))
    (hfield : ∀ c, c ≠ s.sp → SameHead s.mem t.mem (.field c))
    (hown : 0 < s.sp → s.sp ≤ s.created → Anchored t.mem (.field s.sp))
    (hroot : s.sp = dummy → SameHead s.mem t.mem (.field dummy))
    (hstack : ∀ p ∈ ds, SameHead s.mem t.mem (.stack p)) : Heads t ds := by
  refine ⟨fun c h0 hle => ?_, fun c hc => ?_, ?_, ?_, ?_⟩
  · by_cases hne : c = s.sp
    · subst hne
      exact hown h0 (hcr ▸ hle)
    · exact (hfield c hne).anchored (hh.field c h0 (hcr ▸ hle))
  · rw [hsp] at hc
    have hne : c ≠ s.sp := fun h => hc (by simp [h])
    exact (hfield c hne).1.trans (hh.empty c hc)
  · have hsame : SameHead s.mem t.mem (.field dummy) := by
      rcases eq_or_ne s.sp dummy with h0 | h0
      · exact hroot h0
      · exact hfield dummy (Ne.symm h0)
    exact ⟨hsame.1.trans hh.root.1, hsame.2.trans hh.root.2⟩
  · exact fun p hp => (hstack p hp).anchored (hh.stack p hp)
  · rw [hsp]
    exact hl

theorem Heads.afterCreate {s : State F D} {ds : List Ptr} (hh : Heads s ds)
    (cb : F) (userData : D) : Heads (s.afterCreate cb userData) ds := by
  have hsame : ∀ h, h ≠ .field (s.created + 1) → SameHead s.mem (s.afterCreate cb userData).mem h :=
    fun h hne => SameHead.init s.mem hne
  refine ⟨fun c h0 hle => ?_, fun c hcs => ?_, ?_, ?_, fun h => by cases h⟩
  · rcases Nat.le_succ_iff.1 hle with hle | rfl
    · have hne : c ≠ s.created + 1 := Nat.ne_of_lt (Nat.lt_succ_of_le hle)
      exact (hsame _ (by simpa using hne)).anchored (hh.field c h0 hle)
    · exact Anchored.init s.mem (.field (s.created + 1))
  · by_cases hne : c = s.created + 1
    · subst hne
      simp [State.afterCreate]
    · exact (hsame _ (by simpa using hne)).1.trans (hh.empty c hcs)
  · have hroot := hsame (.field dummy) (by simp)
    exact ⟨hroot.1.trans hh.root.1, hroot.2.trans hh.root.2⟩
  · exact fun p hp => (hsame _ (by simp)).anchored (hh.stack p hp)

theorem Heads.afterEnter {s : State F D} {ds : List Ptr} (hc : Chained s ds) (hh : Heads s ds)
    {c : Ptr} {m : Mem Ptr Head}
    (hm : (s.mem.init (.stack s.sp)).insertTail (.stack s.sp) c = some m) :
    Heads (s.afterEnter c m) ds ∧ m.first (.stack s.sp) = some c := by
  obtain ⟨m', hm', ha, hfirst, -⟩ := (Anchored.init s.mem (.stack s.sp)).insertTail c
  obtain rfl : m' = m := Option.some.inj (hm'.symm.trans hm)
  have hsame : ∀ h, h ≠ .stack s.sp → SameHead s.mem m' h := fun h hne => .enter hm hne
  have hfield : ∀ c, SameHead s.mem m' (.field c) := fun c => hsame _ (by simp)
  refine ⟨hh.mono rfl rfl (fun _ => ha) (fun c _ => hfield c) ?_ (fun _ => hfield dummy) ?_,
    hfirst (by simp)⟩
  · exact fun h0 hle => (hfield s.sp).anchored (hh.field s.sp h0 hle)
  · exact fun p hp => hsame _ (by simpa using hc.ne_sp hp)

theorem Heads.afterDefer {s : State F D} {ds : List Ptr} (hc : Chained s ds) (hh : Heads s ds)
    (hu : s.control = .user) (hsp : s.sp ≠ dummy) (act : ℕ) {c : Ptr} {m : Mem Ptr Head}
    (hm : s.mem.insertTail (.field s.sp) c = some m) : Heads (s.afterDefer act c m) ds := by
  have hfield := hh.field s.sp (Nat.pos_of_ne_zero hsp) hc.alive_sp.1
  obtain ⟨m', hm', ha, -, hother⟩ := hfield.insertTail c
  obtain rfl : m' = m := Option.some.inj (hm'.symm.trans hm)
  refine hh.mono rfl rfl (fun h => by cases hu.symm.trans h) ?_ ?_ ?_ ?_
  · exact fun c hne => hother _ (by simpa using hne)
  · exact fun _ _ => ha
  · exact fun h => absurd h hsp
  · exact fun p _ => hother _ (by simp)

theorem Heads.afterLeave {s : State F D} {ds : List Ptr} (hh : Heads s ds) (act : ℕ) :
    Heads (s.afterLeave act) ds := by
  refine hh.mono rfl rfl (fun h => by cases h) (fun _ _ => ⟨rfl, rfl⟩) (hh.field s.sp) ?_ ?_
  · exact fun _ => ⟨rfl, rfl⟩
  · exact fun _ _ => ⟨rfl, rfl⟩

theorem Heads.afterWake {s : State F D} {ds : List Ptr} (hh : Heads s ds) (hl : s.control = .loop)
    (act : ℕ) (coroutine : Ptr) {x : Ptr} {m : Mem Ptr Head} (pt : JmpBuf) (e : Event F D)
    (hx : s.mem.first (.stack s.sp) = some x) (hm : s.mem.removeHead (.stack s.sp) = some m) :
    Heads (s.afterWake act coroutine x m pt e) (s.sp :: ds) := by
  obtain ⟨m', hm', ha, hother⟩ := (hh.loop hl).removeHead hx
  obtain rfl : m' = m := Option.some.inj (hm'.symm.trans hm)
  have hfield : ∀ c, SameHead s.mem m' (.field c) := fun c => hother _ (by simp)
  refine ⟨fun c h0 hle => ?_, fun c hc => ?_, ?_, fun p hp => ?_, fun h => by cases h⟩
  · exact (hfield c).anchored (hh.field c h0 hle)
  · exact (hfield c).1.trans (hh.empty c fun h => hc (List.mem_cons_of_mem _ h))
  · exact ⟨(hfield dummy).1.trans hh.root.1, (hfield dummy).2.trans hh.root.2⟩
  · by_cases hne : p = s.sp
    · subst hne
      exact ha
    · exact SameHead.anchored (hother _ (by simpa using hne))
        (hh.stack p ((List.mem_cons.1 hp).resolve_left hne))

theorem Heads.afterBack {s : State F D} {p : Ptr} {es : List Ptr} (hc : Chained s (p :: es))
    (hh : Heads s (p :: es)) (act : ℕ) (coroutine : Ptr) (returned : Bool)
    {m₁ m₂ : Mem Ptr Head} (hm₁ : s.mem.concat (.field s.sp) (.stack p) = some m₁)
    (hm₂ : m₁.concat (.stack p) (.field s.sp) = some m₂) :
    Heads (s.afterBack act coroutine p returned m₂) es := by
  have hsp := hc.sp_ne_dummy
  have hfield := hh.field s.sp (Nat.pos_of_ne_zero hsp) hc.alive_sp.1
  obtain ⟨m₁', hm₁', hf₁, hs₁, -, hother₁⟩ := hfield.concat (hh.stack p (by simp)) (by simp)
  obtain rfl : m₁' = m₁ := Option.some.inj (hm₁'.symm.trans hm₁)
  obtain ⟨m₂', hm₂', hs₂, hf₂, hempty, hother₂⟩ := hs₁.concat hf₁ (by simp)
  obtain rfl : m₂' = m₂ := Option.some.inj (hm₂'.symm.trans hm₂)
  have hsame : ∀ h, h ≠ .field s.sp → h ≠ .stack p → SameHead s.mem m₂' h := fun h h₁ h₂ =>
    SameHead.trans (hother₁ h h₁ h₂) (hother₂ h h₂ h₁)
  have hfields : ∀ c, c ≠ s.sp → SameHead s.mem m₂' (.field c) := fun c hne =>
    hsame _ (by simpa using hne) (by simp)
  refine ⟨fun c h0 hle => ?_, fun c hcs => ?_, ?_, fun q hq => ?_, fun _ => hs₂⟩
  · by_cases hne : c = s.sp
    · subst hne
      exact hf₂
    · exact (hfields c hne).anchored (hh.field c h0 hle)
  · by_cases hne : c = s.sp
    · subst hne
      exact hempty
    · exact (hfields c hne).1.trans (hh.empty c fun h => (List.mem_cons.1 h).elim hne hcs)
  · have hroot := hfields dummy (Ne.symm hsp)
    exact ⟨hroot.1.trans hh.root.1, hroot.2.trans hh.root.2⟩
  · have hne : q ≠ p := fun h =>
      (List.nodup_cons.1 (List.nodup_cons.1 hc.nodup).2).1 (h ▸ hq)
    exact (hsame _ (by simp) (by simpa using hne)).anchored
      (hh.stack q (List.mem_cons_of_mem _ hq))

/-! ## Runs -/

/-- The argument of a loop that resumes `x` is not active below: it is `x` itself, or the loop has
already run it. -/
theorem Chained.argument {s : State F D} {ds : List Ptr} (hc : Chained s ds)
    (hl : s.control = .loop) {act : ℕ} {coroutine x : Ptr} {callee : Option Ptr}
    (hf : s.frame s.sp = .resume act coroutine s.sp callee)
    (hx : s.mem.first (.stack s.sp) = some x) (hxc : x ∉ s.sp :: ds) : coroutine ∉ s.sp :: ds := by
  obtain ⟨act', coroutine', callee', hf', hnone, hsome⟩ := hc.top.loop hl
  obtain ⟨-, rfl, -, rfl⟩ : act = act' ∧ coroutine = coroutine' ∧ True ∧ callee = callee' := by
    simpa using hf.symm.trans hf'
  rcases eq_or_ne callee none with hcallee | hcallee
  · obtain rfl : x = coroutine := Option.some.inj (hx.symm.trans (hnone hcallee))
    exact hxc
  · exact hsome hcallee

/-- **Every effect keeps the chain of callers.** -/
theorem Effect.chained {s t : State F D} {ds ds' : List Ptr} {a : Action F D}
    (he : Effect s ds a t ds') (hc : Chained s ds) (hh : Heads s ds) : Chained t ds' := by
  cases he with
  | create cb userData hu => exact hc.afterCreate hu cb userData
  | noMemory cb userData hu => exact hc
  | enter a c m hu ha halive hm => exact hc.afterEnter c (hh.afterEnter hc hm).2
  | defer act c coroutine p es m hu => exact hc.afterDefer hu act c m
  | leave act coroutine callee hl hf hempty => exact hc.afterLeave act
  | wake act coroutine x callee m pt e hl hf hx hm h0 hxa hxc hret hpt =>
    apply hc.afterWake hxa hxc hret (hc.argument hl hf hx hxc)
    intro c
    rcases hpt with ⟨-, -, cb, userData, -, -, rfl⟩ | ⟨-, -, rfl⟩ <;> simp
  | back act coroutine p es m₁ m₂ returned hu hds hsp hf hco hm₁ hm₂ =>
    subst hds
    exact hc.afterBack m₂ returned hf hco

/-- **Every effect keeps the heads of the queues.** -/
theorem Effect.heads {s t : State F D} {ds ds' : List Ptr} {a : Action F D}
    (he : Effect s ds a t ds') (hc : Chained s ds) (hh : Heads s ds) : Heads t ds' := by
  cases he with
  | create cb userData hu => exact hh.afterCreate cb userData
  | noMemory cb userData hu => exact hh
  | enter a c m hu ha halive hm => exact (hh.afterEnter hc hm).1
  | defer act c coroutine p es m hu hds hsp hf halive hne hm => exact hh.afterDefer hc hu hsp act hm
  | leave act coroutine callee hl hf hempty => exact hh.afterLeave act
  | wake act coroutine x callee m pt e hl hf hx hm => exact hh.afterWake hl act coroutine pt e hx hm
  | back act coroutine p es m₁ m₂ returned hu hds hsp hf hco hm₁ hm₂ =>
    subst hds
    exact hh.afterBack hc act coroutine returned hm₁ hm₂

/-- The run goes on, or a destroyed coroutine has been destroyed again. -/
def State.Settled (s : State F D) : Prop :=
  s.control = .user ∨ s.control = .loop ∨ s.control = .fault .destroyed

theorem Effect.settled {s t : State F D} {ds ds' : List Ptr} {a : Action F D}
    (he : Effect s ds a t ds') : t.Settled := by
  cases he with
  | noMemory cb userData hu => exact Or.inl hu
  | defer act c coroutine p es m hu => exact Or.inl hu
  | enter => exact Or.inr (Or.inl rfl)
  | back act coroutine p es m₁ m₂ returned =>
    unfold State.Settled State.afterBack
    simp only
    split <;> simp
  | _ => exact Or.inl rfl

/-- The log only grows. -/
theorem Effect.log {s t : State F D} {ds ds' : List Ptr} {a : Action F D}
    (he : Effect s ds a t ds') : ∃ es, t.log = s.log ++ es := by
  cases he with
  | noMemory => exact ⟨[], (List.append_nil _).symm⟩
  | back => exact ⟨_, List.append_assoc _ _ _⟩
  | _ => exact ⟨_, rfl⟩

theorem Chained.init : Chained (State.init : State F D) [] := by
  refine ⟨rfl, by simp, ⟨rfl, rfl⟩, ?_, ?_, trivial, ⟨fun _ => rfl, fun h => by cases h⟩, ?_, ?_,
    ?_⟩
  · simp [State.init, State.Alive]
  · simp [State.init]
  · exact fun c h0 hle => absurd hle (Nat.not_le_of_lt h0)
  · exact fun c h0 hle => absurd hle (Nat.not_le_of_lt h0)
  · exact fun c _ => ⟨rfl, by simp [State.init]⟩

theorem Heads.init : Heads (State.init : State F D) [] := by
  refine ⟨fun c h0 hle => absurd hle (Nat.not_le_of_lt h0), fun _ _ => rfl, ⟨rfl, rfl⟩, ?_, ?_⟩
  · exact fun p hp => by cases hp
  · exact fun h => by cases h

/-- `P` holds in `t` along with the invariants. -/
def Holds (P : State F D → List Ptr → Prop) (t : State F D) : Prop :=
  ∃ ds, Chained t ds ∧ Heads t ds ∧ P t ds

/-- The step that led to `t` has ended the run; `P` held before it. -/
def Over (ok : State F D → Action F D → Prop) (P : State F D → List Ptr → Prop)
    (t : State F D) : Prop :=
  ∃ s ds a, Chained s ds ∧ Heads s ds ∧ P s ds ∧ ok s a ∧ Dead s a t

theorem Dead.control {s t : State F D} {a : Action F D} (hd : Dead s a t) :
    t.control ≠ .user ∧ t.control ≠ .loop := by
  rcases hd.why with ⟨-, ⟨h, -⟩ | ⟨h, -⟩ | ⟨h, -⟩⟩ | ⟨h, -⟩ | ⟨-, -, h | ⟨why, h⟩⟩ <;> simp [h]

theorem Over.control {ok : State F D → Action F D → Prop} {P : State F D → List Ptr → Prop}
    {t : State F D} (h : Over ok P t) : t.control ≠ .user ∧ t.control ≠ .loop := by
  obtain ⟨s, ds, a, -, -, -, -, hd⟩ := h
  exact hd.control

/-- No step follows the end of a run. -/
theorem step_none {s : State F D} (h : s.control ≠ .user ∧ s.control ≠ .loop)
    (a : Action F D) : step s a = none := by
  unfold step
  split <;> simp_all

/-- **Induction over runs.** A property that holds at the start and that the allowed effects keep
holds in every state of a run, except that the run may have ended with the last step. -/
theorem run_effects_from {ok : State F D → Action F D → Prop} {P : State F D → List Ptr → Prop}
    (hstep : ∀ s ds a t ds', Chained s ds → Heads s ds → P s ds → ok s a → Effect s ds a t ds' →
      P t ds')
    {as : List (Action F D)} {s t : State F D} (hs : Holds P s) (hok : Obeys step ok s as)
    (ht : run step s as = some t) : Holds P t ∨ Over ok P t := by
  refine run_invariant (I := fun t => Holds P t ∨ Over ok P t) (fun s a t hs ha ht => ?_)
    (Or.inl hs) hok ht
  rcases hs with ⟨ds, hc, hh, hP⟩ | hover
  · rcases step_effect hc hh ht with ⟨ds', he⟩ | hd
    · exact Or.inl ⟨ds', he.chained hc hh, he.heads hc hh, hstep s ds a t ds' hc hh hP ha he⟩
    · exact Or.inr ⟨s, ds, a, hc, hh, hP, ha, hd⟩
  · rw [step_none hover.control] at ht
    cases ht

/-- Induction over the runs of a thread. -/
theorem run_effects {ok : State F D → Action F D → Prop} {P : State F D → List Ptr → Prop}
    (hinit : P State.init [])
    (hstep : ∀ s ds a t ds', Chained s ds → Heads s ds → P s ds → ok s a → Effect s ds a t ds' →
      P t ds')
    {as : List (Action F D)} {t : State F D} (hok : Obeys step ok State.init as)
    (ht : run step State.init as = some t) : Holds P t ∨ Over ok P t :=
  run_effects_from hstep ⟨[], Chained.init, Heads.init, hinit⟩ hok ht

/-- Every program is allowed. -/
theorem obeys_true (s : State F D) (as : List (Action F D)) :
    Obeys step (fun _ _ => True) s as := by
  induction as generalizing s with
  | nil => trivial
  | cons a as ih => exact ⟨trivial, fun t _ => ih t⟩

/-- While the run goes on, the property holds. -/
theorem run_holds {ok : State F D → Action F D → Prop} {P : State F D → List Ptr → Prop}
    (hinit : P State.init [])
    (hstep : ∀ s ds a t ds', Chained s ds → Heads s ds → P s ds → ok s a → Effect s ds a t ds' →
      P t ds')
    {as : List (Action F D)} {t : State F D} (hok : Obeys step ok State.init as)
    (ht : run step State.init as = some t) (hlive : t.Live) : Holds P t := by
  apply (run_effects hinit hstep hok ht).resolve_right
  intro h
  exact hlive.elim h.control.1 h.control.2

end XcpNgGeneric.Coroutine
