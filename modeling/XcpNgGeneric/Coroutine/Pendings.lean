import Mathlib.Data.List.Perm.Subperm
import XcpNgGeneric.Coroutine.Invariant

/-!
# The pending lists

The heads in use are the fields `pendings` of the coroutines and the local lists of the active
calls of `xcp_coroutine_resume`; they share the links `next`. As long as no coroutine is handed to
the interface while it is linked (`FreshHand`), they hold disjoint queues (`Queued`), and each
effect acts on these queues as its macros do on sequences.

## Main results

* `run_queued`: in every run that obeys `FreshHand` the heads hold disjoint queues.
* `linking_keeps_iff`: which calls leave the queues intact, whatever they are given.
-/

namespace XcpNgGeneric.Coroutine

open TailQueue Runs

variable {F D : Type}

/-! ## The heads in use -/

/-- The frame of `xcp_coroutine_resume`. -/
def Frame.isLoop : Frame D → Bool
  | .resume _ _ _ _ => true
  | _ => false

@[simp] theorem Frame.isLoop_idle : (.idle : Frame D).isLoop = false := rfl

@[simp] theorem Frame.isLoop_yield : (.yield : Frame D).isLoop = false := rfl

@[simp] theorem Frame.isLoop_run : (.run : Frame D).isLoop = false := rfl

@[simp] theorem Frame.isLoop_resume (act : ℕ) (coroutine self : Ptr) (callee : Option Ptr) :
    (.resume act coroutine self callee : Frame D).isLoop = true := rfl

/-- The head is initialised and in scope. -/
def State.HeadLive (s : State F D) : Head → Prop
  | .field c => 0 < c ∧ c ≤ s.created
  | .stack p => p ≤ s.created ∧ (s.frame p).isLoop = true

/-- Following the links from the head `h`, for as many steps as there are coroutines, one finds
`c`. -/
def State.Reaches (s : State F D) (h : Head) (c : Ptr) : Prop :=
  ∃ k < s.created + 1, s.mem.walk h k = some c

instance (s : State F D) (h : Head) (c : Ptr) : Decidable (s.Reaches h c) :=
  inferInstanceAs (Decidable (∃ _ < _, _))

/-- `c` waits in a pending list. -/
def State.Linked (s : State F D) (c : Ptr) : Prop :=
  ∃ p < s.created + 1, (0 < p ∧ s.Reaches (.field p) c) ∨
    ((s.frame p).isLoop = true ∧ s.Reaches (.stack p) c)

instance (s : State F D) (c : Ptr) : Decidable (s.Linked c) :=
  inferInstanceAs (Decidable (∃ _ < _, _))

/-- No coroutine is handed to the interface while it is linked. -/
def FreshHand (s : State F D) (a : Action F D) : Prop := ∀ c ∈ a.handed, ¬s.Linked c

instance (s : State F D) (a : Action F D) : Decidable (FreshHand s a) :=
  match h : a.handed with
  | none => isTrue (by simp [FreshHand, h])
  | some c => decidable_of_iff (¬s.Linked c) (by simp [FreshHand, h])

/-! ## The queues -/

/-- The heads in use hold the disjoint queues `q` of created coroutines. -/
structure Queued (s : State F D) (q : Head → List Ptr) : Prop where
  queues : Queues s.mem s.HeadLive q
  created : ∀ h, ∀ c ∈ q h, c ≤ s.created

/-- A queue is no longer than there are coroutines. -/
theorem Queued.length_le {s : State F D} {q : Head → List Ptr} (hq : Queued s q) (h : Head) :
    (q h).length ≤ s.created + 1 := by
  have hsub : q h ⊆ List.range (s.created + 1) := fun c hc =>
    List.mem_range.2 (Nat.lt_succ_of_le (hq.created h c hc))
  simpa using (List.subperm_of_subset (hq.queues.nodup h) hsub).length_le

/-- Being linked is being in one of the queues. -/
theorem Queued.linked_iff {s : State F D} {q : Head → List Ptr} (hq : Queued s q) (c : Ptr) :
    s.Linked c ↔ ∃ h, c ∈ q h := by
  have hreach : ∀ h, s.HeadLive h → (s.Reaches h c ↔ c ∈ q h) := by
    intro h hL
    unfold State.Reaches
    simp only [(hq.queues.queue h hL).walk_eq]
    constructor
    · rintro ⟨k, -, hk⟩
      exact List.mem_of_getElem? hk
    · intro hc
      obtain ⟨k, hk, he⟩ := List.getElem_of_mem hc
      exact ⟨k, Nat.lt_of_lt_of_le hk (hq.length_le h), by rw [List.getElem?_eq_getElem hk, he]⟩
  constructor
  · rintro ⟨p, hp, ⟨h0, hh⟩ | ⟨hf, hh⟩⟩
    · exact ⟨.field p, (hreach (.field p) ⟨h0, Nat.le_of_lt_succ hp⟩).1 hh⟩
    · exact ⟨.stack p, (hreach (.stack p) ⟨Nat.le_of_lt_succ hp, hf⟩).1 hh⟩
  · rintro ⟨h, hc⟩
    have hL := hq.queues.live_of_mem hc
    cases h with
    | field p => exact ⟨p, Nat.lt_succ_of_le hL.2, Or.inl ⟨hL.1, (hreach _ hL).2 hc⟩⟩
    | stack p => exact ⟨p, Nat.lt_succ_of_le hL.1, Or.inr ⟨hL.2, (hreach _ hL).2 hc⟩⟩

/-- The same memory under the same heads. -/
theorem Queued.congr {s t : State F D} {q' : Head → List Ptr} {L : Head → Prop}
    (hq : Queues t.mem L q') (hL : ∀ h, t.HeadLive h ↔ L h) (hc : s.created ≤ t.created)
    (hq' : ∀ h, ∀ c ∈ q' h, c ≤ s.created) : Queued t q' := by
  obtain rfl : L = t.HeadLive := funext fun h => propext (hL h).symm
  exact ⟨hq, fun h c hm => Nat.le_trans (hq' h c hm) hc⟩

/-! ## What the effects do to the queues -/

theorem Queued.field_fresh {s : State F D} {q : Head → List Ptr} (hq : Queued s q) :
    q (.field (s.created + 1)) = [] :=
  hq.queues.off _ fun h => Nat.not_succ_le_self _ h.2

theorem Queued.stack_off {s : State F D} {q : Head → List Ptr} (hq : Queued s q) {p : Ptr}
    (hf : (s.frame p).isLoop = false) : q (.stack p) = [] :=
  hq.queues.off _ fun h => by simp [State.HeadLive, hf] at h

theorem Queued.afterCreate {s : State F D} {ds : List Ptr} {q : Head → List Ptr} (hq : Queued s q)
    (hc : Chained s ds) (cb : F) (userData : D) : Queued (s.afterCreate cb userData) q := by
  have hinit := hq.queues.init (.field (s.created + 1))
  rw [← hq.field_fresh, Function.update_eq_self] at hinit
  refine Queued.congr hinit (fun h => ?_) (Nat.le_succ _) hq.created
  cases h with
  | field c =>
    have : c ≤ s.created + 1 ↔ c = s.created + 1 ∨ c ≤ s.created := by
      rw [Nat.le_succ_iff, or_comm]
    simp only [State.HeadLive, State.afterCreate, Head.field.injEq, this]
    constructor
    · tauto
    · rintro (rfl | ⟨h0, hle⟩)
      · exact ⟨Nat.succ_pos _, Or.inl rfl⟩
      · exact ⟨h0, Or.inr hle⟩
  | stack p =>
    simp only [State.HeadLive, State.afterCreate, reduceCtorEq, false_or]
    constructor
    · rintro ⟨hle, hf⟩
      refine ⟨?_, hf⟩
      rcases Nat.lt_or_ge s.created p with hlt | hge
      · simp [(hc.fresh p hlt).1] at hf
      · exact hge
    · rintro ⟨hle, hf⟩
      exact ⟨Nat.le_succ_of_le hle, hf⟩

theorem Chained.headLive_afterEnter {s : State F D} {ds : List Ptr} (hc : Chained s ds) (c : Ptr)
    (m : Mem Ptr Head) (h : Head) :
    (s.afterEnter c m).HeadLive h ↔ h = .stack s.sp ∨ s.HeadLive h := by
  cases h with
  | field d => simp [State.HeadLive, State.afterEnter]
  | stack p =>
    by_cases hne : p = s.sp
    · subst hne
      simp [State.HeadLive, State.afterEnter, hc.alive_sp.1]
    · simp [State.HeadLive, State.afterEnter, hne]

/-- The local list of a new call. -/
theorem Queued.init_stack {s : State F D} {ds : List Ptr} {q : Head → List Ptr} (hq : Queued s q)
    (hc : Chained s ds) (hu : s.control = .user) :
    Queues (s.mem.init (.stack s.sp)) (fun h => h = .stack s.sp ∨ s.HeadLive h) q := by
  have hinit := hq.queues.init (.stack s.sp)
  have hoff : q (.stack s.sp) = [] := hq.stack_off (by simp [hc.top.user hu])
  rwa [← hoff, Function.update_eq_self] at hinit

theorem Queued.afterEnter {s : State F D} {ds : List Ptr} {q : Head → List Ptr} (hq : Queued s q)
    (hc : Chained s ds) (hu : s.control = .user) {c : Ptr} {m : Mem Ptr Head} (hca : s.Alive c)
    (hfresh : ¬s.Linked c)
    (hm : (s.mem.init (.stack s.sp)).insertTail (.stack s.sp) c = some m) :
    Queued (s.afterEnter c m) (Function.update q (.stack s.sp) [c]) := by
  have hnot : ∀ k, c ∉ q k := fun k hk => hfresh ((hq.linked_iff c).2 ⟨k, hk⟩)
  have hoff : q (.stack s.sp) = [] := hq.stack_off (by simp [hc.top.user hu])
  obtain ⟨m', hm', hins⟩ := (hq.init_stack hc hu).insertTail (Or.inl rfl) hnot
  obtain rfl : m' = m := Option.some.inj (hm'.symm.trans hm)
  rw [hoff, List.nil_append] at hins
  apply Queued.congr (s := s) hins (hc.headLive_afterEnter c m') (Nat.le_refl _)
  intro h d hd
  by_cases hne : h = .stack s.sp
  · subst hne
    obtain rfl : d = c := by simpa using hd
    exact hca.1
  · exact hq.created h d (by simpa [hne] using hd)

theorem Queued.afterDefer {s : State F D} {ds : List Ptr} {q : Head → List Ptr} (hq : Queued s q)
    (hc : Chained s ds) (hsp : s.sp ≠ dummy) (act : ℕ) {c : Ptr} {m : Mem Ptr Head}
    (hca : s.Alive c) (hfresh : ¬s.Linked c)
    (hm : s.mem.insertTail (.field s.sp) c = some m) :
    Queued (s.afterDefer act c m)
      (Function.update q (.field s.sp) (q (.field s.sp) ++ [c])) := by
  have hnot : ∀ k, c ∉ q k := fun k hk => hfresh ((hq.linked_iff c).2 ⟨k, hk⟩)
  have hlive : s.HeadLive (.field s.sp) := ⟨Nat.pos_of_ne_zero hsp, hc.alive_sp.1⟩
  obtain ⟨m', hm', hins⟩ := hq.queues.insertTail hlive hnot
  obtain rfl : m' = m := Option.some.inj (hm'.symm.trans hm)
  refine Queued.congr (s := s) hins (fun h => Iff.rfl) (Nat.le_refl _) fun h d hd => ?_
  by_cases hne : h = .field s.sp
  · subst hne
    rw [Function.update_self] at hd
    rcases List.mem_append.1 hd with hd | hd
    · exact hq.created _ d hd
    · obtain rfl := List.mem_singleton.1 hd
      exact hca.1
  · exact hq.created h d (by simpa [hne] using hd)

/-- The list of a loop that ends is empty. -/
theorem Queued.loop_empty {s : State F D} {ds : List Ptr} {q : Head → List Ptr} (hq : Queued s q)
    (hc : Chained s ds) {act : ℕ} {coroutine self : Ptr} {callee : Option Ptr}
    (hf : s.frame s.sp = .resume act coroutine self callee)
    (he : s.mem.first (.stack s.sp) = none) : q (.stack s.sp) = [] := by
  have hlive : s.HeadLive (.stack s.sp) := ⟨hc.alive_sp.1, by simp [hf]⟩
  exact ((hq.queues.queue _ hlive).first_eq_none).1 he

theorem Queued.afterLeave {s : State F D} {q : Head → List Ptr} (hq : Queued s q)
    (he : q (.stack s.sp) = []) (act : ℕ) : Queued (s.afterLeave act) q := by
  refine Queued.congr (hq.queues.drop he) (fun h => ?_) (Nat.le_refl _) hq.created
  cases h with
  | field d => simp [State.HeadLive, State.afterLeave]
  | stack p =>
    by_cases hne : p = s.sp
    · subst hne
      simp [State.HeadLive, State.afterLeave]
    · simp [State.HeadLive, State.afterLeave, hne]

theorem Queued.afterWake {s : State F D} {ds : List Ptr} {q : Head → List Ptr} (hq : Queued s q)
    (hc : Chained s ds) {act : ℕ} {coroutine x : Ptr} {callee : Option Ptr} {m : Mem Ptr Head}
    (pt : JmpBuf) (e : Event F D) (hf : s.frame s.sp = .resume act coroutine s.sp callee)
    (hx : s.mem.first (.stack s.sp) = some x) (hm : s.mem.removeHead (.stack s.sp) = some m)
    (hxc : x ∉ s.sp :: ds) (hxf : (s.frame x).isLoop = false) :
    ∃ xs, q (.stack s.sp) = x :: xs ∧
      Queued (s.afterWake act coroutine x m pt e) (Function.update q (.stack s.sp) xs) := by
  have hlive : s.HeadLive (.stack s.sp) := ⟨hc.alive_sp.1, by simp [hf]⟩
  have hfirst := (hq.queues.queue _ hlive).first_eq
  rw [hx] at hfirst
  obtain ⟨xs, hxs⟩ := List.head?_eq_some_iff.1 hfirst.symm
  obtain ⟨m', hm', hrem⟩ := hq.queues.removeHead hxs
  obtain rfl : m' = m := Option.some.inj (hm'.symm.trans hm)
  refine ⟨xs, hxs, Queued.congr (s := s) hrem (fun h => ?_) (Nat.le_refl _) fun h d hd => ?_⟩
  · cases h with
    | field d => exact Iff.rfl
    | stack p =>
      by_cases hpx : p = x
      · subst hpx
        simp [State.HeadLive, State.afterWake, hxf]
      by_cases hps : p = s.sp
      · subst hps
        simp [State.HeadLive, State.afterWake, hpx, hf, State.setCaller,
          State.setEnv]
      · simp [State.HeadLive, State.afterWake, hpx, hps, State.setCaller, State.setEnv]
  · by_cases hne : h = .stack s.sp
    · subst hne
      apply hq.created (.stack s.sp) d
      rw [hxs]
      exact List.mem_cons_of_mem _ (by simpa using hd)
    · exact hq.created h d (by simpa [hne] using hd)

theorem Queued.afterBack {s : State F D} {p : Ptr} {es : List Ptr} {q : Head → List Ptr}
    (hq : Queued s q) (hc : Chained s (p :: es)) (hu : s.control = .user) {act : ℕ}
    {coroutine : Ptr} {m₁ m₂ : Mem Ptr Head} (returned : Bool)
    (hf : s.frame p = .resume act coroutine p (some s.sp))
    (hm₁ : s.mem.concat (.field s.sp) (.stack p) = some m₁)
    (hm₂ : m₁.concat (.stack p) (.field s.sp) = some m₂) :
    Queued (s.afterBack act coroutine p returned m₂)
      (Function.update (Function.update q (.stack p) (q (.field s.sp) ++ q (.stack p)))
        (.field s.sp) []) := by
  have hfield : s.HeadLive (.field s.sp) :=
    ⟨Nat.pos_of_ne_zero hc.sp_ne_dummy, hc.alive_sp.1⟩
  have hstack : s.HeadLive (.stack p) := ⟨(hc.alive p (by simp)).1, by simp [hf]⟩
  obtain ⟨m₁', hm₁', hq₁⟩ := hq.queues.concat (by simp) hfield hstack
  obtain rfl : m₁' = m₁ := Option.some.inj (hm₁'.symm.trans hm₁)
  obtain ⟨m₂', hm₂', hq₂⟩ := hq₁.concat (by simp) hstack hfield
  obtain rfl : m₂' = m₂ := Option.some.inj (hm₂'.symm.trans hm₂)
  have heq : Function.update (Function.update (Function.update (Function.update q (.field s.sp)
      (q (.field s.sp) ++ q (.stack p))) (.stack p) []) (.stack p)
      (q (.field s.sp) ++ q (.stack p))) (.field s.sp) [] =
      Function.update (Function.update q (.stack p) (q (.field s.sp) ++ q (.stack p)))
        (.field s.sp) [] := by
    funext h
    by_cases hne : h = .field s.sp
    · subst hne
      simp
    by_cases hne' : h = .stack p
    · subst hne'
      simp
    · simp [hne, hne']
  have hq₂' : Queues m₂' s.HeadLive (Function.update (Function.update q (.stack p)
      (q (.field s.sp) ++ q (.stack p))) (.field s.sp) []) := by
    rw [← heq]
    simpa using hq₂
  refine Queued.congr (s := s) hq₂' (fun h => ?_) (Nat.le_refl _) fun h d hd => ?_
  · cases h with
    | field d => exact Iff.rfl
    | stack r =>
      by_cases hne : r = s.sp
      · subst hne
        have hidle := hc.top.user hu
        cases returned <;>
          simp [State.HeadLive, State.afterBack, hidle]
      · simp [State.HeadLive, State.afterBack, hne, State.setCaller, State.setEnv]
  · by_cases hne : h = .field s.sp
    · subst hne
      simp at hd
    by_cases hne' : h = .stack p
    · subst hne'
      rw [Function.update_of_ne hne, Function.update_self] at hd
      rcases List.mem_append.1 hd with hd | hd
      · exact hq.created _ d hd
      · exact hq.created _ d hd
    · exact hq.created h d (by simpa [hne, hne'] using hd)

/-- **Every effect of an obedient call keeps the queues.** -/
theorem Effect.queued {s t : State F D} {ds ds' : List Ptr} {a : Action F D}
    (he : Effect s ds a t ds') (hc : Chained s ds) (hok : FreshHand s a) {q : Head → List Ptr}
    (hq : Queued s q) : ∃ q', Queued t q' := by
  cases he with
  | create cb userData hu => exact ⟨q, hq.afterCreate hc cb userData⟩
  | noMemory cb userData hu => exact ⟨q, hq⟩
  | enter a c m hu ha hca hm =>
    have hfresh : ¬s.Linked c := by
      rcases ha with rfl | ⟨rfl, -⟩ <;> exact hok c rfl
    exact ⟨_, hq.afterEnter hc hu hca hfresh hm⟩
  | defer act c coroutine p es m hu hds hsp hf hca hne hm =>
    exact ⟨_, hq.afterDefer hc hsp act hca (hok c rfl) hm⟩
  | leave act coroutine callee hl hf hempty =>
    exact ⟨q, hq.afterLeave (hq.loop_empty hc hf hempty) act⟩
  | wake act coroutine x callee m pt e hl hf hx hm h0 hxa hxc hret hpt =>
    have hxf : (s.frame x).isLoop = false := by
      rcases hpt with ⟨hun, -⟩ | ⟨hsu, -⟩
      · simp [hun.frame]
      · simp [hsu.frame]
    obtain ⟨xs, -, hq'⟩ := hq.afterWake hc pt e hf hx hm hxc hxf
    exact ⟨_, hq'⟩
  | back act coroutine p es m₁ m₂ returned hu hds hsp hf hco hm₁ hm₂ =>
    subst hds
    exact ⟨_, hq.afterBack hc hu returned hf hm₁ hm₂⟩

theorem Queued.init : Queued (State.init : State F D) fun _ => [] := by
  refine ⟨⟨fun h hL => ?_, fun _ _ => rfl, fun _ _ _ => by simp⟩, by simp⟩
  cases h with
  | field c => exact absurd hL.2 (Nat.not_le_of_lt hL.1)
  | stack p => simp [State.HeadLive, State.init] at hL

/-- **The queues of a run.** In a run that hands over no linked coroutine the heads in use hold
disjoint queues. -/
theorem run_queued {as : List (Action F D)} {t : State F D}
    (hok : Obeys step FreshHand State.init as) (ht : run step State.init as = some t)
    (hlive : t.Live) : ∃ q ds, Chained t ds ∧ Heads t ds ∧ Queued t q := by
  obtain ⟨ds, hc, hh, q, hq⟩ := run_holds (P := fun s _ => ∃ q, Queued s q) ⟨_, Queued.init⟩
    (fun s ds a t ds' hc _ ⟨q, hq⟩ hok he => he.queued hc hok hq) hok ht hlive
  exact ⟨q, ds, hc, hh, hq⟩

/-! ## Handing over a coroutine that is linked -/

/-- The queue that the call `a` inserts its argument in. -/
def State.target (s : State F D) : Action F D → Head
  | .process _ => if (s.caller s.self).isSome then .field s.self else .stack s.sp
  | _ => .stack s.sp

/-- In `t` the heads hold the queues `q`, in the same order, as far as coroutines other than `c`
are concerned. -/
def KeepsOthers (q : Head → List Ptr) (t : State F D) (c : Ptr) : Prop :=
  ∀ h, t.HeadLive h → ∃ ys, Queue t.mem h ys ∧ ys.filter (· ≠ c) = (q h).filter (· ≠ c)

/-- **What handing over a linked coroutine does.** Where the pending lists are intact, a call links
`c` without harm to them if and only if `c` is in none of them, or is the last element of one
other than that which it is inserted in. -/
theorem linking_keeps_iff {as : List (Action F D)} {s t : State F D} {a : Action F D} {c : Ptr}
    (hok : Obeys step FreshHand State.init as) (hs : run step State.init as = some s)
    (ha : a.handed = some c) (ht : step s a = some t) (hlive : t.Live) :
    ∃ q, Queued s q ∧
      (KeepsOthers q t c ↔ ∀ h, c ∈ q h → h ≠ s.target a ∧ (q h).getLast? = some c) := by
  have hu : s.control = .user := by
    cases hcon : s.control <;> cases a <;> simp_all [step, Action.handed]
  obtain ⟨q, ds, hc, hh, hq⟩ := run_queued hok hs (Or.inl hu)
  refine ⟨q, hq, ?_⟩
  rcases step_effect hc hh ht with ⟨ds', he⟩ | hd
  · cases he with
    | enter a c' m hu ha' hca hm =>
      obtain rfl : c' = c := by
        rcases ha' with rfl | ⟨rfl, -⟩ <;> simpa [Action.handed] using ha
      have htarget : s.target a = .stack s.sp := by
        rcases ha' with rfl | ⟨rfl, h0⟩
        · rfl
        · have hnone : s.caller s.self = none := by
            rw [hc.self, h0, hc.callers.dummy_mem.2]
          simp [State.target, hnone]
      have hkeep := (hq.init_stack hc hu).insertTail_keeps_iff (Or.inl rfl) hm
      simp only [KeepsOthers, hc.headLive_afterEnter, htarget]
      exact hkeep
    | defer act c' coroutine p es m hu hds hsp hf hca hne hm =>
      obtain rfl : c' = c := by simpa [Action.handed] using ha
      subst hds
      have htarget : s.target (.process c' : Action F D) = .field s.sp := by
        have hcaller : s.caller s.self = some p := by rw [hc.self, hc.callers.1]
        simp only [State.target, hcaller]
        simp [hc.self]
      have hfield : s.HeadLive (.field s.sp) := ⟨Nat.pos_of_ne_zero hsp, hc.alive_sp.1⟩
      rw [htarget]
      exact hq.queues.insertTail_keeps_iff hfield hm
    | back act coroutine p es m₁ m₂ returned => cases returned <;> simp [Action.handed] at ha
    | _ => simp [Action.handed] at ha
  · exact absurd hlive (not_or.2 hd.control)

/-- Resuming a coroutine that is the last of the caller's own pending list. -/
theorem linking_keeps_iff_last : ∃ s t : State ℕ ℕ,
    run step State.init [.create 0 0 true, .create 0 0 true, .resume 1, .tick, .process 2] =
        some s ∧ step s (.resume 2) = some t ∧
      ∃ q, Queued s q ∧ (KeepsOthers q t 2 ↔
        ∀ h, 2 ∈ q h → h ≠ s.target (.resume 2) ∧ (q h).getLast? = some 2) := by
  have h : ∃ s t : State ℕ ℕ,
      run step State.init [.create 0 0 true, .create 0 0 true, .resume 1, .tick, .process 2] =
        some s ∧ step s (.resume 2) = some t ∧ t.control = .loop := ⟨_, _, rfl, rfl, rfl⟩
  obtain ⟨s, t, hs, ht, hl⟩ := h
  exact ⟨s, t, hs, ht, linking_keeps_iff (by decide) hs rfl ht (Or.inr hl)⟩

/-- A coroutine that is processed twice becomes its own successor. -/
theorem process_twice_cyclic : ∃ s t : State ℕ ℕ,
    run step State.init [.create 0 0 true, .create 0 0 true, .resume 1, .tick, .process 2] =
        some s ∧ step s (.process 2) = some t ∧ s.control = .user ∧ t.control = .user ∧
      s.self = 1 ∧ 2 ≤ s.created ∧ .ret 2 ∉ s.log ∧ Queue s.mem (.field 1) [2] ∧
      t.HeadLive (.field 1) ∧ ∀ ys, ¬Queue t.mem (.field 1) ys := by
  refine ⟨_, _, rfl, rfl, rfl, rfl, rfl, by decide, by decide, ⟨⟨rfl, rfl⟩, rfl⟩,
    ⟨by decide, by decide⟩, fun ys hq => ?_⟩
  exact hq.next_first_ne (x := 2) rfl rfl

end XcpNgGeneric.Coroutine
