import XcpNgGeneric.Coroutine.Invariant

/-!
# Calls of `xcp_coroutine_resume`

An activation is named by the length of the log when the call begins, so that the `enter` event
stands at that place of the log. `Numbered` says so, and that the frames name open activations; it
holds in every run (`Effect.numbered`). It follows that a call that has not returned is on one
stack only (`Numbered.stack_unique`).
-/

namespace XcpNgGeneric.Coroutine

open TailQueue Runs

variable {F D : Type}

/-- The activation that an event belongs to. -/
def Event.act? : Event F D → Option ℕ
  | .enter act _ _ => some act
  | .process act _ _ _ => some act
  | .resumed act _ => some act
  | .received act _ _ => some act
  | .leave act => some act
  | _ => none

/-- The names of activations. -/
structure Numbered (s : State F D) : Prop where
  frame : ∀ p act coroutine self callee, s.frame p = .resume act coroutine self callee →
    s.log[act]? = some (Event.enter act p coroutine) ∧ .leave act ∉ s.log
  event : ∀ e ∈ s.log, ∀ act, e.act? = some act → ∃ p c, s.log[act]? = some (Event.enter act p c)
  enter : ∀ i act p c, s.log[i]? = some (Event.enter act p c) → act = i

theorem getElem?_append_of_some {α : Type*} {l : List α} {i : ℕ} {a : α} (h : l[i]? = some a)
    (l' : List α) : (l ++ l')[i]? = some a := by
  obtain ⟨hi, -⟩ := List.getElem?_eq_some_iff.1 h
  rw [List.getElem?_append_left hi, h]

theorem Numbered.stack_unique {s : State F D} (hn : Numbered s) {p p' : Ptr} {act : ℕ}
    {coroutine coroutine' self self' : Ptr} {callee callee' : Option Ptr}
    (h : s.frame p = .resume act coroutine self callee)
    (h' : s.frame p' = .resume act coroutine' self' callee') : p = p' := by
  have he := (hn.frame p act coroutine self callee h).1
  rw [(hn.frame p' act coroutine' self' callee' h').1] at he
  simpa [eq_comm] using And.left (by simpa using he : p' = p ∧ _)

/-- An activation belongs to the past. -/
theorem Numbered.lt_length {s : State F D} (hn : Numbered s) {e : Event F D} (he : e ∈ s.log)
    {act : ℕ} (ha : e.act? = some act) : act < s.log.length := by
  obtain ⟨p, c, h⟩ := hn.event e he act ha
  exact (List.getElem?_eq_some_iff.1 h).1

theorem Numbered.frame_lt {s : State F D} (hn : Numbered s) {p act coroutine self : ℕ}
    {callee : Option Ptr} (h : s.frame p = .resume act coroutine self callee) :
    act < s.log.length :=
  (List.getElem?_eq_some_iff.1 (hn.frame p act coroutine self callee h).1).1

/-- More events, none of which opens or closes an activation. -/
theorem Numbered.append {s t : State F D} (hn : Numbered s) (es : List (Event F D))
    (hlog : t.log = s.log ++ es)
    (hframe : ∀ p act coroutine self callee, t.frame p = .resume act coroutine self callee →
      ∃ callee', s.frame p = .resume act coroutine self callee')
    (hes : ∀ e ∈ es, ∀ act, e.act? = some act →
      (∃ p c, s.log[act]? = some (Event.enter act p c)) ∧ (∀ p c, e ≠ .enter act p c))
    (hleave : ∀ act, .leave act ∈ es → ∀ p coroutine self callee,
      t.frame p ≠ .resume act coroutine self callee) : Numbered t := by
  refine ⟨fun p act coroutine self callee h => ?_, fun e he act ha => ?_, fun i act p c h => ?_⟩
  · obtain ⟨callee', h'⟩ := hframe p act coroutine self callee h
    obtain ⟨hent, hopen⟩ := hn.frame p act coroutine self callee' h'
    rw [hlog]
    refine ⟨getElem?_append_of_some hent es, fun hmem => ?_⟩
    rcases List.mem_append.1 hmem with hmem | hmem
    · exact hopen hmem
    · exact hleave act hmem p coroutine self callee h
  · rw [hlog] at he ⊢
    have hold : ∃ p c, s.log[act]? = some (Event.enter act p c) := by
      rcases List.mem_append.1 he with he | he
      · exact hn.event e he act ha
      · exact (hes e he act ha).1
    obtain ⟨p, c, h⟩ := hold
    exact ⟨p, c, getElem?_append_of_some h es⟩
  · rw [hlog] at h
    rcases Nat.lt_or_ge i s.log.length with hi | hi
    · rw [List.getElem?_append_left hi] at h
      exact hn.enter i act p c h
    · rw [List.getElem?_append_right hi] at h
      have hmem := List.mem_of_getElem? h
      exact absurd rfl ((hes _ hmem act rfl).2 p c)

theorem Numbered.afterEnter {s : State F D} (hn : Numbered s) (c : Ptr) (m : Mem Ptr Head) :
    Numbered (s.afterEnter c m) := by
  have hnew : (s.log ++ [Event.enter s.log.length s.sp c])[s.log.length]? =
      some (Event.enter s.log.length s.sp c) := by simp
  refine ⟨?_, ?_, ?_⟩
  · intro p act coroutine self callee h
    rcases State.resume_afterEnter h with ⟨rfl, rfl, rfl⟩ | ⟨-, hf⟩
    · refine ⟨hnew, fun hmem => ?_⟩
      have hold : .leave s.log.length ∈ s.log := by simpa [State.afterEnter] using hmem
      exact Nat.lt_irrefl _ (hn.lt_length hold rfl)
    · obtain ⟨hent, hopen⟩ := hn.frame p act coroutine self callee hf
      exact ⟨getElem?_append_of_some hent _, by simpa [State.afterEnter] using hopen⟩
  · intro e he act ha
    simp only [State.afterEnter, List.mem_append, List.mem_singleton] at he ⊢
    rcases he with he | rfl
    · obtain ⟨p, d, h⟩ := hn.event e he act ha
      exact ⟨p, d, getElem?_append_of_some h _⟩
    · obtain rfl : s.log.length = act := by simpa [Event.act?] using ha
      exact ⟨s.sp, c, hnew⟩
  · intro i act p d h
    simp only [State.afterEnter] at h
    rcases Nat.lt_or_ge i s.log.length with hi | hi
    · rw [List.getElem?_append_left hi] at h
      exact hn.enter i act p d h
    · rw [List.getElem?_append_right hi] at h
      obtain ⟨hlt, he⟩ := List.getElem?_eq_some_iff.1 h
      simp only [List.length_singleton] at hlt
      have hact : s.log.length = act := by
        simpa using And.left (by simpa using he : s.log.length = act ∧ _)
      omega

theorem Numbered.afterDefer {s : State F D} (hn : Numbered s) {act : ℕ} {p coroutine : Ptr}
    {callee : Option Ptr} (c : Ptr) (m : Mem Ptr Head)
    (hf : s.frame p = .resume act coroutine p callee) : Numbered (s.afterDefer act c m) := by
  refine hn.append [.process act s.log.length s.sp c] rfl ?_ ?_ (by simp)
  · intro p act coroutine self callee h
    exact ⟨callee, h⟩
  · intro e he act' ha
    obtain rfl := List.mem_singleton.1 he
    obtain rfl : act = act' := by simpa [Event.act?] using ha
    exact ⟨⟨p, coroutine, (hn.frame _ _ _ _ _ hf).1⟩, by simp⟩

theorem Numbered.afterLeave {s : State F D} (hn : Numbered s) {act : ℕ} {coroutine : Ptr}
    {callee : Option Ptr} (hf : s.frame s.sp = .resume act coroutine s.sp callee) :
    Numbered (s.afterLeave act) := by
  refine hn.append [.leave act] rfl ?_ ?_ ?_
  · intro p act' coroutine' self' callee' h
    exact ⟨callee', (State.resume_afterLeave h).2⟩
  · intro e he act' ha
    obtain rfl := List.mem_singleton.1 he
    obtain rfl : act = act' := by simpa [Event.act?] using ha
    exact ⟨⟨s.sp, coroutine, (hn.frame _ _ _ _ _ hf).1⟩, by simp⟩
  · intro act' hact' p coroutine' self' callee' h
    obtain rfl : act' = act := by simpa using hact'
    obtain ⟨hne, h⟩ := State.resume_afterLeave h
    exact hne (hn.stack_unique h hf)

theorem Numbered.afterWake {s : State F D} (hn : Numbered s) {act : ℕ} {coroutine x : Ptr}
    {callee : Option Ptr} (m : Mem Ptr Head) (pt : JmpBuf) {e : Event F D}
    (hf : s.frame s.sp = .resume act coroutine s.sp callee) (he : e.act? = none) :
    Numbered (s.afterWake act coroutine x m pt e) := by
  refine hn.append [.resumed act x, .jump s.sp x .running pt, e] rfl ?_ ?_ ?_
  · intro p act' coroutine' self' callee' h
    rcases (State.resume_afterWake h).2 with ⟨rfl, rfl, rfl, rfl, -⟩ | ⟨-, hf'⟩
    · exact ⟨callee, hf⟩
    · exact ⟨callee', hf'⟩
  · intro f hf' act' ha
    have hact : f = .resumed act x := by
      simp only [List.mem_cons, List.not_mem_nil, or_false] at hf'
      rcases hf' with rfl | rfl | rfl
      · rfl
      · cases ha
      · cases he.symm.trans ha
    subst hact
    obtain rfl : act = act' := by simpa [Event.act?] using ha
    exact ⟨⟨s.sp, coroutine, (hn.frame _ _ _ _ _ hf).1⟩, by simp⟩
  · intro act' hact'
    obtain rfl : .leave act' = e := by simpa using hact'
    cases he

theorem Numbered.afterBack {s : State F D} (hn : Numbered s) {act : ℕ} {coroutine p : Ptr}
    {callee : Option Ptr} (m : Mem Ptr Head) (returned : Bool)
    (hf : s.frame p = .resume act coroutine p callee) :
    Numbered (s.afterBack act coroutine p returned m) := by
  refine hn.append ((if returned then [.ret s.sp] else []) ++
    [.jump s.sp p (backStatus returned) (.exec p (s.execs p)),
      .received act s.sp (backStatus returned).val]) ?_ ?_ ?_ ?_
  · simp [State.afterBack]
  · intro q act' coroutine' self' callee' h
    exact ⟨callee', (State.resume_afterBack h).2⟩
  · intro e he act' ha
    have hact : e = .received act s.sp (backStatus returned).val := by
      cases returned <;>
        · simp only [List.mem_append, List.mem_cons, List.not_mem_nil, or_false, if_true,
            Bool.false_eq_true, if_false, false_or] at he
          rcases he with rfl | rfl | rfl <;> simp_all [Event.act?]
    subst hact
    obtain rfl : act = act' := by simpa [Event.act?] using ha
    exact ⟨⟨p, coroutine, (hn.frame _ _ _ _ _ hf).1⟩, by simp⟩
  · intro act' hact'
    cases returned <;> simp at hact'

/-- **Every effect keeps the numbering.** -/
theorem Effect.numbered {s t : State F D} {ds ds' : List Ptr} {a : Action F D}
    (he : Effect s ds a t ds') (hn : Numbered s) : Numbered t := by
  cases he with
  | create cb userData hu =>
    refine hn.append [.create (s.created + 1) cb userData] rfl ?_ (by simp [Event.act?]) (by simp)
    exact fun p act coroutine self callee h => ⟨callee, h⟩
  | noMemory cb userData hu => exact hn
  | enter a c m hu ha halive hm => exact hn.afterEnter c m
  | defer act c coroutine p es m hu hds hsp hf halive hne hm => exact hn.afterDefer c m hf
  | leave act coroutine callee hl hf hempty => exact hn.afterLeave hf
  | wake act coroutine x callee m pt e hl hf hx hm h0 hxa hxc hret hpt =>
    apply hn.afterWake m pt hf
    rcases hpt with ⟨-, -, cb, userData, -, -, rfl⟩ | ⟨-, -, rfl⟩ <;> rfl
  | back act coroutine p es m₁ m₂ returned hu hds hsp hf hco hm₁ hm₂ =>
    exact hn.afterBack m₂ returned hf

theorem Numbered.init : Numbered (State.init : State F D) :=
  ⟨fun _ _ _ _ _ h => (by cases h), by simp [State.init], by simp [State.init]⟩

end XcpNgGeneric.Coroutine
