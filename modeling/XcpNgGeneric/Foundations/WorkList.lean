import Mathlib.Data.List.Perm.Basic
import XcpNgGeneric.Foundations.Runs

/-!
# Depth-first work lists

A loop takes tasks from the front of a list and runs them one at a time. The task that is running
may ask for further tasks; when it gives control back, the tasks it asked for, in the order of its
requests, come before what is left of the list. Tickets `τ` tell apart the requests for one task.

## Main results

* `run_taken`: the tasks are run in the order of `Work.done`.
* `run_perm`: every request is done once, or still waits.
* `run_closed`: nothing waits once the loop has been left.
-/

namespace XcpNgGeneric.WorkList

open Runs

variable {τ ι : Type*}

/-- What the loop and the tasks it runs do. -/
inductive Event (τ ι : Type*)
  /-- The task `x` asks for `y`. -/
  | defer (x : ι) (ticket : τ) (y : ι)
  | take (x : ι)
  /-- The task `x` gives control back. -/
  | back (x : ι)
  | close

/-- The loop's list, the task it is running with its requests, and the requests it has served. -/
structure Work (τ ι : Type*) where
  todo : List (τ × ι)
  running : Option ι
  requests : List (τ × ι)
  done : List (τ × ι)

/-- The list with the task `x` only. -/
def Work.start (ticket : τ) (x : ι) : Work τ ι := ⟨[(ticket, x)], none, [], []⟩

/-- The requests made. -/
def deferred (es : List (Event τ ι)) : List (τ × ι) :=
  es.filterMap fun
    | .defer _ k y => some (k, y)
    | _ => none

/-- The tasks run. -/
def taken (es : List (Event τ ι)) : List ι :=
  es.filterMap fun
    | .take x => some x
    | _ => none

theorem deferred_cons (e : Event τ ι) (es : List (Event τ ι)) :
    deferred (e :: es) = deferred [e] ++ deferred es := by
  simp only [deferred, ← List.filterMap_append, List.singleton_append]

theorem taken_cons (e : Event τ ι) (es : List (Event τ ι)) :
    taken (e :: es) = taken [e] ++ taken es := by
  simp only [taken, ← List.filterMap_append, List.singleton_append]

variable [DecidableEq ι]

/-- One event; `none` if the work list forbids it. -/
def step (w : Work τ ι) : Event τ ι → Option (Work τ ι)
  | .defer x k y =>
    if w.running = some x then some { w with requests := w.requests ++ [(k, y)] } else none
  | .take x =>
    match w.running, w.todo with
    | none, (k, y) :: todo =>
      if y = x then some ⟨todo, some x, w.requests, w.done ++ [(k, x)]⟩ else none
    | _, _ => none
  | .back x =>
    if w.running = some x then some ⟨w.requests ++ w.todo, none, [], w.done⟩ else none
  | .close => if w.running = none ∧ w.todo = [] then some w else none

/-! ## What one event does -/

theorem step_defer {w w' : Work τ ι} {x y : ι} {k : τ} :
    step w (.defer x k y) = some w' ↔
      w.running = some x ∧ w' = { w with requests := w.requests ++ [(k, y)] } := by
  simp [step, eq_comm]

theorem step_take {w w' : Work τ ι} {x : ι} :
    step w (.take x) = some w' ↔ w.running = none ∧ ∃ k todo, w.todo = (k, x) :: todo ∧
      w' = ⟨todo, some x, w.requests, w.done ++ [(k, x)]⟩ := by
  obtain ⟨todo, running, requests, done⟩ := w
  cases running with
  | some y => simp [step]
  | none =>
    cases todo with
    | nil => simp [step]
    | cons t todo =>
      obtain ⟨k, y⟩ := t
      by_cases hy : y = x
      · subst hy
        simp [step, eq_comm]
      · simp [step, hy]

theorem step_back {w w' : Work τ ι} {x : ι} :
    step w (.back x) = some w' ↔
      w.running = some x ∧ w' = ⟨w.requests ++ w.todo, none, [], w.done⟩ := by
  simp [step, eq_comm]

theorem step_close {w w' : Work τ ι} :
    step w (.close : Event τ ι) = some w' ↔ w.running = none ∧ w.todo = [] ∧ w' = w := by
  simp [step, eq_comm, and_assoc]

/-! ## Runs -/

/-- **Tasks are run in the order in which their requests are done.** -/
theorem run_taken {w w' : Work τ ι} {es : List (Event τ ι)} (h : run step w es = some w') :
    w'.done.map Prod.snd = w.done.map Prod.snd ++ taken es := by
  induction es generalizing w with
  | nil =>
    obtain rfl := Option.some.inj h
    simp [taken]
  | cons e es ih =>
    rw [run, Option.bind_eq_some_iff] at h
    obtain ⟨v, hv, h⟩ := h
    rw [ih h, taken_cons, ← List.append_assoc]
    congr 1
    cases e with
    | defer x k y =>
      obtain ⟨-, rfl⟩ := step_defer.1 hv
      simp [taken]
    | take x =>
      obtain ⟨-, k, todo, -, rfl⟩ := step_take.1 hv
      simp [taken]
    | back x =>
      obtain ⟨-, rfl⟩ := step_back.1 hv
      simp [taken]
    | close =>
      obtain ⟨-, -, rfl⟩ := step_close.1 hv
      simp [taken]

/-- All requests that the work list knows of. -/
def Work.known (w : Work τ ι) : List (τ × ι) := w.done ++ (w.requests ++ w.todo)

/-- **No request is lost or served twice.** -/
theorem run_perm {w w' : Work τ ι} {es : List (Event τ ι)} (h : run step w es = some w') :
    w'.known.Perm (w.known ++ deferred es) := by
  induction es generalizing w with
  | nil =>
    obtain rfl := Option.some.inj h
    simp [deferred]
  | cons e es ih =>
    rw [run, Option.bind_eq_some_iff] at h
    obtain ⟨v, hv, h⟩ := h
    apply (ih h).trans
    rw [deferred_cons, ← List.append_assoc]
    apply List.Perm.append_right _
    cases e with
    | defer x k y =>
      obtain ⟨-, rfl⟩ := step_defer.1 hv
      simp only [Work.known, deferred, List.filterMap_cons, List.filterMap_nil, List.append_assoc]
      exact (List.perm_append_comm.append_left _).append_left _
    | take x =>
      obtain ⟨-, k, todo, htodo, rfl⟩ := step_take.1 hv
      simp only [Work.known, deferred, htodo, List.filterMap_cons, List.filterMap_nil,
        List.append_nil, List.append_assoc]
      have hmid : ((k, x) :: (w.requests ++ todo)).Perm (w.requests ++ (k, x) :: todo) :=
        List.perm_middle.symm
      exact hmid.append_left _
    | back x =>
      obtain ⟨-, rfl⟩ := step_back.1 hv
      simp [Work.known, deferred]
    | close =>
      obtain ⟨-, -, rfl⟩ := step_close.1 hv
      simp [deferred]

/-- Between two tasks no request is pending. -/
theorem run_idle {w w' : Work τ ι} {es : List (Event τ ι)} (h : run step w es = some w')
    (hw : w.running = none → w.requests = []) : w'.running = none → w'.requests = [] := by
  induction es generalizing w with
  | nil =>
    obtain rfl := Option.some.inj h
    exact hw
  | cons e es ih =>
    rw [run, Option.bind_eq_some_iff] at h
    obtain ⟨v, hv, h⟩ := h
    apply ih h
    cases e with
    | defer x k y =>
      obtain ⟨hx, rfl⟩ := step_defer.1 hv
      simp [hx]
    | take x =>
      obtain ⟨-, k, todo, -, rfl⟩ := step_take.1 hv
      simp
    | back x =>
      obtain ⟨-, rfl⟩ := step_back.1 hv
      simp
    | close =>
      obtain ⟨-, -, rfl⟩ := step_close.1 hv
      exact hw

/-- A finished work list stays finished. -/
theorem run_finished {w w' : Work τ ι} {es : List (Event τ ι)} (h : run step w es = some w')
    (hr : w.running = none) (ht : w.todo = []) : w' = w := by
  induction es with
  | nil => exact (Option.some.inj h).symm
  | cons e es ih =>
    rw [run, Option.bind_eq_some_iff] at h
    obtain ⟨v, hv, h⟩ := h
    cases e with
    | defer x k y =>
      obtain ⟨hx, -⟩ := step_defer.1 hv
      cases hr.symm.trans hx
    | take x =>
      obtain ⟨-, k, todo, htodo, -⟩ := step_take.1 hv
      cases ht.symm.trans htodo
    | back x =>
      obtain ⟨hx, -⟩ := step_back.1 hv
      cases hr.symm.trans hx
    | close =>
      obtain ⟨-, -, rfl⟩ := step_close.1 hv
      exact ih h

/-- **The loop is left only when nothing waits.** -/
theorem run_closed {w w' : Work τ ι} {es : List (Event τ ι)} (h : run step w es = some w')
    (hc : .close ∈ es) : w'.running = none ∧ w'.todo = [] := by
  obtain ⟨as, bs, rfl⟩ := List.append_of_mem hc
  rw [run_append, Option.bind_eq_some_iff] at h
  obtain ⟨u, -, h⟩ := h
  rw [run, Option.bind_eq_some_iff] at h
  obtain ⟨v, hv, h⟩ := h
  obtain ⟨hr, ht, rfl⟩ := step_close.1 hv
  rw [run_finished h hr ht]
  exact ⟨hr, ht⟩

/-- **Every request is matched once.** The tasks run are those of the requests done; a request is
done at most once, and all of them are when the loop has been left. -/
theorem run_matched {k : τ} {x : ι} {w : Work τ ι} {es : List (Event τ ι)}
    (h : run step (.start k x) es = some w)
    (hnd : (((k, x) :: deferred es).map Prod.fst).Nodup) :
    w.done.map Prod.snd = taken es ∧ (w.done.map Prod.fst).Nodup ∧
      (∀ r ∈ w.done, r ∈ (k, x) :: deferred es) ∧
      (.close ∈ es → w.done.Perm ((k, x) :: deferred es)) := by
  have hperm : w.known.Perm ((k, x) :: deferred es) := run_perm h
  refine ⟨by simpa [Work.start] using run_taken h, ?_, fun r hr => ?_, fun hc => ?_⟩
  · have hnd' := ((hperm.map Prod.fst).nodup_iff).2 hnd
    rw [Work.known, List.map_append] at hnd'
    exact (List.nodup_append.1 hnd').1
  · exact hperm.subset (List.mem_append_left _ hr)
  · obtain ⟨hr, ht⟩ := run_closed h hc
    have hreq := run_idle h (fun _ => rfl) hr
    simpa [Work.known, hreq, ht] using hperm

end XcpNgGeneric.WorkList
