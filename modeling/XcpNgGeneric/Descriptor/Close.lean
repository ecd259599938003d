import XcpNgGeneric.Descriptor.System
import XcpNgGeneric.Foundations.Runs

/-!
# Closing

`xcp_fd_close` and `xcp_file_close`, which are one loop around `close` and around `fclose`, while
other threads open files. Both calls release what their argument denotes whether or not they
succeed, and what has been released can be given to another thread under the same name: the same
descriptor number, or the same address.

## Main results

* `Progress.step`: what a descriptor or a stream denotes while it is being closed.
* `close_once_iff`: the loops release what they were called for, and only that, if and only if their
  first call is not interrupted.
* `close_recycled`: an interrupted `close` is repeated on the file of another thread.
-/

namespace XcpNgGeneric.Descriptor

open Runs

def EBADF : ℕ := 9

/-- How `close` or `fclose` returns: `0`, or a failure with this `errno`. -/
inductive Status
  | ok
  | failed (errno : ℕ)
  deriving DecidableEq

/-- The names `κ` of the open files of a process, and one invocation of a function that closes. -/
structure Closing (κ : Type) where
  /-- What each name denotes: every opening makes an entry of its own. -/
  entry : κ → Option ℕ
  /-- The entry of the next opening. -/
  next : ℕ
  /-- The calls of `close` or `fclose` that were made: what they released, and how they returned. -/
  calls : List (Option ℕ × Status)
  /-- What the invocation has returned. -/
  ret : Option XcpError

inductive Event (κ : Type)
  /-- Another thread opens a file and is given this name. -/
  | opened (name : κ)
  /-- The invocation calls `close` or `fclose`, which returns. -/
  | closed (r : Status)

section Loop

variable {κ : Type} [DecidableEq κ]

/-- Another thread opens a file and is given `name`. -/
def Closing.give (s : Closing κ) (name : κ) : Closing κ :=
  { s with entry := Function.update s.entry name (some s.next), next := s.next + 1 }

/-- The entry that `name` denotes is released, also if the call fails. -/
def Closing.release (s : Closing κ) (name : κ) (r : Status) : Closing κ :=
  { s with
    entry := Function.update s.entry name none
    calls := s.calls ++ [(s.entry name, r)] }

/-- `if (call(name) == 0) return XCP_ERR_OK;`, and the condition of the loop. -/
def Status.ret : Status → Option XcpError
  | .ok => some XCP_ERR_OK
  | .failed errno => if errno = EINTR then none else some XCP_ERR_ERRNO

/-- The loop of the two functions; `stale r` says that the call can return `r` if its argument
denotes nothing. -/
def closeLoop (stale : Status → Bool) (name : κ) (s : Closing κ) : Event κ → Option (Closing κ)
  | .opened name' =>
    if s.entry name' = none then some (s.give name') else none
  | .closed r =>
    if s.ret = none ∧ (s.entry name = none → stale r = true) then
      some { s.release name r with ret := r.ret }
    else none

/-- On Linux the number of no open file is refused with `EBADF`. -/
def xcp_fd_close (fd : Fd) : Closing Fd → Event Fd → Option (Closing Fd) :=
  closeLoop (fun r => r = .failed EBADF) fd

/-- The address of a `FILE`. -/
abbrev File := ℕ

/-- What `fclose` does with a stream that has been closed is undefined. -/
def xcp_file_close (fp : File) : Closing File → Event File → Option (Closing File) :=
  closeLoop (fun _ => true) fp

/-! ## Releasing one entry only, and first calls that are not interrupted -/

/-- An invocation that has not made a call yet, for a name that denotes `e`. -/
structure Begins (name : κ) (e : ℕ) (s : Closing κ) : Prop where
  denotes : s.entry name = some e
  bounded : ∀ n x, s.entry n = some x → x < s.next
  calls : s.calls = []
  ret : s.ret = none

/-- The invocation releases `e` and nothing else, and fails only if a call on `e` did, other than by
an interruption. -/
structure ReleasesOnly (e : ℕ) (s : Closing κ) : Prop where
  only : ∀ c ∈ s.calls, ∀ x, c.1 = some x → x = e
  released : s.ret ≠ none → ∃ c ∈ s.calls, c.1 = some e
  failed : s.ret = some XCP_ERR_ERRNO → ∃ errno, errno ≠ EINTR ∧ (some e, .failed errno) ∈ s.calls

/-- No call is made for `e` after an earlier one has released it. -/
def NeverStale (e : ℕ) (s : Closing κ) : Prop :=
  ∀ before c after, s.calls = before ++ c :: after → ∀ b ∈ before, b.1 ≠ some e

/-- How the calls of a run returned. -/
def statuses : List (Event κ) → List Status
  | [] => []
  | .opened _ :: evs => statuses evs
  | .closed r :: evs => r :: statuses evs

/-- The first call is not interrupted, or no other has been made. -/
def Uninterrupted (evs : List (Event κ)) : Prop :=
  ∀ rest, statuses evs = .failed EINTR :: rest → rest = []

theorem Status.ret_eq_none {r : Status} : r.ret = none ↔ r = .failed EINTR := by
  cases r with
  | ok => simp [ret]
  | failed errno => by_cases h : errno = EINTR <;> simp [ret, h]

/-! ## One event -/

@[simp] theorem entry_give_self (s : Closing κ) (name : κ) :
    (s.give name).entry name = some s.next := Function.update_self ..

theorem entry_give_of_ne (s : Closing κ) {name n : κ} (hn : n ≠ name) :
    (s.give name).entry n = s.entry n := Function.update_of_ne hn ..

@[simp] theorem entry_release_self (s : Closing κ) (name : κ) (r : Status) :
    (s.release name r).entry name = none := Function.update_self ..

theorem entry_release_of_ne (s : Closing κ) {name n : κ} (r : Status) (hn : n ≠ name) :
    (s.release name r).entry n = s.entry n := Function.update_of_ne hn ..

@[simp] theorem calls_release (s : Closing κ) (name : κ) (r : Status) :
    (s.release name r).calls = s.calls ++ [(s.entry name, r)] := rfl

variable {stale : Status → Bool} {name : κ} {s s' : Closing κ}

theorem closeLoop_opened {name' : κ} (h : closeLoop stale name s (.opened name') = some s') :
    s.entry name' = none ∧ s' = s.give name' := by
  simp only [closeLoop] at h
  split at h
  next hfree => exact ⟨hfree, (Option.some.inj h).symm⟩
  next => cases h

theorem closeLoop_closed {r : Status} (h : closeLoop stale name s (.closed r) = some s') :
    s.ret = none ∧ (s.entry name = none → stale r = true) ∧
      s' = { s.release name r with ret := r.ret } := by
  simp only [closeLoop] at h
  split at h
  next hcall => exact ⟨hcall.1, hcall.2, (Option.some.inj h).symm⟩
  next => cases h

/-- The calls of a run are logged. -/
theorem calls_run {evs : List (Event κ)} (h : run (closeLoop stale name) s evs = some s') :
    s'.calls.map Prod.snd = s.calls.map Prod.snd ++ statuses evs := by
  induction evs generalizing s with
  | nil =>
    obtain rfl := Option.some.inj h
    exact (List.append_nil _).symm
  | cons ev evs ih =>
    obtain ⟨t, hstep, hrun⟩ := Option.bind_eq_some_iff.1 h
    have hrest := ih hrun
    cases ev with
    | opened name' =>
      obtain ⟨-, rfl⟩ := closeLoop_opened hstep
      exact hrest
    | closed r =>
      obtain ⟨-, -, rfl⟩ := closeLoop_closed hstep
      rw [hrest, statuses, calls_release, List.map_append, List.append_assoc]
      rfl

/-- **No entry is lost**: what was open or has been opened is still open, or a call of the
invocation has released it. -/
theorem entry_accounted {evs : List (Event κ)} (h : run (closeLoop stale name) s evs = some s')
    {x : ℕ} (hx : (∃ n, s.entry n = some x) ∨ (∃ c ∈ s.calls, c.1 = some x) ∨
      (s.next ≤ x ∧ x < s'.next)) :
    (∃ n, s'.entry n = some x) ∨ ∃ c ∈ s'.calls, c.1 = some x := by
  induction evs generalizing s with
  | nil =>
    obtain rfl := Option.some.inj h
    rcases hx with hopen | hcall | hnew
    · exact Or.inl hopen
    · exact Or.inr hcall
    · omega
  | cons ev evs ih =>
    obtain ⟨t, hstep, hrun⟩ := Option.bind_eq_some_iff.1 h
    apply ih hrun
    cases ev with
    | opened name' =>
      obtain ⟨hfree, rfl⟩ := closeLoop_opened hstep
      rcases hx with ⟨n, hn⟩ | hcall | hnew
      · have hne : n ≠ name' := by
          rintro rfl
          rw [hfree] at hn
          cases hn
        exact Or.inl ⟨n, (entry_give_of_ne s hne).trans hn⟩
      · exact Or.inr (Or.inl hcall)
      · by_cases hnext : x = s.next
        · subst hnext
          exact Or.inl ⟨name', entry_give_self s name'⟩
        · have hlater : s.next + 1 ≤ x := by omega
          exact Or.inr (Or.inr ⟨hlater, hnew.2⟩)
    | closed r =>
      obtain ⟨-, -, rfl⟩ := closeLoop_closed hstep
      rcases hx with ⟨n, hn⟩ | ⟨c, hc, hcx⟩ | hnew
      · by_cases hne : n = name
        · subst hne
          exact Or.inr (Or.inl ⟨(s.entry n, r), by simp, hn⟩)
        · exact Or.inl ⟨n, (entry_release_of_ne s r hne).trans hn⟩
      · exact Or.inr (Or.inl ⟨c, by simp [hc], hcx⟩)
      · exact Or.inr (Or.inr hnew)

/-! ## The invariant -/

variable {e : ℕ}

/-- How far the invocation has come. -/
inductive Calls (stale : Status → Bool) (name : κ) (e : ℕ) (s : Closing κ) : Prop
  | none (hcalls : s.calls = []) (hret : s.ret = none) (hentry : s.entry name = some e)
  | one {r : Status} (hcalls : s.calls = [(some e, r)]) (hret : s.ret = r.ret)
    (hentry : s.entry name ≠ some e)
  /-- A second call finds what another thread has opened, or nothing. -/
  | more {c : Option ℕ × Status} {rest : List (Option ℕ × Status)}
    (hcalls : s.calls = (some e, .failed EINTR) :: c :: rest)
    (hother : ∀ d ∈ c :: rest, d.1 ≠ some e)
    (hstale : ∀ d ∈ c :: rest, d.1 = .none → stale d.2 = true)
    (hret : ∀ d ∈ c :: rest, d.2.ret ≠ .none → s.ret = d.2.ret) (hentry : s.entry name ≠ some e)

structure Progress (stale : Status → Bool) (name : κ) (e : ℕ) (s : Closing κ) : Prop where
  old : e < s.next
  bounded : ∀ n x, s.entry n = some x → x < s.next
  calls : Calls stale name e s

omit [DecidableEq κ] in
theorem Begins.progress {s : Closing κ} (hs : Begins name e s) : Progress stale name e s where
  old := hs.bounded name e hs.denotes
  bounded := hs.bounded
  calls := .none hs.calls hs.ret hs.denotes

theorem Progress.opened (hs : Progress stale name e s) {name' : κ}
    (h : closeLoop stale name s (.opened name') = some s') : Progress stale name e s' := by
  obtain ⟨hfree, rfl⟩ := closeLoop_opened h
  refine ⟨Nat.lt_succ_of_lt hs.old, ?_, ?_⟩
  · intro n x hn
    by_cases hne : n = name'
    · subst hne
      rw [entry_give_self] at hn
      cases hn
      exact Nat.lt_succ_self _
    · rw [entry_give_of_ne s hne] at hn
      exact Nat.lt_succ_of_lt (hs.bounded n x hn)
  · have hentry : s.entry name ≠ some e → (s.give name').entry name ≠ some e := by
      intro hne
      by_cases heq : name = name'
      · subst heq
        rw [entry_give_self]
        intro h
        exact absurd hs.old (by rw [Option.some.inj h]; exact Nat.lt_irrefl e)
      · rwa [entry_give_of_ne s heq]
    cases hs.calls with
    | none hcalls hret hdenotes =>
      have heq : name ≠ name' := by
        rintro rfl
        rw [hfree] at hdenotes
        cases hdenotes
      exact .none hcalls hret (by rwa [entry_give_of_ne s heq])
    | one hcalls hret hne => exact .one hcalls hret (hentry hne)
    | more hcalls hother hstale hret hne => exact .more hcalls hother hstale hret (hentry hne)

theorem Progress.closed (hs : Progress stale name e s) {r : Status}
    (h : closeLoop stale name s (.closed r) = some s') : Progress stale name e s' := by
  obtain ⟨hret, hallowed, rfl⟩ := closeLoop_closed h
  have hentry : (s.release name r).entry name ≠ some e := by simp
  refine ⟨hs.old, ?_, ?_⟩
  · intro n x hn
    by_cases hne : n = name
    · subst hne
      exact absurd ((entry_release_self s n r).symm.trans hn) (by simp)
    · exact hs.bounded n x ((entry_release_of_ne s r hne).symm.trans hn)
  · cases hs.calls with
    | none hcalls _ hdenotes =>
      exact .one (by simp [hcalls, hdenotes]) rfl hentry
    | @one r₁ hcalls hret₁ hne =>
      obtain rfl := Status.ret_eq_none.1 (hret₁.symm.trans hret)
      have hcalls' : (s.release name r).calls =
          [(some e, .failed EINTR), (s.entry name, r)] := by
        simp [hcalls]
      refine .more hcalls' ?_ ?_ ?_ hentry
      · simpa using hne
      · simpa using hallowed
      · simp
    | @more c rest hcalls hother hstale hret₁ hne =>
      have hlast : ∀ d ∈ c :: (rest ++ [(s.entry name, r)]),
          d ∈ c :: rest ∨ d = (s.entry name, r) := by
        intro d hd
        rw [← List.cons_append, List.mem_append] at hd
        simpa using hd
      have hcalls' : (s.release name r).calls =
          (some e, .failed EINTR) :: c :: (rest ++ [(s.entry name, r)]) := by
        simp [hcalls]
      refine .more hcalls' ?_ ?_ ?_ hentry
      · intro d hd
        rcases hlast d hd with hd | rfl
        · exact hother d hd
        · exact hne
      · intro d hd
        rcases hlast d hd with hd | rfl
        · exact hstale d hd
        · exact hallowed
      · intro d hd hdret
        rcases hlast d hd with hd | rfl
        · rw [← hret₁ d hd hdret, hret] at hdret
          exact absurd rfl hdret
        · rfl

/-- **The invariant of the loop**, whatever other threads open. -/
theorem Progress.run {evs : List (Event κ)} (hs : Begins name e s)
    (h : run (closeLoop stale name) s evs = some s') : Progress stale name e s' := by
  have hok : Obeys (closeLoop stale name) (fun _ _ => True) s evs :=
    obeys_of_forall fun _ _ _ _ _ _ => trivial
  refine run_invariant ?_ hs.progress hok h
  intro t ev t' ht _ hstep
  cases ev with
  | opened name' => exact ht.opened hstep
  | closed r => exact ht.closed hstep

/-! ## Whole invocations -/

theorem statuses_eq {evs : List (Event κ)} (hs : Begins name e s)
    (h : run (closeLoop stale name) s evs = some s') : statuses evs = s'.calls.map Prod.snd := by
  have hcalls := calls_run h
  rw [hs.calls, List.map_nil, List.nil_append] at hcalls
  exact hcalls.symm

/-- A loop around a call that refuses stale names, with an error that is not retried. -/
theorem releasesOnly_iff {evs : List (Event κ)} (hs : Begins name e s)
    (hstale : ∀ r, stale r = true → r.ret = some XCP_ERR_ERRNO)
    (h : run (closeLoop stale name) s evs = some s') : ReleasesOnly e s' ↔ Uninterrupted evs := by
  have hstatuses := statuses_eq hs h
  unfold Uninterrupted
  rw [hstatuses]
  cases (Progress.run hs h).calls with
  | none hcalls hret _ =>
    rw [hcalls]
    refine ⟨fun _ rest hrest => (by cases hrest), fun _ => ⟨?_, ?_, ?_⟩⟩
    · simp [hcalls]
    · exact fun hne => absurd hret hne
    · simp [hret]
  | @one r hcalls hret _ =>
    rw [hcalls]
    refine ⟨fun _ rest hrest => (List.cons.inj hrest).2.symm, fun _ => ⟨?_, ?_, ?_⟩⟩
    · simp [hcalls]
    · exact fun _ => ⟨(some e, r), by simp [hcalls], rfl⟩
    · intro hfailed
      rw [hret] at hfailed
      cases r with
      | ok => simp [Status.ret, XCP_ERR_OK, XCP_ERR_ERRNO] at hfailed
      | failed errno =>
        refine ⟨errno, ?_, by simp [hcalls]⟩
        rintro rfl
        simp [Status.ret] at hfailed
  | @more c rest hcalls hother hstale' hret _ =>
    have hc := hother c List.mem_cons_self
    constructor
    · intro honly
      exfalso
      cases hx : c.1 with
      | some x =>
        have heq := honly.only c (by simp [hcalls]) x hx
        rw [hx, heq] at hc
        exact hc rfl
      | none =>
        -- the second call finds nothing, and its error is returned
        have herror := hstale c.2 (hstale' c List.mem_cons_self hx)
        have hfailed := hret c List.mem_cons_self (by simp [herror])
        obtain ⟨errno, herrno, hmem⟩ := honly.failed (hfailed.trans herror)
        rw [hcalls, List.mem_cons] at hmem
        rcases hmem with hfirst | hlater
        · cases hfirst
          exact herrno rfl
        · exact hother _ hlater rfl
    · intro huninterrupted
      have hnil := huninterrupted ((c :: rest).map Prod.snd) (by rw [hcalls]; rfl)
      cases hnil

theorem neverStale_iff {evs : List (Event κ)} (hs : Begins name e s)
    (h : run (closeLoop stale name) s evs = some s') : NeverStale e s' ↔ Uninterrupted evs := by
  have hstatuses := statuses_eq hs h
  unfold NeverStale Uninterrupted
  rw [hstatuses]
  cases (Progress.run hs h).calls with
  | none hcalls _ _ => simp [hcalls]
  | @one r hcalls _ _ =>
    rw [hcalls]
    refine ⟨fun _ rest hrest => (List.cons.inj hrest).2.symm, ?_⟩
    intro _ before c after hsplit b hb
    cases before with
    | nil => cases hb
    | cons d before => simp at hsplit
  | @more c rest hcalls _ _ _ _ =>
    constructor
    · intro hnever
      exact absurd rfl (hnever [(some e, .failed EINTR)] c rest hcalls _ List.mem_cons_self)
    · intro huninterrupted
      have hnil := huninterrupted ((c :: rest).map Prod.snd) (by rw [hcalls]; rfl)
      cases hnil

end Loop

/-- **Closing.** `xcp_fd_close` releases the entry of its argument, and fails only if a call on this
entry did, and `xcp_file_close` never closes a stream twice, if and only if the first call of the
invocation is not interrupted (or, so far, is the only one). -/
theorem close_once_iff {fd : Fd} {fp : File} {e e' : ℕ} {s s' : Closing Fd} {t t' : Closing File}
    {evs : List (Event Fd)} {evs' : List (Event File)} (hs : Begins fd e s) (ht : Begins fp e' t)
    (h : run (xcp_fd_close fd) s evs = some s') (h' : run (xcp_file_close fp) t evs' = some t') :
    (ReleasesOnly e s' ↔ Uninterrupted evs) ∧ (NeverStale e' t' ↔ Uninterrupted evs') := by
  constructor
  · apply releasesOnly_iff hs _ h
    intro r hr
    rw [of_decide_eq_true hr]
    rfl
  · exact neverStale_iff ht h'

/-- A process with one open file, whose entry is `0`. -/
def oneOpen {κ : Type} [DecidableEq κ] (name : κ) : Closing κ :=
  ⟨fun n => if n = name then some 0 else none, 1, [], none⟩

theorem oneOpen_begins {κ : Type} [DecidableEq κ] (name : κ) : Begins name 0 (oneOpen name) := by
  refine ⟨if_pos rfl, ?_, rfl, rfl⟩
  intro n x hn
  simp only [oneOpen] at hn ⊢
  split at hn <;> cases hn
  exact Nat.one_pos

theorem close_once_iff_ok :
    (∃ s, run (xcp_fd_close 3) (oneOpen 3) [.opened 4, .closed .ok] = some s ∧
      (ReleasesOnly 0 s ↔ Uninterrupted [.opened (4 : Fd), .closed .ok])) ∧
    ∃ t, run (xcp_file_close 7) (oneOpen 7) [.closed (.failed 28)] = some t ∧
      (NeverStale 0 t ↔ Uninterrupted [(.closed (.failed 28) : Event File)]) := by
  have hs : run (xcp_fd_close 3) (oneOpen 3) [.opened 4, .closed .ok] = some _ := rfl
  have ht : run (xcp_file_close 7) (oneOpen 7) [.closed (.failed 28)] = some _ := rfl
  have hboth := close_once_iff (oneOpen_begins 3) (oneOpen_begins 7) hs ht
  exact ⟨⟨_, hs, hboth.1⟩, _, ht, hboth.2⟩

/-- **Closed by mistake.** The first `close` is interrupted, another thread is given the same number
for its file, entry `1`, and the second `close` releases it. The same events make `fclose` read a
stream that is gone. -/
theorem close_recycled :
    (∃ s, run (xcp_fd_close 3) (oneOpen 3) [.closed (.failed EINTR), .opened 3, .closed .ok] =
        some s ∧ Begins (3 : Fd) 0 (oneOpen 3) ∧ s.ret = some XCP_ERR_OK ∧
      s.calls.map Prod.fst = [some 0, some 1] ∧ ¬ReleasesOnly 0 s) ∧
    ∃ t, run (xcp_file_close 7) (oneOpen 7) [.closed (.failed EINTR), .closed .ok] = some t ∧
      Begins 7 0 (oneOpen 7) ∧ ¬NeverStale 0 t := by
  refine ⟨⟨_, rfl, oneOpen_begins 3, rfl, rfl, fun honly => ?_⟩, _, rfl, oneOpen_begins 7, ?_⟩
  · have heq := honly.only (some 1, .ok) (by decide) 1 rfl
    cases heq
  · intro hnever
    exact hnever [(some 0, .failed EINTR)] (none, .ok) [] rfl _ List.mem_cons_self rfl

end XcpNgGeneric.Descriptor
