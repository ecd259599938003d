import XcpNgGeneric.Descriptor.System

/-!
# System calls that are retried

The loops `do { ret = call(); if (ret >= 0) return ...; } while (errno is transient)` of `io.c` and
`network.c`, and the functions that consist of one or two of them: `xcp_fd_read`, `xcp_fd_write`,
`xcp_fd_wait_for_rdata` and `xcp_fd_wait_read`.

## Main results

* `retry_spec`: a retried call fails with the first `errno` that is not transient, or goes on after
  its first success.
* `wait_read_spec`, `fd_read_spec`, `fd_write_spec`: how a chunk is settled.
-/

namespace XcpNgGeneric.Descriptor

open Answers

/-- One iteration of the loop around `call`; what a success leads to is `k`. -/
def attempt (again : ℕ → Bool) (call : Io ℤ) (k : ℤ → Io XcpError) : Io (Next Unit XcpError) := do
  let ret ← call
  if ret ≥ 0 then
    let r ← k ret
    pure (.ret r)
  else
    let errno ← ask Sys.errno
    pure (if again errno then .again () else .ret XCP_ERR_ERRNO)

/-- The loop around `call`. -/
def retry (again : ℕ → Bool) (call : Io ℤ) (k : ℤ → Io XcpError) : Io XcpError :=
  loop (fun _ => attempt again call k) ()

def xcp_fd_read (fd : Fd) (buf count : ℕ) : Io XcpError := retry transient (read fd buf count) pure

def xcp_fd_write (fd : Fd) (buf count : ℕ) : Io XcpError :=
  retry transient (write fd buf count) pure

def xcp_fd_wait_for_rdata (fd : Fd) (timeout : ℤ) : Io XcpError :=
  retry (fun errno => errno = EAGAIN || errno = EINTR) (poll fd timeout) fun ret =>
    pure (if ret > 0 then XCP_ERR_OK else XCP_ERR_TIMEOUT)

def xcp_fd_wait_read (fd : Fd) (buf count : ℕ) (timeout : ℤ) : Io XcpError := do
  if timeout ≠ 0 then
    let ret ← xcp_fd_wait_for_rdata fd timeout
    if ret ≠ XCP_ERR_OK then pure ret else xcp_fd_read fd buf count
  else xcp_fd_read fd buf count

/-! ## One retried call -/

section Retry

variable (again : ℕ → Bool) (call : SysCall) (limit : ℕ) (effect : ℕ → World → World)
  (K : ℤ → Sys → List Outcome → ℤ → Sys → Prop)

/-- One iteration. -/
inductive Attempt (s : Sys) : List Outcome → Next Unit ℤ → Sys → Prop
  | again {e : ℕ} (he : again e = true) : Attempt s [⟨call, .fail e⟩] (.again ()) ⟨e, s.world⟩
  | failed {e : ℕ} (he : again e = false) :
    Attempt s [⟨call, .fail e⟩] (.ret XCP_ERR_ERRNO) ⟨e, s.world⟩
  | done {n : ℕ} {os : List Outcome} {r : ℤ} {s' : Sys} (hn : n ≤ limit)
    (hK : K n ⟨s.errno, effect n s.world⟩ os r s') : Attempt s (⟨call, .done n⟩ :: os) (.ret r) s'

/-- The calls failed and are to be retried. -/
def Retriable (os : List Outcome) : Prop := ∀ o ∈ os, ∃ e, again e = true ∧ o = ⟨call, .fail e⟩

/-- All iterations. -/
inductive Retried (s : Sys) : List Outcome → ℤ → Sys → Prop
  | failed {os : List Outcome} {e : ℕ} (hos : Retriable again call os) (he : again e = false) :
    Retried s (os ++ [⟨call, .fail e⟩]) XCP_ERR_ERRNO ⟨e, s.world⟩
  | done {os os' : List Outcome} {n e : ℕ} {r : ℤ} {s' : Sys}
    (hos : Retriable again call os) (hn : n ≤ limit)
    (hK : K n ⟨e, effect n s.world⟩ os' r s') : Retried s (os ++ ⟨call, .done n⟩ :: os') r s'

variable {again call limit effect K} {c : Io ℤ} {k : ℤ → Io XcpError}

theorem attempt_spec (hc : Spec c (Answered call limit effect)) (hk : ∀ ret, Spec (k ret) (K ret)) :
    Spec (attempt again c k) (Attempt again call limit effect K) := by
  refine Spec.bind hc (K := fun ret s os n s' => (0 ≤ ret → ∃ r, n = .ret r ∧ K ret s os r s') ∧
    (ret < 0 → os = [] ∧ n = (if again s.errno then .again () else .ret XCP_ERR_ERRNO) ∧ s' = s))
    (fun ret => ?_) ?_
  · refine Spec.ite (fun hret => ?_) (fun hret => ?_)
    · apply Spec.bind (hk ret) (fun _ => Spec.pure)
      rintro s os r s' _ _ _ hK ⟨rfl, rfl, rfl⟩
      rw [List.append_nil]
      exact ⟨fun _ => ⟨r, rfl, hK⟩, fun h => by omega⟩
    · apply Spec.bind Spec.ask (fun _ => Spec.pure)
      rintro s _ _ s' _ _ _ ⟨rfl, rfl, rfl⟩ ⟨rfl, rfl, rfl⟩
      exact ⟨fun h => by omega, fun _ => ⟨rfl, rfl, rfl⟩⟩
  · intro s os ret s' os' n s'' h hn
    cases h with
    | fail e =>
      obtain ⟨rfl, rfl, rfl⟩ := hn.2 (by decide)
      cases he : again e with
      | true => exact .again he
      | false => exact .failed he
    | done hle =>
      obtain ⟨r, rfl, hK⟩ := hn.1 (Int.natCast_nonneg _)
      exact .done hle hK

/-- **A retried call** fails with the first `errno` that is not retried, or goes on after its first
success. -/
theorem retry_spec (hc : Spec c (Answered call limit effect)) (hk : ∀ ret, Spec (k ret) (K ret)) :
    Spec (retry again c k) (Retried again call limit effect K) := by
  refine Spec.loop (fun s₀ os _ s => Retriable again call os ∧ s.world = s₀.world)
    (fun _ => attempt_spec hc hk) ?_ ?_ ?_
  · intro s
    exact ⟨by simp [Retriable], rfl⟩
  · rintro s₀ os _ s os' _ s' ⟨hos, hw⟩ h
    cases h with
    | again he =>
      refine ⟨?_, hw⟩
      intro o ho
      rcases List.mem_append.1 ho with ho | ho
      · exact hos o ho
      · exact ⟨_, he, List.mem_singleton.1 ho⟩
  · rintro s₀ os _ s os' r s' ⟨hos, hw⟩ h
    cases h with
    | failed he =>
      rw [hw]
      exact .failed hos he
    | done hn hK =>
      rw [hw] at hK
      exact .done hos hn hK

end Retry

/-! ## One chunk -/

/-- The calls leave the transfer where it is. -/
def Quiet (os : List Outcome) : Prop := ∀ o ∈ os, o.quiet = true

theorem Quiet.nil : Quiet [] := fun _ ho => absurd ho List.not_mem_nil

theorem Quiet.append {os os' : List Outcome} (h : Quiet os) (h' : Quiet os') :
    Quiet (os ++ os') := by
  intro o ho
  rcases List.mem_append.1 ho with ho | ho
  · exact h o ho
  · exact h' o ho

theorem Retriable.quiet {call : SysCall} {os : List Outcome} (h : Retriable transient call os) :
    Quiet os := by
  intro o ho
  obtain ⟨e, he, rfl⟩ := h o ho
  exact he

/-- How a chunk of a transfer is settled by `call`: nothing is transferred before its last system
call. It can time out only if it waits for its descriptor. -/
inductive Settled (waits : Prop) (call : SysCall) (limit : ℕ) (effect : ℕ → World → World)
    (s : Sys) : List Outcome → ℤ → Sys → Prop
  | timeout {os : List Outcome} {e : ℕ} (hwaits : waits) (hos : Quiet os) :
    Settled waits call limit effect s (os ++ [⟨.poll, .done 0⟩]) XCP_ERR_TIMEOUT ⟨e, s.world⟩
  | failed {os : List Outcome} {c : SysCall} {e : ℕ} (hos : Quiet os) (he : transient e = false) :
    Settled waits call limit effect s (os ++ [⟨c, .fail e⟩]) XCP_ERR_ERRNO ⟨e, s.world⟩
  | done {os : List Outcome} {n e : ℕ} (hos : Quiet os) (hn : n ≤ limit) :
    Settled waits call limit effect s (os ++ [⟨call, .done n⟩]) n ⟨e, effect n s.world⟩

variable {call : SysCall} {limit : ℕ} {effect : ℕ → World → World}

theorem Settled.of_retried {s s' : Sys} {os : List Outcome} {r : ℤ}
    (h : Retried transient call limit effect (fun ret s os r s' => os = [] ∧ r = ret ∧ s' = s)
      s os r s') : Settled False call limit effect s os r s' := by
  cases h with
  | failed hos he => exact .failed hos.quiet he
  | done hos hn hK =>
    obtain ⟨rfl, rfl, rfl⟩ := hK
    exact .done hos.quiet hn

/-- Quiet calls before a chunk belong to it. -/
theorem Settled.after {waits : Prop} {s s' : Sys} {os os' : List Outcome} {r : ℤ} {e : ℕ}
    (h : Settled False call limit effect ⟨e, s.world⟩ os' r s') (hos : Quiet os) :
    Settled waits call limit effect s (os ++ os') r s' := by
  cases h with
  | timeout hwaits => exact hwaits.elim
  | failed hos' he =>
    rw [← List.append_assoc]
    exact .failed (hos.append hos') he
  | done hos' hn =>
    rw [← List.append_assoc]
    exact .done (hos.append hos') hn

theorem fd_read_spec (fd : Fd) (buf count : ℕ) :
    Spec (xcp_fd_read fd buf count)
      (Settled False .read (min count SSIZE_MAX) fun n w => w.receive fd buf n) :=
  (retry_spec (syscall_spec _ _ _) fun _ => Spec.pure).mono fun _ _ _ _ => Settled.of_retried

theorem fd_write_spec (fd : Fd) (buf count : ℕ) :
    Spec (xcp_fd_write fd buf count)
      (Settled False .write (min count SSIZE_MAX) fun n w => w.send fd (w.bytes buf n)) :=
  (retry_spec (syscall_spec _ _ _) fun _ => Spec.pure).mono fun _ _ _ _ => Settled.of_retried

/-- How the wait for a descriptor ends. -/
inductive Waited (s : Sys) : List Outcome → ℤ → Sys → Prop
  | ready {os : List Outcome} {e : ℕ} (hos : Quiet os) : Waited s os XCP_ERR_OK ⟨e, s.world⟩
  | timeout {os : List Outcome} {e : ℕ} (hos : Quiet os) :
    Waited s (os ++ [⟨.poll, .done 0⟩]) XCP_ERR_TIMEOUT ⟨e, s.world⟩
  | failed {os : List Outcome} {c : SysCall} {e : ℕ} (hos : Quiet os) (he : transient e = false) :
    Waited s (os ++ [⟨c, .fail e⟩]) XCP_ERR_ERRNO ⟨e, s.world⟩

/-- `EWOULDBLOCK` is `EAGAIN`, so `poll` is retried as the other calls are. -/
theorem transient_eq : (fun errno => errno = EAGAIN || errno = EINTR : ℕ → Bool) = transient := by
  funext e
  rw [transient, show EWOULDBLOCK = EAGAIN from rfl, Bool.or_self]

theorem wait_for_rdata_spec (fd : Fd) (timeout : ℤ) :
    Spec (xcp_fd_wait_for_rdata fd timeout) Waited := by
  unfold xcp_fd_wait_for_rdata
  rw [transient_eq]
  apply (retry_spec (syscall_spec _ _ _) fun _ => Spec.pure).mono
  intro s os r s' h
  cases h with
  | failed hos he => exact .failed hos.quiet he
  | @done os os' n e r s' hos hn hK =>
    obtain ⟨rfl, rfl, rfl⟩ := hK
    obtain rfl | rfl : n = 0 ∨ n = 1 := by omega
    · exact .timeout hos.quiet
    · refine .ready (hos.quiet.append ?_)
      intro o ho
      rw [List.mem_singleton.1 ho]
      rfl

/-- **A chunk that is read** is settled by a `poll` that times out, by a failure, or by a `read`. -/
theorem wait_read_spec (fd : Fd) (buf count : ℕ) (timeout : ℤ) :
    Spec (xcp_fd_wait_read fd buf count timeout)
      (Settled (timeout ≠ 0) .read (min count SSIZE_MAX) fun n w => w.receive fd buf n) := by
  refine Spec.ite (fun htimeout => ?_) (fun _ => (fd_read_spec fd buf count).mono ?_)
  · refine Spec.bind (wait_for_rdata_spec fd timeout) (K := fun ret s os r s' =>
      (ret = XCP_ERR_OK → Settled False .read (min count SSIZE_MAX)
        (fun n w => w.receive fd buf n) s os r s') ∧
      (ret ≠ XCP_ERR_OK → os = [] ∧ r = ret ∧ s' = s)) (fun ret => ?_) ?_
    · refine Spec.ite (fun hret => Spec.pure.mono ?_)
        (fun hret => (fd_read_spec fd buf count).mono ?_)
      · intro s os r s' h
        exact ⟨fun heq => absurd heq hret, fun _ => h⟩
      · intro s os r s' h
        exact ⟨fun _ => h, fun hne => absurd hne hret⟩
    · intro s os ret s' os' r s'' h h'
      cases h with
      | @ready os e hos => exact (h'.1 rfl).after hos
      | timeout hos =>
        obtain ⟨rfl, rfl, rfl⟩ := h'.2 (by decide)
        rw [List.append_nil]
        exact .timeout htimeout hos
      | failed hos he =>
        obtain ⟨rfl, rfl, rfl⟩ := h'.2 (by decide)
        rw [List.append_nil]
        exact .failed hos he
  · intro s os r s' h
    exact h.after .nil

end XcpNgGeneric.Descriptor
