import Mathlib.Data.Nat.Find
import XcpNgGeneric.Descriptor.System
import XcpNgGeneric.Foundations.CInt

/-!
# Functions of one system call

`xcp_fd_dup`, `xcp_fd_pread`, `xcp_fd_preadv` and `xcp_poll` of `io.c` and `xcp_sock_connect` of
`network.c`, each a loop around one system call, and `xcp_fd_set_close_on_exec`. The kernel gives
any answer to a call; the calls are logged with their arguments.

## Main results

* `repeated_iff`, `repeated_ends_iff`: the loop makes the same call up to the first answer that it
  does not retry, and ends if and only if there is such an answer.
* `single_call_settles`: what the five functions return, and their errors.
* `testBit_closeFlags`, `set_close_on_exec_calls`: the flags that `xcp_fd_set_close_on_exec` sets.
-/

namespace XcpNgGeneric.Descriptor

open Answers CInt

/-! ## The kernel -/

/-- A system call with its arguments. -/
inductive Call
  | dup2 (fildes fildes2 : Fd)
  | connect (sock : Fd) (addr addrlen : ℕ)
  | pread (fd : Fd) (buf count : ℕ) (offset : ℤ)
  | preadv (fd : Fd) (iovs : ℕ) (iovCount offset : ℤ)
  | poll (fds nfds : ℕ) (timeout : ℤ)
  | getfd (fd : Fd)
  | setfd (fd : Fd) (flags : ℤ)

/-- What a call returns, and the `errno` that it sets if this is negative. -/
structure Answer where
  ret : ℤ
  errno : ℕ

/-- `errno`, and the calls that were made. -/
structure Trace where
  errno : ℕ
  calls : List Call

abbrev Program := Prog Answer Trace

/-- The state after a call. -/
def Trace.after (s : Trace) (c : Call) (a : Answer) : Trace where
  errno := if a.ret < 0 then a.errno else s.errno
  calls := s.calls ++ [c]

def invoke (c : Call) : Program ℤ := do
  let a ← next
  change fun s => s.after c a
  pure a.ret

/-! ## The functions -/

/-- One iteration of the loop. -/
def once (c : Call) (again : ℕ → Bool) (value : ℤ → XcpError) : Program (Next Unit XcpError) := do
  let ret ← invoke c
  if ret ≥ 0 then pure (.ret (value ret))
  else
    let errno ← ask Trace.errno
    pure (if again errno then .again () else .ret XCP_ERR_ERRNO)

/-- `do { ret = call(); if (ret >= 0) return value(ret); } while (again(errno));`. -/
def repeated (c : Call) (again : ℕ → Bool) (value : ℤ → XcpError) : Program XcpError :=
  loop (fun _ => once c again value) ()

/-- The condition `errno == EINTR`. -/
def ifInterrupted (errno : ℕ) : Bool := errno = EINTR

def xcp_fd_dup (fildes fildes2 : Fd) : Program XcpError :=
  repeated (.dup2 fildes fildes2) ifInterrupted fun ret => ret

def xcp_sock_connect (sock : Fd) (addr addrlen : ℕ) : Program XcpError :=
  repeated (.connect sock addr addrlen) ifInterrupted fun ret => ret

def xcp_fd_pread (fd : Fd) (buf count : ℕ) (offset : ℤ) : Program XcpError :=
  repeated (.pread fd buf count offset) transient fun ret => ret

/-- The number of buffers is converted to `int`. -/
def xcp_fd_preadv (fd : Fd) (iovs iovCount : ℕ) (offset : ℤ) : Program XcpError :=
  repeated (.preadv fd iovs (IntType.int.ofInt iovCount) offset) transient fun ret => ret

def xcp_poll (fds nfds : ℕ) (timeout : ℤ) : Program XcpError :=
  repeated (.poll fds nfds timeout) (fun errno => errno = EAGAIN || errno = EINTR) fun ret =>
    if ret > 0 then ret else XCP_ERR_TIMEOUT

def FD_CLOEXEC : ℤ := 1

/-- The flags that are set, where `flags` were found. -/
def closeFlags (status : Bool) (flags : ℤ) : ℤ :=
  if status then IntType.int.or flags FD_CLOEXEC
  else IntType.int.and flags (IntType.int.not FD_CLOEXEC)

def xcp_fd_set_close_on_exec (fd : Fd) (status : Bool) : Program XcpError := do
  let flags ← invoke (.getfd fd)
  if flags < 0 then pure XCP_ERR_ERRNO
  else
    let ret ← invoke (.setfd fd (closeFlags status flags))
    pure (if ret < 0 then XCP_ERR_ERRNO else XCP_ERR_OK)

/-! ## The loop -/

/-- The answer is not retried. -/
def Answer.Final (again : ℕ → Bool) (a : Answer) : Prop := a.ret < 0 → again a.errno = false

/-- What the loop returns for it. -/
def Answer.result (value : ℤ → XcpError) (a : Answer) : XcpError :=
  if a.ret ≥ 0 then value a.ret else XCP_ERR_ERRNO

/-- The state after calls of `c` that were answered by `os`. -/
def Trace.afterAll (s : Trace) (c : Call) (os : List Answer) : Trace :=
  os.foldl (fun s a => s.after c a) s

/-- The call is made up to the first answer that is not retried, which decides what is returned. -/
def Repeats (c : Call) (again : ℕ → Bool) (value : ℤ → XcpError) (s : Trace) (os : List Answer)
    (r : XcpError) (s' : Trace) : Prop :=
  ∃ before a, os = before ++ [a] ∧ (∀ b ∈ before, ¬b.Final again) ∧ a.Final again ∧
    r = a.result value ∧ s' = s.afterAll c os

section Repeated

variable {c : Call} {again : ℕ → Bool} {value : ℤ → XcpError} {s : Trace}

/-- The log has the call once for each answer. -/
theorem calls_afterAll (s : Trace) (c : Call) (os : List Answer) :
    (s.afterAll c os).calls = s.calls ++ List.replicate os.length c := by
  induction os generalizing s with
  | nil => simp [Trace.afterAll]
  | cons a os ih =>
    change ((s.after c a).afterAll c os).calls = _
    rw [ih, Trace.after, List.append_assoc, List.length_cons, List.replicate_succ]
    rfl

theorem invoke_local (c : Call) : Local (invoke c) :=
  Local.bind Local.next fun _ => Local.bind (Local.change _) fun _ => Local.pure _

theorem once_local : Local (once c again value) := by
  apply Local.bind (invoke_local c)
  intro ret
  exact Local.ite (Local.pure _) (Local.bind (Local.ask _) fun _ => Local.pure _)

/-- What one iteration does with its answer. -/
theorem once_eq (c : Call) (again : ℕ → Bool) (value : ℤ → XcpError) (s : Trace) (a : Answer)
    (os : List Answer) : once c again value ⟨a :: os, s⟩ =
      some (if a.ret < 0 ∧ again a.errno then .again () else .ret (a.result value),
        ⟨os, s.after c a⟩) := by
  have hcall : once c again value ⟨a :: os, s⟩ =
      (if a.ret ≥ 0 then pure (.ret (value a.ret)) else do
        let errno ← ask Trace.errno
        pure (if again errno then .again () else .ret XCP_ERR_ERRNO) :
          Program (Next Unit XcpError)) ⟨os, s.after c a⟩ := rfl
  rw [hcall, Answer.result]
  by_cases hret : a.ret ≥ 0
  · rw [if_pos hret, if_pos hret, if_neg fun h => Int.not_lt.2 hret h.1]
    rfl
  · have herrno : (s.after c a).errno = a.errno := if_pos (Int.not_le.1 hret)
    rw [if_neg hret, if_neg hret]
    change some (if again (s.after c a).errno then _ else _, _) = _
    simp only [herrno, Int.not_le.1 hret, true_and]

theorem once_final {a : Answer} (h : a.Final again) :
    Returns (once c again value) s [a] (.ret (a.result value)) (s.after c a) := by
  have hnot : ¬(a.ret < 0 ∧ again a.errno = true) := by
    rintro ⟨hret, hagain⟩
    rw [h hret] at hagain
    cases hagain
  rw [Returns, once_eq, if_neg hnot]

theorem once_again {a : Answer} (h : ¬a.Final again) :
    Returns (once c again value) s [a] (.again ()) (s.after c a) := by
  have hagain : a.ret < 0 ∧ again a.errno = true := by
    simpa [Answer.Final] using h
  rw [Returns, once_eq, if_pos hagain]

theorem once_spec : Spec (once c again value) fun s os n s' => ∃ a, os = [a] ∧
    s' = s.after c a ∧ (n = .again () → ¬a.Final again) ∧
      ∀ r, n = .ret r → a.Final again ∧ r = a.result value := by
  rintro ⟨os, s⟩ n s' hrun
  cases os with
  | nil => cases hrun
  | cons a os =>
    rw [once_eq] at hrun
    obtain ⟨hn, rfl⟩ := Prod.mk.inj (Option.some.inj hrun)
    refine ⟨[a], rfl, a, rfl, rfl, ?_⟩
    by_cases h : a.ret < 0 ∧ again a.errno = true
    · rw [if_pos h] at hn
      subst hn
      refine ⟨fun _ hfinal => ?_, fun r hr => (by cases hr)⟩
      rw [hfinal h.1] at h
      cases h.2
    · rw [if_neg h] at hn
      subst hn
      refine ⟨fun hr => (by cases hr), fun r hr => ⟨fun hret => ?_, ?_⟩⟩
      · simpa [hret] using h
      · cases hr
        rfl

theorem repeated_spec : Spec (repeated c again value) (Repeats c again value) := by
  refine Spec.loop (fun s₀ os _ s => (∀ b ∈ os, ¬b.Final again) ∧ s = s₀.afterAll c os)
    (fun _ => once_spec) ?_ ?_ ?_
  · exact fun s => ⟨by simp, rfl⟩
  · rintro s₀ os _ s os' _ s' ⟨hos, rfl⟩ ⟨a, rfl, rfl, hagain, -⟩
    refine ⟨?_, by simp [Trace.afterAll]⟩
    intro b hb
    rcases List.mem_append.1 hb with hb | hb
    · exact hos b hb
    · exact List.mem_singleton.1 hb ▸ hagain rfl
  · rintro s₀ os _ s os' r s' ⟨hos, rfl⟩ ⟨a, rfl, rfl, -, hret⟩
    exact ⟨os, a, rfl, hos, (hret r rfl).1, (hret r rfl).2, by simp [Trace.afterAll]⟩

/-- **A repeated call** returns on exactly these answers. -/
theorem repeated_iff {s' : Trace} {os : List Answer} {r : XcpError} :
    Returns (repeated c again value) s os r s' ↔ Repeats c again value s os r s' := by
  constructor
  · exact repeated_spec.returns
  · rintro ⟨before, a, rfl, hbefore, ha, rfl, rfl⟩
    induction before generalizing s with
    | nil => exact Returns.loop_ret (once_final ha)
    | cons b before ih =>
      have hb := hbefore b List.mem_cons_self
      have hrest := @ih (s.after c b) fun b' hb' => hbefore b' (List.mem_cons_of_mem _ hb')
      have hloop : Returns (repeated c again value) s ([b] ++ (before ++ [a])) _ _ :=
        Returns.loop_again (b := ()) once_local (List.cons_ne_nil b []) (once_again hb) hrest
      exact hloop

/-- It ends unless every answer is retried. -/
theorem repeated_ends_iff {o : ℕ → Answer} :
    Ends (repeated c again value) s o ↔ ∃ i, (o i).Final again := by
  constructor
  · rintro ⟨n, r, s', hrun⟩
    obtain ⟨before, a, hos, -, ha, -⟩ := repeated_iff.1 hrun
    have hmem : a ∈ upTo o n := by simp [hos]
    obtain ⟨i, -, rfl⟩ := mem_upTo.1 hmem
    exact ⟨i, ha⟩
  · intro h
    classical
    have hfirst : ∀ b ∈ upTo o (Nat.find h), ¬b.Final again := by
      intro b hb
      obtain ⟨i, hi, rfl⟩ := mem_upTo.1 hb
      exact Nat.find_min h hi
    exact ⟨Nat.find h + 1, _, _, repeated_iff.2
      ⟨_, _, upTo_succ o (Nat.find h), hfirst, Nat.find_spec h, rfl, rfl⟩⟩

end Repeated

/-! ## The functions that are such loops -/

/-- An invocation of one of the functions. -/
inductive Single
  | dup (fildes fildes2 : Fd)
  | connect (sock : Fd) (addr addrlen : ℕ)
  | pread (fd : Fd) (buf count : ℕ) (offset : ℤ)
  | preadv (fd : Fd) (iovs iovCount : ℕ) (offset : ℤ)
  | poll (fds nfds : ℕ) (timeout : ℤ)

namespace Single

def run : Single → Program XcpError
  | dup fildes fildes2 => xcp_fd_dup fildes fildes2
  | connect sock addr addrlen => xcp_sock_connect sock addr addrlen
  | pread fd buf count offset => xcp_fd_pread fd buf count offset
  | preadv fd iovs iovCount offset => xcp_fd_preadv fd iovs iovCount offset
  | poll fds nfds timeout => xcp_poll fds nfds timeout

/-- The system call that it makes. -/
def call : Single → Call
  | dup fildes fildes2 => .dup2 fildes fildes2
  | connect sock addr addrlen => .connect sock addr addrlen
  | pread fd buf count offset => .pread fd buf count offset
  | preadv fd iovs iovCount offset => .preadv fd iovs (IntType.int.ofInt iovCount) offset
  | poll fds nfds timeout => .poll fds nfds timeout

/-- The errors after which it makes the call again. -/
def again : Single → ℕ → Bool
  | dup .. | connect .. => ifInterrupted
  | pread .. | preadv .. => transient
  | poll .. => fun errno => errno = EAGAIN || errno = EINTR

/-- What it returns for a call that has succeeded. -/
def value : Single → ℤ → XcpError
  | poll .. => fun ret => if ret > 0 then ret else XCP_ERR_TIMEOUT
  | _ => fun ret => ret

theorem run_eq (x : Single) : x.run = repeated x.call x.again x.value := by
  cases x <;> rfl

theorem again_interrupted (x : Single) : x.again EINTR = true := by
  cases x <;> rfl

/-- The value of a call that has succeeded is not that of an error. -/
theorem value_ne (x : Single) {ret : ℤ} (h : 0 ≤ ret) : x.value ret ≠ XCP_ERR_ERRNO := by
  have hret : ret ≠ XCP_ERR_ERRNO := fun heq => absurd (heq ▸ h) (by decide)
  cases x with
  | poll fds nfds timeout =>
    simp only [value]
    split
    · exact hret
    · decide
  | _ => exact hret

end Single

/-- **Errors are genuine**: whatever the kernel answers, each of the functions returns if and only
if some answer is not retried. It has then made one and the same call up to the first such answer,
and returns `XCP_ERR_ERRNO` if and only if this call has failed, with an `errno` that is that of
this call, is not retried, and is not `EINTR`. -/
theorem single_call_settles (x : Single) (s : Trace) (o : ℕ → Answer) :
    (Ends x.run s o ↔ ∃ i, (o i).Final x.again) ∧
      ∀ n r s', Returns x.run s (upTo o n) r s' → ∃ k, n = k + 1 ∧
        (∀ i < k, ¬(o i).Final x.again) ∧ s'.calls = s.calls ++ List.replicate n x.call ∧
        (r = XCP_ERR_ERRNO ↔ (o k).ret < 0) ∧ (0 ≤ (o k).ret → r = x.value (o k).ret) ∧
        (r = XCP_ERR_ERRNO → s'.errno = (o k).errno ∧ x.again s'.errno = false ∧
          s'.errno ≠ EINTR) := by
  rw [x.run_eq]
  refine ⟨repeated_ends_iff, ?_⟩
  intro n r s' hrun
  obtain ⟨before, a, hos, hbefore, ha, hr, hs'⟩ := repeated_iff.1 hrun
  obtain ⟨k, rfl⟩ : ∃ k, n = k + 1 := by
    cases n with
    | zero => simp at hos
    | succ k => exact ⟨k, rfl⟩
  rw [upTo_succ] at hos
  obtain ⟨rfl, hlast⟩ := List.append_inj' hos rfl
  obtain rfl := List.singleton_inj.1 hlast
  have hfailed : r = XCP_ERR_ERRNO ↔ (o k).ret < 0 := by
    rw [hr, Answer.result]
    by_cases hret : (o k).ret ≥ 0
    · rw [if_pos hret]
      exact iff_of_false (x.value_ne hret) (Int.not_lt.2 hret)
    · rw [if_neg hret]
      exact iff_of_true rfl (Int.not_le.1 hret)
  refine ⟨k, rfl, fun i hi => hbefore _ (mem_upTo.2 ⟨i, hi, rfl⟩), ?_, hfailed, ?_, ?_⟩
  · rw [hs', calls_afterAll]
    simp [upTo]
  · intro hret
    rw [hr, Answer.result, if_pos hret]
  · intro herror
    have hret := hfailed.1 herror
    have herrno : s'.errno = (o k).errno := by
      rw [hs', upTo_succ, Trace.afterAll, List.foldl_append]
      exact if_pos hret
    have hagain : x.again s'.errno = false := herrno ▸ ha hret
    refine ⟨herrno, hagain, fun heq => ?_⟩
    rw [heq, x.again_interrupted] at hagain
    cases hagain

/-! ## Close on exec -/

theorem has_int {n : ℕ} (h : n < 2 ^ 31) : IntType.int.Has n := by
  refine ⟨?_, ?_⟩
  · exact Int.le_trans IntType.int.minVal_nonpos (Int.natCast_nonneg n)
  · change (n : ℤ) ≤ 2 ^ 31 - 1
    omega

/-- **Only `FD_CLOEXEC` is changed.** -/
theorem testBit_closeFlags (status : Bool) {flags : ℤ} (hflags : 0 ≤ flags)
    (h : IntType.int.Has flags) (i : ℕ) : (closeFlags status flags).testBit i =
      if i = 0 then status else flags.testBit i := by
  obtain ⟨n, rfl⟩ := Int.eq_ofNat_of_zero_le hflags
  have hn : n < 2 ^ 31 := by
    have hmax : (n : ℤ) ≤ 2 ^ 31 - 1 := h.2
    omega
  have hone : Nat.testBit 1 i = decide (i = 0) := by
    rw [Bool.eq_iff_iff, Nat.testBit_one_eq_true_iff_self_eq_zero, decide_eq_true_iff]
  cases status with
  | true =>
    have hlor : (n : ℤ).lor FD_CLOEXEC = (n ||| 1 : ℕ) := rfl
    rw [closeFlags, if_pos rfl, IntType.or, hlor,
      IntType.ofInt_of_has (has_int (Nat.or_lt_two_pow hn (by decide)))]
    change Nat.testBit (n ||| 1) i = if i = 0 then true else Nat.testBit n i
    rw [Nat.testBit_or, hone]
    by_cases hi : i = 0 <;> simp [hi]
  | false =>
    have hlt : Nat.ldiff n 1 < 2 ^ 31 := by
      apply Nat.lt_pow_two_of_testBit
      intro k hk
      rw [Nat.testBit_ldiff, Nat.testBit_lt_two_pow (Nat.lt_of_lt_of_le hn
        (Nat.pow_le_pow_right (by decide) hk)), Bool.false_and]
    have hnot : IntType.int.not FD_CLOEXEC = Int.negSucc 1 := by decide
    have hland : (n : ℤ).land (Int.negSucc 1) = (Nat.ldiff n 1 : ℕ) := rfl
    rw [closeFlags, if_neg Bool.false_ne_true, IntType.and, hnot, hland,
      IntType.ofInt_of_has (has_int hlt)]
    change Nat.testBit (Nat.ldiff n 1) i = if i = 0 then false else Nat.testBit n i
    rw [Nat.testBit_ldiff, hone]
    by_cases hi : i = 0 <;> simp [hi]

theorem invoke_spec (c : Call) :
    Spec (invoke c) fun s os ret s' => ∃ a, os = [a] ∧ ret = a.ret ∧ s' = s.after c a := by
  rintro ⟨os, s⟩ ret s' hrun
  cases os with
  | nil => cases hrun
  | cons a os =>
    obtain ⟨rfl, rfl⟩ := Prod.mk.inj (Option.some.inj hrun)
    exact ⟨[a], rfl, a, rfl, rfl, rfl⟩

/-- **The calls of `xcp_fd_set_close_on_exec`**: nothing is set if no flags are found. -/
theorem set_close_on_exec_calls (fd : Fd) (status : Bool) :
    Spec (xcp_fd_set_close_on_exec fd status) fun s os r s' =>
      (∃ a, os = [a] ∧ a.ret < 0 ∧ r = XCP_ERR_ERRNO ∧ s' = s.after (.getfd fd) a) ∨
        ∃ a b, os = [a, b] ∧ 0 ≤ a.ret ∧
          r = (if b.ret < 0 then XCP_ERR_ERRNO else XCP_ERR_OK) ∧
          s' = (s.after (.getfd fd) a).after (.setfd fd (closeFlags status a.ret)) b := by
  refine Spec.bind (invoke_spec _) (K := fun flags s os r s' =>
    (flags < 0 ∧ os = [] ∧ r = XCP_ERR_ERRNO ∧ s' = s) ∨
      (0 ≤ flags ∧ ∃ b, os = [b] ∧ r = (if b.ret < 0 then XCP_ERR_ERRNO else XCP_ERR_OK) ∧
        s' = s.after (.setfd fd (closeFlags status flags)) b)) (fun flags => ?_) ?_
  · refine Spec.ite (fun hneg => Spec.pure.mono ?_) (fun hnonneg => ?_)
    · rintro s os r s' ⟨rfl, rfl, rfl⟩
      exact Or.inl ⟨hneg, rfl, rfl, rfl⟩
    · refine Spec.bind (invoke_spec _) (fun _ => Spec.pure) ?_
      rintro s os ret s' os' r s'' ⟨b, rfl, rfl, rfl⟩ ⟨rfl, rfl, rfl⟩
      exact Or.inr ⟨Int.not_lt.1 hnonneg, b, rfl, rfl, rfl⟩
  · rintro s os ret s' os' r s'' ⟨a, rfl, rfl, rfl⟩ h
    rcases h with ⟨hneg, rfl, rfl, rfl⟩ | ⟨hnonneg, b, rfl, rfl, rfl⟩
    · exact Or.inl ⟨a, rfl, hneg, rfl, rfl⟩
    · exact Or.inr ⟨a, b, rfl, hnonneg, rfl, rfl⟩

end XcpNgGeneric.Descriptor
