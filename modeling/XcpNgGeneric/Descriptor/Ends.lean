import Mathlib.Data.Nat.Find
import XcpNgGeneric.Descriptor.Transfer

/-!
# Transfers that end

Whether `xcp_fd_read_all` without a time-out and `xcp_fd_write_all` return when an endless sequence
of outcomes answers their system calls. Only calls that move bytes bring a transfer closer to its
end; an outcome of no bytes ends the loop of `xcp_fd_read_all`, and the one of `xcp_fd_write_all`
makes the same call again.

## Main results

* `readPart_advances`, `writePart_advances`: what one iteration does with the first outcome that is
  not retried.
* `transfer_ends`: a loop ends if the outcomes that bring it closer to its end do not cease.
* `transfer_ends_iff`: reading always ends; writing ends if and only if it is not answered with no
  bytes for ever.
-/

namespace XcpNgGeneric.Descriptor

open Answers

/-! ## Endless sequences of outcomes -/

/-- Outcomes that the calls of a transfer of `count` bytes can have: every call is `call`, and it
moves at most the bytes that are missing. -/
def Possible (call : SysCall) (count : ℕ) (o : ℕ → Outcome) : Prop :=
  ∀ i, (o i).call = call ∧
    ∀ n, (o i).result = .done n → n ≤ min (count - total (upTo o i)) SSIZE_MAX

/-- No infinite run of errors that are retried. -/
def NoEndlessRetry (o : ℕ → Outcome) : Prop := ∀ i, ∃ j, i ≤ j ∧ (o j).quiet = false

/-- As long as bytes are missing and no call has failed, there is a later outcome of the kind
`good`. -/
def Recurs (good : Outcome → Prop) (count : ℕ) (o : ℕ → Outcome) : Prop :=
  ∀ i, Unbroken (upTo o i) → total (upTo o i) < count → ∃ j, i ≤ j ∧ good (o j)

/-- The call moves bytes, or fails for good. -/
def Outcome.Effective (o : Outcome) : Prop := 0 < o.amount ∨ o.fatal = true

theorem Outcome.Effective.not_quiet {o : Outcome} (ho : o.Effective) : o.quiet = false := by
  cases hquiet : o.quiet with
  | false => rfl
  | true =>
    rcases ho with hamount | hfatal
    · rw [Outcome.quiet.amount hquiet] at hamount
      omega
    · rw [Outcome.quiet.not_fatal hquiet] at hfatal
      cases hfatal

/-- Bytes that are missing are not answered with no bytes for ever: while some are missing, and
unless the transfer has failed, a later call moves bytes or fails. -/
def KeepsMoving (count : ℕ) (o : ℕ → Outcome) : Prop := Recurs Outcome.Effective count o

theorem Possible.shift {call : SysCall} {count : ℕ} {o : ℕ → Outcome} (ho : Possible call count o)
    (m : ℕ) : Possible call (count - total (upTo o m)) fun i => o (m + i) := by
  intro i
  refine ⟨(ho (m + i)).1, ?_⟩
  intro n hn
  have hle := (ho (m + i)).2 n hn
  rw [upTo_add, total_append] at hle
  omega

theorem NoEndlessRetry.shift {o : ℕ → Outcome} (ho : NoEndlessRetry o) (m : ℕ) :
    NoEndlessRetry fun i => o (m + i) := by
  intro i
  obtain ⟨j, hj, hquiet⟩ := ho (m + i)
  refine ⟨j - m, by omega, ?_⟩
  show (o (m + (j - m))).quiet = false
  rwa [Nat.add_sub_of_le (by omega)]

theorem Recurs.shift {good : Outcome → Prop} {count : ℕ} {o : ℕ → Outcome}
    (ho : Recurs good count o) {m : ℕ} (hm : Unbroken (upTo o m)) :
    Recurs good (count - total (upTo o m)) fun i => o (m + i) := by
  intro i hi hlt
  have hmore := ho (m + i)
  rw [upTo_add, total_append] at hmore
  obtain ⟨j, hj, hgood⟩ := hmore (hm.append hi) (by omega)
  refine ⟨j - m, by omega, ?_⟩
  show good (o (m + (j - m)))
  rwa [Nat.add_sub_of_le (by omega)]

/-- The first outcome that is not retried. -/
theorem NoEndlessRetry.first {o : ℕ → Outcome} (ho : NoEndlessRetry o) :
    ∃ m, (o m).quiet = false ∧ ∀ i, i < m → (o i).quiet = true := by
  obtain ⟨j, -, hj⟩ := ho 0
  have hex : ∃ m, (o m).quiet = false := ⟨j, hj⟩
  refine ⟨Nat.find hex, Nat.find_spec hex, ?_⟩
  intro i hi
  have hmin := Nat.find_min hex hi
  simpa using hmin

theorem Quiet.upTo {o : ℕ → Outcome} {m : ℕ} (hquiet : ∀ i, i < m → (o i).quiet = true) :
    Quiet (upTo o m) := by
  intro x hx
  obtain ⟨i, hi, rfl⟩ := mem_upTo.1 hx
  exact hquiet i hi

/-- Nothing but errors that are retried. -/
theorem Possible.retriable {call : SysCall} (hcall : call ≠ .poll) {count : ℕ} {o : ℕ → Outcome}
    (ho : Possible call count o) {m : ℕ} (hquiet : ∀ i, i < m → (o i).quiet = true) :
    Retriable transient call (upTo o m) := by
  intro x hx
  obtain ⟨i, hi, rfl⟩ := mem_upTo.1 hx
  have hx := hquiet i hi
  have hc := (ho i).1
  cases h : o i with
  | mk c r =>
    rw [h] at hx hc
    obtain rfl : c = call := hc
    cases r with
    | fail e => exact ⟨e, hx, rfl⟩
    | done n => cases c <;> simp [Outcome.quiet] at hx hcall

theorem total_upTo_mono {o : ℕ → Outcome} {i j : ℕ} (hij : i ≤ j) :
    total (upTo o i) ≤ total (upTo o j) := by
  obtain ⟨k, rfl⟩ := Nat.le.dest hij
  rw [upTo_add, total_append]
  omega

/-- If the total grows, a call moves bytes. -/
theorem exists_amount_pos {o : ℕ → Outcome} {i j : ℕ}
    (h : total (upTo o i) < total (upTo o j)) : ∃ k, i ≤ k ∧ k < j ∧ 0 < (o k).amount := by
  induction j with
  | zero => exact absurd h (by simp [total])
  | succ j ih =>
    rw [upTo_succ, total_append, total_singleton] at h
    by_cases hj : 0 < (o j).amount
    · have hij : i ≤ j := by
        by_contra hlt
        have hmono := total_upTo_mono (o := o) (show j + 1 ≤ i by omega)
        rw [upTo_succ, total_append, total_singleton] at hmono
        omega
      exact ⟨j, hij, by omega, hj⟩
    · obtain ⟨k, hik, hkj, hk⟩ := ih (by omega)
      exact ⟨k, hik, by omega, hk⟩

/-! ## The programs look only at the answers that they take -/

theorem syscall_local (call : SysCall) (limit : ℕ) (effect : ℕ → World → World) :
    Local (syscall call limit effect) := by
  apply Local.next.bind
  intro o
  apply (Local.check _).bind
  intro _
  obtain ⟨c, e | n⟩ := o
  · exact (Local.change _).bind fun _ => Local.pure _
  · apply (Local.check _).bind
    intro _
    exact (Local.change _).bind fun _ => Local.pure _

theorem attempt_local {again : ℕ → Bool} {call : Io ℤ} {k : ℤ → Io XcpError} (hcall : Local call)
    (hk : ∀ ret, Local (k ret)) : Local (attempt again call k) := by
  apply hcall.bind
  intro ret
  apply Local.ite
  · exact (hk ret).bind fun _ => Local.pure _
  · exact (Local.ask _).bind fun _ => Local.pure _

theorem finish_local (offset : Option SizeObj) (pos : ℕ) : Local (finish offset pos) :=
  (Local.change _).bind fun _ => Local.pure _

theorem giveUp_local (offset : Option SizeObj) (pos : ℕ) : Local (giveUp offset pos) :=
  (Local.change _).bind fun _ => Local.pure _

theorem fd_read_local (fd : Fd) (buf count : ℕ) : Local (xcp_fd_read fd buf count) :=
  Local.loop (fun _ => attempt_local (syscall_local _ _ _) Local.pure) ()

theorem fd_write_local (fd : Fd) (buf count : ℕ) : Local (xcp_fd_write fd buf count) :=
  Local.loop (fun _ => attempt_local (syscall_local _ _ _) Local.pure) ()

theorem writePart_local (fd : Fd) (buf count : ℕ) (offset : Option SizeObj) (pos : ℕ) :
    Local (writePart fd buf count offset pos) := by
  apply (fd_write_local fd _ _).bind
  intro ret
  apply Local.ite (giveUp_local offset pos)
  exact Local.ite (Local.pure _) (finish_local offset _)

theorem wait_read_zero (fd : Fd) (buf count : ℕ) :
    xcp_fd_wait_read fd buf count 0 = xcp_fd_read fd buf count := by
  simp [xcp_fd_wait_read]

theorem readPart_local (fd : Fd) (buf count : ℕ) (offset : Option SizeObj) (pos : ℕ) :
    Local (readPart fd buf count 0 offset pos) := by
  unfold readPart
  rw [wait_read_zero]
  apply (fd_read_local fd _ _).bind
  intro ret
  apply Local.ite (giveUp_local offset pos)
  apply Local.ite (finish_local offset pos)
  exact Local.ite (Local.pure _) (finish_local offset _)

/-! ## One iteration -/

theorem syscall_fail (call : SysCall) (limit : ℕ) (effect : ℕ → World → World) (s : Sys) (e : ℕ) :
    Returns (syscall call limit effect) s [⟨call, .fail e⟩] (-1) { s with errno := e } := by
  unfold syscall
  apply (Returns.next (⟨call, .fail e⟩ : Outcome) s).bind Local.next
  apply (Returns.check rfl s).bind (Local.check _)
  exact (Returns.change _ s).bind (Local.change _) (Returns.pure _ _)

theorem syscall_done (call : SysCall) {limit : ℕ} (effect : ℕ → World → World) (s : Sys) {n : ℕ}
    (hn : n ≤ limit) : Returns (syscall call limit effect) s [⟨call, .done n⟩] n
      { s with world := effect n s.world } := by
  unfold syscall
  apply (Returns.next (⟨call, .done n⟩ : Outcome) s).bind Local.next
  apply (Returns.check rfl s).bind (Local.check _)
  apply (Returns.check hn s).bind (Local.check _)
  exact (Returns.change _ s).bind (Local.change _) (Returns.pure _ _)

section Retry

variable (call : SysCall) {limit : ℕ} (effect : ℕ → World → World)

theorem attempt_fail (limit : ℕ) (again : ℕ → Bool) (s : Sys) (e : ℕ) :
    Returns (attempt again (syscall call limit effect) pure) s [⟨call, .fail e⟩]
      (if again e then .again () else .ret XCP_ERR_ERRNO) { s with errno := e } :=
  (syscall_fail call limit effect s e).bind (syscall_local _ _ _) rfl

theorem attempt_done (again : ℕ → Bool) (s : Sys) {n : ℕ} (hn : n ≤ limit) :
    Returns (attempt again (syscall call limit effect) pure) s [⟨call, .done n⟩] (.ret n)
      { s with world := effect n s.world } := by
  show Returns _ s ([(⟨call, .done n⟩ : Outcome)] ++ []) _ _
  apply (syscall_done call effect s hn).bind (syscall_local _ _ _)
  rw [if_pos (by omega)]
  rfl

/-- The failures that are retried do not keep the call from returning what it returns after
them. -/
theorem retry_returns {os os' : List Outcome} (hos : Retriable transient call os) {r : ℤ}
    (hlast : ∀ s, ∃ s',
      Returns (attempt transient (syscall call limit effect) pure) s os' (.ret r) s') (s : Sys) :
    ∃ s', Returns (retry transient (syscall call limit effect) pure) s (os ++ os') r s' := by
  induction os generalizing s with
  | nil =>
    obtain ⟨s', h⟩ := hlast s
    exact ⟨s', h.loop_ret⟩
  | cons o os ih =>
    obtain ⟨e, he, rfl⟩ := hos o List.mem_cons_self
    obtain ⟨s', hrest⟩ := ih (fun o' ho' => hos o' (List.mem_cons_of_mem _ ho')) ⟨e, s.world⟩
    have hagain := attempt_fail call effect limit transient s e
    rw [if_pos he] at hagain
    refine ⟨s', ?_⟩
    rw [List.cons_append, ← List.singleton_append]
    exact hagain.loop_again (attempt_local (syscall_local _ _ _) Local.pure) (by simp) hrest

/-- **A retried call** returns with the first outcome that is not retried. -/
theorem retry_first (hcall : call ≠ .poll) {count : ℕ} {o : ℕ → Outcome}
    (ho : Possible call count o) (hlimit : min count SSIZE_MAX ≤ limit) {m : ℕ}
    (hm : (o m).quiet = false)
    (hquiet : ∀ i, i < m → (o i).quiet = true) (s : Sys) : ∃ r s',
      Returns (retry transient (syscall call limit effect) pure) s (upTo o (m + 1)) r s' ∧
      (r < 0 ∨ ∃ n : ℕ, o m = ⟨call, .done n⟩ ∧ n ≤ min count SSIZE_MAX ∧ r = n) := by
  have hretried := ho.retriable hcall hquiet
  have hzero : total (upTo o m) = 0 := total_quiet (Quiet.upTo hquiet)
  rw [upTo_succ]
  obtain ⟨hc, hle⟩ := ho m
  cases hx : o m with
  | mk c x =>
    rw [hx] at hm hc hle
    obtain rfl : c = call := hc
    cases x with
    | fail e =>
      have hlast (s : Sys) : Returns (attempt transient (syscall c limit effect) pure) s
          [⟨c, .fail e⟩] (.ret XCP_ERR_ERRNO) { s with errno := e } := by
        have hfail := attempt_fail c effect limit transient s e
        have he : transient e = false := by simpa [Outcome.quiet] using hm
        rwa [he] at hfail
      obtain ⟨s', h⟩ := retry_returns c effect hretried (fun s => ⟨_, hlast s⟩) s
      exact ⟨_, s', h, Or.inl (by decide)⟩
    | done n =>
      have hn : n ≤ min count SSIZE_MAX := by
        have hn := hle n rfl
        rwa [hzero, Nat.sub_zero] at hn
      have hlast (s : Sys) : Returns (attempt transient (syscall c limit effect) pure) s
          [⟨c, .done n⟩] (.ret n) { s with world := effect n s.world } :=
        attempt_done c effect transient s (by omega)
      obtain ⟨s', h⟩ := retry_returns c effect hretried (fun s => ⟨_, hlast s⟩) s
      exact ⟨_, s', h, Or.inr ⟨n, rfl, hn, rfl⟩⟩

end Retry

/-- What an iteration at `pos` does with the first outcome that is not retried: it ends the loop, or
the loop goes on with the bytes that this outcome has moved, some if it is `good`. -/
def Advances (call : SysCall) (count : ℕ) (good : Outcome → Prop) (body : ℕ → Io (Next ℕ XcpError))
    (pos : ℕ) : Prop :=
  ∀ o m s, Possible call (count - pos) o → (o m).quiet = false →
    (∀ i, i < m → (o i).quiet = true) →
    (∃ r s', Returns (body pos) s (upTo o (m + 1)) (.ret r) s') ∨
    ∃ n s', o m = ⟨call, .done n⟩ ∧ pos + n < count ∧ (good (o m) → 0 < n) ∧
      Returns (body pos) s (upTo o (m + 1)) (.again (pos + n)) s'

theorem sizeT_sub {count pos : ℕ} (hcount : count < 2 ^ 64) (hpos : pos ≤ count) :
    sizeT (count - pos) = count - pos := by
  simp only [sizeT]
  omega

theorem finish_returns (offset : Option SizeObj) (pos : ℕ) (s : Sys) :
    Returns (finish offset pos) s [] (.ret (ssizeT pos))
      { s with world := s.world.store offset pos } := rfl

theorem giveUp_returns (offset : Option SizeObj) (pos : ℕ) (s : Sys) :
    Returns (giveUp offset pos) s [] (.ret XCP_ERR_ERRNO)
      { s with world := s.world.store offset pos } := rfl

/-- The end of an iteration that has moved `n` bytes. -/
theorem moved_returns {pos n : ℕ} (count : ℕ) (offset : Option SizeObj)
    (hsize : sizeT (pos + sizeT n) = pos + n) (s : Sys) {c : Io (Next ℕ XcpError)}
    (hc : c = if sizeT (pos + sizeT n) < count then pure (.again (sizeT (pos + sizeT n)))
      else finish offset (sizeT (pos + sizeT n))) :
    (∃ r s', Returns c s [] (.ret r) s') ∨
      (pos + n < count ∧ Returns c s [] (.again (pos + n)) s) := by
  rw [hc, hsize]
  by_cases hlt : pos + n < count
  · rw [if_pos hlt]
    exact Or.inr ⟨hlt, .pure _ s⟩
  · rw [if_neg hlt]
    exact Or.inl ⟨_, _, finish_returns offset (pos + n) s⟩

theorem readPart_advances (fd : Fd) (buf : ℕ) {count : ℕ} (offset : Option SizeObj)
    (hcount : count < 2 ^ 64) {pos : ℕ} (hpos : pos ≤ count) :
    Advances .read count (fun o => o.quiet = false) (readPart fd buf count 0 offset) pos := by
  intro o m s ho hm hquiet
  have hlimit : min (count - pos) SSIZE_MAX ≤ min (sizeT (count - pos)) SSIZE_MAX := by
    rw [sizeT_sub hcount hpos]
  obtain ⟨ret, s', h, hret⟩ := retry_first .read
    (fun n w => w.receive fd (buf + pos) n) (by decide) ho hlimit hm hquiet s
  have hread : Returns (xcp_fd_read fd (buf + pos) (sizeT (count - pos))) s
      (upTo o (m + 1)) ret s' := h
  have hlocal := fd_read_local fd (buf + pos) (sizeT (count - pos))
  unfold readPart
  rw [wait_read_zero, ← List.append_nil (upTo o (m + 1))]
  rcases hret with hneg | ⟨n, hn, hle, rfl⟩
  · have hend := giveUp_returns offset pos s'
    exact Or.inl ⟨_, _, hread.bind hlocal (by rwa [if_pos hneg])⟩
  · obtain ⟨hsum, hsize⟩ := sizeT_step (n := n) hcount hpos (by omega)
    have hnonneg : ¬(n : ℤ) < 0 := by omega
    by_cases hzero : n = 0
    · subst hzero
      have hend := finish_returns offset pos s'
      exact Or.inl ⟨_, _, hread.bind hlocal (by rwa [if_neg hnonneg, if_pos Int.natCast_zero])⟩
    have hpositive : (n : ℤ) ≠ 0 := by omega
    rcases moved_returns count offset hsize s' rfl with ⟨r, s'', hend⟩ | ⟨hlt, hend⟩
    · exact Or.inl ⟨_, _, hread.bind hlocal (by rwa [if_neg hnonneg, if_neg hpositive])⟩
    · exact Or.inr ⟨n, _, hn, hlt, fun _ => by omega,
        hread.bind hlocal (by rwa [if_neg hnonneg, if_neg hpositive])⟩

theorem writePart_advances (fd : Fd) (buf : ℕ) {count : ℕ} (offset : Option SizeObj)
    (hcount : count < 2 ^ 64) {pos : ℕ} (hpos : pos ≤ count) :
    Advances .write count Outcome.Effective (writePart fd buf count offset) pos := by
  intro o m s ho hm hquiet
  have hlimit : min (count - pos) SSIZE_MAX ≤ min (sizeT (count - pos)) SSIZE_MAX := by
    rw [sizeT_sub hcount hpos]
  obtain ⟨ret, s', h, hret⟩ := retry_first .write
    (fun n w => w.send fd (w.bytes (buf + pos) n)) (by decide) ho hlimit hm hquiet s
  have hwrite : Returns (xcp_fd_write fd (buf + pos) (sizeT (count - pos))) s
      (upTo o (m + 1)) ret s' := h
  have hlocal := fd_write_local fd (buf + pos) (sizeT (count - pos))
  unfold writePart
  rw [← List.append_nil (upTo o (m + 1))]
  rcases hret with hneg | ⟨n, hn, hle, rfl⟩
  · have hend := giveUp_returns offset pos s'
    exact Or.inl ⟨_, _, hwrite.bind hlocal (by rwa [if_pos hneg])⟩
  · obtain ⟨hsum, hsize⟩ := sizeT_step (n := n) hcount hpos (by omega)
    have hnonneg : ¬(n : ℤ) < 0 := by omega
    rcases moved_returns count offset hsize s' rfl with ⟨r, s'', hend⟩ | ⟨hlt, hend⟩
    · exact Or.inl ⟨_, _, hwrite.bind hlocal (by rwa [if_neg hnonneg])⟩
    · refine Or.inr ⟨n, _, hn, hlt, ?_, hwrite.bind hlocal (by rwa [if_neg hnonneg])⟩
      intro hgood
      simpa [hn, Outcome.Effective, Outcome.amount, Outcome.fatal] using hgood

/-! ## All iterations -/

/-- **A loop ends** if the outcomes that bring it closer to its end do not cease. -/
theorem transfer_ends {call : SysCall} (hcall : call ≠ .poll) {count : ℕ} {good : Outcome → Prop}
    (hgood : ∀ x, good x → x.quiet = false) {body : ℕ → Io (Next ℕ XcpError)}
    (hlocal : ∀ pos, Local (body pos))
    (hbody : ∀ pos, pos ≤ count → Advances call count good body pos) {pos : ℕ}
    (hpos : pos ≤ count) {o : ℕ → Outcome} {s : Sys} (ho : Possible call (count - pos) o)
    (hretry : NoEndlessRetry o) (hrecurs : Recurs good (count - pos) o) :
    Ends (loop body pos) s o := by
  -- the measure is the number of missing bytes, and then the distance to the next good outcome
  induction hmissing : count - pos using Nat.strong_induction_on generalizing pos o s with
  | _ missing ih =>
    by_cases hdone : pos = count
    · obtain ⟨m, hm, hquiet⟩ := hretry.first
      rcases hbody pos hpos o m s ho hm hquiet with ⟨r, s', h⟩ | ⟨n, s', -, hlt, -, -⟩
      · exact ⟨m + 1, r, s', h.loop_ret⟩
      · omega
    obtain ⟨j, -, hj⟩ := hrecurs 0 (by simp [Unbroken]) (by simp only [upTo_zero, total]; omega)
    induction j using Nat.strong_induction_on generalizing o s with
    | _ j ihj =>
      obtain ⟨m, hm, hquiet⟩ := hretry.first
      rcases hbody pos hpos o m s ho hm hquiet with ⟨r, s', h⟩ | ⟨n, s', hn, hlt, hsome, h⟩
      · exact ⟨m + 1, r, s', h.loop_ret⟩
      have hos : Quiet (upTo o m) := Quiet.upTo hquiet
      have htotal : total (upTo o (m + 1)) = n := by
        rw [upTo_succ, total_append, total_quiet hos, total_singleton, hn, amount_done hcall,
          Nat.zero_add]
      have hunbroken : Unbroken (upTo o (m + 1)) := by
        rw [upTo_succ, hn]
        exact hos.unbroken.append (unbroken_done hcall n)
      have ho' := ho.shift (m + 1)
      have hrecurs' := hrecurs.shift hunbroken
      rw [htotal, Nat.sub_sub] at ho' hrecurs'
      apply Ends.loop_again (hlocal pos) h
      by_cases hzero : n = 0
      · subst hzero
        have hmj : m < j := by
          rcases Nat.lt_trichotomy m j with hlt | rfl | hgt
          · exact hlt
          · exact absurd (hsome hj) (by omega)
          · have hloud := hgood _ hj
            rw [hquiet j hgt] at hloud
            cases hloud
        apply ihj (j - (m + 1)) (by omega) ho' (hretry.shift (m + 1)) hrecurs'
        rwa [Nat.add_sub_of_le (by omega)]
      · exact ih (count - (pos + n)) (by omega) (by omega) ho' (hretry.shift (m + 1)) hrecurs' rfl

/-! ## The two functions -/

theorem read_all_ends (fd : Fd) (buf : ℕ) {count : ℕ} (offset : Option SizeObj) (s : Sys)
    (hcount : count < 2 ^ 64) {o : ℕ → Outcome} (ho : Possible .read count o)
    (hretry : NoEndlessRetry o) : Ends (xcp_fd_read_all fd buf count 0 offset) s o := by
  apply transfer_ends (by decide) (fun _ h => h) (readPart_local fd buf count offset)
    (fun pos hpos => readPart_advances fd buf offset hcount hpos) (Nat.zero_le count) ho hretry
  intro i _ _
  exact hretry i

theorem write_all_ends (fd : Fd) (buf : ℕ) {count : ℕ} (offset : Option SizeObj) (s : Sys)
    (hcount : count < 2 ^ 64) {o : ℕ → Outcome} (ho : Possible .write count o)
    (hretry : NoEndlessRetry o) (hmoving : KeepsMoving count o) :
    Ends (xcp_fd_write_all fd buf count offset) s o := by
  exact transfer_ends (by decide) (fun _ h => h.not_quiet) (writePart_local fd buf count offset)
    (fun pos hpos => writePart_advances fd buf offset hcount hpos) (Nat.zero_le count) ho hretry
    hmoving

/-- Writing returns only after a failure or after all bytes. -/
theorem write_all_keepsMoving {fd : Fd} {buf count : ℕ} {offset : Option SizeObj} {s : Sys}
    (hcount : count < 2 ^ 64) {o : ℕ → Outcome}
    (h : Ends (xcp_fd_write_all fd buf count offset) s o) : KeepsMoving count o := by
  obtain ⟨n, r, s', h⟩ := h
  have hmoved := (fd_write_all_spec fd buf offset hcount).returns h
  intro i hi hlt
  generalize hl : upTo o n = l at hmoved
  cases hmoved with
  | @stopped os x pos e _ _ _ hx =>
    have hfatal : x.fatal = true := by
      rcases hx with ⟨hx, he⟩ | ⟨hwaits, -⟩
      · obtain ⟨c, x⟩ := x
        obtain rfl : x = .fail e := hx
        simp [Outcome.fatal, he]
      · exact hwaits.elim
    have hx : x ∈ upTo o n := by
      rw [hl]
      exact List.mem_append_right _ List.mem_cons_self
    obtain ⟨k, -, rfl⟩ := mem_upTo.1 hx
    refine ⟨k, ?_, Or.inr hfatal⟩
    by_contra hki
    have hbroken := (hi (o k) (mem_upTo.2 ⟨k, by omega, rfl⟩)).1
    rw [hfatal] at hbroken
    cases hbroken
  | @done os m pos e r _ htotal hpos hlast _ =>
    have hall : total (upTo o n) = count := by
      rw [hl, total_append, total_singleton, amount_done (by decide)]
      by_contra hne
      exact (hlast (by omega)).1
    obtain ⟨k, hik, -, hk⟩ := exists_amount_pos (i := i) (j := n) (by rwa [hall])
    exact ⟨k, hik, Or.inl hk⟩

/-- **Transfers end.** Without a time-out `xcp_fd_read_all` returns whatever its calls are answered
with, unless errors are retried for ever. `xcp_fd_write_all` returns if and only if, in addition,
bytes that are missing are not answered with no bytes for ever. -/
theorem transfer_ends_iff (fd : Fd) (buf : ℕ) {count : ℕ} (offset : Option SizeObj) (s : Sys)
    (hcount : count < 2 ^ 64) :
    (∀ o, Possible .read count o → NoEndlessRetry o →
      Ends (xcp_fd_read_all fd buf count 0 offset) s o) ∧
    ∀ o, Possible .write count o → NoEndlessRetry o →
      (Ends (xcp_fd_write_all fd buf count offset) s o ↔ KeepsMoving count o) := by
  constructor
  · intro o ho hretry
    exact read_all_ends fd buf offset s hcount ho hretry
  · intro o ho hretry
    exact ⟨write_all_keepsMoving hcount, write_all_ends fd buf offset s hcount ho hretry⟩

/-- An interruption, a call that moves nothing, one that moves a byte, and then nothing any more. -/
def lateByte (call : SysCall) : ℕ → Outcome
  | 0 => ⟨call, .fail EINTR⟩
  | 2 => ⟨call, .done 1⟩
  | _ => ⟨call, .done 0⟩

theorem possible_lateByte (call : SysCall) : Possible call 1 (lateByte call) := by
  intro i
  match i with
  | 0 => exact ⟨rfl, fun n hn => by cases hn⟩
  | 1 =>
    refine ⟨rfl, fun n hn => ?_⟩
    obtain rfl := Result.done.inj hn
    exact Nat.zero_le _
  | 2 =>
    refine ⟨rfl, fun n hn => ?_⟩
    obtain rfl := Result.done.inj hn
    cases call <;> decide
  | i + 3 =>
    refine ⟨rfl, fun n hn => ?_⟩
    obtain rfl := Result.done.inj hn
    exact Nat.zero_le _

/-- Reading ends before the byte, writing after it. -/
theorem transfer_ends_iff_one :
    Ends (xcp_fd_read_all 0 0 1 0 none) start (lateByte .read) ∧
      Ends (xcp_fd_write_all 0 0 1 none) start (lateByte .write) := by
  have hretry : ∀ call, call ≠ .poll → NoEndlessRetry (lateByte call) := by
    intro call hcall i
    refine ⟨i + 3, Nat.le_add_right i 3, ?_⟩
    cases call with
    | poll => exact absurd rfl hcall
    | read => rfl
    | write => rfl
    | sendmsg => rfl
  obtain ⟨hread, hwrite⟩ := transfer_ends_iff 0 0 none start (show 1 < 2 ^ 64 by decide)
  refine ⟨hread _ (possible_lateByte .read) (hretry .read (by decide)),
    (hwrite _ (possible_lateByte .write) (hretry .write (by decide))).2 fun i _ hlt => ?_⟩
  refine ⟨2, ?_, Or.inl Nat.one_pos⟩
  by_contra hgt
  have hmono := total_upTo_mono (o := lateByte .write) (show 3 ≤ i by omega)
  exact absurd (Nat.lt_of_le_of_lt hmono hlt) (by decide)

/-- **A device that accepts nothing** and does not fail keeps `xcp_fd_write_all` in its loop. -/
theorem write_all_never_ends : Possible .write 1 (fun _ => ⟨.write, .done 0⟩) ∧
    NoEndlessRetry (fun _ => ⟨.write, .done 0⟩) ∧
    ¬Ends (xcp_fd_write_all 0 0 1 none) start fun _ => ⟨.write, .done 0⟩ := by
  refine ⟨fun i => ⟨rfl, ?_⟩, fun i => ⟨i, Nat.le_refl i, rfl⟩, fun h => ?_⟩
  · intro n hn
    cases hn
    exact Nat.zero_le _
  · obtain ⟨j, -, hj⟩ := write_all_keepsMoving (by decide) h 0 (by simp [Unbroken]) Nat.one_pos
    simp [Outcome.Effective, Outcome.amount, Outcome.fatal] at hj

end XcpNgGeneric.Descriptor
