import XcpNgGeneric.Descriptor.Transfer

/-!
# Reading

What a caller of `xcp_fd_read_all` finds in its buffer, and which error codes reach it through the
layers `xcp_fd_wait_for_rdata`, `xcp_fd_wait_read` and `xcp_fd_read_all`.

## Main results

* `read_all_consumed`: the bytes taken from the descriptor are in the buffer, in order.
* `read_errors`: the two lower layers keep the error codes apart; `xcp_fd_read_all` does so exactly
  if no `poll` times out and the size of what was read is not one of two sizes, those that are the
  error codes when they are cast.
-/

namespace XcpNgGeneric.Descriptor

open Answers

variable {fd : Fd} {buf count : ℕ} {timeout : ℤ} {offset : Option SizeObj} {s s' : Sys}
  {os : List Outcome} {r : ℤ}

/-! ## The bytes -/

/-- Between `w` and `w'` the next `pos` bytes of `fd` were taken and are stored at `buf`. -/
structure Consumed (fd : Fd) (buf pos : ℕ) (w w' : World) : Prop where
  stream : w'.stream = w.stream
  taken : w'.taken = Function.update w.taken fd (w.taken fd + pos)
  stored : slice w'.mem buf pos = (List.range pos).map fun i => w.stream fd (w.taken fd + i)
  rest : ∀ a, a < buf ∨ buf + pos ≤ a → w'.mem a = w.mem a
  peer : w'.peer = w.peer

theorem consumed_receive (w : World) (fd : Fd) (buf pos : ℕ) :
    Consumed fd buf pos w (w.receive fd buf pos) := by
  refine ⟨rfl, rfl, ?_, ?_, rfl⟩
  · apply List.map_congr_left
    intro i hi
    have hlt : i < pos := List.mem_range.1 hi
    have hin : buf ≤ buf + i ∧ buf + i < buf + pos := by omega
    simp [World.receive, hin]
  · intro a ha
    have hout : ¬(buf ≤ a ∧ a < buf + pos) := by omega
    simp [World.receive, hout]

theorem Consumed.store {pos : ℕ} {w w' : World} (h : Consumed fd buf pos w w')
    (offset : Option SizeObj) (n : ℕ) : Consumed fd buf pos w (w'.store offset n) := by
  cases offset with
  | none => exact h
  | some x => exact ⟨h.stream, h.taken, h.stored, h.rest, h.peer⟩

/-- **No byte is lost or invented** by `xcp_fd_read_all`: the `pos` bytes taken from the descriptor
are at the beginning of the buffer in the order of the stream, and nothing else has changed;
`*offset` is `pos` whatever the result is. -/
theorem read_all_consumed (hcount : count ≤ SSIZE_MAX)
    (h : Returns (xcp_fd_read_all fd buf count timeout offset) s os r s') :
    ∃ pos ≤ count, Consumed fd buf pos s.world s'.world ∧
      (∀ x ∈ offset, s'.world.sizes x = pos) ∧
      (0 ≤ r → r = pos ∧ (pos < count → os.getLast? = some ⟨.read, .done 0⟩)) ∧
      (r < 0 → ∃ o, os.getLast? = some o ∧ (o.timedOut = true ∨ o.fatal = true)) := by
  have hsize : count < 2 ^ 64 := by
    simp only [SSIZE_MAX] at hcount
    omega
  cases (fd_read_all_spec fd buf timeout offset hsize).returns h with
  | @stopped os o pos e hos htotal hpos ho =>
    refine ⟨pos, by omega, (consumed_receive ..).store .., fun x hx => World.sizes_store _ hx, ?_,
      ?_⟩
    · intro hr
      exact absurd hr (by decide)
    · intro _
      refine ⟨o, by simp, ?_⟩
      rcases ho with ⟨hfail, he⟩ | ⟨-, rfl⟩
      · right
        obtain ⟨c, result⟩ := o
        cases hfail
        simp [Outcome.fatal, he]
      · exact Or.inl rfl
  | @done os n pos e r hos htotal hpos hlast hr =>
    rw [ssizeT_natCast (Nat.le_trans hpos hcount)] at hr
    refine ⟨pos, hpos, (consumed_receive ..).store .., fun x hx => World.sizes_store _ hx, ?_, ?_⟩
    · intro _
      refine ⟨hr, fun hlt => ?_⟩
      rw [(hlast hlt).2]
      simp
    · intro hneg
      rw [hr] at hneg
      exact absurd hneg (Int.not_lt.2 (Int.natCast_nonneg pos))

/-- A short read, a signal, and the rest. -/
def interrupted : List Outcome :=
  [⟨.poll, .done 1⟩, ⟨.read, .done 2⟩, ⟨.poll, .fail EINTR⟩, ⟨.poll, .done 1⟩,
    ⟨.read, .fail EAGAIN⟩, ⟨.read, .done 1⟩]

theorem read_all_consumed_interrupted : ∃ s',
    Returns (xcp_fd_read_all 5 100 3 1000 (some (.arg 0))) start interrupted 3 s' ∧
      ∃ pos ≤ 3, Consumed 5 100 pos start.world s'.world ∧
        (∀ x ∈ some (SizeObj.arg 0), s'.world.sizes x = pos) ∧
        ((0 : ℤ) ≤ 3 → (3 : ℤ) = pos ∧ (pos < 3 → interrupted.getLast? = some ⟨.read, .done 0⟩)) ∧
        ((3 : ℤ) < 0 → ∃ o, interrupted.getLast? = some o ∧
          (o.timedOut = true ∨ o.fatal = true)) := by
  have hrun : Returns (xcp_fd_read_all 5 100 3 1000 (some (.arg 0))) start interrupted 3 _ := rfl
  exact ⟨_, hrun, read_all_consumed (by decide) hrun⟩

/-! ## The error codes -/

/-- The result says how the last system call ended, and `errno` is the cause of a failure. -/
structure ErrorsSurvive (os : List Outcome) (r : ℤ) (s' : Sys) : Prop where
  timeout : r = XCP_ERR_TIMEOUT ↔ os.getLast? = some ⟨.poll, .done 0⟩
  errno : r = XCP_ERR_ERRNO ↔ ∃ o, os.getLast? = some o ∧ o.fatal = true
  cause : r = XCP_ERR_ERRNO → ∃ c, os.getLast? = some ⟨c, .fail s'.errno⟩

theorem Unbroken.errorsSurvive (hos : Unbroken os) :
    ErrorsSurvive os r s' ↔ r ≠ XCP_ERR_TIMEOUT ∧ r ≠ XCP_ERR_ERRNO := by
  have htimeout : os.getLast? ≠ some ⟨.poll, .done 0⟩ := fun hlast =>
    absurd (hos _ (List.mem_of_getLast? hlast)).2 (by decide)
  have hfatal : ¬∃ o, os.getLast? = some o ∧ o.fatal = true := by
    rintro ⟨o, hlast, ho⟩
    rw [(hos o (List.mem_of_getLast? hlast)).1] at ho
    cases ho
  constructor
  · intro h
    exact ⟨fun hr => htimeout (h.timeout.1 hr), fun hr => hfatal (h.errno.1 hr)⟩
  · rintro ⟨ht, he⟩
    exact ⟨iff_of_false ht htimeout, iff_of_false he hfatal, fun hr => absurd hr he⟩

theorem errorsSurvive_failed {c : SysCall} {e : ℕ} {w : World} (he : transient e = false) :
    ErrorsSurvive (os ++ [⟨c, .fail e⟩]) XCP_ERR_ERRNO ⟨e, w⟩ := by
  refine ⟨iff_of_false (by decide) ?_, iff_of_true rfl ⟨⟨c, .fail e⟩, ?_, ?_⟩, fun _ => ⟨c, ?_⟩⟩
  · simp
  · simp
  · simp [Outcome.fatal, he]
  · simp

theorem errorsSurvive_timeout : ErrorsSurvive (os ++ [⟨.poll, .done 0⟩]) XCP_ERR_TIMEOUT s' := by
  refine ⟨iff_of_true rfl ?_, iff_of_false (by decide) ?_, fun h => absurd h (by decide)⟩
  · simp
  · simp [Outcome.fatal]

theorem wait_for_rdata_errors (h : Returns (xcp_fd_wait_for_rdata fd timeout) s os r s') :
    ErrorsSurvive os r s' := by
  cases (wait_for_rdata_spec fd timeout).returns h with
  | ready hos => exact hos.unbroken.errorsSurvive.2 (by decide)
  | timeout => exact errorsSurvive_timeout
  | failed hos he => exact errorsSurvive_failed he

theorem wait_read_errors (h : Returns (xcp_fd_wait_read fd buf count timeout) s os r s') :
    ErrorsSurvive os r s' := by
  cases (wait_read_spec fd buf count timeout).returns h with
  | timeout => exact errorsSurvive_timeout
  | failed hos he => exact errorsSurvive_failed he
  | @done os n e hos hn =>
    apply (hos.unbroken.append (unbroken_done (by decide) n)).errorsSurvive.2
    simp only [XCP_ERR_TIMEOUT, XCP_ERR_ERRNO]
    omega

/-- No `poll` times out, and what was read, unless a call failed, is not one of the two sizes that
are error codes when they are cast. -/
def KeepsErrors (os : List Outcome) : Prop :=
  ⟨.poll, .done 0⟩ ∉ os ∧
    ((∃ o ∈ os, o.fatal = true) ∨ total os ≠ 2 ^ 64 - 2 ∧ total os ≠ 2 ^ 64 - 1)

theorem read_all_errors_iff (hcount : count < 2 ^ 64)
    (h : Returns (xcp_fd_read_all fd buf count timeout offset) s os r s') :
    ErrorsSurvive os r s' ↔ KeepsErrors os := by
  cases (fd_read_all_spec fd buf timeout offset hcount).returns h with
  | @stopped os o pos e hos htotal hpos ho =>
    rcases ho with ⟨hfail, he⟩ | ⟨-, rfl⟩
    · obtain ⟨c, result⟩ := o
      cases hfail
      refine iff_of_true (errorsSurvive_failed he) ⟨?_, Or.inl ⟨⟨c, .fail e⟩, by simp, ?_⟩⟩
      · intro hmem
        rcases List.mem_append.1 hmem with hmem | hmem
        · exact absurd (hos _ hmem).2 (by decide)
        · cases List.mem_singleton.1 hmem
      · simp [Outcome.fatal, he]
    · refine iff_of_false (fun hs => ?_) (fun hk => hk.1 (by simp))
      exact absurd (hs.timeout.2 (by simp)) (by decide)
  | @done os n pos e r hos htotal hpos hlast hr =>
    have hall : Unbroken (os ++ [⟨.read, .done n⟩]) := hos.append (unbroken_done (by decide) n)
    have hmoved : total (os ++ [⟨.read, .done n⟩]) = pos := by
      rw [total_append, total_singleton, amount_done (by decide), htotal]
    have hnopoll : ⟨.poll, .done 0⟩ ∉ os ++ [⟨.read, .done n⟩] := fun hmem =>
      absurd (hall _ hmem).2 (by decide)
    have hnofatal : ¬∃ o ∈ os ++ [⟨.read, .done n⟩], o.fatal = true := by
      rintro ⟨o, hmem, ho⟩
      rw [(hall o hmem).1] at ho
      cases ho
    have htimeout : r = XCP_ERR_TIMEOUT ↔ pos = 2 ^ 64 - 2 := by
      rw [hr]
      exact ssizeT_eq_neg (k := 2) (by omega) (by decide) (by decide)
    have herrno : r = XCP_ERR_ERRNO ↔ pos = 2 ^ 64 - 1 := by
      rw [hr]
      exact ssizeT_eq_neg (k := 1) (by omega) (by decide) (by decide)
    rw [hall.errorsSurvive, KeepsErrors, hmoved, Ne, Ne, htimeout, herrno]
    simp only [hnopoll, hnofatal, not_false_eq_true, true_and, false_or, Ne]

/-- **The error codes.** `xcp_fd_wait_for_rdata` and `xcp_fd_wait_read` return the code of what the
last system call did; `xcp_fd_read_all` does so exactly in the runs that keep the errors, since it
returns `XCP_ERR_ERRNO` for every error of a chunk. -/
theorem read_errors (hcount : count < 2 ^ 64) :
    (Returns (xcp_fd_wait_for_rdata fd timeout) s os r s' → ErrorsSurvive os r s') ∧
    (Returns (xcp_fd_wait_read fd buf count timeout) s os r s' → ErrorsSurvive os r s') ∧
    (Returns (xcp_fd_read_all fd buf count timeout offset) s os r s' →
      (ErrorsSurvive os r s' ↔ KeepsErrors os)) :=
  ⟨wait_for_rdata_errors, wait_read_errors, read_all_errors_iff hcount⟩

theorem read_errors_interrupted : ∃ s',
    Returns (xcp_fd_read_all 5 100 3 1000 (some (.arg 0))) start interrupted 3 s' ∧
      ErrorsSurvive interrupted 3 s' := by
  have hrun : Returns (xcp_fd_read_all 5 100 3 1000 (some (.arg 0))) start interrupted 3 _ := rfl
  have hkeeps : KeepsErrors interrupted := ⟨by decide, Or.inr (by decide)⟩
  exact ⟨_, hrun, ((read_errors (by decide)).2.2 hrun).2 hkeeps⟩

/-- **The time-out is lost**: two bytes are read, the next `poll` returns `0`, and the result is
`XCP_ERR_ERRNO`. -/
theorem read_all_loses_timeout : ∃ s',
    Returns (xcp_fd_read_all 5 100 3 1000 (some (.arg 0))) start
      [⟨.poll, .done 1⟩, ⟨.read, .done 2⟩, ⟨.poll, .done 0⟩] XCP_ERR_ERRNO s' ∧
      ¬ErrorsSurvive [⟨.poll, .done 1⟩, ⟨.read, .done 2⟩, ⟨.poll, .done 0⟩] XCP_ERR_ERRNO s' := by
  refine ⟨_, rfl, fun h => ?_⟩
  exact absurd (h.timeout.2 rfl) (by decide)

end XcpNgGeneric.Descriptor
