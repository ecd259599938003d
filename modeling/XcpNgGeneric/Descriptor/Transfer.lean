import XcpNgGeneric.Descriptor.Retry

/-!
# Transfers of a whole buffer

`xcp_fd_read_all` and `xcp_fd_write_all`. The two loops differ in one branch: only reading ends at a
chunk of no bytes. What they have in common is `Part`, what one iteration does, and `Moved`, what
the whole loop does; both are stated for any `effect` of which two in a row are one (`Cumulative`).

## Main results

* `moved_spec`: from what one iteration does to what the loop does.
* `fd_read_all_spec`, `fd_write_all_spec`: the two functions.
-/

namespace XcpNgGeneric.Descriptor

open Answers

/-- The end of the functions: `*offset` is set, and so many bytes were moved. -/
def finish (offset : Option SizeObj) (pos : ℕ) : Io (Next ℕ XcpError) := do
  change fun s => { s with world := s.world.store offset pos }
  pure (.ret (ssizeT pos))

/-- The error of a chunk, after `pos` bytes. -/
def giveUp (offset : Option SizeObj) (pos : ℕ) : Io (Next ℕ XcpError) := do
  change fun s => { s with world := s.world.store offset pos }
  pure (.ret XCP_ERR_ERRNO)

/-- The body of the loop of `xcp_fd_read_all`. -/
def readPart (fd : Fd) (buf count : ℕ) (timeout : ℤ) (offset : Option SizeObj) (pos : ℕ) :
    Io (Next ℕ XcpError) := do
  let ret ← xcp_fd_wait_read fd (buf + pos) (sizeT (count - pos)) timeout
  if ret < 0 then giveUp offset pos
  else if ret = 0 then finish offset pos
  else
    let pos := sizeT (pos + sizeT ret)
    if pos < count then pure (.again pos) else finish offset pos

def xcp_fd_read_all (fd : Fd) (buf count : ℕ) (timeout : ℤ) (offset : Option SizeObj) :
    Io XcpError :=
  loop (readPart fd buf count timeout offset) 0

/-- The body of the loop of `xcp_fd_write_all`. -/
def writePart (fd : Fd) (buf count : ℕ) (offset : Option SizeObj) (pos : ℕ) :
    Io (Next ℕ XcpError) := do
  let ret ← xcp_fd_write fd (buf + pos) (sizeT (count - pos))
  if ret < 0 then giveUp offset pos
  else
    let pos := sizeT (pos + sizeT ret)
    if pos < count then pure (.again pos) else finish offset pos

def xcp_fd_write_all (fd : Fd) (buf count : ℕ) (offset : Option SizeObj) : Io XcpError :=
  loop (writePart fd buf count offset) 0

/-! ## One iteration, and all -/

/-- Two transfers in a row are one. -/
structure Cumulative (effect : ℕ → ℕ → World → World) : Prop where
  zero : ∀ buf w, effect buf 0 w = w
  add : ∀ buf m n w, effect (buf + m) n (effect buf m w) = effect buf (m + n) w

theorem receive_cumulative (fd : Fd) : Cumulative fun buf n w => w.receive fd buf n :=
  ⟨fun buf w => w.receive_zero fd buf, fun buf m n w => w.receive_receive fd buf m n⟩

theorem send_cumulative (fd : Fd) : Cumulative fun buf n w => w.send fd (w.bytes buf n) := by
  refine ⟨fun buf w => by simp, fun buf m n w => ?_⟩
  rw [World.bytes_send, World.send_send, ← World.bytes_add]

/-- The last call of a transfer that fails: `errno` is `e` and its cause, or a `poll` timed out. -/
def Stops (waits : Prop) (o : Outcome) (e : ℕ) : Prop :=
  (o.result = .fail e ∧ transient e = false) ∨ (waits ∧ o = ⟨.poll, .done 0⟩)

section Loop

variable (waits stopsAtZero : Prop) (call : SysCall) (effect : ℕ → ℕ → World → World)
  (buf count : ℕ) (offset : Option SizeObj)

/-- What one iteration does at `pos`. -/
inductive Part (pos : ℕ) (s : Sys) : List Outcome → Next ℕ ℤ → Sys → Prop
  | stopped {os : List Outcome} {o : Outcome} {e : ℕ} (hos : Quiet os) (ho : Stops waits o e) :
    Part pos s (os ++ [o]) (.ret XCP_ERR_ERRNO) ⟨e, s.world.store offset pos⟩
  | again {os : List Outcome} {n e : ℕ} (hos : Quiet os) (hn : pos + n < count) :
    Part pos s (os ++ [⟨call, .done n⟩]) (.again (pos + n)) ⟨e, effect (buf + pos) n s.world⟩
  | last {os : List Outcome} {n e : ℕ} {r : ℤ} (hos : Quiet os) (hle : pos + n ≤ count)
    (hn : pos + n < count → stopsAtZero ∧ n = 0) (hr : r = ssizeT ↑(pos + n)) :
    Part pos s (os ++ [⟨call, .done n⟩]) (.ret r)
      ⟨e, (effect (buf + pos) n s.world).store offset (pos + n)⟩

/-- No call of the transfer ended it. -/
def Unbroken (os : List Outcome) : Prop :=
  ∀ o ∈ os, o.fatal = false ∧ o.timedOut = false

/-- What the loop does. -/
inductive Moved (s : Sys) : List Outcome → ℤ → Sys → Prop
  | stopped {os : List Outcome} {o : Outcome} {pos e : ℕ} (hos : Unbroken os)
    (htotal : total os = pos) (hpos : pos = 0 ∨ pos < count) (ho : Stops waits o e) :
    Moved s (os ++ [o]) XCP_ERR_ERRNO ⟨e, (effect buf pos s.world).store offset pos⟩
  | done {os : List Outcome} {n pos e : ℕ} {r : ℤ} (hos : Unbroken os)
    (htotal : total os + n = pos) (hpos : pos ≤ count)
    (hlast : pos < count → stopsAtZero ∧ n = 0) (hr : r = ssizeT pos) :
    Moved s (os ++ [⟨call, .done n⟩]) r
      ⟨e, (effect buf pos s.world).store offset pos⟩

variable {waits stopsAtZero : Prop} {call : SysCall} {effect : ℕ → ℕ → World → World}
  {buf count : ℕ} {offset : Option SizeObj}

theorem Quiet.unbroken {os : List Outcome} (h : Quiet os) : Unbroken os :=
  fun o ho => ⟨Outcome.quiet.not_fatal (h o ho), Outcome.quiet.not_timedOut (h o ho)⟩

theorem Unbroken.append {os os' : List Outcome} (h : Unbroken os) (h' : Unbroken os') :
    Unbroken (os ++ os') := by
  intro o ho
  rcases List.mem_append.1 ho with ho | ho
  · exact h o ho
  · exact h' o ho

theorem amount_done (hcall : call ≠ .poll) (n : ℕ) : Outcome.amount ⟨call, .done n⟩ = n := by
  cases call with
  | poll => exact absurd rfl hcall
  | read => rfl
  | write => rfl
  | sendmsg => rfl

theorem unbroken_done (hcall : call ≠ .poll) (n : ℕ) : Unbroken [⟨call, .done n⟩] := by
  intro o ho
  rw [List.mem_singleton.1 ho]
  simp [Outcome.fatal, Outcome.timedOut, hcall]

/-- **The loop of a transfer**: the bytes moved by its calls are moved as if by one call, from the
beginning of the buffer. -/
theorem moved_spec (hcall : call ≠ .poll) (heffect : Cumulative effect)
    {body : ℕ → Io (Next ℕ XcpError)}
    (hbody : ∀ pos, Spec (body pos) fun s os n s' =>
      pos ≤ count → Part waits stopsAtZero call effect buf count offset pos s os n s') :
    Spec (loop body 0) (Moved waits stopsAtZero call effect buf count offset) := by
  refine Spec.loop (fun s₀ os pos s => Unbroken os ∧ total os = pos ∧ (pos = 0 ∨ pos < count) ∧
    s.world = effect buf pos s₀.world) hbody ?_ ?_ ?_
  · intro s
    exact ⟨Quiet.nil.unbroken, rfl, Or.inl rfl, (heffect.zero _ _).symm⟩
  · rintro s₀ os pos s os' pos' s' ⟨hos, htotal, hpos, hw⟩ hpart
    cases hpart (by omega) with
    | @again os' n e hos' hn =>
      refine ⟨hos.append (hos'.unbroken.append (unbroken_done hcall _)), ?_, Or.inr hn, ?_⟩
      · rw [total_append, total_append, htotal, total_quiet hos', total_singleton,
          amount_done hcall, Nat.zero_add]
      · rw [hw]
        exact heffect.add _ _ _ _
  · rintro s₀ os pos s os' r s' ⟨hos, htotal, hpos, hw⟩ hpart
    cases hpart (by omega) with
    | @stopped os' o e hos' ho =>
      have hmoved : total (os ++ os') = pos := by
        rw [total_append, htotal, total_quiet hos', Nat.add_zero]
      rw [hw, ← List.append_assoc]
      exact .stopped (hos.append hos'.unbroken) hmoved hpos ho
    | @last os' n e r hos' hle hn hr =>
      have hmoved : total (os ++ os') + n = pos + n := by
        rw [total_append, htotal, total_quiet hos', Nat.add_zero]
      rw [hw, heffect.add, ← List.append_assoc]
      exact .done (hos.append hos'.unbroken) hmoved hle hn hr

end Loop

/-! ## The two functions -/

theorem finish_spec (offset : Option SizeObj) (pos : ℕ) :
    Spec (finish offset pos) fun s os n s' => os = [] ∧ n = .ret (ssizeT pos) ∧
      s' = ⟨s.errno, s.world.store offset pos⟩ := by
  apply Spec.bind Spec.change (fun _ => Spec.pure)
  rintro s _ _ s' _ _ _ ⟨rfl, rfl⟩ ⟨rfl, rfl, rfl⟩
  exact ⟨rfl, rfl, rfl⟩

theorem giveUp_spec (offset : Option SizeObj) (pos : ℕ) :
    Spec (giveUp offset pos) fun s os n s' => os = [] ∧ n = .ret XCP_ERR_ERRNO ∧
      s' = ⟨s.errno, s.world.store offset pos⟩ := by
  apply Spec.bind Spec.change (fun _ => Spec.pure)
  rintro s _ _ s' _ _ _ ⟨rfl, rfl⟩ ⟨rfl, rfl, rfl⟩
  exact ⟨rfl, rfl, rfl⟩

/-- Where a transfer continues: neither the difference nor the sum wraps. -/
theorem sizeT_step {pos n count : ℕ} (hcount : count < 2 ^ 64) (hpos : pos ≤ count)
    (hn : n ≤ min (sizeT (count - pos)) SSIZE_MAX) :
    pos + n ≤ count ∧ sizeT (pos + sizeT n) = pos + n := by
  simp only [sizeT] at hn ⊢
  omega

/-- What the two functions do with the result of a chunk. -/
inductive Handled (stopsAtZero : Prop) (count : ℕ) (offset : Option SizeObj) (pos : ℕ)
    (ret : ℤ) (s : Sys) : List Outcome → Next ℕ ℤ → Sys → Prop
  | error (h : ret < 0) : Handled stopsAtZero count offset pos ret s [] (.ret XCP_ERR_ERRNO)
      ⟨s.errno, s.world.store offset pos⟩
  | empty {r : ℤ} (hstop : stopsAtZero) (h : ret = 0) (hr : r = ssizeT pos) :
    Handled stopsAtZero count offset pos ret s [] (.ret r)
      ⟨s.errno, s.world.store offset pos⟩
  | again (h : 0 ≤ ret) (hlt : sizeT (pos + sizeT ret) < count) :
    Handled stopsAtZero count offset pos ret s [] (.again (sizeT (pos + sizeT ret))) s
  | last {r : ℤ} (h : 0 ≤ ret) (hge : count ≤ sizeT (pos + sizeT ret))
    (hr : r = ssizeT (sizeT (pos + sizeT ret))) :
    Handled stopsAtZero count offset pos ret s [] (.ret r)
      ⟨s.errno, s.world.store offset (sizeT (pos + sizeT ret))⟩

theorem Handled.part {waits stopsAtZero : Prop} {call : SysCall}
    {effect : ℕ → ℕ → World → World} {buf count : ℕ}
    {offset : Option SizeObj} {pos : ℕ} {s s' s'' : Sys} {os os' : List Outcome} {ret : ℤ}
    {n : Next ℕ XcpError} (hcount : count < 2 ^ 64) (hpos : pos ≤ count)
    (h : Settled waits call (min (sizeT (count - pos)) SSIZE_MAX) (effect (buf + pos)) s os ret s')
    (h' : Handled stopsAtZero count offset pos ret s' os' n s'') :
    Part waits stopsAtZero call effect buf count offset pos s (os ++ os') n s'' := by
  have hos' : os' = [] := by cases h' <;> rfl
  subst hos'
  rw [List.append_nil]
  cases h with
  | timeout hwaits hos =>
    cases h' with
    | error => exact .stopped hos (Or.inr ⟨hwaits, rfl⟩)
    | empty _ h => cases h
    | again h => exact absurd h (by decide)
    | last h => exact absurd h (by decide)
  | failed hos he =>
    cases h' with
    | error => exact .stopped hos (Or.inl ⟨rfl, he⟩)
    | empty _ h => cases h
    | again h => exact absurd h (by decide)
    | last h => exact absurd h (by decide)
  | @done os m e hos hm =>
    obtain ⟨hle, hsum⟩ := sizeT_step hcount hpos hm
    cases h' with
    | error h => omega
    | empty hstop h hr =>
      obtain rfl : m = 0 := by omega
      exact .last hos hle (fun _ => ⟨hstop, rfl⟩) hr
    | again h hlt =>
      rw [hsum] at hlt ⊢
      exact .again hos hlt
    | last h hge hr =>
      rw [hsum] at hge hr ⊢
      exact .last hos hle (fun hlt => absurd hlt (by omega)) hr

theorem readPart_spec {fd : Fd} {buf count : ℕ} {timeout : ℤ} {offset : Option SizeObj}
    (hcount : count < 2 ^ 64) (pos : ℕ) :
    Spec (readPart fd buf count timeout offset pos) fun s os n s' => pos ≤ count →
      Part (timeout ≠ 0) True .read (fun buf n w => w.receive fd buf n) buf count offset pos
        s os n s' := by
  refine Spec.bind (wait_read_spec fd _ _ timeout)
    (K := fun ret => Handled True count offset pos ret) (fun ret => ?_)
    fun s os ret s' os' n s'' h h' hpos => h'.part hcount hpos h
  refine Spec.ite (fun hneg => (giveUp_spec offset pos).mono ?_) (fun hneg => ?_)
  · rintro s _ _ _ ⟨rfl, rfl, rfl⟩
    exact .error hneg
  refine Spec.ite (fun hzero => (finish_spec offset pos).mono ?_) (fun _ => ?_)
  · rintro s _ _ _ ⟨rfl, rfl, rfl⟩
    exact .empty trivial hzero rfl
  refine Spec.ite (fun hlt => Spec.pure.mono ?_) (fun hge => (finish_spec offset _).mono ?_)
  · rintro s _ _ _ ⟨rfl, rfl, rfl⟩
    exact .again (Int.not_lt.1 hneg) hlt
  · rintro s _ _ _ ⟨rfl, rfl, rfl⟩
    exact .last (Int.not_lt.1 hneg) (Nat.not_lt.1 hge) rfl

theorem writePart_spec {fd : Fd} {buf count : ℕ} {offset : Option SizeObj}
    (hcount : count < 2 ^ 64) (pos : ℕ) :
    Spec (writePart fd buf count offset pos) fun s os n s' => pos ≤ count →
      Part False False .write (fun buf n w => w.send fd (w.bytes buf n)) buf count offset pos
        s os n s' := by
  refine Spec.bind (fd_write_spec fd _ _) (K := fun ret => Handled False count offset pos ret)
    (fun ret => ?_) fun s os ret s' os' n s'' h h' hpos => h'.part hcount hpos h
  refine Spec.ite (fun hneg => (giveUp_spec offset pos).mono ?_) (fun hneg => ?_)
  · rintro s _ _ _ ⟨rfl, rfl, rfl⟩
    exact .error hneg
  refine Spec.ite (fun hlt => Spec.pure.mono ?_) (fun hge => (finish_spec offset _).mono ?_)
  · rintro s _ _ _ ⟨rfl, rfl, rfl⟩
    exact .again (Int.not_lt.1 hneg) hlt
  · rintro s _ _ _ ⟨rfl, rfl, rfl⟩
    exact .last (Int.not_lt.1 hneg) (Nat.not_lt.1 hge) rfl

theorem fd_read_all_spec (fd : Fd) (buf : ℕ) {count : ℕ} (timeout : ℤ) (offset : Option SizeObj)
    (hcount : count < 2 ^ 64) :
    Spec (xcp_fd_read_all fd buf count timeout offset)
      (Moved (timeout ≠ 0) True .read (fun buf n w => w.receive fd buf n) buf count offset) :=
  moved_spec (by decide) (receive_cumulative fd) (readPart_spec hcount)

theorem fd_write_all_spec (fd : Fd) (buf : ℕ) {count : ℕ} (offset : Option SizeObj)
    (hcount : count < 2 ^ 64) :
    Spec (xcp_fd_write_all fd buf count offset)
      (Moved False False .write (fun buf n w => w.send fd (w.bytes buf n)) buf count offset) :=
  moved_spec (by decide) (send_cumulative fd) (writePart_spec hcount)

end XcpNgGeneric.Descriptor
