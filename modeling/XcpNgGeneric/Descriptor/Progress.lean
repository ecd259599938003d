import XcpNgGeneric.Descriptor.Ends
import XcpNgGeneric.Descriptor.Pipe

/-!
# Transfers over a pipe are completed

`xcp_fd_write_all` at one end of a pipe and `xcp_fd_read_all` at the other, of the same number of
bytes. The calls can be interrupted and move any number of bytes, but none fails for good. As long
as one of the two functions has not returned, one of them can move bytes, since the pipe is not
full and empty at once.

## Main results

* `loop_returns`: a transfer returns when its last byte is moved.
* `Joint.Balanced`: what holds of the pipe and the two transfers after every step.
* `transfer_completes`: when no more bytes can be moved, both functions have returned and the
  buffers are equal.
-/

namespace XcpNgGeneric.Descriptor

open Answers Runs

/-! ## The calls of a transfer that is completed -/

/-- The calls move the bytes that are missing: each is made while some are, asks for no more, and
does not fail for good; where `stops`, none returns `0`. -/
def Completes (call : SysCall) (stops : Prop) : ℕ → List Outcome → Prop
  | missing, [] => missing = 0
  | missing, o :: os => 0 < missing ∧ (o.call = call ∧ o.fatal = false) ∧ o.amount ≤ missing ∧
      (stops → o.result ≠ .done 0) ∧ Completes call stops (missing - o.amount) os

section Completes

variable {call : SysCall} {stops : Prop} {count : ℕ}

/-- A call that is not retried and does not fail has moved bytes. -/
theorem eq_done {o : Outcome} (hcall : o.call = call) (hfatal : o.fatal = false)
    (hquiet : o.quiet = false) : ∃ n, o = ⟨call, .done n⟩ := by
  obtain ⟨c, result⟩ := o
  obtain rfl : c = call := hcall
  cases result with
  | fail e => simp_all [Outcome.fatal, Outcome.quiet]
  | done n => exact ⟨n, rfl⟩

/-- What is left after the first call that is not retried. -/
theorem Completes.split (hcall : call ≠ .poll) {missing : ℕ} {os : List Outcome}
    (h : Completes call stops missing os) (hmissing : 0 < missing) : ∃ qs n rest,
      os = qs ++ ⟨call, .done n⟩ :: rest ∧ Retriable transient call qs ∧ n ≤ missing ∧
        (stops → n ≠ 0) ∧ Completes call stops (missing - n) rest := by
  induction os with
  | nil =>
    obtain rfl : missing = 0 := h
    exact absurd hmissing (Nat.lt_irrefl 0)
  | cons o os ih =>
    obtain ⟨-, ⟨hoc, hfatal⟩, hle, hnonzero, hrest⟩ := h
    cases hquiet : o.quiet with
    | false =>
      obtain ⟨n, rfl⟩ := eq_done hoc hfatal hquiet
      rw [amount_done hcall] at hle hrest
      refine ⟨[], n, os, rfl, by simp [Retriable], hle, fun hs hn => ?_, hrest⟩
      exact hnonzero hs (by rw [hn])
    | true =>
      rw [Outcome.quiet.amount hquiet, Nat.sub_zero] at hrest
      obtain ⟨qs, n, rest, rfl, hqs, hn⟩ := ih hrest
      refine ⟨o :: qs, n, rest, rfl, ?_, hn⟩
      obtain ⟨c, result⟩ := o
      obtain rfl : c = call := hoc
      cases result with
      | fail e =>
        intro x hx
        rcases List.mem_cons.1 hx with rfl | hx
        · exact ⟨e, hquiet, rfl⟩
        · exact hqs x hx
      | done m => cases c <;> simp [Outcome.quiet] at hquiet hcall

/-- The outcomes of one iteration, and then errors that are retried. -/
def padded (call : SysCall) (qs : List Outcome) (n : ℕ) (i : ℕ) : Outcome :=
  if h : i < qs.length then qs.get ⟨i, h⟩
  else if i = qs.length then ⟨call, .done n⟩ else ⟨call, .fail EAGAIN⟩

theorem padded_length (qs : List Outcome) (n : ℕ) :
    padded call qs n qs.length = ⟨call, .done n⟩ := by
  simp [padded]

theorem padded_mem {qs : List Outcome} (n : ℕ) {i : ℕ} (hi : i < qs.length) :
    padded call qs n i ∈ qs := by
  simp only [padded, hi, dif_pos]
  exact List.get_mem _ _

theorem upTo_padded (qs : List Outcome) (n : ℕ) : upTo (padded call qs n) qs.length = qs := by
  apply List.ext_getElem
  · simp [upTo]
  · intro i h h'
    simp [upTo, padded, h']

theorem possible_padded {missing n : ℕ} {qs : List Outcome} (hqs : Retriable transient call qs)
    (hn : n ≤ min missing SSIZE_MAX) : Possible call missing (padded call qs n) := by
  intro i
  rcases Nat.lt_trichotomy i qs.length with hlt | rfl | hgt
  · obtain ⟨e, -, he⟩ := hqs _ (padded_mem n hlt)
    rw [he]
    exact ⟨rfl, fun m hm => by cases hm⟩
  · rw [padded_length, upTo_padded, total_quiet hqs.quiet, Nat.sub_zero]
    refine ⟨rfl, fun m hm => ?_⟩
    cases hm
    exact hn
  · have hi : padded call qs n i = ⟨call, .fail EAGAIN⟩ := by
      simp [padded, Nat.lt_asymm hgt, Nat.ne_of_gt hgt]
    rw [hi]
    exact ⟨rfl, fun m hm => by cases hm⟩

/-- An iteration that returns after it has moved bytes has moved the last. -/
theorem Part.eq_count (hcall : call ≠ .poll) (hcount : count ≤ SSIZE_MAX) {waits : Prop}
    {effect : ℕ → ℕ → World → World} {buf : ℕ} {offset : Option SizeObj} {pos n : ℕ} {s s' : Sys}
    {qs : List Outcome} {r : ℤ} (hzero : stops → n ≠ 0)
    (h : Part waits stops call effect buf count offset pos s (qs ++ [⟨call, .done n⟩]) (.ret r)
      s') :
    r = count ∧ pos + n = count := by
  generalize hl : qs ++ [⟨call, .done n⟩] = l at h
  cases h with
  | @stopped os o e hos ho =>
    obtain ⟨-, hlast⟩ := List.append_inj' hl rfl
    obtain rfl := List.head_eq_of_cons_eq hlast
    rcases ho with ⟨hfail, -⟩ | ⟨-, hpoll⟩
    · cases hfail
    · exact absurd (Outcome.mk.inj hpoll).1 hcall
  | @last os m e r hos hle hn hr =>
    obtain ⟨-, hlast⟩ := List.append_inj' hl rfl
    obtain ⟨-, hm⟩ := Outcome.mk.inj (List.head_eq_of_cons_eq hlast)
    obtain rfl := Result.done.inj hm
    have hall : pos + n = count := by
      by_contra hne
      obtain ⟨hs, hn⟩ := hn (by omega)
      exact hzero hs hn
    rw [hr, hall, ssizeT_natCast hcount]
    exact ⟨rfl, rfl⟩

/-- **A transfer returns when its last byte is moved**, and not before. -/
theorem loop_returns (hcall : call ≠ .poll) (hcount : count ≤ SSIZE_MAX) {good : Outcome → Prop}
    {effect : ℕ → ℕ → World → World} {buf : ℕ} {offset : Option SizeObj} {waits : Prop}
    {body : ℕ → Io (Next ℕ XcpError)} (hlocal : ∀ pos, Local (body pos))
    (hbody : ∀ pos, pos ≤ count → Advances call count good body pos)
    (hspec : ∀ pos, Spec (body pos) fun s os n s' =>
      pos ≤ count → Part waits stops call effect buf count offset pos s os n s')
    {pos : ℕ} (hpos : pos < count) {os : List Outcome} (h : Completes call stops (count - pos) os)
    (s : Sys) : ∃ s', Returns (loop body pos) s os count s' := by
  induction hlen : os.length using Nat.strong_induction_on generalizing pos os s with
  | _ len ih =>
    obtain ⟨qs, n, rest, rfl, hqs, hn, hzero, hrest⟩ := h.split hcall (by omega)
    have hloud : (padded call qs n qs.length).quiet = false := by
      rw [padded_length]
      cases call with
      | poll => exact absurd rfl hcall
      | read => rfl
      | write => rfl
      | sendmsg => rfl
    have hadvance := hbody pos (by omega) _ qs.length s
      (possible_padded hqs (Nat.le_min.2 ⟨hn, by omega⟩)) hloud
      fun i hi => hqs.quiet _ (padded_mem n hi)
    rw [upTo_succ, upTo_padded, padded_length] at hadvance
    rcases hadvance with ⟨r, s', hret⟩ | ⟨m, s', hm, hlt, -, hagain⟩
    · obtain ⟨hr, hall⟩ :=
        ((hspec pos).returns hret (by omega)).eq_count hcall hcount hzero
      have hnil : rest = [] := by
        cases rest with
        | nil => rfl
        | cons o rest =>
          have hmore := hrest.1
          omega
      rw [hnil, ← hr]
      exact ⟨s', hret.loop_ret⟩
    · obtain rfl : n = m := Result.done.inj (Outcome.mk.inj hm).2
      rw [Nat.sub_sub] at hrest
      have hshorter : rest.length < len := by
        rw [← hlen, List.length_append, List.length_cons]
        omega
      obtain ⟨s'', hloop⟩ := ih rest.length hshorter hlt hrest s' rfl
      refine ⟨s'', ?_⟩
      rw [List.append_cons]
      exact hagain.loop_again (hlocal pos) (by simp) hloop

end Completes

/-! ## The pipe and the two transfers -/

/-- The pipe, and how many bytes the two functions have moved. -/
structure Joint where
  pipe : Pipe
  sent : ℕ
  got : ℕ

/-- The call has moved bytes. -/
def Turn.moves (e : Turn) : Bool := e.put ≠ [] || e.take ≠ []

namespace Joint

def start : Joint := ⟨.empty, 0, 0⟩

def step (capacity : ℕ) (j : Joint) (e : Turn) : Option Joint :=
  (Pipe.step capacity j.pipe e).map fun p => ⟨p, j.sent + e.put.length, j.got + e.take.length⟩

/-- The calls of two transfers of `count` bytes: they are made while bytes are missing, ask for no
more and do not fail for good; and the writer closes its end when it has sent all. -/
def Ok (count : ℕ) (j : Joint) : Turn → Prop
  | .writer o _ =>
    j.sent < count ∧ (o.call = .write ∧ o.fatal = false) ∧ o.amount ≤ count - j.sent
  | .reader o _ => j.got < count ∧ (o.call = .read ∧ o.fatal = false) ∧ o.amount ≤ count - j.got
  | .close => j.sent = count

instance (count : ℕ) (j : Joint) (e : Turn) : Decidable (j.Ok count e) :=
  match e with
  | .writer _ _ => inferInstanceAs (Decidable (_ ∧ _))
  | .reader _ _ => inferInstanceAs (Decidable (_ ∧ _))
  | .close => inferInstanceAs (Decidable (_ = _))

/-- A `write` or a `read` of one more byte is possible. -/
def Able (capacity count : ℕ) (j : Joint) : Prop :=
  (j.sent < count ∧ j.pipe.content.length < capacity) ∨ (j.got < count ∧ j.pipe.content ≠ [])

/-- What was sent and has not been read is in the pipe. -/
structure Balanced (capacity count : ℕ) (j : Joint) : Prop where
  inside : j.pipe.content.length + j.got = j.sent
  room : j.pipe.content.length ≤ capacity
  sent : j.sent ≤ count
  closed : j.pipe.closed = true → j.sent = count

variable {capacity count : ℕ}

theorem balanced_start : Balanced capacity count start :=
  ⟨rfl, Nat.zero_le _, Nat.zero_le _, fun h => by cases h⟩

theorem Balanced.step {j j' : Joint} {e : Turn} (h : Balanced capacity count j)
    (hok : j.Ok count e) (hs : j.step capacity e = some j') : Balanced capacity count j' := by
  obtain ⟨p, hp, rfl⟩ := Option.map_eq_some_iff.1 hs
  have hroom := length_step_le h.room hp
  have hqueue := congrArg List.length (queues_pipe.step _ _ _ hp)
  rw [List.length_append, List.length_append] at hqueue
  have hinside := h.inside
  have hsent := h.sent
  cases e with
  | writer o bytes =>
    obtain ⟨⟨hlen, -⟩, hp⟩ := Option.ite_none_right_eq_some.1 hp
    obtain rfl := Option.some.inj hp
    obtain ⟨hlt, -, hle⟩ := hok
    refine ⟨?_, hroom, ?_, fun hclosed => ?_⟩
    · simp only [Turn.put, Turn.take, List.length_nil] at hqueue ⊢
      omega
    · simp only [Turn.put]
      omega
    · exact absurd (h.closed hclosed) (by omega)
  | reader o bytes =>
    obtain ⟨-, hp⟩ := Option.ite_none_right_eq_some.1 hp
    obtain rfl := Option.some.inj hp
    refine ⟨?_, hroom, hsent, h.closed⟩
    simp only [Turn.put, Turn.take, List.length_nil] at hqueue ⊢
    omega
  | close =>
    obtain rfl := Option.some.inj hp
    exact ⟨hinside, hroom, hsent, fun _ => hok⟩

/-- **No deadlock**: as long as bytes are missing, one of the two functions can move some. -/
theorem Balanced.able {j : Joint} (h : Balanced capacity count j) (hcapacity : 0 < capacity)
    (hmissing : j.got < count) : j.Able capacity count := by
  have hinside := h.inside
  by_cases hempty : j.pipe.content = []
  · rw [hempty, List.length_nil, Nat.zero_add] at hinside
    refine Or.inl ⟨hinside ▸ hmissing, ?_⟩
    rwa [hempty]
  · exact Or.inr ⟨hmissing, hempty⟩

/-- Every call that moves bytes brings the transfers closer to their end. -/
theorem countP_moves_le {j j' : Joint} {es : List Turn}
    (h : run (Joint.step capacity) j es = some j') :
    es.countP Turn.moves + (j.sent + j.got) ≤ j'.sent + j'.got := by
  induction es generalizing j with
  | nil =>
    obtain rfl := Option.some.inj h
    simp
  | cons e es ih =>
    rw [run, Option.bind_eq_some_iff] at h
    obtain ⟨u, hu, h⟩ := h
    obtain ⟨p, -, rfl⟩ := Option.map_eq_some_iff.1 hu
    have hrest := ih h
    simp only at hrest
    rw [List.countP_cons]
    split
    next hmoves =>
      have hpos : 0 < e.put.length + e.take.length := by
        rcases Bool.or_eq_true_iff.1 hmoves with hput | htake
        · have := List.length_pos_iff.2 (of_decide_eq_true hput)
          omega
        · have := List.length_pos_iff.2 (of_decide_eq_true htake)
          omega
      omega
    next => omega

theorem run_pipe {j j' : Joint} {es : List Turn} (h : run (Joint.step capacity) j es = some j') :
    run (Pipe.step capacity) j.pipe es = some j'.pipe ∧
      j'.sent = j.sent + (es.flatMap Turn.put).length ∧
      j'.got = j.got + (es.flatMap Turn.take).length := by
  induction es generalizing j with
  | nil =>
    obtain rfl := Option.some.inj h
    exact ⟨rfl, rfl, rfl⟩
  | cons e es ih =>
    rw [run, Option.bind_eq_some_iff] at h
    obtain ⟨u, hu, h⟩ := h
    obtain ⟨p, hp, rfl⟩ := Option.map_eq_some_iff.1 hu
    obtain ⟨hrun, hsent, hgot⟩ := ih h
    rw [run, hp, List.flatMap_cons, List.flatMap_cons, List.length_append, List.length_append,
      hsent, hgot, ← Nat.add_assoc, ← Nat.add_assoc]
    exact ⟨hrun, rfl, rfl⟩

/-! ### The calls of each function -/

theorem completes_writer {j j' : Joint} {es : List Turn}
    (hok : Obeys (Joint.step capacity) (Ok count) j es)
    (h : run (Joint.step capacity) j es = some j') (hall : j'.sent = count) :
    Completes .write False (count - j.sent) (es.filterMap Turn.ofWriter) := by
  induction es generalizing j with
  | nil =>
    obtain rfl := Option.some.inj h
    show count - _ = 0
    rw [hall, Nat.sub_self]
  | cons e es ih =>
    rw [run, Option.bind_eq_some_iff] at h
    obtain ⟨u, hu, h⟩ := h
    have hrest := ih (hok.2 u hu) h
    obtain ⟨p, hp, rfl⟩ := Option.map_eq_some_iff.1 hu
    cases e with
    | writer o bytes =>
      obtain ⟨⟨hlen, -⟩, -⟩ := Option.ite_none_right_eq_some.1 hp
      obtain ⟨hlt, hcall, hle⟩ := hok.1
      refine ⟨by omega, hcall, hle, False.elim, ?_⟩
      rwa [Nat.sub_sub, ← hlen]
    | reader o bytes => exact hrest
    | close => exact hrest

theorem completes_reader {j j' : Joint} {es : List Turn} (hj : Balanced capacity count j)
    (hok : Obeys (Joint.step capacity) (Ok count) j es)
    (h : run (Joint.step capacity) j es = some j') (hall : j'.got = count) :
    Completes .read True (count - j.got) (es.filterMap Turn.ofReader) := by
  induction es generalizing j with
  | nil =>
    obtain rfl := Option.some.inj h
    show count - _ = 0
    rw [hall, Nat.sub_self]
  | cons e es ih =>
    rw [run, Option.bind_eq_some_iff] at h
    obtain ⟨u, hu, h⟩ := h
    have hrest := ih (hj.step hok.1 hu) (hok.2 u hu) h
    obtain ⟨p, hp, rfl⟩ := Option.map_eq_some_iff.1 hu
    cases e with
    | writer o bytes => exact hrest
    | reader o bytes =>
      obtain ⟨⟨hlen, -, -, hend⟩, -⟩ := Option.ite_none_right_eq_some.1 hp
      obtain ⟨hlt, hcall, hle⟩ := hok.1
      refine ⟨by omega, hcall, hle, fun _ hzero => ?_, ?_⟩
      · -- the end of the pipe comes after its last byte
        have ho : o = ⟨.read, .done 0⟩ := by
          rw [← hcall.1, ← hzero]
        obtain ⟨hempty, hclosed⟩ := hend ho
        have hinside := hj.inside
        have hsent := hj.closed hclosed
        rw [hempty, List.length_nil] at hinside
        omega
      · rwa [Nat.sub_sub, ← hlen]
    | close => exact hrest

end Joint

variable {capacity count : ℕ}

/-- What the peer finds after a complete `xcp_fd_write_all`. -/
theorem write_all_peer {fd : Fd} {buf : ℕ} {offset : Option SizeObj} {s s' : Sys}
    {os : List Outcome} (hcount : count ≤ SSIZE_MAX)
    (h : Returns (xcp_fd_write_all fd buf count offset) s os count s') :
    s'.world.peer fd = s.world.peer fd ++ (slice s.world.mem buf count).map Item.byte := by
  have hmoved := (fd_write_all_spec fd buf offset (size_of_ssize hcount)).returns h
  obtain ⟨-, hworld, hall⟩ := hmoved.total (by decide) hcount
  rw [hworld, hall rfl, World.peer_store]
  exact Function.update_self _ _ _

/-- What the buffer holds after a complete `xcp_fd_read_all`. -/
theorem read_all_upcoming {fd : Fd} {buf : ℕ} {timeout : ℤ} {offset : Option SizeObj} {s s' : Sys}
    {os : List Outcome} (hcount : count ≤ SSIZE_MAX)
    (h : Returns (xcp_fd_read_all fd buf count timeout offset) s os count s') :
    slice s'.world.mem buf count = upcoming s.world fd count := by
  have hmoved := (fd_read_all_spec fd buf timeout offset (size_of_ssize hcount)).returns h
  obtain ⟨-, hworld, hall⟩ := hmoved.total (by decide) hcount
  rw [hworld, hall rfl, World.mem_store, slice_receive]

/-- **Transfers over a pipe are completed.** One process calls `xcp_fd_write_all`, another one
`xcp_fd_read_all`, for the same number of bytes over a pipe of any capacity. Whatever the sizes of
the chunks, the interruptions and the order of the calls, at most two calls for each byte move
something; and when no call can move anything any more, both functions have returned, with all
bytes, and if the pipe is the one between them, the two buffers are equal. -/
theorem transfer_completes (hcapacity : 0 < capacity) (hpos : 0 < count)
    (hcount : count ≤ SSIZE_MAX) {es : List Turn} {j : Joint}
    (hok : Obeys (Joint.step capacity) (Joint.Ok count) .start es)
    (hj : run (Joint.step capacity) .start es = some j) (fdW fdR : Fd) (buf buf' : ℕ)
    (offset offset' : Option SizeObj) (s r : Sys) :
    es.countP Turn.moves ≤ 2 * count ∧ (¬j.Able capacity count → ∃ s' r',
      Returns (xcp_fd_write_all fdW buf count offset) s (es.filterMap Turn.ofWriter) count s' ∧
      Returns (xcp_fd_read_all fdR buf' count 0 offset') r (es.filterMap Turn.ofReader) count r' ∧
      (Piped capacity fdW fdR es s.world s'.world r.world →
        slice r'.world.mem buf' count = slice s.world.mem buf count)) := by
  have hbalanced : j.Balanced capacity count :=
    run_invariant (fun _ _ _ hu hok hs => hu.step hok hs) Joint.balanced_start hok hj
  obtain ⟨hrun, hput, htake⟩ := Joint.run_pipe hj
  have hmoves := Joint.countP_moves_le hj
  have hinside := hbalanced.inside
  have hle := hbalanced.sent
  refine ⟨by simp only [Joint.start] at hmoves; omega, fun hstuck => ?_⟩
  have hgot : j.got = count := by
    by_contra hne
    exact hstuck (hbalanced.able hcapacity (by omega))
  have hall : j.sent = count := by omega
  have hsize := size_of_ssize hcount
  obtain ⟨s', hw⟩ := loop_returns (by decide) hcount (writePart_local fdW buf count offset)
    (fun pos hpos => writePart_advances fdW buf offset hsize hpos)
    (writePart_spec hsize) hpos (Joint.completes_writer hok hj hall) s
  obtain ⟨r', hr⟩ := loop_returns (by decide) hcount (readPart_local fdR buf' count offset')
    (fun pos hpos => readPart_advances fdR buf' offset' hsize hpos)
    (readPart_spec hsize) hpos (Joint.completes_reader Joint.balanced_start hok hj hgot) r
  refine ⟨s', r', hw, hr, fun hpiped => ?_⟩
  have htook : (es.flatMap Turn.take).length = count := by
    rw [← hgot, htake]
    exact (Nat.zero_add _).symm
  have hsame : es.flatMap Turn.take = es.flatMap Turn.put :=
    queues_pipe.eq_of_length_le rfl hrun (by simp only [Joint.start] at hput; omega)
  calc slice r'.world.mem buf' count
      = upcoming r.world fdR count := read_all_upcoming hcount hr
    _ = es.flatMap Turn.take := by rw [← hpiped.received, htook]
    _ = es.flatMap Turn.put := hsame
    _ = slice s.world.mem buf count := hpiped.put_eq (write_all_peer hcount hw)

/-- Three bytes through a pipe of two. -/
def throughTwo : List Turn :=
  [.writer ⟨.write, .done 2⟩ [10, 11], .writer ⟨.write, .fail EAGAIN⟩ [],
    .reader ⟨.read, .done 1⟩ [10], .writer ⟨.write, .done 1⟩ [12],
    .reader ⟨.read, .done 2⟩ [11, 12]]

theorem transfer_completes_throughTwo : ∃ s r s' r' : Sys, slice s.world.mem 10 3 = [10, 11, 12] ∧
    Returns (xcp_fd_write_all 4 10 3 none) s (throughTwo.filterMap Turn.ofWriter) 3 s' ∧
    Returns (xcp_fd_read_all 3 20 3 0 none) r (throughTwo.filterMap Turn.ofReader) 3 r' ∧
    Piped 2 4 3 throughTwo s.world s'.world r.world ∧
    slice r'.world.mem 20 3 = slice s.world.mem 10 3 := by
  have hj : run (Joint.step 2) .start throughTwo = some ⟨⟨[], false⟩, 3, 3⟩ := rfl
  have hok : Obeys (Joint.step 2) (Joint.Ok 3) .start throughTwo := by decide
  obtain ⟨s', r', hw, hr, hsame⟩ := (transfer_completes (by decide) (by decide) (by decide)
    hok hj 4 3 10 20 none none
    ⟨0, { start.world with mem := fun a => UInt8.ofNat a }⟩
    ⟨0, { start.world with stream := fun _ i => [10, 11, 12].getD i 0 }⟩).2
    (by simp [Joint.Able])
  have hsent := write_all_peer (by decide) hw
  exact ⟨_, _, s', r', rfl, hw, hr, ⟨by decide, hsent, rfl⟩, hsame ⟨by decide, hsent, rfl⟩⟩

end XcpNgGeneric.Descriptor
