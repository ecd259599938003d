import Mathlib.Algebra.Group.Int.Defs
import Mathlib.Algebra.Group.Nat.Defs
import Mathlib.Logic.Function.Basic
import XcpNgGeneric.Foundations.Answers

/-!
# System calls on file descriptors

The memory of the process, the streams behind its descriptors, and the system calls `poll`, `read`,
`write` and `sendmsg`. What a system call returns is decided by its environment: `-1` with any
`errno`, or any number of bytes up to the requested length. The outcomes of the system calls of a
run are the answers of `Answers.Prog`.

## Main results

* `syscall_spec`: what one system call does with its outcome.
* `World.receive_receive`, `World.send_send`: two transfers in a row are one transfer.
-/

namespace XcpNgGeneric.Descriptor

open Answers

/-! ## C integers -/

/-- The cast to `size_t`. -/
def sizeT (x : ℤ) : ℕ := (x % 2 ^ 64).toNat

/-- The cast to `ssize_t`. -/
def ssizeT (x : ℤ) : ℤ := x.bmod (2 ^ 64)

def SSIZE_MAX : ℕ := 2 ^ 63 - 1

theorem sizeT_lt (x : ℤ) : sizeT x < 2 ^ 64 := by
  simp only [sizeT]
  omega

theorem ssizeT_natCast {n : ℕ} (hn : n ≤ SSIZE_MAX) : ssizeT n = n := by
  simp only [SSIZE_MAX] at hn
  simp only [ssizeT, Int.bmod_def]
  omega

/-- The large sizes are negative results. -/
theorem ssizeT_eq_neg {n k : ℕ} (hn : n < 2 ^ 64) (hk : 0 < k) (hkm : k ≤ 2 ^ 63) :
    ssizeT n = -k ↔ n = 2 ^ 64 - k := by
  simp only [ssizeT, Int.bmod_def]
  omega

/-- `XcpError`, which is `ssize_t`. -/
abbrev XcpError := ℤ

def XCP_ERR_OK : ℤ := 0
def XCP_ERR_ERRNO : ℤ := -1
def XCP_ERR_TIMEOUT : ℤ := -2

/-! ## Outcomes -/

def EINTR : ℕ := 4
def EAGAIN : ℕ := 11
def EWOULDBLOCK : ℕ := 11

inductive SysCall
  | poll
  | read
  | write
  | sendmsg
  deriving DecidableEq

inductive Result
  /-- `-1`, with this `errno`. -/
  | fail (errno : ℕ)
  | done (n : ℕ)
  deriving DecidableEq

structure Outcome where
  call : SysCall
  result : Result
  deriving DecidableEq

/-- The condition of the loops around `read`, `write` and `sendmsg`. -/
def transient (errno : ℕ) : Bool := errno = EAGAIN || errno = EWOULDBLOCK || errno = EINTR

namespace Outcome

/-- The call failed with an `errno` that is not retried. -/
def fatal : Outcome → Bool
  | ⟨_, .fail e⟩ => !transient e
  | ⟨_, .done _⟩ => false

/-- The call is a `poll` that returned `0`. -/
def timedOut (o : Outcome) : Bool := o = ⟨.poll, .done 0⟩

/-- The bytes that were read, or accepted. -/
def amount : Outcome → ℕ
  | ⟨.poll, _⟩ => 0
  | ⟨_, .fail _⟩ => 0
  | ⟨_, .done n⟩ => n

/-- After the call the transfer is where it was: a failure to be retried, or a `poll` that found
something to read. -/
def quiet : Outcome → Bool
  | ⟨_, .fail e⟩ => transient e
  | ⟨.poll, .done n⟩ => n != 0
  | ⟨_, .done _⟩ => false

theorem quiet.not_fatal {o : Outcome} (ho : o.quiet = true) : o.fatal = false := by
  rcases o with ⟨c, _ | _⟩ <;> cases c <;> simp_all [quiet, fatal]

theorem quiet.not_timedOut {o : Outcome} (ho : o.quiet = true) : o.timedOut = false := by
  rcases o with ⟨c, _ | _⟩ <;> cases c <;> simp_all [quiet, timedOut]

theorem quiet.amount {o : Outcome} (ho : o.quiet = true) : o.amount = 0 := by
  rcases o with ⟨c, _ | _⟩ <;> cases c <;> simp_all [quiet, Outcome.amount]

end Outcome

/-- The bytes that were read, or accepted, by the calls. -/
def total : List Outcome → ℕ
  | [] => 0
  | o :: os => o.amount + total os

theorem total_append (os os' : List Outcome) : total (os ++ os') = total os + total os' := by
  induction os with
  | nil => exact (Nat.zero_add _).symm
  | cons o os ih => rw [List.cons_append, total, total, ih, Nat.add_assoc]

theorem total_singleton (o : Outcome) : total [o] = o.amount := rfl

theorem total_quiet {os : List Outcome} (hos : ∀ o ∈ os, o.quiet = true) : total os = 0 := by
  induction os with
  | nil => rfl
  | cons o os ih =>
    have ho := Outcome.quiet.amount (hos o List.mem_cons_self)
    have hrest := ih fun o' ho' => hos o' (List.mem_cons_of_mem _ ho')
    rw [total, ho, hrest]

/-! ## Memory and streams -/

abbrev Fd := ℤ

/-- A control message: `struct cmsghdr` and its data, one descriptor. -/
structure Cmsg where
  cmsgLen : ℕ
  cmsgLevel : ℕ
  cmsgType : ℕ
  data : Fd
  deriving DecidableEq

/-- What a peer finds in its stream. -/
inductive Item
  | byte (b : UInt8)
  | control (c : Cmsg)
  deriving DecidableEq

/-- The objects of type `size_t` that are written to through pointers. -/
inductive SizeObj
  /-- An object of the caller. -/
  | arg (i : ℕ)
  /-- The variable `offset` of `xcp_sock_send_shared_fd`. -/
  | offset
  deriving DecidableEq

structure World where
  /-- The bytes of the memory. -/
  mem : ℕ → UInt8
  sizes : SizeObj → ℕ
  /-- The bytes that can be read from each descriptor, and how many have been. -/
  stream : Fd → ℕ → UInt8
  taken : Fd → ℕ
  /-- What has been sent through each descriptor. -/
  peer : Fd → List Item

/-- The bytes at `buf`. -/
def slice (mem : ℕ → UInt8) (buf n : ℕ) : List UInt8 := (List.range n).map fun i => mem (buf + i)

theorem slice_add (mem : ℕ → UInt8) (buf m n : ℕ) :
    slice mem buf (m + n) = slice mem buf m ++ slice mem (buf + m) n := by
  simp [slice, List.range_add, Function.comp_def, Nat.add_assoc]

namespace World

/-- The next `n` bytes of `fd` are stored at `buf`. -/
def receive (w : World) (fd : Fd) (buf n : ℕ) : World :=
  { w with
    mem := fun a =>
      if buf ≤ a ∧ a < buf + n then w.stream fd (w.taken fd + (a - buf)) else w.mem a
    taken := Function.update w.taken fd (w.taken fd + n) }

/-- The items are appended to what was sent through `fd`. -/
def send (w : World) (fd : Fd) (items : List Item) : World :=
  { w with peer := Function.update w.peer fd (w.peer fd ++ items) }

/-- The bytes at `buf` as a peer finds them. -/
def bytes (w : World) (buf n : ℕ) : List Item := (slice w.mem buf n).map .byte

/-- `if (offset) *offset = pos`. -/
def store (w : World) (offset : Option SizeObj) (pos : ℕ) : World :=
  match offset with
  | none => w
  | some x => { w with sizes := Function.update w.sizes x pos }

theorem sizes_store (w : World) {offset : Option SizeObj} {x : SizeObj} {n : ℕ} (hx : x ∈ offset) :
    (w.store offset n).sizes x = n := by
  cases hx
  simp [store]

@[simp] theorem receive_zero (w : World) (fd : Fd) (buf : ℕ) : w.receive fd buf 0 = w := by
  have hempty : ∀ a, ¬(buf ≤ a ∧ a < buf) := fun a => by omega
  simp [receive, hempty]

/-- **Two reads are one**: the second goes on where the first ended, in the stream and in the
buffer. -/
theorem receive_receive (w : World) (fd : Fd) (buf m n : ℕ) :
    (w.receive fd buf m).receive fd (buf + m) n = w.receive fd buf (m + n) := by
  have hmem : ((w.receive fd buf m).receive fd (buf + m) n).mem =
      (w.receive fd buf (m + n)).mem := by
    funext a
    simp only [receive, Function.update_self]
    split_ifs with h₁ h₂ h₃ h₄ <;> first | omega | rfl | skip
    congr 1
    omega
  have htaken : ((w.receive fd buf m).receive fd (buf + m) n).taken =
      (w.receive fd buf (m + n)).taken := by
    simp [receive, Nat.add_assoc]
  simp only [receive] at hmem htaken ⊢
  rw [hmem, htaken]

@[simp] theorem send_nil (w : World) (fd : Fd) : w.send fd [] = w := by
  simp [send]

theorem send_send (w : World) (fd : Fd) (items items' : List Item) :
    (w.send fd items).send fd items' = w.send fd (items ++ items') := by
  simp [send]

theorem bytes_add (w : World) (buf m n : ℕ) :
    w.bytes buf (m + n) = w.bytes buf m ++ w.bytes (buf + m) n := by
  simp [bytes, slice_add]

@[simp] theorem bytes_zero (w : World) (buf : ℕ) : w.bytes buf 0 = [] := rfl

@[simp] theorem bytes_send (w : World) (fd : Fd) (items : List Item) (buf n : ℕ) :
    (w.send fd items).bytes buf n = w.bytes buf n := rfl

end World

/-! ## The system calls -/

structure Sys where
  errno : ℕ
  world : World

/-- A process with the bytes `0, 1, 2, ...` to be read from every descriptor. -/
def start : Sys := ⟨0, ⟨fun _ => 0, fun _ => 0, fun _ i => UInt8.ofNat i, fun _ => 0, fun _ => []⟩⟩

abbrev Io := Prog Outcome Sys

/-- A system call that transfers at most `limit` bytes. -/
def syscall (call : SysCall) (limit : ℕ) (effect : ℕ → World → World) : Io ℤ := do
  let o ← next
  check (o.call = call)
  match o.result with
  | .fail e =>
    change fun s => { s with errno := e }
    pure (-1)
  | .done n =>
    check (n ≤ limit)
    change fun s => { s with world := effect n s.world }
    pure n

/-- `poll` on the one descriptor `fd`, for `POLLIN`. -/
def poll (_fd : Fd) (_timeout : ℤ) : Io ℤ := syscall .poll 1 fun _ w => w

def read (fd : Fd) (buf count : ℕ) : Io ℤ :=
  syscall .read (min count SSIZE_MAX) fun n w => w.receive fd buf n

def write (fd : Fd) (buf count : ℕ) : Io ℤ :=
  syscall .write (min count SSIZE_MAX) fun n w => w.send fd (w.bytes buf n)

/-- `struct msghdr` with one buffer and one control message. -/
structure MsgHdr where
  iovBase : ℕ
  iovLen : ℕ
  control : Cmsg

/-- A call that succeeds also sends the control message, before the bytes. -/
def sendmsg (sock : Fd) (msg : MsgHdr) : Io ℤ :=
  syscall .sendmsg (min msg.iovLen SSIZE_MAX) fun n w =>
    w.send sock (.control msg.control :: w.bytes msg.iovBase n)

/-- What a system call does with its outcome. -/
inductive Answered (call : SysCall) (limit : ℕ) (effect : ℕ → World → World) (s : Sys) :
    List Outcome → ℤ → Sys → Prop
  | fail (e : ℕ) : Answered call limit effect s [⟨call, .fail e⟩] (-1) { s with errno := e }
  | done {n : ℕ} (hn : n ≤ limit) :
    Answered call limit effect s [⟨call, .done n⟩] n { s with world := effect n s.world }

theorem syscall_spec (call : SysCall) (limit : ℕ) (effect : ℕ → World → World) :
    Spec (syscall call limit effect) (Answered call limit effect) := by
  have hfail (e : ℕ) : Spec (do change fun s => { s with errno := e }; pure (-1) : Io ℤ)
      fun s os r s' => os = [] ∧ r = -1 ∧ s' = { s with errno := e } := by
    apply Spec.bind Spec.change (fun _ => Spec.pure)
    rintro s _ _ s' _ _ _ ⟨rfl, rfl⟩ ⟨rfl, rfl, rfl⟩
    exact ⟨rfl, rfl, rfl⟩
  have hdone (n : ℕ) : Spec (do change fun s => { s with world := effect n s.world }; pure n : Io ℤ)
      fun s os r s' => os = [] ∧ r = n ∧ s' = { s with world := effect n s.world } := by
    apply Spec.bind Spec.change (fun _ => Spec.pure)
    rintro s _ _ s' _ _ _ ⟨rfl, rfl⟩ ⟨rfl, rfl, rfl⟩
    exact ⟨rfl, rfl, rfl⟩
  refine Spec.bind Spec.next
    (K := fun o s os r s' => os = [] ∧ Answered call limit effect s [o] r s') (fun o => ?_) ?_
  · refine Spec.bind Spec.check (K := fun _ s os r s' => os = [] ∧
      (o.call = call → Answered call limit effect s [o] r s')) (fun _ => ?_) ?_
    · obtain ⟨c, e | n⟩ := o
      · apply (hfail e).mono
        rintro s _ _ s' ⟨rfl, rfl, rfl⟩
        refine ⟨rfl, ?_⟩
        rintro rfl
        exact .fail e
      · apply Spec.bind Spec.check (fun _ => hdone n)
        rintro s _ _ s' _ _ _ ⟨hn, rfl, rfl⟩ ⟨rfl, rfl, rfl⟩
        refine ⟨rfl, ?_⟩
        rintro rfl
        exact .done hn
    · rintro s _ _ s' _ r s'' ⟨hc, rfl, rfl⟩ ⟨rfl, h⟩
      exact ⟨rfl, h hc⟩
  · rintro s _ o s' _ r s'' ⟨rfl, rfl⟩ ⟨rfl, h⟩
    exact h

end XcpNgGeneric.Descriptor
