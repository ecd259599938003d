import XcpNgGeneric.Descriptor.Transfer
import XcpNgGeneric.Foundations.Fifo

/-!
# Two processes and a pipe

A process sends its buffers with `xcp_fd_write_all`, one after another, to a pipe of any capacity;
another one fills its buffers with `xcp_fd_read_all` from it. The system calls of the two come in
any order that the pipe allows, and each can fail, be interrupted or move fewer bytes than asked.

## Main results

* `writeBlocks_spec`, `readBlocks_spec`: what each of the two processes does by itself.
* `queues_pipe`: the pipe is first in, first out.
* `blocks_delivered`: the reader finds in its buffers what the writer has in its own.
-/

namespace XcpNgGeneric.Descriptor

open Answers Runs

/-! ## The processes -/

/-- A buffer. -/
structure Block where
  buf : ℕ
  count : ℕ
  deriving DecidableEq

/-- What is in the buffers. -/
def contents (mem : ℕ → UInt8) (blocks : List Block) : List UInt8 :=
  blocks.flatMap fun b => slice mem b.buf b.count

/-- The buffer does not overlap the other one. -/
def Block.Apart (b c : Block) : Prop := b.buf + b.count ≤ c.buf ∨ c.buf + c.count ≤ b.buf

instance (b c : Block) : Decidable (b.Apart c) := inferInstanceAs (Decidable (_ ∨ _))

/-- The buffers are sent as long as they are sent whole. -/
def writeBlocks (fd : Fd) : List Block → Io Bool
  | [] => pure true
  | b :: blocks => do
    let ret ← xcp_fd_write_all fd b.buf b.count none
    if ret = b.count then writeBlocks fd blocks else pure false

/-- The buffers are filled as long as they are filled whole. -/
def readBlocks (fd : Fd) (timeout : ℤ) : List Block → Io Bool
  | [] => pure true
  | b :: blocks => do
    let ret ← xcp_fd_read_all fd b.buf b.count timeout none
    if ret = b.count then readBlocks fd timeout blocks else pure false

@[simp] theorem length_slice (mem : ℕ → UInt8) (buf n : ℕ) : (slice mem buf n).length = n := by
  simp [slice]

theorem contents_cons (mem : ℕ → UInt8) (b : Block) (blocks : List Block) :
    contents mem (b :: blocks) = slice mem b.buf b.count ++ contents mem blocks :=
  List.flatMap_cons

theorem length_contents (mem : ℕ → UInt8) (blocks : List Block) :
    (contents mem blocks).length = (blocks.map Block.count).foldr Nat.add 0 := by
  induction blocks with
  | nil => rfl
  | cons b blocks ih =>
    rw [contents_cons, List.length_append, length_slice, ih, List.map_cons, List.foldr_cons]
    rfl

theorem take_contents_cons (mem : ℕ → UInt8) (b : Block) (blocks : List Block) (n : ℕ) :
    (contents mem (b :: blocks)).take (b.count + n) =
      slice mem b.buf b.count ++ (contents mem blocks).take n := by
  have h : (slice mem b.buf b.count ++ contents mem blocks).take
      ((slice mem b.buf b.count).length + n) = _ := List.take_length_add_append n
  rwa [length_slice] at h

theorem slice_congr {mem mem' : ℕ → UInt8} {buf n : ℕ}
    (h : ∀ a, buf ≤ a → a < buf + n → mem' a = mem a) : slice mem' buf n = slice mem buf n := by
  apply List.map_congr_left
  intro i hi
  have hlt : i < n := List.mem_range.1 hi
  exact h _ (by omega) (by omega)

theorem take_slice (mem : ℕ → UInt8) (buf : ℕ) {m n : ℕ} (h : m ≤ n) :
    (slice mem buf n).take m = slice mem buf m := by
  obtain ⟨k, rfl⟩ := Nat.le.dest h
  rw [slice_add, List.take_left' (length_slice mem buf m)]

@[simp] theorem World.mem_store (w : World) (offset : Option SizeObj) (n : ℕ) :
    (w.store offset n).mem = w.mem := by
  cases offset <;> rfl

@[simp] theorem World.peer_store (w : World) (offset : Option SizeObj) (n : ℕ) :
    (w.store offset n).peer = w.peer := by
  cases offset <;> rfl

/-- The calls of a transfer move what its loop has moved. -/
theorem Moved.total {waits stopsAtZero : Prop} {call : SysCall} {effect : ℕ → ℕ → World → World}
    {buf count : ℕ} {offset : Option SizeObj} {s s' : Sys} {os : List Outcome} {r : ℤ}
    (hcall : call ≠ .poll) (hcount : count ≤ SSIZE_MAX)
    (h : Moved waits stopsAtZero call effect buf count offset s os r s') :
    total os ≤ count ∧ s'.world = (effect buf (total os) s.world).store offset (total os) ∧
      (r = count → total os = count) := by
  cases h with
  | @stopped os o pos e hos htotal hpos ho =>
    have hzero : o.amount = 0 := by
      rcases ho with ⟨hfail, -⟩ | ⟨-, rfl⟩
      · obtain ⟨c, result⟩ := o
        cases hfail
        cases c <;> rfl
      · rfl
    rw [total_append, total_singleton, hzero, htotal, Nat.add_zero]
    refine ⟨by omega, rfl, fun hr => ?_⟩
    exact absurd (hr ▸ Int.natCast_nonneg count : (0 : ℤ) ≤ XCP_ERR_ERRNO) (by decide)
  | @done os n pos e r hos htotal hpos hlast hr =>
    rw [total_append, total_singleton, amount_done hcall, htotal]
    refine ⟨hpos, rfl, fun hfull => ?_⟩
    rw [hr, ssizeT_natCast (Nat.le_trans hpos hcount)] at hfull
    exact Int.ofNat_inj.1 hfull

theorem size_of_ssize {count : ℕ} (h : count ≤ SSIZE_MAX) : count < 2 ^ 64 := by
  simp only [SSIZE_MAX] at h
  omega

/-! ### The writer -/

/-- What the writer has done: the first bytes of its buffers are sent, all if it succeeds. -/
structure Sent (fd : Fd) (blocks : List Block) (s : Sys) (os : List Outcome) (ok : Bool)
    (s' : Sys) : Prop where
  mem : s'.world.mem = s.world.mem
  peer : s'.world.peer fd =
    s.world.peer fd ++ ((contents s.world.mem blocks).take (total os)).map Item.byte
  le : total os ≤ (contents s.world.mem blocks).length
  whole : ok = true → total os = (contents s.world.mem blocks).length

/-- The first bytes of one buffer. -/
theorem Sent.single {fd : Fd} {b : Block} {s s' : Sys} {os : List Outcome} {ok : Bool}
    (hle : total os ≤ b.count)
    (hw : s'.world = s.world.send fd (s.world.bytes b.buf (total os)))
    (hfull : ok = true → total os = b.count) : Sent fd [b] s os ok s' where
  mem := by rw [hw]; rfl
  peer := by
    rw [contents_cons, List.take_append_of_le_length (by rwa [length_slice]),
      take_slice _ _ hle, hw]
    exact Function.update_self _ _ _
  le := by
    rw [contents_cons, List.length_append, length_slice]
    omega
  whole hok := by rw [hfull hok, length_contents]; rfl

/-- One buffer, and the others after it. -/
theorem Sent.cons {fd : Fd} {b : Block} {blocks : List Block} {s s' s'' : Sys}
    {os os' : List Outcome} {ok : Bool} (h : Sent fd [b] s os true s')
    (h' : Sent fd blocks s' os' ok s'') : Sent fd (b :: blocks) s (os ++ os') ok s'' := by
  obtain ⟨hmem', hpeer', hle', hwhole'⟩ := h'
  rw [h.mem] at hmem' hpeer' hle' hwhole'
  have htotal : total os = b.count := by
    rw [h.whole rfl, length_contents]
    rfl
  have hlen := length_slice s.world.mem b.buf b.count
  have hpeer := h.peer
  rw [htotal, ← Nat.add_zero b.count, take_contents_cons, List.take_zero, List.append_nil] at hpeer
  constructor
  case mem => exact hmem'
  case peer =>
    rw [hpeer', hpeer, total_append, htotal, take_contents_cons, List.map_append,
      List.append_assoc]
  case le =>
    rw [total_append, htotal, contents_cons, List.length_append, hlen]
    omega
  case whole =>
    intro hok
    rw [total_append, htotal, contents_cons, List.length_append, hlen, hwhole' hok]

/-- A part of one buffer, and nothing after it. -/
theorem Sent.stop {fd : Fd} {b : Block} {s s' : Sys} {os : List Outcome}
    (h : Sent fd [b] s os false s') (blocks : List Block) :
    Sent fd (b :: blocks) s os false s' := by
  have hle := h.le
  have hpeer := h.peer
  rw [contents_cons, contents, List.flatMap_nil, List.append_nil] at hle hpeer
  constructor
  case mem => exact h.mem
  case peer => rw [hpeer, contents_cons, List.take_append_of_le_length hle]
  case le =>
    rw [contents_cons, List.length_append]
    omega
  case whole =>
    intro hok
    cases hok

/-- **The writer by itself.** -/
theorem writeBlocks_spec (fd : Fd) {blocks : List Block}
    (hcount : ∀ b ∈ blocks, b.count ≤ SSIZE_MAX) :
    Spec (writeBlocks fd blocks) (Sent fd blocks) := by
  induction blocks with
  | nil =>
    apply Spec.pure.mono
    rintro s _ _ _ ⟨rfl, rfl, rfl⟩
    exact ⟨rfl, by simp [contents], Nat.zero_le _, fun _ => rfl⟩
  | cons b blocks ih =>
    obtain ⟨hb, hblocks⟩ := List.forall_mem_cons.1 hcount
    refine (fd_write_all_spec fd b.buf none (size_of_ssize hb)).bind_ite (fun _ => ih hblocks) ?_ ?_
    · intro s os ret s' os' ok s'' hret h h'
      obtain ⟨hle, hw, hfull⟩ := h.total (by decide) hb
      exact (Sent.single hle hw fun _ => hfull hret).cons h'
    · intro s os ret s' hret h
      obtain ⟨hle, hw, -⟩ := h.total (by decide) hb
      exact (Sent.single hle hw fun hok => Bool.noConfusion hok).stop blocks

/-! ### The reader -/

/-- The next `n` bytes of `fd`. -/
def upcoming (w : World) (fd : Fd) (n : ℕ) : List UInt8 :=
  (List.range n).map fun i => w.stream fd (w.taken fd + i)

/-- What the reader has done: the next bytes of its descriptor are in its buffers, which are full
if it succeeds. -/
structure Filled (fd : Fd) (blocks : List Block) (s : Sys) (os : List Outcome) (ok : Bool)
    (s' : Sys) : Prop where
  stream : s'.world.stream = s.world.stream
  taken : s'.world.taken fd = s.world.taken fd + total os
  stored : (contents s'.world.mem blocks).take (total os) = upcoming s.world fd (total os)
  rest : ∀ a, (∀ b ∈ blocks, a < b.buf ∨ b.buf + b.count ≤ a) → s'.world.mem a = s.world.mem a
  le : total os ≤ (contents s'.world.mem blocks).length
  whole : ok = true → total os = (contents s'.world.mem blocks).length

theorem upcoming_add (w : World) (fd : Fd) (m n : ℕ) :
    upcoming w fd (m + n) =
      upcoming w fd m ++ (List.range n).map fun i => w.stream fd (w.taken fd + m + i) := by
  simp [upcoming, List.range_add, Function.comp_def, Nat.add_assoc]

theorem slice_receive (w : World) (fd : Fd) (buf n : ℕ) :
    slice (w.receive fd buf n).mem buf n = upcoming w fd n := by
  apply List.map_congr_left
  intro i hi
  have hlt : i < n := List.mem_range.1 hi
  have hin : buf ≤ buf + i ∧ buf + i < buf + n := by omega
  simp [World.receive, hin]

theorem receive_rest (w : World) (fd : Fd) {buf n a : ℕ} (ha : a < buf ∨ buf + n ≤ a) :
    (w.receive fd buf n).mem a = w.mem a := by
  have hout : ¬(buf ≤ a ∧ a < buf + n) := by omega
  simp [World.receive, hout]

/-- The first bytes of one buffer. -/
theorem Filled.single {fd : Fd} {b : Block} {s s' : Sys} {os : List Outcome} {ok : Bool}
    (hle : total os ≤ b.count) (hw : s'.world = s.world.receive fd b.buf (total os))
    (hfull : ok = true → total os = b.count) : Filled fd [b] s os ok s' where
  stream := by rw [hw]; rfl
  taken := by
    rw [hw]
    exact Function.update_self _ _ _
  stored := by
    rw [contents_cons, List.take_append_of_le_length (by rwa [length_slice]),
      take_slice _ _ hle, hw]
    exact slice_receive _ _ _ _
  rest a ha := by
    have hout := ha b List.mem_cons_self
    rw [hw]
    exact receive_rest _ _ (by omega)
  le := by
    rw [contents_cons, List.length_append, length_slice]
    omega
  whole hok := by rw [hfull hok, length_contents]; rfl

/-- One buffer, and the others after it. -/
theorem Filled.cons {fd : Fd} {b : Block} {blocks : List Block} {s s' s'' : Sys}
    {os os' : List Outcome} {ok : Bool} (hapart : ∀ c ∈ blocks, b.Apart c)
    (h : Filled fd [b] s os true s') (h' : Filled fd blocks s' os' ok s'') :
    Filled fd (b :: blocks) s (os ++ os') ok s'' := by
  obtain ⟨hstream', htaken', hstored', hrest', hle', hwhole'⟩ := h'
  have hcount : total os = b.count := by
    rw [h.whole rfl, length_contents]
    rfl
  have htotal : total (os ++ os') = b.count + total os' := by
    rw [total_append, hcount]
  have hlen := length_slice s''.world.mem b.buf b.count
  have hstored := h.stored
  rw [hcount, ← Nat.add_zero b.count, take_contents_cons, List.take_zero, List.append_nil,
    Nat.add_zero] at hstored
  have hkept : slice s''.world.mem b.buf b.count = slice s'.world.mem b.buf b.count := by
    apply slice_congr
    intro a hlo hhi
    refine hrest' a fun c hc => ?_
    have happ := hapart c hc
    unfold Block.Apart at happ
    omega
  constructor
  case stream => exact hstream'.trans h.stream
  case taken => rw [htaken', h.taken, htotal, hcount, Nat.add_assoc]
  case stored =>
    rw [htotal, take_contents_cons, hkept, hstored, hstored', upcoming_add]
    simp only [upcoming, h.stream, h.taken, hcount]
  case rest =>
    intro a ha
    obtain ⟨hb, hblocks⟩ := List.forall_mem_cons.1 ha
    rw [hrest' a hblocks, h.rest a (List.forall_mem_singleton.2 hb)]
  case le =>
    rw [htotal, contents_cons, List.length_append, hlen]
    omega
  case whole =>
    intro hok
    rw [htotal, contents_cons, List.length_append, hlen, hwhole' hok]

/-- A part of one buffer, and nothing after it. -/
theorem Filled.stop {fd : Fd} {b : Block} {s s' : Sys} {os : List Outcome}
    (h : Filled fd [b] s os false s') (blocks : List Block) :
    Filled fd (b :: blocks) s os false s' := by
  have hle := h.le
  have hstored := h.stored
  rw [contents_cons, contents, List.flatMap_nil, List.append_nil] at hle hstored
  constructor
  case stream => exact h.stream
  case taken => exact h.taken
  case stored => rw [contents_cons, List.take_append_of_le_length hle, hstored]
  case rest => exact fun a ha => h.rest a (List.forall_mem_singleton.2 (ha b List.mem_cons_self))
  case le =>
    rw [contents_cons, List.length_append]
    omega
  case whole =>
    intro hok
    cases hok

/-- **The reader by itself**, if its buffers do not overlap. -/
theorem readBlocks_spec (fd : Fd) (timeout : ℤ) {blocks : List Block}
    (hcount : ∀ b ∈ blocks, b.count ≤ SSIZE_MAX) (hapart : blocks.Pairwise Block.Apart) :
    Spec (readBlocks fd timeout blocks) (Filled fd blocks) := by
  induction blocks with
  | nil =>
    apply Spec.pure.mono
    rintro s _ _ _ ⟨rfl, rfl, rfl⟩
    exact ⟨rfl, rfl, rfl, fun _ _ => rfl, Nat.zero_le _, fun _ => rfl⟩
  | cons b blocks ih =>
    obtain ⟨hb, hblocks⟩ := List.forall_mem_cons.1 hcount
    obtain ⟨hfirst, hapart⟩ := List.pairwise_cons.1 hapart
    refine (fd_read_all_spec fd b.buf timeout none (size_of_ssize hb)).bind_ite
      (fun _ => ih hblocks hapart) ?_ ?_
    · intro s os ret s' os' ok s'' hret h h'
      obtain ⟨hle, hw, hfull⟩ := h.total (by decide) hb
      exact (Filled.single hle hw fun _ => hfull hret).cons hfirst h'
    · intro s os ret s' hret h
      obtain ⟨hle, hw, -⟩ := h.total (by decide) hb
      exact (Filled.single hle hw fun hok => Bool.noConfusion hok).stop blocks

/-! ## The pipe -/

/-- The bytes in a pipe, and whether its write end is closed. -/
structure Pipe where
  content : List UInt8
  closed : Bool
  deriving DecidableEq

/-- What happens at an end of the pipe: a system call returns, and has moved these bytes. -/
inductive Turn
  | writer (o : Outcome) (bytes : List UInt8)
  | reader (o : Outcome) (bytes : List UInt8)
  /-- The writer closes its end. -/
  | close
  deriving DecidableEq

namespace Turn

def put : Turn → List UInt8
  | writer _ bytes => bytes
  | _ => []

def take : Turn → List UInt8
  | reader _ bytes => bytes
  | _ => []

/-- The outcome as the writer sees it. -/
def ofWriter : Turn → Option Outcome
  | writer o _ => some o
  | _ => none

/-- The outcome as the reader sees it. -/
def ofReader : Turn → Option Outcome
  | reader o _ => some o
  | _ => none

end Turn

namespace Pipe

def empty : Pipe := ⟨[], false⟩

/-- Calls that fail move nothing. A `write` adds at most the bytes that there is room for. `poll`
finds something to read, and a `read` that asks for bytes returns `0`, only as the pipe lets
them. -/
def step (capacity : ℕ) (p : Pipe) : Turn → Option Pipe
  | .writer o bytes =>
    if bytes.length = o.amount ∧ p.content.length + bytes.length ≤ capacity ∧
        (p.closed = true → bytes = []) then
      some { p with content := p.content ++ bytes }
    else none
  | .reader o bytes =>
    if bytes.length = o.amount ∧ bytes <+: p.content ∧
        (o = ⟨.poll, .done 1⟩ → p.content ≠ [] ∨ p.closed = true) ∧
        (o = ⟨.read, .done 0⟩ → p.content = [] ∧ p.closed = true) then
      some { p with content := p.content.drop bytes.length }
    else none
  | .close => some { p with closed := true }

end Pipe

variable {capacity : ℕ}

/-- **The pipe is first in, first out.** -/
theorem queues_pipe : Queues (Pipe.step capacity) Pipe.content Turn.put Turn.take := by
  refine ⟨fun p e q h => ?_⟩
  cases e with
  | writer o bytes =>
    obtain ⟨-, h⟩ := Option.ite_none_right_eq_some.1 h
    obtain rfl := Option.some.inj h
    rfl
  | reader o bytes =>
    obtain ⟨⟨-, hprefix, -⟩, h⟩ := Option.ite_none_right_eq_some.1 h
    obtain rfl := Option.some.inj h
    show p.content ++ [] = bytes ++ p.content.drop bytes.length
    rw [List.append_nil, List.prefix_iff_eq_append.1 hprefix]
  | close =>
    obtain rfl := Option.some.inj h
    exact List.append_nil _

theorem length_step_le {p q : Pipe} {e : Turn} (hp : p.content.length ≤ capacity)
    (h : Pipe.step capacity p e = some q) : q.content.length ≤ capacity := by
  cases e with
  | writer o bytes =>
    obtain ⟨⟨-, hroom, -⟩, h⟩ := Option.ite_none_right_eq_some.1 h
    obtain rfl := Option.some.inj h
    rwa [List.length_append]
  | reader o bytes =>
    obtain ⟨-, h⟩ := Option.ite_none_right_eq_some.1 h
    obtain rfl := Option.some.inj h
    rw [List.length_drop]
    omega
  | close =>
    obtain rfl := Option.some.inj h
    exact hp

/-- A pipe that is closed and empty stays so. -/
theorem sealed_step {p q : Pipe} {e : Turn} (hp : p.content = [] ∧ p.closed = true)
    (h : Pipe.step capacity p e = some q) :
    (q.content = [] ∧ q.closed = true) ∧ e.put = [] ∧ e.take = [] := by
  obtain ⟨hcontent, hclosed⟩ := hp
  cases e with
  | writer o bytes =>
    obtain ⟨⟨-, -, hnone⟩, h⟩ := Option.ite_none_right_eq_some.1 h
    obtain rfl := Option.some.inj h
    obtain rfl := hnone hclosed
    exact ⟨⟨by rw [hcontent]; rfl, hclosed⟩, rfl, rfl⟩
  | reader o bytes =>
    obtain ⟨⟨-, hprefix, -⟩, h⟩ := Option.ite_none_right_eq_some.1 h
    obtain rfl := Option.some.inj h
    rw [hcontent] at hprefix
    obtain rfl := List.prefix_nil.1 hprefix
    exact ⟨⟨hcontent, hclosed⟩, rfl, rfl⟩
  | close =>
    obtain rfl := Option.some.inj h
    exact ⟨⟨hcontent, rfl⟩, rfl, rfl⟩

/-- The calls of each process move the bytes of its events. -/
theorem total_events {p q : Pipe} {es : List Turn}
    (hq : run (Pipe.step capacity) p es = some q) :
    total (es.filterMap Turn.ofWriter) = (es.flatMap Turn.put).length ∧
      total (es.filterMap Turn.ofReader) = (es.flatMap Turn.take).length := by
  induction es generalizing p with
  | nil => exact ⟨rfl, rfl⟩
  | cons e es ih =>
    rw [run, Option.bind_eq_some_iff] at hq
    obtain ⟨u, hu, hq⟩ := hq
    obtain ⟨hput, htake⟩ := ih hq
    rw [List.flatMap_cons, List.flatMap_cons, List.length_append, List.length_append, ← hput,
      ← htake]
    cases e with
    | writer o bytes =>
      obtain ⟨⟨hlen, -⟩, -⟩ := Option.ite_none_right_eq_some.1 hu
      exact ⟨congrArg (· + _) hlen.symm, (Nat.zero_add _).symm⟩
    | reader o bytes =>
      obtain ⟨⟨hlen, -⟩, -⟩ := Option.ite_none_right_eq_some.1 hu
      exact ⟨(Nat.zero_add _).symm, congrArg (· + _) hlen.symm⟩
    | close => exact ⟨(Nat.zero_add _).symm, (Nat.zero_add _).symm⟩

/-- **The end of the pipe**: once a `read` has returned `0`, all that was written has been read. -/
theorem take_eq_put_of_eof {p q : Pipe} {es : List Turn} (hp : p.content = [])
    (hq : run (Pipe.step capacity) p es = some q)
    (heof : ⟨.read, .done 0⟩ ∈ es.filterMap Turn.ofReader) :
    es.flatMap Turn.take = es.flatMap Turn.put := by
  obtain ⟨e, he, ho⟩ := List.mem_filterMap.1 heof
  obtain ⟨before, after, rfl⟩ := List.append_of_mem he
  rw [run_append, Option.bind_eq_some_iff] at hq
  obtain ⟨u, hu, hq⟩ := hq
  have hempty : u.content = [] ∧ u.closed = true := by
    rw [run, Option.bind_eq_some_iff] at hq
    obtain ⟨v, hv, -⟩ := hq
    cases e with
    | writer o bytes => cases ho
    | reader o bytes =>
      obtain rfl := Option.some.inj ho
      obtain ⟨⟨-, -, -, hend⟩, -⟩ := Option.ite_none_right_eq_some.1 hv
      exact hend rfl
    | close => cases ho
  exact queues_pipe.eq_of_sealed (fun _ _ _ => sealed_step) hp hu hempty hempty.1 hq

/-! ## Both -/

/-- The events are those of two processes at the ends of a pipe that begins empty: the writer, which
is in `w` first and in `w'` last, has sent the bytes that were put into the pipe, and what the
reader, which is in `r` first, reads is what comes out of it. -/
structure Piped (capacity : ℕ) (fdW fdR : Fd) (es : List Turn) (w w' r : World) : Prop where
  runs : run (Pipe.step capacity) Pipe.empty es ≠ none
  sent : w'.peer fdW = w.peer fdW ++ (es.flatMap Turn.put).map Item.byte
  received : upcoming r fdR (es.flatMap Turn.take).length = es.flatMap Turn.take

theorem Piped.put_eq {fdW fdR : Fd} {es : List Turn} {w w' r : World} {bytes : List UInt8}
    (h : Piped capacity fdW fdR es w w' r)
    (hpeer : w'.peer fdW = w.peer fdW ++ bytes.map Item.byte) : es.flatMap Turn.put = bytes := by
  have hmap := List.append_cancel_left (h.sent.symm.trans hpeer)
  exact List.map_injective_iff.2 (fun _ _ heq => Item.byte.inj heq) hmap

/-- Lists that are cut at the same places are equal piece by piece. -/
theorem map_slice_eq {mem mem' : ℕ → UInt8} {bs cs : List Block}
    (hcount : bs.map Block.count = cs.map Block.count) (h : contents mem bs = contents mem' cs) :
    (bs.map fun b => slice mem b.buf b.count) = cs.map fun c => slice mem' c.buf c.count := by
  induction bs generalizing cs with
  | nil =>
    obtain rfl := List.map_eq_nil_iff.1 hcount.symm
    rfl
  | cons b bs ih =>
    obtain ⟨c, cs, rfl⟩ : ∃ c cs', cs = c :: cs' := by
      cases cs with
      | nil => cases hcount
      | cons c cs => exact ⟨c, cs, rfl⟩
    obtain ⟨hbc, hcount⟩ := List.cons_eq_cons.1 hcount
    rw [contents_cons, contents_cons] at h
    obtain ⟨hfirst, hrest⟩ := List.append_inj h (by rw [length_slice, length_slice, hbc])
    rw [List.map_cons, List.map_cons, hfirst, ih hcount hrest]

/-- **What the writer sends, the reader finds.** A process sends its buffers over a pipe of any
capacity and another one fills its buffers from it; whatever each system call returns, and in
whatever order the two processes make them, the reader has a first part of what the writer has
sent, at the beginning of its buffers. If it fills buffers of the same sizes, each of them is a
copy of the writer's; and if it comes to the end of the pipe, it has all that was sent. -/
theorem blocks_delivered {fdW fdR : Fd} {timeout : ℤ} {bs cs : List Block} {es : List Turn}
    {s s' r r' : Sys} {okW okR : Bool} (hbs : ∀ b ∈ bs, b.count ≤ SSIZE_MAX)
    (hcs : ∀ c ∈ cs, 0 < c.count ∧ c.count ≤ SSIZE_MAX) (hapart : cs.Pairwise Block.Apart)
    (hw : Returns (writeBlocks fdW bs) s (es.filterMap Turn.ofWriter) okW s')
    (hr : Returns (readBlocks fdR timeout cs) r (es.filterMap Turn.ofReader) okR r')
    (hp : Piped capacity fdW fdR es s.world s'.world r.world) :
    (es.flatMap Turn.take <+: contents r'.world.mem cs ∧
      es.flatMap Turn.take <+: contents s.world.mem bs) ∧
    (okR = true → bs.map Block.count = cs.map Block.count →
      (cs.map fun c => slice r'.world.mem c.buf c.count) =
        bs.map fun b => slice s.world.mem b.buf b.count) ∧
    (okW = true → ⟨.read, .done 0⟩ ∈ es.filterMap Turn.ofReader →
      es.flatMap Turn.take = contents s.world.mem bs) := by
  obtain ⟨q, hq⟩ := Option.ne_none_iff_exists'.1 hp.runs
  obtain ⟨hputs, htakes⟩ := total_events hq
  have hsent := (writeBlocks_spec fdW hbs).returns hw
  have hfilled := (readBlocks_spec fdR timeout (fun c hc => (hcs c hc).2) hapart).returns hr
  have hput := hp.put_eq hsent.peer
  have htook : (contents r'.world.mem cs).take (es.flatMap Turn.take).length =
      es.flatMap Turn.take := by
    rw [← htakes, hfilled.stored, htakes, hp.received]
  have hprefix : es.flatMap Turn.take <+: contents s.world.mem bs := by
    refine (queues_pipe.prefix_of_empty rfl hq).trans ?_
    rw [hput]
    exact List.take_prefix _ _
  refine ⟨⟨?_, hprefix⟩, fun hok hcount => ?_, fun hok heof => ?_⟩
  · rw [← htook]
    exact List.take_prefix _ _
  · apply map_slice_eq hcount.symm
    have hfull := hfilled.whole hok
    rw [htakes] at hfull
    rw [hfull, List.take_length] at htook
    rw [htook]
    refine hprefix.eq_of_length ?_
    rw [hfull, length_contents, length_contents, hcount]
  · have hwhole := hsent.whole hok
    rw [hwhole, List.take_length] at hput
    rw [← hput]
    exact take_eq_put_of_eof rfl hq heof

/-- The events of three bytes that go through a pipe of two. -/
def interleaved : List Turn :=
  [.writer ⟨.write, .done 1⟩ [10], .reader ⟨.read, .done 1⟩ [10], .writer ⟨.write, .fail EINTR⟩ [],
    .writer ⟨.write, .done 1⟩ [11], .writer ⟨.write, .done 1⟩ [15], .reader ⟨.read, .done 1⟩ [11],
    .reader ⟨.read, .fail EAGAIN⟩ [], .reader ⟨.read, .done 1⟩ [15]]

theorem blocks_delivered_interleaved : ∃ s s' r r' : Sys,
    Returns (writeBlocks 4 [⟨10, 2⟩, ⟨15, 1⟩]) s (interleaved.filterMap Turn.ofWriter) true s' ∧
    Returns (readBlocks 3 0 [⟨20, 2⟩, ⟨40, 1⟩]) r (interleaved.filterMap Turn.ofReader) true r' ∧
    slice s.world.mem 10 2 = [10, 11] ∧
    [slice r'.world.mem 20 2, slice r'.world.mem 40 1] =
      [slice s.world.mem 10 2, slice s.world.mem 15 1] := by
  have hw : Returns (writeBlocks 4 [⟨10, 2⟩, ⟨15, 1⟩])
      ⟨0, { start.world with mem := fun a => UInt8.ofNat a }⟩
      (interleaved.filterMap Turn.ofWriter) true _ := rfl
  have hr : Returns (readBlocks 3 0 [⟨20, 2⟩, ⟨40, 1⟩])
      ⟨0, { start.world with stream := fun _ i => [10, 11, 15].getD i 0 }⟩
      (interleaved.filterMap Turn.ofReader) true _ := rfl
  have h := fun hp : Piped 2 4 3 interleaved _ _ _ =>
    blocks_delivered (by decide) (by decide) (by decide) hw hr hp
  exact ⟨_, _, _, _, hw, hr, rfl, (h ⟨by decide, rfl, rfl⟩).2.1 rfl rfl⟩

end XcpNgGeneric.Descriptor
