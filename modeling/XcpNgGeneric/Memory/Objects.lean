import XcpNgGeneric.Foundations.Heap
import XcpNgGeneric.Memory.Strings

/-!
# Allocated objects

Programs that keep pointers in memory: their heap holds objects of bytes, arrays of pointers to
strings, and the blocks that `stacktrace_symbols` returns. An access to an object that is not
allocated, outside its bounds or to a cell that has not been written ends in a `Fault`.

## Main results

* `alloc_exec`, `free_exec`, `realloc_exec`, `storeBytes_exec`: what each operation does.
* `readString_exec`: reading the string at which a buffer begins.
-/

namespace XcpNgGeneric.Memory

/-- What an allocation holds. -/
inductive Object
  | bytes (b : Buffer UInt8)
  /-- Pointers to strings, or `NULL`. -/
  | pointers (cells : Buffer (Option ℕ))
  /-- The symbols of an object file. -/
  | symbols
  /-- Pointers into the bytes that follow them. -/
  | block (table : Buffer ℕ) (data : Buffer UInt8)

abbrev Mem := HeapProg Fault Object

def fault {α : Type} (f : Fault) : Mem α := fun _ => .error f

/-- `malloc(n)`, for the object `x`. -/
def alloc (mem : Bool) (n : ℕ) (x : Object) : Mem (Option ℕ) := fun h =>
  if mem && n ≤ PTRDIFF_MAX then .ok (some h.next, h.alloc x) else .ok (none, h)

def free : Option ℕ → Mem Unit
  | none => pure ()
  | some p => fun h =>
    match h.free p with
    | some h => .ok ((), h)
    | none => .error .notAllocated

/-- The bytes that `p` points to. -/
def loadBytes (p : ℕ) : Mem (Buffer UInt8) := fun h =>
  match h.get p with
  | some (.bytes b) => .ok (b, h)
  | _ => .error .notAllocated

/-- The object at `p` is changed. -/
def assign (p : ℕ) (x : Object) : Mem Unit := fun h =>
  match h.set p x with
  | some h => .ok ((), h)
  | none => .error .notAllocated

def storeBytes (p off : ℕ) (xs : List UInt8) : Mem Unit := do
  let b ← loadBytes p
  let b ← store b off xs
  assign p (.bytes b)

/-- `realloc(p, n)`, which moves what fits. -/
def realloc (mem : Bool) (p n : ℕ) : Mem (Option ℕ) := do
  let b ← loadBytes p
  match ← alloc mem n (.bytes (b.take n ++ Buffer.fresh (n - b.length))) with
  | none => pure none
  | some q =>
    free (some p)
    pure (some q)

/-- The bytes before the first terminator. -/
def scan : Buffer UInt8 → Except Fault (List UInt8)
  | [] => .error .outOfBounds
  | none :: _ => .error .indeterminate
  | some c :: b =>
    if c = NUL then .ok []
    else do
      let s ← scan b
      pure (c :: s)

/-- The string that `p` points to. -/
def readString (p : ℕ) : Mem (List UInt8) := do
  let b ← loadBytes p
  scan b

/-! ## What the operations do -/

variable {h : Heap Object} {p n : ℕ} {x y : Object} {b : Buffer UInt8}

theorem alloc_exec (h : Heap Object) (x : Object) (hn : n ≤ PTRDIFF_MAX) :
    Exec (alloc true n x) h (some h.next) (h.alloc x) := by
  simp [Exec, alloc, hn]

theorem alloc_fails (h : Heap Object) (x : Object) {mem : Bool}
    (hfails : ¬(mem = true ∧ n ≤ PTRDIFF_MAX)) : Exec (alloc mem n x) h none h := by
  simp [Exec, alloc, hfails]

theorem free_exec (hp : h.get p = some x) : ∃ h', Exec (free (some p)) h () h' ∧
    h'.get = Function.update h.get p none ∧ h'.next = h.next ∧ h'.freed = h.freed ++ [p] := by
  obtain ⟨h', hfree, hafter⟩ := Heap.free_some hp
  refine ⟨h', ?_, hafter⟩
  simp [Exec, free, hfree]

theorem loadBytes_exec (hp : h.get p = some (.bytes b)) : Exec (loadBytes p) h b h := by
  simp [Exec, loadBytes, hp]

theorem assign_exec (hp : h.get p = some x) (y : Object) : ∃ h', Exec (assign p y) h () h' ∧
    h'.get = Function.update h.get p (some y) ∧ h'.next = h.next ∧ h'.freed = h.freed := by
  obtain ⟨h', hset, hafter⟩ := Heap.set_some hp y
  refine ⟨h', ?_, hafter⟩
  simp [Exec, assign, hset]

theorem fault_faults {α : Type} (f : Fault) (h : Heap Object) : Faults (fault f : Mem α) h :=
  ⟨f, rfl⟩

/-- A computation that does not look at the heap. -/
theorem lift_exec {α : Type} {c : Except Fault α} {a : α} (hc : c = .ok a) (h : Heap Object) :
    Exec (c : Mem α) h a h := by
  subst hc
  rfl

theorem storeBytes_exec (off : ℕ) (xs : List UInt8) (hp : h.get p = some (.bytes b))
    (hfits : off + xs.length ≤ b.length) : ∃ b' h', Exec (storeBytes p off xs) h () h' ∧
      b.write off xs = some b' ∧ h'.get = Function.update h.get p (some (.bytes b')) ∧
      h'.next = h.next ∧ h'.freed = h.freed := by
  obtain ⟨b', hstore, hwrite⟩ := store_ok b off xs hfits
  obtain ⟨h', hassign, hafter⟩ := assign_exec hp (.bytes b')
  exact ⟨b', h', (loadBytes_exec hp).bind ((lift_exec hstore h).bind hassign), hwrite, hafter⟩

theorem realloc_exec (hp : h.get p = some (.bytes b)) (hn : n ≤ PTRDIFF_MAX) :
    ∃ b' h', Exec (realloc true p n) h (some h.next) h' ∧ b'.length = n ∧
      h'.get = Function.update (Function.update h.get h.next (some (.bytes b'))) p none ∧
      h'.next = h.next + 1 := by
  obtain ⟨h', hfree, hget, hnext, -⟩ := free_exec
    (Heap.get_alloc (y := .bytes (b.take n ++ Buffer.fresh (n - b.length))) hp)
  refine ⟨b.take n ++ Buffer.fresh (n - b.length), h', ?_, ?_, hget, hnext⟩
  · exact (loadBytes_exec hp).bind ((alloc_exec h _ hn).bind (hfree.bind (Exec.pure _ _)))
  · rw [List.length_append, List.length_take, Buffer.length_fresh]
    omega

theorem realloc_fails (hp : h.get p = some (.bytes b)) {mem : Bool}
    (hfails : ¬(mem = true ∧ n ≤ PTRDIFF_MAX)) : Exec (realloc mem p n) h none h :=
  (loadBytes_exec hp).bind ((alloc_fails h _ hfails).bind (Exec.pure _ _))

theorem scan_append {bs : List UInt8} (hbs : NUL ∉ bs) (rest : Buffer UInt8) :
    scan (bs.map some ++ some NUL :: rest) = .ok bs := by
  induction bs with
  | nil => rfl
  | cons c bs ih =>
    rw [List.mem_cons, not_or] at hbs
    rw [List.map_cons, List.cons_append, scan, if_neg fun hc => hbs.1 hc.symm, ih hbs.2]
    rfl

theorem scan_string {s : CString} (hs : IsString b s) : scan b = .ok s.bytes := by
  rw [Buffer.Holds.eq_append hs, CString.image, List.map_append, List.append_assoc]
  exact scan_append s.nul_free _

/-- **Reading a string** gives its bytes. -/
theorem readString_exec {s : CString} (hp : h.get p = some (.bytes b)) (hs : IsString b s) :
    Exec (readString p) h s.bytes h :=
  (loadBytes_exec hp).bind (lift_exec (scan_string hs) h)

/-! ## Functions that return a new string -/

/-- What a function called in `h₀` returns: `NULL`, or a pointer to a new string. Besides the string
it leaves only what satisfies `P`. -/
inductive Returned (P : ℕ → Object → Prop) (h₀ h : Heap Object) : Option CString → Option ℕ → Prop
  | null (hadds : h₀.Adds P h) : Returned P h₀ h none none
  | string {s : CString} {p : ℕ} {b : Buffer UInt8} (hnew : h₀.next ≤ p)
      (hp : h.get p = some (.bytes b)) (hs : IsString b s)
      (hadds : h₀.Adds (fun q x => q = p ∨ P q x) h) : Returned P h₀ h (some s) (some p)

namespace Returned

variable {P : ℕ → Object → Prop} {h₀ h' : Heap Object} {o : Option CString} {r : Option ℕ}
  {s : CString}

/-- The string has been stored in the only object that the function has allocated. -/
theorem stored (hnew : h₀.next ≤ p) (hadds : h₀.Adds (fun q _ => q = p) h)
    (hget : h'.get = Function.update h.get p (some (.bytes b))) (hnext : h'.next = h.next)
    (hs : IsString b s) : Returned (fun _ _ => False) h₀ h' (some s) (some p) := by
  apply Returned.string hnew (by rw [hget, Function.update_self]) hs
  have hadds' : h₀.Adds (fun q _ => q = p) h' := hadds.update hnew hnext hget fun _ _ => rfl
  apply hadds'.mono
  intro q x hq hqp
  exact .inl hqp

/-- The string is allocated with its contents. -/
theorem alloc (P : ℕ → Object → Prop) (h : Heap Object) (s : CString) :
    Returned P h (h.alloc (.bytes (s.image.map some))) (some s) (some h.next) :=
  .string (Nat.le_refl _) (Heap.get_alloc_next h _) (isString_map s)
    ((Heap.Adds.refl _ h).alloc (.inl rfl))

/-- What was live is unchanged. -/
theorem get (hret : Returned P h₀ h o r) (hp : h₀.get p = some x) : h.get p = some x := by
  cases hret with
  | null hadds => exact hadds.get hp
  | string hnew hp' hs hadds => exact hadds.get hp

/-- A function that has added something calls one that adds nothing but its result. -/
theorem after (hadds : h₀.Adds P h) (hret : Returned (fun _ _ => False) h h' o r) :
    Returned P h₀ h' o r := by
  cases hret with
  | null hadds' => exact .null (hadds.trans hadds' fun _ _ hfalse => hfalse.elim)
  | string hnew hp hs hadds' =>
    apply Returned.string (Nat.le_trans hadds.next_le hnew) hp hs
    apply (hadds.mono fun _ _ _ hP => Or.inr hP).trans hadds'
    intro q x hq
    exact hq.imp_right False.elim

/-- An object other than the result is freed. -/
theorem freed (hret : Returned P h₀ h o r) (hnew : h₀.next ≤ p) (hp : h.get p = some x)
    (hx : ∀ b, x ≠ .bytes b) (hnext : h'.next = h.next)
    (hget : h'.get = Function.update h.get p none) : Returned P h₀ h' o r := by
  cases hret with
  | null hadds => exact .null (hadds.update hnew hnext hget fun _ hy => by cases hy)
  | @string s q b hnew' hq hs hadds =>
    have hne : q ≠ p := Heap.ne_of_get hq hp (hx b).symm
    apply Returned.string hnew' _ hs (hadds.update hnew hnext hget fun _ hy => by cases hy)
    rw [hget, Function.update_of_ne hne, hq]

end Returned

end XcpNgGeneric.Memory
