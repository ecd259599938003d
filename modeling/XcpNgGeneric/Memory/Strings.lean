import Mathlib.Algebra.Group.Nat.Defs
import XcpNgGeneric.Foundations.Buffer

/-!
# C strings

Strings as the objects that `char *` points to, the buffers that `malloc` returns, and the functions
of the C library that search and copy strings. An allocation is told whether it succeeds; a program
that writes outside a buffer ends in a `Fault`.

## Main results

* `IsString.unique`: a buffer is at most one string.
* `strdup_ok`, `strndup_ok`: the copies, and how many bytes are allocated for them.
-/

namespace XcpNgGeneric.Memory

/-- The cast to `size_t`. -/
def sizeT (n : ℕ) : ℕ := n % 2 ^ 64

/-- The size of the largest object. -/
def PTRDIFF_MAX : ℕ := 2 ^ 63 - 1

/-- How a program goes wrong. -/
inductive Fault
  | outOfBounds
  /-- The value of a cell that has not been written is used. -/
  | indeterminate
  /-- A pointer is used that points to no allocated object. -/
  | notAllocated
  /-- An `assert` fails. -/
  | assertion
  /-- A loop has run out of the iterations that its model allows. -/
  | endless
  deriving DecidableEq

/-- The terminator. -/
def NUL : UInt8 := 0

/-- A string: its bytes before the terminator. -/
@[ext] structure CString where
  bytes : List UInt8
  nul_free : NUL ∉ bytes
  fits : bytes.length < PTRDIFF_MAX
  deriving DecidableEq

namespace CString

/-- The bytes with the terminator. -/
def image (s : CString) : List UInt8 := s.bytes ++ [NUL]

/-- `s[i]`. -/
def get (s : CString) (i : ℕ) : UInt8 := s.image.getD i NUL

/-- `strlen`. -/
def strlen (s : CString) : ℕ := s.bytes.length

@[simp] theorem length_image (s : CString) : s.image.length = s.strlen + 1 := by
  simp [image, strlen]

theorem get_strlen (s : CString) : s.get s.strlen = NUL := by
  simp [get, image, strlen]

theorem get_of_lt {s : CString} {i : ℕ} (hi : i < s.strlen) : s.bytes[i]? = some (s.get i) := by
  have hi' : i < s.bytes.length := hi
  simp [get, image, List.getD, List.getElem?_append_left hi', hi']

theorem get_eq_nul {s : CString} {i : ℕ} (hi : i ≤ s.strlen) : s.get i = NUL ↔ i = s.strlen := by
  refine ⟨fun h => ?_, fun h => h ▸ s.get_strlen⟩
  by_contra hne
  apply s.nul_free
  rw [← h]
  exact List.mem_of_getElem? (get_of_lt (by omega))

/-- The string of the first `n` bytes. -/
def take (s : CString) (n : ℕ) : CString where
  bytes := s.bytes.take n
  nul_free h := s.nul_free (List.mem_of_mem_take h)
  fits := Nat.lt_of_le_of_lt (List.length_take_le' n s.bytes) s.fits

end CString

/-! ## Characters -/

/-- `isspace`, in the C locale. -/
def isspace (c : UInt8) : Bool := c == 32 || (9 ≤ c && c ≤ 13)

/-- `isdigit`. -/
def isdigit (c : UInt8) : Bool := 48 ≤ c && c ≤ 57

/-! ## Searching -/

/-- The last index of `c`. -/
def lastIndex (c : UInt8) : List UInt8 → Option ℕ
  | [] => none
  | b :: bs =>
    match lastIndex c bs with
    | some i => some (i + 1)
    | none => if b = c then some 0 else none

/-- `strrchr(s, c)`, for a byte other than the terminator. -/
def strrchr (s : CString) (c : UInt8) : Option ℕ := lastIndex c s.bytes

/-- `memrchr(s, c, n)`. -/
def memrchr (s : CString) (c : UInt8) (n : ℕ) : Option ℕ := lastIndex c (s.bytes.take n)

theorem lastIndex_eq_none {c : UInt8} {bs : List UInt8} (h : c ∉ bs) : lastIndex c bs = none := by
  induction bs with
  | nil => rfl
  | cons b bs ih =>
    rw [List.mem_cons, not_or] at h
    rw [lastIndex, ih h.2, if_neg (fun hb => h.1 hb.symm)]

theorem lastIndex_append {c : UInt8} (bs : List UInt8) {bs' : List UInt8} (h : c ∉ bs') :
    lastIndex c (bs ++ bs') = lastIndex c bs := by
  induction bs with
  | nil => exact lastIndex_eq_none h
  | cons b bs ih => rw [List.cons_append, lastIndex, lastIndex, ih]

theorem lastIndex_concat (c : UInt8) (bs : List UInt8) :
    lastIndex c (bs ++ [c]) = some bs.length := by
  induction bs with
  | nil => simp [lastIndex]
  | cons b bs ih => rw [List.cons_append, lastIndex, ih]; rfl

theorem lastIndex_lt {c : UInt8} {bs : List UInt8} {i : ℕ} (h : lastIndex c bs = some i) :
    i < bs.length := by
  induction bs generalizing i with
  | nil => cases h
  | cons b bs ih =>
    rw [lastIndex] at h
    cases hrest : lastIndex c bs with
    | some j =>
      rw [hrest] at h
      obtain rfl := Option.some.inj h
      exact Nat.succ_lt_succ (ih hrest)
    | none =>
      simp only [hrest] at h
      split at h <;> cases h
      exact Nat.succ_pos _

/-! ## Programs with faults -/

@[simp] theorem ok_bind {α β : Type} (a : α) (f : α → Except Fault β) :
    (Except.ok a >>= f) = f a := rfl

theorem bind_ok {α β : Type} {x : Except Fault α} {f : α → Except Fault β} {r : β}
    (h : x >>= f = .ok r) : ∃ a, x = .ok a ∧ f a = .ok r := by
  cases x with
  | error fault => cases h
  | ok a => exact ⟨a, rfl, h⟩

/-! ## Allocating and copying -/

/-- `malloc(n)`, which fails if there is no memory and if no object can be that large. -/
def malloc (mem : Bool) (n : ℕ) : Option (Buffer UInt8) :=
  if mem && n ≤ PTRDIFF_MAX then some (Buffer.fresh n) else none

/-- The bytes `xs` are stored from `off` on. -/
def store {α : Type} (b : Buffer α) (off : ℕ) (xs : List α) : Except Fault (Buffer α) :=
  match b.write off xs with
  | none => .error .outOfBounds
  | some b' => .ok b'

/-- A buffer of `n` bytes for a copy of `bytes`. -/
def duplicate (mem : Bool) (n : ℕ) (bytes : List UInt8) : Except Fault (Option (Buffer UInt8)) :=
  match malloc mem n with
  | none => .ok none
  | some b => do
    let b ← store b 0 bytes
    pure (some b)

def strdup (mem : Bool) (s : CString) : Except Fault (Option (Buffer UInt8)) :=
  duplicate mem (s.strlen + 1) s.image

def strndup (mem : Bool) (s : CString) (n : ℕ) : Except Fault (Option (Buffer UInt8)) :=
  duplicate mem (min s.strlen n + 1) (s.take n).image

/-- The buffer begins with the string and its terminator. -/
def IsString (b : Buffer UInt8) (s : CString) : Prop := b.Holds 0 s.image

theorem IsString.strlen_le {b : Buffer UInt8} {s t : CString} (hs : IsString b s)
    (ht : IsString b t) : s.strlen ≤ t.strlen := by
  by_contra hlt
  have hcell := ht t.strlen (by simp)
  rw [hs t.strlen (by simp; omega)] at hcell
  have hget : s.get t.strlen = t.get t.strlen := by
    simp only [CString.get, List.getD, Option.some.inj hcell]
  rw [t.get_strlen, CString.get_eq_nul (by omega)] at hget
  omega

/-- **A buffer is at most one string.** -/
theorem IsString.unique {b : Buffer UInt8} {s t : CString} (hs : IsString b s) (ht : IsString b t) :
    s = t := by
  have hlength : s.strlen = t.strlen := Nat.le_antisymm (hs.strlen_le ht) (ht.strlen_le hs)
  have himage : s.image = t.image :=
    (hs.isPrefix ht (by simp [hlength])).eq_of_length (by simp [hlength])
  exact CString.ext (List.append_cancel_right himage)

theorem store_ok {α : Type} (b : Buffer α) (off : ℕ) (xs : List α)
    (h : off + xs.length ≤ b.length) :
    ∃ b', store b off xs = .ok b' ∧ b.write off xs = some b' := by
  obtain ⟨b', hb⟩ := Buffer.write_isSome off xs h
  exact ⟨b', by rw [store, hb], hb⟩

/-- Two stores in a row are one. -/
theorem store_store {α : Type} (b : Buffer α) (off : ℕ) (xs ys : List α) :
    (store b off xs >>= fun b' => store b' (off + xs.length) ys) = store b off (xs ++ ys) := by
  have hboth := b.write_write off xs ys
  unfold store
  rw [← hboth]
  cases b.write off xs <;> rfl

theorem malloc_ok {n : ℕ} (hn : n ≤ PTRDIFF_MAX) : malloc true n = some (Buffer.fresh n) := by
  simp [malloc, hn]

/-- What a function that returns a string returns: this string, at the beginning of a buffer. -/
def Yields (r : Except Fault (Option (Buffer UInt8))) (s : CString) : Prop :=
  ∃ b, r = .ok (some b) ∧ IsString b s

theorem Yields.unique {r : Except Fault (Option (Buffer UInt8))} {s t : CString} (hs : Yields r s)
    (ht : Yields r t) : s = t := by
  obtain ⟨b, rfl, hs⟩ := hs
  obtain ⟨b', hb, ht⟩ := ht
  cases hb
  exact hs.unique ht

/-- Bytes that fill their buffer. -/
theorem store_fresh {α : Type} (xs : List α) :
    store (Buffer.fresh xs.length) 0 xs = .ok (xs.map some) := by
  obtain ⟨b, hstore, hwrite⟩ := store_ok (Buffer.fresh xs.length) 0 xs
    (by rw [Buffer.length_fresh]; omega)
  have hfull : b = xs.map some := by
    apply (Buffer.Holds.of_write hwrite).eq_map
    rw [(Buffer.length_write hwrite).2, Buffer.length_fresh]
  rw [hstore, hfull]

theorem duplicate_ok {n : ℕ} {bytes : List UInt8} (hn : n ≤ PTRDIFF_MAX)
    (hlength : bytes.length = n) :
    duplicate true n bytes = .ok (some (bytes.map some)) := by
  subst hlength
  rw [duplicate, malloc_ok hn]
  simp only [store_fresh]
  rfl

theorem strdup_ok (s : CString) : strdup true s = .ok (some (s.image.map some)) :=
  duplicate_ok s.fits (by simp)

theorem strndup_ok (s : CString) (n : ℕ) :
    strndup true s n = .ok (some ((s.take n).image.map some)) := by
  have hfits := s.fits
  apply duplicate_ok
  · simp only [CString.strlen]
    omega
  · simp [CString.strlen, CString.take, Nat.min_comm]

theorem isString_map (s : CString) : IsString (s.image.map some) s := Buffer.Holds.map_some s.image

end XcpNgGeneric.Memory
