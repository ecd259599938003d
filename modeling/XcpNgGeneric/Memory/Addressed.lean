import XcpNgGeneric.Foundations.Storage
import XcpNgGeneric.Memory.Strings

/-!
# Memory by its addresses

The mapped bytes of a process, with the accesses to words of some bytes. An access to a byte that is
not mapped ends in a `Fault`.

## Main results

* `loadBytes_ok`: what is read where bytes are held.
* `loadWord_ok`, `storeWord_ok`: the accesses to a word.
-/

namespace XcpNgGeneric.Memory

open Bytes

/-- The mapped bytes. -/
abbrev Addressed := ℕ → Option UInt8

namespace Addressed

variable {m : Addressed}

/-- `*p`. -/
def loadByte (m : Addressed) (p : ℕ) : Except Fault UInt8 :=
  match m p with
  | some c => .ok c
  | none => .error .outOfBounds

/-- The `n` bytes from `p` on. -/
def loadBytes (m : Addressed) : ℕ → ℕ → Except Fault (List UInt8)
  | _, 0 => .ok []
  | p, n + 1 => do
    let c ← m.loadByte p
    let cs ← m.loadBytes (p + 1) n
    pure (c :: cs)

/-- The word of `w` bits in the `n` bytes from `p` on. -/
def loadWord (m : Addressed) (p n w : ℕ) : Except Fault (BitVec w) := do
  let bs ← m.loadBytes p n
  pure (word w bs)

/-- The `n` bytes from `p` on become those of the word. -/
def storeWord {w : ℕ} (m : Addressed) (p n : ℕ) (x : BitVec w) : Except Fault Addressed := do
  let _ ← m.loadBytes p n
  pure fun i => if p ≤ i ∧ i < p + n then some (byte x (i - p)) else m i

/-- The bytes from `p` on are `bs`. -/
def Holds (m : Addressed) (p : ℕ) (bs : List UInt8) : Prop :=
  ∀ i, (h : i < bs.length) → m (p + i) = some bs[i]

instance (m : Addressed) (p : ℕ) (bs : List UInt8) : Decidable (m.Holds p bs) :=
  inferInstanceAs (Decidable (∀ i, (h : i < bs.length) → m (p + i) = some bs[i]))

theorem loadByte_ok {p : ℕ} {c : UInt8} (h : m p = some c) : m.loadByte p = .ok c := by
  rw [loadByte, h]

theorem Holds.head {p : ℕ} {c : UInt8} {cs : List UInt8} (h : m.Holds p (c :: cs)) :
    m p = some c := h 0 (Nat.succ_pos _)

theorem Holds.tail {p : ℕ} {c : UInt8} {cs : List UInt8} (h : m.Holds p (c :: cs)) :
    m.Holds (p + 1) cs := by
  intro i hi
  rw [Nat.add_assoc, Nat.add_comm 1 i]
  exact h (i + 1) (Nat.succ_lt_succ hi)

theorem loadBytes_ok {p : ℕ} {bs : List UInt8} (h : m.Holds p bs) :
    m.loadBytes p bs.length = .ok bs := by
  induction bs generalizing p with
  | nil => rfl
  | cons c cs ih =>
    rw [List.length_cons, loadBytes, loadByte_ok h.head, ok_bind, ih h.tail]
    rfl

theorem loadWord_ok {p : ℕ} {bs : List UInt8} (h : m.Holds p bs) (w : ℕ) :
    m.loadWord p bs.length w = .ok (word w bs) := by
  rw [loadWord, loadBytes_ok h]
  rfl

theorem storeWord_ok {p w : ℕ} {bs : List UInt8} (h : m.Holds p bs) (x : BitVec w) :
    m.storeWord p bs.length x =
      .ok fun i => if p ≤ i ∧ i < p + bs.length then some (byte x (i - p)) else m i := by
  rw [storeWord, loadBytes_ok h]
  rfl

/-- Mapped bytes are held. -/
theorem exists_holds {p n : ℕ} (h : ∀ i < n, m (p + i) ≠ none) :
    ∃ bs : List UInt8, bs.length = n ∧ m.Holds p bs := by
  refine ⟨(List.range n).map fun i => (m (p + i)).getD NUL, by simp, fun i hi => ?_⟩
  simp only [List.length_map, List.length_range] at hi
  obtain ⟨c, hc⟩ := Option.ne_none_iff_exists'.1 (h i hi)
  simp [hc]

end Addressed

end XcpNgGeneric.Memory
