import Mathlib.Data.Nat.Digits.Defs
import XcpNgGeneric.Foundations.Bytes

/-!
# Reading words

The word that is stored at some bytes, the least significant first: its bytes are those that are
stored (`byte_word`), and what has been stored is read back (`word_littleEndian`).
-/

namespace XcpNgGeneric.Bytes

variable {w : ℕ}

/-- The word of `w` bits that is stored at the bytes. -/
def word (w : ℕ) (bs : List UInt8) : BitVec w :=
  BitVec.ofNat w (Nat.ofDigits 256 (bs.map UInt8.toNat))

theorem digits_lt (bs : List UInt8) : ∀ d ∈ bs.map UInt8.toNat, d < 256 := by
  intro d hd
  obtain ⟨c, -, rfl⟩ := List.mem_map.1 hd
  exact c.toNat_lt

theorem ofDigits_lt (bs : List UInt8) :
    Nat.ofDigits 256 (bs.map UInt8.toNat) < 2 ^ (8 * bs.length) := by
  have hlt := Nat.ofDigits_lt_base_pow_length (by decide) (digits_lt bs)
  rwa [List.length_map, show 256 = 2 ^ 8 from rfl, ← Nat.pow_mul] at hlt

theorem toNat_word {bs : List UInt8} (h : 8 * bs.length ≤ w) :
    (word w bs).toNat = Nat.ofDigits 256 (bs.map UInt8.toNat) := by
  rw [word, BitVec.toNat_ofNat, Nat.mod_eq_of_lt]
  exact Nat.lt_of_lt_of_le (ofDigits_lt bs) (Nat.pow_le_pow_right (by decide) h)

/-- **The bytes of a word that is read** are those that are stored. -/
theorem byte_word {bs : List UInt8} (h : 8 * bs.length ≤ w) {i : ℕ} (hi : i < bs.length) :
    byte (word w bs) i = bs[i] := by
  rw [byte_eq_ofNat, toNat_word h,
    Nat.ofDigits_div_pow_eq_ofDigits_drop i (by decide) _ (digits_lt bs), ← List.map_drop,
    List.drop_eq_getElem_cons hi, List.map_cons, Nat.ofDigits_cons]
  apply UInt8.toNat_inj.1
  have hlt := bs[i].toNat_lt
  rw [UInt8.toNat_ofNat']
  omega

/-- A word is read back from the bytes at which it is stored. -/
theorem word_littleEndian {n : ℕ} (h : w = 8 * n) (x : BitVec w) :
    word w (littleEndian n x) = x := by
  apply eq_of_bytes (Nat.le_of_eq h)
  intro i hi
  rw [byte_word (by rw [length_littleEndian]; omega) (by rwa [length_littleEndian])]
  simp [littleEndian]

end XcpNgGeneric.Bytes
