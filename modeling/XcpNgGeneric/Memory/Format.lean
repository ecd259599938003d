import XcpNgGeneric.Memory.Strings

/-!
# Formatted output

The conversions of `printf` that the library uses. Their results are free of terminators.
-/

namespace XcpNgGeneric.Memory

def INT_MAX : ℕ := 2 ^ 31 - 1

/-- The bytes of an ASCII text. -/
def ascii (cs : List Char) : List UInt8 := cs.map fun c => UInt8.ofNat c.toNat

/-- The numeral of `n`, as `%u` and `%x` print it. -/
def numeral (base n : ℕ) : List UInt8 := ascii (Nat.toDigits base n)

/-- `%-*u`. -/
def leftJustified (width n : ℕ) : List UInt8 :=
  numeral 10 n ++ List.replicate (width - (numeral 10 n).length) 32

/-- `%#0*x`. -/
def hexadecimal (width n : ℕ) : List UInt8 :=
  if n = 0 then List.replicate (max width 1) 48
  else
    [48, 120] ++ List.replicate (width - (2 + (numeral 16 n).length)) 48 ++ numeral 16 n

theorem mem_toDigits {base n : ℕ} {c : Char} (hbase : 1 < base) (hc : c ∈ Nat.toDigits base n) :
    ∃ d < base, c = Nat.digitChar d := by
  induction n using Nat.strongRecOn with
  | ind n ih =>
    rw [Nat.toDigits_eq_if hbase] at hc
    split at hc
    next hlt => exact ⟨n, hlt, List.mem_singleton.1 hc⟩
    next hle =>
      rcases List.mem_append.1 hc with hc | hc
      · exact ih (n / base) (Nat.div_lt_self (by omega) hbase) hc
      · exact ⟨n % base, Nat.mod_lt n (by omega), List.mem_singleton.1 hc⟩

theorem nul_notMem_numeral {base : ℕ} (hbase : 1 < base) (hle : base ≤ 16) (n : ℕ) :
    NUL ∉ numeral base n := by
  intro hmem
  obtain ⟨c, hc, hnul⟩ := List.mem_map.1 hmem
  obtain ⟨d, hd, rfl⟩ := mem_toDigits hbase hc
  have hdigits : ∀ d < 16, UInt8.ofNat (Nat.digitChar d).toNat ≠ NUL := by decide
  exact hdigits d (by omega) hnul

theorem nul_notMem_replicate {c : UInt8} (hc : c ≠ NUL) (n : ℕ) : NUL ∉ List.replicate n c :=
  fun hmem => hc (List.eq_of_mem_replicate hmem).symm

theorem nul_notMem_hexadecimal (width n : ℕ) : NUL ∉ hexadecimal width n := by
  rw [hexadecimal]
  split
  next => exact nul_notMem_replicate (by decide) _
  next =>
    rw [List.mem_append, List.mem_append, not_or, not_or]
    exact ⟨⟨by decide, nul_notMem_replicate (by decide) _⟩,
      nul_notMem_numeral (by decide) (by decide) n⟩

theorem length_leftJustified {width n : ℕ} (h : (numeral 10 n).length ≤ width) :
    (leftJustified width n).length = width := by
  rw [leftJustified, List.length_append, List.length_replicate]
  omega

/-- A number below `10 ^ k` has at most `k` digits. -/
theorem length_numeral_le {j k : ℕ} (hlt : j < 10 ^ k) (hk : 0 < k) :
    (numeral 10 j).length ≤ k := by
  rw [numeral, ascii, List.length_map]
  exact (Nat.length_toDigits_le_iff (by decide) hk).2 hlt

example : leftJustified 4 12 = ascii ['1', '2', ' ', ' '] := by decide

end XcpNgGeneric.Memory
