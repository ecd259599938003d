import XcpNgGeneric.Foundations.Bytes
import XcpNgGeneric.Text.Hex

/-!
# Byte order

`endian.h`, on a target that stores the least significant byte first. The operands of 16 bits are
promoted to `int` before they are masked and shifted; the functions for signed integers convert to
the unsigned type and back.

Every swap is the disjunction of the moved lanes of its operand, which is what `Bytes.swap` is at
its width; all else follows from the bytes (`conversions_correct`).
-/

namespace XcpNgGeneric.Endian

open Bytes Memory Text

/-! ## Swapping -/

/-- The promotion of a `uint16_t` to `int`. -/
def promote (src : UInt16) : Int32 := src.toUInt32.toInt32

def xcp_swap_endian_u16 (src : UInt16) : UInt16 :=
  (((promote src &&& 0x00FF) <<< 8) ||| ((promote src &&& 0xFF00) >>> 8)).toUInt32.toUInt16

def xcp_swap_endian_16 (src : Int16) : Int16 := (xcp_swap_endian_u16 src.toUInt16).toInt16

def xcp_swap_endian_u32 (src : UInt32) : UInt32 :=
  ((src &&& 0x000000FF) <<< 24) |||
    ((src &&& 0x0000FF00) <<< 8) |||
    ((src &&& 0x00FF0000) >>> 8) |||
    ((src &&& 0xFF000000) >>> 24)

def xcp_swap_endian_32 (src : Int32) : Int32 := (xcp_swap_endian_u32 src.toUInt32).toInt32

def xcp_swap_endian_u64 (src : UInt64) : UInt64 :=
  ((src &&& 0x00000000000000FF) <<< 56) |||
    ((src &&& 0x000000000000FF00) <<< 40) |||
    ((src &&& 0x0000000000FF0000) <<< 24) |||
    ((src &&& 0x00000000FF000000) <<< 8) |||
    ((src &&& 0x000000FF00000000) >>> 8) |||
    ((src &&& 0x0000FF0000000000) >>> 24) |||
    ((src &&& 0x00FF000000000000) >>> 40) |||
    ((src &&& 0xFF00000000000000) >>> 56)

def xcp_swap_endian_64 (src : Int64) : Int64 := (xcp_swap_endian_u64 src.toUInt64).toInt64

/-! ## Conversions -/

def XCP_LITTLE_ENDIAN : ℕ := 1234

def XCP_BYTE_ORDER : ℕ := XCP_LITTLE_ENDIAN

def xcp_from_be_u16 (src : UInt16) : UInt16 :=
  if XCP_BYTE_ORDER = XCP_LITTLE_ENDIAN then xcp_swap_endian_u16 src else src

def xcp_from_be_16 (src : Int16) : Int16 := (xcp_from_be_u16 src.toUInt16).toInt16

def xcp_from_be_u32 (src : UInt32) : UInt32 :=
  if XCP_BYTE_ORDER = XCP_LITTLE_ENDIAN then xcp_swap_endian_u32 src else src

def xcp_from_be_32 (src : Int32) : Int32 := (xcp_from_be_u32 src.toUInt32).toInt32

def xcp_from_be_u64 (src : UInt64) : UInt64 :=
  if XCP_BYTE_ORDER = XCP_LITTLE_ENDIAN then xcp_swap_endian_u64 src else src

def xcp_from_be_64 (src : Int64) : Int64 := (xcp_from_be_u64 src.toUInt64).toInt64

def xcp_to_be_u16 (src : UInt16) : UInt16 := xcp_from_be_u16 src

def xcp_to_be_16 (src : Int16) : Int16 := xcp_from_be_16 src

def xcp_to_be_u32 (src : UInt32) : UInt32 := xcp_from_be_u32 src

def xcp_to_be_32 (src : Int32) : Int32 := xcp_from_be_32 src

def xcp_to_be_u64 (src : UInt64) : UInt64 := xcp_from_be_u64 src

def xcp_to_be_64 (src : Int64) : Int64 := xcp_from_be_64 src

/-! ## Bytes of the swapped words -/

/-- The shift to the right is one of a number that is not negative. -/
theorem toBitVec_swap_u16 (src : UInt16) :
    (xcp_swap_endian_u16 src).toBitVec = (swap 2 (src.toBitVec.setWidth 32)).setWidth 16 := by
  have hmsb : (src.toBitVec.setWidth 32 &&& 0xFF00#32).msb = false := by
    rw [BitVec.msb_and, show (0xFF00#32).msb = false from rfl, Bool.and_false]
  have hshift := BitVec.sshiftRight_eq_of_msb_false (s := 8) hmsb
  rw [swap_succ]
  change (_ ||| (src.toBitVec.setWidth 32 &&& 0xFF00#32).sshiftRight 8).setWidth 16 = _
  rw [hshift]
  rfl

theorem reverses_swap_u16 (src : UInt16) :
    Reverses 2 src.toBitVec (xcp_swap_endian_u16 src).toBitVec := by
  intro i hi
  rw [toBitVec_swap_u16, byte_setWidth (by omega), reverses_swap (by omega) i hi,
    byte_setWidth (by omega)]

theorem reverses_swap_u32 (src : UInt32) :
    Reverses 4 src.toBitVec (xcp_swap_endian_u32 src).toBitVec := by
  have hswap : (xcp_swap_endian_u32 src).toBitVec = swap 4 src.toBitVec := by
    rw [swap_succ]
    rfl
  rw [hswap]
  exact reverses_swap (by omega)

theorem reverses_swap_u64 (src : UInt64) :
    Reverses 8 src.toBitVec (xcp_swap_endian_u64 src).toBitVec := by
  have hswap : (xcp_swap_endian_u64 src).toBitVec = swap 8 src.toBitVec := by
    rw [swap_succ]
    rfl
  rw [hswap]
  exact reverses_swap (by omega)

/-! ## The functions of one width -/

/-- The unsigned and the signed type of one width, with the bits of their values, and the functions
on them. -/
structure Conversions (w : ℕ) where
  Unsigned : Type
  Signed : Type
  bits : Unsigned → BitVec w
  signedBits : Signed → BitVec w
  swap : Unsigned → Unsigned
  swapSigned : Signed → Signed
  fromBe : Unsigned → Unsigned
  fromBeSigned : Signed → Signed
  toBe : Unsigned → Unsigned
  toBeSigned : Signed → Signed

def conversions16 : Conversions 16 where
  Unsigned := UInt16
  Signed := Int16
  bits := UInt16.toBitVec
  signedBits := Int16.toBitVec
  swap := xcp_swap_endian_u16
  swapSigned := xcp_swap_endian_16
  fromBe := xcp_from_be_u16
  fromBeSigned := xcp_from_be_16
  toBe := xcp_to_be_u16
  toBeSigned := xcp_to_be_16

def conversions32 : Conversions 32 where
  Unsigned := UInt32
  Signed := Int32
  bits := UInt32.toBitVec
  signedBits := Int32.toBitVec
  swap := xcp_swap_endian_u32
  swapSigned := xcp_swap_endian_32
  fromBe := xcp_from_be_u32
  fromBeSigned := xcp_from_be_32
  toBe := xcp_to_be_u32
  toBeSigned := xcp_to_be_32

def conversions64 : Conversions 64 where
  Unsigned := UInt64
  Signed := Int64
  bits := UInt64.toBitVec
  signedBits := Int64.toBitVec
  swap := xcp_swap_endian_u64
  swapSigned := xcp_swap_endian_64
  fromBe := xcp_from_be_u64
  fromBeSigned := xcp_from_be_64
  toBe := xcp_to_be_u64
  toBeSigned := xcp_to_be_64

/-- What a dump has written into its block. -/
def contents (r : Except Fault (Option Block)) : Except Fault (Option (Buffer UInt8)) :=
  r.map (Option.map Block.buf)

/-- What the functions of a width of `n` bytes are for. -/
structure Conversions.Correct {w : ℕ} (n : ℕ) (F : Conversions w) : Prop where
  swap_byte : ∀ x, ∀ i < n, byte (F.bits (F.swap x)) i = byte (F.bits x) (n - 1 - i)
  swap_swap : ∀ x, F.swap (F.swap x) = x
  to_be_stored : ∀ x, littleEndian n (F.bits (F.toBe x)) = bigEndian n (F.bits x).toNat
  from_be_to_be : ∀ x, F.fromBe (F.toBe x) = x
  /-- The functions on signed integers act on the same bits. -/
  signed : ∀ s, ∃ x, F.bits x = F.signedBits s ∧
    F.signedBits (F.swapSigned s) = F.bits (F.swap x) ∧
    F.signedBits (F.fromBeSigned s) = F.bits (F.fromBe x) ∧
    F.signedBits (F.toBeSigned s) = F.bits (F.toBe x)
  /-- The dump of the one is the reversed dump of the other. -/
  dump : ∀ mem x, ∃ r,
    contents (xcp_buf_to_hex mem (littleEndian n (F.bits (F.toBe x)))) = .ok r ∧
      contents (xcp_buf_to_reverse_hex mem (littleEndian n (F.bits x))) = .ok r ∧ r.isSome = mem

theorem contents_create_false (buf : List UInt8) (reverse : Bool) :
    contents (xcp_create_hex_buf false buf reverse) = .ok none := by
  simp [xcp_create_hex_buf, malloc, contents, Except.map]

/-- The dump of the reversed bytes. -/
theorem dump_reverse {buf : List UInt8} (hne : buf ≠ [])
    (hsize : 2 * buf.length + 3 ≤ PTRDIFF_MAX) (mem : Bool) : ∃ r,
    contents (xcp_buf_to_hex mem buf.reverse) = .ok r ∧
      contents (xcp_buf_to_reverse_hex mem buf) = .ok r ∧ r.isSome = mem := by
  cases mem with
  | false => exact ⟨none, contents_create_false _ _, contents_create_false _ _, rfl⟩
  | true =>
    have halloc : malloc true (2 * buf.length + 3) ≠ none := by
      simp [malloc, hsize]
    have hsize' : 2 * buf.length + 3 < 2 ^ 64 := Nat.lt_of_le_of_lt hsize (by decide)
    obtain ⟨m', hm', hbuf', -⟩ := buf_to_reverse_hex_ok hne hsize' halloc
    rw [← List.length_reverse] at hsize' halloc
    obtain ⟨m, hm, hbuf, -⟩ := buf_to_hex_ok (by simpa using hne) hsize' halloc
    refine ⟨some m.buf, by rw [hm]; rfl, ?_, rfl⟩
    rw [hm', hbuf, ← hbuf']
    rfl

/-- **All that a width needs** is that its swap reverses the bytes, and that the other functions are
the swap up to conversion. -/
theorem Conversions.Correct.of_reverses {n w : ℕ} {F : Conversions w} (hw : w = 8 * n)
    (hn : 0 < n) (hsize : 2 * n + 3 ≤ PTRDIFF_MAX) (hbits : Function.Injective F.bits)
    (hswap : ∀ x, Reverses n (F.bits x) (F.bits (F.swap x)))
    (hfrom : F.fromBe = F.swap) (hto : F.toBe = F.swap)
    (hsigned : ∀ s, ∃ x, F.bits x = F.signedBits s ∧
      F.signedBits (F.swapSigned s) = F.bits (F.swap x) ∧
      F.signedBits (F.fromBeSigned s) = F.bits (F.fromBe x) ∧
      F.signedBits (F.toBeSigned s) = F.bits (F.toBe x)) :
    F.Correct n where
  swap_byte := hswap
  swap_swap x := hbits ((hswap x).eq (Nat.le_of_eq hw) (hswap _))
  to_be_stored x := by
    rw [hto]
    exact (hswap x).littleEndian_eq_bigEndian
  from_be_to_be x := by
    rw [hto, hfrom]
    exact hbits ((hswap x).eq (Nat.le_of_eq hw) (hswap _))
  signed := hsigned
  dump mem x := by
    rw [hto, (hswap x).littleEndian_eq_reverse]
    have hlength := length_littleEndian n (F.bits x)
    apply dump_reverse
    · exact List.ne_nil_of_length_pos (by omega)
    · omega

/-- **The conversions are correct at every width.** -/
theorem conversions_correct :
    conversions16.Correct 2 ∧ conversions32.Correct 4 ∧ conversions64.Correct 8 := by
  refine ⟨?_, ?_, ?_⟩
  · exact .of_reverses rfl (by decide) (by decide) (fun _ _ => UInt16.toBitVec_inj.1)
      reverses_swap_u16 rfl rfl fun s => ⟨s.toUInt16, rfl, rfl, rfl, rfl⟩
  · exact .of_reverses rfl (by decide) (by decide) (fun _ _ => UInt32.toBitVec_inj.1)
      reverses_swap_u32 rfl rfl fun s => ⟨s.toUInt32, rfl, rfl, rfl, rfl⟩
  · exact .of_reverses rfl (by decide) (by decide) (fun _ _ => UInt64.toBitVec_inj.1)
      reverses_swap_u64 rfl rfl fun s => ⟨s.toUInt64, rfl, rfl, rfl, rfl⟩

end XcpNgGeneric.Endian
