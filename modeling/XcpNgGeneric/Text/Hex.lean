import Mathlib.Data.Nat.Digits.Defs
import XcpNgGeneric.Memory.Format

/-!
# Hexadecimal dumps

`xcp_create_hex_buf` of `string.c`. The bytes of the buffer are followed by a cursor that moves up
through the allocated block, or down from its end if the dump is reversed; every store into the
block is recorded with its offset.

## Main results

* `forwardLoop_ok`, `reverseLoop_ok`: each loop writes the digits of the bytes that are left, in
  the order of the bytes or in the reverse order, between the prefix and the terminator.
* `hex_dump_faithful`: both dumps are complete strings that decode to the buffer, and what the
  reversed one is a numeral of.
-/

namespace XcpNgGeneric.Text

open Memory

/-! ## The function -/

/-- A block of memory, and the offsets of the bytes that have been stored in it, in order. -/
structure Block where
  buf : Buffer UInt8
  writes : List ℕ

/-- The bytes `xs` are stored at the pointer `pos` into the block, and after it. -/
def Block.put (m : Block) (pos : ℤ) (xs : List UInt8) : Except Fault Block :=
  if pos < 0 then .error .outOfBounds
  else do
    let buf ← store m.buf pos.toNat xs
    pure ⟨buf, m.writes ++ List.range' pos.toNat xs.length⟩

/-- `prefix`, without its terminator. -/
def hexPrefix : List UInt8 := ascii ['0', 'x']

/-- `hex`, without its terminator. -/
def hex : List UInt8 :=
  ascii ['0', '1', '2', '3', '4', '5', '6', '7', '8', '9', 'A', 'B', 'C', 'D', 'E', 'F']

/-- `hex[i]`. -/
def hexDigit (i : UInt8) : UInt8 := hex.getD i.toNat NUL

/-- The loop with `reverse`, over the bytes that are left. -/
def reverseLoop : List UInt8 → ℤ → Block → Except Fault Block
  | [], _, m => pure m
  | byte :: bytes, pos, m => do
    let m ← m.put pos [hexDigit (byte &&& 0xF)]
    let m ← m.put (pos - 1) [hexDigit (byte >>> 4)]
    reverseLoop bytes (pos - 2) m

/-- The loop without `reverse`. -/
def forwardLoop : List UInt8 → ℤ → Block → Except Fault Block
  | [], _, m => pure m
  | byte :: bytes, pos, m => do
    let m ← m.put pos [hexDigit (byte >>> 4)]
    let m ← m.put (pos + 1) [hexDigit (byte &&& 0xF)]
    forwardLoop bytes (pos + 2) m

def xcp_create_hex_buf (mem : Bool) (buf : List UInt8) (reverse : Bool) :
    Except Fault (Option Block) :=
  let count := buf.length
  if count = 0 then .ok none
  else
    let prefixSize := hexPrefix.length
    let hexBufSize := sizeT (prefixSize + count * 2 + 1)
    match malloc mem hexBufSize with
    | none => .ok none
    | some hexBuf => do
      let m : Block := ⟨hexBuf, []⟩
      let m ← m.put 0 hexPrefix
      let m ← m.put (hexBufSize - 1) [NUL]
      let m ← if reverse then reverseLoop buf (hexBufSize - 2) m
        else forwardLoop buf prefixSize m
      pure (some m)

def xcp_buf_to_hex (mem : Bool) (buf : List UInt8) : Except Fault (Option Block) :=
  xcp_create_hex_buf mem buf false

def xcp_buf_to_reverse_hex (mem : Bool) (buf : List UInt8) : Except Fault (Option Block) :=
  xcp_create_hex_buf mem buf true

/-! ## What a dump denotes -/

/-- The value of an upper-case hexadecimal digit. -/
def digitValue (d : UInt8) : Option ℕ :=
  if 48 ≤ d ∧ d ≤ 57 then some (d.toNat - 48)
  else if 65 ≤ d ∧ d ≤ 70 then some (d.toNat - 55)
  else none

/-- The bytes denoted by pairs of digits, from left to right. -/
def decode : List UInt8 → Option (List UInt8)
  | [] => some []
  | [_] => none
  | high :: low :: ds => do
    let h ← digitValue high
    let l ← digitValue low
    let bytes ← decode ds
    return UInt8.ofNat (16 * h + l) :: bytes

/-- The natural number denoted by a numeral in base 16. -/
def hexValue (ds : List UInt8) : Option ℕ := do
  let values ← ds.mapM digitValue
  return Nat.ofDigits 16 values.reverse

/-- The digits of one byte. -/
def digits (byte : UInt8) : List UInt8 := [hexDigit (byte >>> 4), hexDigit (byte &&& 0xF)]

/-- The block for a buffer of `count` bytes is filled by writing each of its bytes once, and holds
the string of `0x` and the digits `ds`. -/
structure IsDump (m : Block) (count : ℕ) (ds : List UInt8) : Prop where
  size : m.buf.length = 2 * count + 3
  once : m.writes.Perm (List.range m.buf.length)
  string : ∃ s : CString, s.bytes = hexPrefix ++ ds ∧ m.buf = s.image.map some
  length : ds.length = 2 * count
  upper : ∀ d ∈ ds, d ∈ hex

/-! ## The loops -/

theorem Block.put_ok {m : Block} {off : ℕ} {xs : List UInt8} {b : Buffer UInt8}
    (h : m.buf.write off xs = some b) :
    m.put off xs = .ok ⟨b, m.writes ++ List.range' off xs.length⟩ := by
  rw [Block.put, if_neg (by omega), Int.toNat_natCast, store, h]
  rfl

/-- Two for each byte. -/
theorem length_pairs {α : Type} {f : UInt8 → List α} (hf : ∀ byte, (f byte).length = 2)
    (bytes : List UInt8) : (bytes.flatMap f).length = 2 * bytes.length := by
  induction bytes with
  | nil => rfl
  | cons byte bytes ih =>
    rw [List.flatMap_cons, List.length_append, ih, hf, List.length_cons]
    omega

theorem length_digits (bytes : List UInt8) : (bytes.flatMap digits).length = 2 * bytes.length :=
  length_pairs (fun _ => rfl) bytes

theorem Block.put_one (m : Block) {off : ℕ} (x : UInt8) (h : off < m.buf.length) :
    ∃ b, m.buf.write off [x] = some b ∧ m.put off [x] = .ok ⟨b, m.writes ++ [off]⟩ ∧
      b.length = m.buf.length := by
  obtain ⟨b, hb⟩ := Buffer.write_isSome (b := m.buf) off [x] h
  exact ⟨b, hb, Block.put_ok hb, (Buffer.length_write hb).2⟩

/-- The cursor moves up from `off`. -/
theorem forwardLoop_ok (bytes : List UInt8) (off : ℕ) (m : Block)
    (h : off + 2 * bytes.length ≤ m.buf.length) :
    ∃ b, m.buf.write off (bytes.flatMap digits) = some b ∧ forwardLoop bytes off m =
      .ok ⟨b, m.writes ++ List.range' off (2 * bytes.length)⟩ := by
  induction bytes generalizing off m with
  | nil => exact ⟨m.buf, Buffer.write_nil h, by simp [forwardLoop, pure, Except.pure]⟩
  | cons byte bytes ih =>
    rw [List.length_cons] at h
    have hoff : off < m.buf.length := by omega
    obtain ⟨b₁, h₁, hput₁, hlen₁⟩ := Block.put_one m (hexDigit (byte >>> 4)) hoff
    have hoff' : off + 1 < b₁.length := by omega
    obtain ⟨b₂, h₂, hput₂, hlen₂⟩ :=
      Block.put_one ⟨b₁, m.writes ++ [off]⟩ (hexDigit (byte &&& 0xF)) hoff'
    obtain ⟨b, hb, hloop⟩ := ih (off + 2) ⟨b₂, m.writes ++ [off] ++ [off + 1]⟩
      (by simp only at hlen₂ ⊢; omega)
    refine ⟨b, Buffer.write_after (Buffer.write_after h₁ h₂) hb, ?_⟩
    rw [Nat.cast_succ] at hput₂
    rw [forwardLoop, hput₁, ok_bind, hput₂, ok_bind]
    push_cast at hloop
    rw [hloop, List.append_assoc, List.append_assoc]
    rfl

/-- The cursor moves down to `off`. -/
theorem reverseLoop_ok (bytes : List UInt8) (off : ℕ) (m : Block)
    (h : off + 2 * bytes.length ≤ m.buf.length) :
    ∃ b, m.buf.write off (bytes.reverse.flatMap digits) = some b ∧
      reverseLoop bytes ((off + 2 * bytes.length : ℕ) - 1) m =
        .ok ⟨b, m.writes ++ (List.range' off (2 * bytes.length)).reverse⟩ := by
  induction bytes generalizing m with
  | nil => exact ⟨m.buf, Buffer.write_nil h, by simp [reverseLoop, pure, Except.pure]⟩
  | cons byte bytes ih =>
    have hlength : 2 * (byte :: bytes).length = 2 * bytes.length + 1 + 1 := by
      rw [List.length_cons]
      omega
    rw [hlength] at h ⊢
    have hoff : off + 2 * bytes.length + 1 < m.buf.length := by omega
    obtain ⟨b₁, h₁, hput₁, hlen₁⟩ := Block.put_one m (hexDigit (byte &&& 0xF)) hoff
    have hoff' : off + 2 * bytes.length < b₁.length := by omega
    obtain ⟨b₂, h₂, hput₂, hlen₂⟩ :=
      Block.put_one ⟨b₁, m.writes ++ [off + 2 * bytes.length + 1]⟩ (hexDigit (byte >>> 4)) hoff'
    obtain ⟨b, hb, hloop⟩ :=
      ih ⟨b₂, m.writes ++ [off + 2 * bytes.length + 1] ++ [off + 2 * bytes.length]⟩
        (by simp only at hlen₂ ⊢; omega)
    have hpair : m.buf.write (off + 2 * bytes.length) (digits byte) = some b₂ :=
      Buffer.write_before h₁ h₂
    refine ⟨b, ?_, ?_⟩
    · rw [List.reverse_cons, List.flatMap_append, List.flatMap_singleton]
      refine Buffer.write_before ?_ hb
      rwa [length_digits, List.length_reverse]
    · have hpos : ((off + (2 * bytes.length + 1 + 1) : ℕ) : ℤ) - 1 =
          (off + 2 * bytes.length + 1 : ℕ) := by omega
      have hpos' : ((off + 2 * bytes.length + 1 : ℕ) : ℤ) - 1 = (off + 2 * bytes.length : ℕ) := by
        omega
      have hpos'' : ((off + 2 * bytes.length + 1 : ℕ) : ℤ) - 2 =
          (off + 2 * bytes.length : ℕ) - 1 := by omega
      rw [reverseLoop, hpos, hput₁, ok_bind, hpos', hput₂, ok_bind, hpos'', hloop,
        List.range'_1_concat, List.range'_1_concat, List.reverse_append, List.reverse_append]
      simp [Nat.add_assoc]

/-! ## The block -/

/-- The order in which the bytes of a block with `n` digits are written: the prefix, the
terminator, and the digits in the order `ws`. -/
def offsets (n : ℕ) (ws : List ℕ) : List ℕ := [0, 1] ++ [2 + n] ++ ws

/-- Each byte of the block is written once. -/
theorem offsets_perm {n : ℕ} {ws : List ℕ} (h : ws.Perm (List.range' 2 n)) :
    (offsets n ws).Perm (List.range (n + 3)) := by
  have hrange : List.range (n + 3) = [0, 1] ++ (List.range' 2 n ++ [2 + n]) := by
    rw [List.range_eq_range', ← List.range'_1_concat, show n + 3 = 2 + (n + 1) by omega,
      ← List.range'_append_1]
    rfl
  rw [hrange, offsets, List.append_assoc]
  exact (List.perm_append_comm.trans (h.append_right _)).append_left _

/-- The three parts of the block fit together. -/
theorem create_ok {mem reverse : Bool} {buf ds : List UInt8} {ws : List ℕ} (hne : buf ≠ [])
    (hsize : 2 * buf.length + 3 < 2 ^ 64) (halloc : malloc mem (2 * buf.length + 3) ≠ none)
    (hds : ds.length = 2 * buf.length)
    (hloop : ∀ m : Block, 2 + 2 * buf.length ≤ m.buf.length →
      ∃ b, m.buf.write 2 ds = some b ∧
        (if reverse then reverseLoop buf ((2 + 2 * buf.length : ℕ) - 1) m
          else forwardLoop buf (2 : ℕ) m) = .ok ⟨b, m.writes ++ ws⟩) :
    xcp_create_hex_buf mem buf reverse =
      .ok (some ⟨(hexPrefix ++ ds ++ [NUL]).map some, offsets (2 * buf.length) ws⟩) := by
  have hsizeT : sizeT (hexPrefix.length + buf.length * 2 + 1) = 2 * buf.length + 3 := by
    rw [sizeT, Nat.mod_eq_of_lt] <;> simp only [hexPrefix, ascii, List.length_map,
      List.length_cons, List.length_nil] <;> omega
  have hmalloc : malloc mem (2 * buf.length + 3) = some (Buffer.fresh (2 * buf.length + 3)) := by
    unfold malloc at halloc ⊢
    split at halloc
    next h => rw [if_pos h]
    next => exact absurd rfl halloc
  -- the prefix at the beginning, the terminator at the end
  obtain ⟨b₁, h₁⟩ := Buffer.write_isSome (b := (Buffer.fresh (2 * buf.length + 3) : Buffer UInt8))
    0 hexPrefix (by rw [Buffer.length_fresh]; simp [hexPrefix, ascii])
  have hlen₁ := (Buffer.length_write h₁).2
  rw [Buffer.length_fresh] at hlen₁
  have hput₁ := Block.put_ok (m := ⟨Buffer.fresh (2 * buf.length + 3), []⟩) h₁
  have hlast : 2 + 2 * buf.length < b₁.length := by omega
  obtain ⟨b₂, h₂, hput₂, hlen₂⟩ := Block.put_one ⟨b₁, [0, 1]⟩ NUL hlast
  obtain ⟨b₃, h₃, hrun⟩ := hloop ⟨b₂, [0, 1] ++ [2 + 2 * buf.length]⟩
    (by simp only at hlen₂ ⊢; omega)
  -- all of it is one write
  have hall : (Buffer.fresh (2 * buf.length + 3)).write 0 (hexPrefix ++ (ds ++ [NUL])) = some b₃ :=
    Buffer.write_after h₁ (Buffer.write_before (hds ▸ h₂) h₃)
  have hfull : b₃ = (hexPrefix ++ ds ++ [NUL]).map some := by
    rw [List.append_assoc]
    apply (Buffer.Holds.of_write hall).eq_map
    rw [(Buffer.length_write hall).2, Buffer.length_fresh]
    simp [hexPrefix, ascii, hds]
  have hcount : buf.length ≠ 0 := fun h => hne (List.length_eq_zero_iff.1 h)
  have hpos : ((2 * buf.length + 3 : ℕ) : ℤ) - 1 = (2 + 2 * buf.length : ℕ) := by omega
  have hpos' : ((2 * buf.length + 3 : ℕ) : ℤ) - 2 = (2 + 2 * buf.length : ℕ) - 1 := by omega
  simp only [xcp_create_hex_buf, hcount, if_false, hsizeT, hmalloc]
  rw [← Nat.cast_zero, hput₁, ok_bind, hpos]
  change Block.put ⟨b₁, [0, 1]⟩ _ _ >>= _ = _
  rw [hput₂, ok_bind]
  rw [hpos', ← hfull]
  cases reverse with
  | true =>
    simp only [if_true] at hrun ⊢
    rw [hrun]
    rfl
  | false =>
    simp only [Bool.false_eq_true, if_false] at hrun ⊢
    rw [show forwardLoop buf hexPrefix.length _ = _ from hrun]
    rfl

/-! ## The digits -/

theorem toNat_high (byte : UInt8) : (byte >>> 4).toNat = byte.toNat / 16 := by
  rw [UInt8.toNat_shiftRight]
  exact Nat.shiftRight_eq_div_pow byte.toNat 4

theorem toNat_low (byte : UInt8) : (byte &&& 0xF).toNat = byte.toNat % 16 := by
  rw [UInt8.toNat_and]
  exact Nat.and_two_pow_sub_one_eq_mod byte.toNat 4

theorem digitValue_hexDigit {i : UInt8} (hi : i.toNat < 16) :
    digitValue (hexDigit i) = some i.toNat := by
  have hall : ∀ n < 16, digitValue (hex.getD n NUL) = some n := by decide
  exact hall i.toNat hi

theorem hexDigit_mem {i : UInt8} (hi : i.toNat < 16) : hexDigit i ∈ hex := by
  have hall : ∀ n < 16, hex.getD n NUL ∈ hex := by decide
  exact hall i.toNat hi

/-- Both halves of a byte are digits. -/
theorem toNat_high_lt (byte : UInt8) : (byte >>> 4).toNat < 16 := by
  have := byte.toNat_lt
  rw [toNat_high]
  omega

theorem toNat_low_lt (byte : UInt8) : (byte &&& 0xF).toNat < 16 := by
  rw [toNat_low]
  omega

theorem upper_digits {bytes : List UInt8} {d : UInt8} (hd : d ∈ bytes.flatMap digits) :
    d ∈ hex := by
  obtain ⟨byte, -, hd⟩ := List.mem_flatMap.1 hd
  rcases List.mem_pair.1 hd with rfl | rfl
  · exact hexDigit_mem (toNat_high_lt byte)
  · exact hexDigit_mem (toNat_low_lt byte)

/-- **Decoding gives back the bytes.** -/
theorem decode_digits (bytes : List UInt8) : decode (bytes.flatMap digits) = some bytes := by
  induction bytes with
  | nil => rfl
  | cons byte bytes ih =>
    have hbyte : UInt8.ofNat (16 * (byte >>> 4).toNat + (byte &&& 0xF).toNat) = byte := by
      rw [toNat_high, toNat_low, Nat.div_add_mod, UInt8.ofNat_toNat]
    change decode (hexDigit (byte >>> 4) :: hexDigit (byte &&& 0xF) :: bytes.flatMap digits) = _
    simp only [decode, digitValue_hexDigit (toNat_high_lt byte),
      digitValue_hexDigit (toNat_low_lt byte), ih, hbyte, Option.pure_def, Option.bind_eq_bind,
      Option.bind_some]

/-- The values of the digits of a byte. -/
def halves (byte : UInt8) : List ℕ := [byte.toNat / 16, byte.toNat % 16]

theorem mapM_digitValue (bytes : List UInt8) :
    (bytes.flatMap digits).mapM digitValue = some (bytes.flatMap halves) := by
  induction bytes with
  | nil => rfl
  | cons byte bytes ih =>
    change (hexDigit (byte >>> 4) :: hexDigit (byte &&& 0xF) :: bytes.flatMap digits).mapM _ = _
    simp only [List.mapM_cons, digitValue_hexDigit (toNat_high_lt byte),
      digitValue_hexDigit (toNat_low_lt byte), ih, toNat_high, toNat_low, Option.pure_def,
      Option.bind_eq_bind, Option.bind_some]
    rfl

/-- A numeral in base 16 with two digits for each byte is one in base 256. -/
theorem ofDigits_halves (bytes : List UInt8) :
    Nat.ofDigits 16 (bytes.flatMap halves).reverse =
      Nat.ofDigits 256 (bytes.map UInt8.toNat).reverse := by
  induction bytes with
  | nil => rfl
  | cons byte bytes ih =>
    have hlength := length_pairs (f := halves) (fun _ => rfl) bytes
    rw [List.flatMap_cons, List.reverse_append, Nat.ofDigits_append, ih, List.map_cons,
      List.reverse_cons, Nat.ofDigits_append]
    simp only [List.length_reverse, hlength, List.length_map, pow_mul]
    simp [halves, Nat.ofDigits_cons, Nat.mod_add_div]

theorem hexValue_digits (bytes : List UInt8) :
    hexValue (bytes.flatMap digits) = some (Nat.ofDigits 256 (bytes.map UInt8.toNat).reverse) := by
  rw [hexValue, mapM_digitValue]
  exact congrArg some (ofDigits_halves bytes)

/-! ## The dumps -/

/-- The block that a dump of `bytes` fills. -/
theorem isDump {bytes : List UInt8} {ws : List ℕ} {m : Block}
    (hm : m = ⟨(hexPrefix ++ bytes.flatMap digits ++ [NUL]).map some,
      offsets (2 * bytes.length) ws⟩)
    (hws : ws.Perm (List.range' 2 (2 * bytes.length)))
    (hfits : 2 * bytes.length + 3 ≤ PTRDIFF_MAX) :
    IsDump m bytes.length (bytes.flatMap digits) := by
  have hprefix : hexPrefix.length = 2 := rfl
  have hsize : m.buf.length = 2 * bytes.length + 3 := by
    rw [hm]
    simp only [List.length_map, List.length_append, List.length_singleton, length_digits, hprefix]
    omega
  have hnul : NUL ∉ hexPrefix ++ bytes.flatMap digits := fun hmem => by
    rcases List.mem_append.1 hmem with h | h
    · exact absurd h (by decide)
    · exact absurd (upper_digits h) (by decide)
  refine ⟨hsize, ?_, ⟨⟨_, hnul, ?_⟩, rfl, by rw [hm]; rfl⟩, length_digits bytes,
    fun d => upper_digits⟩
  · rw [hsize, hm]
    exact offsets_perm hws
  · rw [List.length_append, length_digits, hprefix]
    omega

section Dumps

variable {mem : Bool} {buf : List UInt8}

theorem fits_of_malloc {n : ℕ} (h : malloc mem n ≠ none) : n ≤ PTRDIFF_MAX := by
  unfold malloc at h
  split at h
  next hfits => simpa using (Bool.and_eq_true_iff.1 hfits).2
  next => exact absurd rfl h

theorem buf_to_hex_ok (hne : buf ≠ []) (hsize : 2 * buf.length + 3 < 2 ^ 64)
    (halloc : malloc mem (2 * buf.length + 3) ≠ none) :
    ∃ m, xcp_buf_to_hex mem buf = .ok (some m) ∧
      m.buf = (hexPrefix ++ buf.flatMap digits ++ [NUL]).map some ∧
      IsDump m buf.length (buf.flatMap digits) :=
  ⟨_, create_ok hne hsize halloc (length_digits buf) fun m => forwardLoop_ok buf 2 m, rfl,
    isDump rfl (.refl _) (fits_of_malloc halloc)⟩

theorem buf_to_reverse_hex_ok (hne : buf ≠ []) (hsize : 2 * buf.length + 3 < 2 ^ 64)
    (halloc : malloc mem (2 * buf.length + 3) ≠ none) :
    ∃ m, xcp_buf_to_reverse_hex mem buf = .ok (some m) ∧
      m.buf = (hexPrefix ++ buf.reverse.flatMap digits ++ [NUL]).map some ∧
      IsDump m buf.length (buf.reverse.flatMap digits) := by
  have hlength := length_digits buf.reverse
  rw [List.length_reverse] at hlength
  refine ⟨_, create_ok hne hsize halloc hlength fun m => reverseLoop_ok buf 2 m, rfl, ?_⟩
  rw [← @List.length_reverse _ buf]
  apply isDump rfl
  · rw [List.length_reverse]
    exact List.reverse_perm _
  · rw [List.length_reverse]
    exact fits_of_malloc halloc

/-- **Hexadecimal dumps are faithful.** Each fills its block and nothing else, byte by byte; the
digits of the one decode to the buffer, those of the other to the reversed buffer, so that the
latter is the dump of the reversed buffer and a numeral of the little-endian value. -/
theorem hex_dump_faithful (hne : buf ≠ []) (hsize : 2 * buf.length + 3 < 2 ^ 64)
    (halloc : malloc mem (2 * buf.length + 3) ≠ none) :
    ∃ m m' m'' ds ds', xcp_buf_to_hex mem buf = .ok (some m) ∧
      xcp_buf_to_reverse_hex mem buf = .ok (some m') ∧
      xcp_buf_to_hex mem buf.reverse = .ok (some m'') ∧
      IsDump m buf.length ds ∧ decode ds = some buf ∧
      IsDump m' buf.length ds' ∧ decode ds' = some buf.reverse ∧
      m'.buf = m''.buf ∧ hexValue ds' = some (Nat.ofDigits 256 (buf.map UInt8.toNat)) := by
  obtain ⟨m, hm, -, hdump⟩ := buf_to_hex_ok hne hsize halloc
  obtain ⟨m', hm', hbuf', hdump'⟩ := buf_to_reverse_hex_ok hne hsize halloc
  rw [← @List.length_reverse _ buf] at hsize halloc
  obtain ⟨m'', hm'', hbuf'', -⟩ := buf_to_hex_ok (by simpa using hne) hsize halloc
  refine ⟨m, m', m'', _, _, hm, hm', hm'', hdump, decode_digits buf, hdump',
    decode_digits buf.reverse, hbuf'.trans hbuf''.symm, ?_⟩
  rw [hexValue_digits, ← List.map_reverse, List.reverse_reverse]

/-- The reversed dump of two bytes is a numeral of `0xAB12`. -/
theorem reverse_hex_two_bytes : ∃ m' ds',
    xcp_buf_to_reverse_hex true [0x12, 0xAB] = .ok (some m') ∧ IsDump m' 2 ds' ∧
      hexValue ds' = some 0xAB12 := by
  obtain ⟨-, m', -, -, ds', -, hm', -, -, -, hdump', -, -, hvalue⟩ :=
    @hex_dump_faithful true [0x12, 0xAB] (by decide) (by decide) (by decide)
  exact ⟨m', ds', hm', hdump', hvalue⟩

example : xcp_buf_to_reverse_hex true [0x12, 0xAB] =
    .ok (some ⟨(ascii ['0', 'x', 'A', 'B', '1', '2'] ++ [NUL]).map some, [0, 1, 6, 5, 4, 3, 2]⟩) :=
  rfl

end Dumps

end XcpNgGeneric.Text
