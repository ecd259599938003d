import XcpNgGeneric.Endian.Conversions
import XcpNgGeneric.Foundations.Rearrange
import XcpNgGeneric.Memory.Addressed

/-!
# Conversions in place

The functions of `endian.h` that convert the integer at a pointer, and records whose fields are
converted one after another. A conversion from or to big endian reverses the bytes of its field; one
from or to little endian leaves them. A field may have any address, since accesses of the target,
x86, need no alignment.

## Main results

* `from_p_ok`, `to_p_eq_from_p`: what one conversion does to memory.
* `record_round_trip`: a record that is encoded and decoded field by field, in any orders.
-/

namespace XcpNgGeneric.Endian

open Bytes Memory Rearrange

/-! ## The little endian -/

def XCP_BIG_ENDIAN : ℕ := 4321

def xcp_from_le_u16 (src : UInt16) : UInt16 :=
  if XCP_BYTE_ORDER = XCP_BIG_ENDIAN then xcp_swap_endian_u16 src else src

def xcp_from_le_16 (src : Int16) : Int16 := (xcp_from_le_u16 src.toUInt16).toInt16

def xcp_from_le_u32 (src : UInt32) : UInt32 :=
  if XCP_BYTE_ORDER = XCP_BIG_ENDIAN then xcp_swap_endian_u32 src else src

def xcp_from_le_32 (src : Int32) : Int32 := (xcp_from_le_u32 src.toUInt32).toInt32

def xcp_from_le_u64 (src : UInt64) : UInt64 :=
  if XCP_BYTE_ORDER = XCP_BIG_ENDIAN then xcp_swap_endian_u64 src else src

def xcp_from_le_64 (src : Int64) : Int64 := (xcp_from_le_u64 src.toUInt64).toInt64

/-! ## Integers in memory -/

/-- `*src = f(*src)`, for a type of `n` bytes: the value, and the memory. -/
def convertAt {T : Type} {w : ℕ} (n : ℕ) (ofBits : BitVec w → T) (bits : T → BitVec w) (f : T → T)
    (src : ℕ) (m : Addressed) : Except Fault (T × Addressed) := do
  let x ← m.loadWord src n w
  let y := f (ofBits x)
  let m ← m.storeWord src n (bits y)
  pure (y, m)

def xcp_from_le_u16_p (src : ℕ) : Addressed → Except Fault (UInt16 × Addressed) :=
  convertAt 2 UInt16.ofBitVec UInt16.toBitVec xcp_from_le_u16 src

def xcp_from_le_16_p (src : ℕ) : Addressed → Except Fault (Int16 × Addressed) :=
  convertAt 2 Int16.ofBitVec Int16.toBitVec xcp_from_le_16 src

def xcp_from_le_u32_p (src : ℕ) : Addressed → Except Fault (UInt32 × Addressed) :=
  convertAt 4 UInt32.ofBitVec UInt32.toBitVec xcp_from_le_u32 src

def xcp_from_le_32_p (src : ℕ) : Addressed → Except Fault (Int32 × Addressed) :=
  convertAt 4 Int32.ofBitVec Int32.toBitVec xcp_from_le_32 src

def xcp_from_le_u64_p (src : ℕ) : Addressed → Except Fault (UInt64 × Addressed) :=
  convertAt 8 UInt64.ofBitVec UInt64.toBitVec xcp_from_le_u64 src

def xcp_from_le_64_p (src : ℕ) : Addressed → Except Fault (Int64 × Addressed) :=
  convertAt 8 Int64.ofBitVec Int64.toBitVec xcp_from_le_64 src

def xcp_from_be_u16_p (src : ℕ) : Addressed → Except Fault (UInt16 × Addressed) :=
  convertAt 2 UInt16.ofBitVec UInt16.toBitVec xcp_from_be_u16 src

def xcp_from_be_16_p (src : ℕ) : Addressed → Except Fault (Int16 × Addressed) :=
  convertAt 2 Int16.ofBitVec Int16.toBitVec xcp_from_be_16 src

def xcp_from_be_u32_p (src : ℕ) : Addressed → Except Fault (UInt32 × Addressed) :=
  convertAt 4 UInt32.ofBitVec UInt32.toBitVec xcp_from_be_u32 src

def xcp_from_be_32_p (src : ℕ) : Addressed → Except Fault (Int32 × Addressed) :=
  convertAt 4 Int32.ofBitVec Int32.toBitVec xcp_from_be_32 src

def xcp_from_be_u64_p (src : ℕ) : Addressed → Except Fault (UInt64 × Addressed) :=
  convertAt 8 UInt64.ofBitVec UInt64.toBitVec xcp_from_be_u64 src

def xcp_from_be_64_p (src : ℕ) : Addressed → Except Fault (Int64 × Addressed) :=
  convertAt 8 Int64.ofBitVec Int64.toBitVec xcp_from_be_64 src

def xcp_to_le_u16_p := xcp_from_le_u16_p
def xcp_to_le_16_p := xcp_from_le_16_p
def xcp_to_le_u32_p := xcp_from_le_u32_p
def xcp_to_le_32_p := xcp_from_le_32_p
def xcp_to_le_u64_p := xcp_from_le_u64_p
def xcp_to_le_64_p := xcp_from_le_64_p
def xcp_to_be_u16_p := xcp_from_be_u16_p
def xcp_to_be_16_p := xcp_from_be_16_p
def xcp_to_be_u32_p := xcp_from_be_u32_p
def xcp_to_be_32_p := xcp_from_be_32_p
def xcp_to_be_u64_p := xcp_from_be_u64_p
def xcp_to_be_64_p := xcp_from_be_64_p

/-! ## Records -/

inductive Width
  | w16
  | w32
  | w64

inductive Order
  | little
  | big

/-- A field of a record: an integer at its address, with the byte order of the encoded record. -/
structure Field where
  addr : ℕ
  width : Width
  signed : Bool
  order : Order

namespace Field

/-- The size of the field. -/
def size (x : Field) : ℕ :=
  match x.width with
  | .w16 => 2
  | .w32 => 4
  | .w64 => 8

/-- The bytes of the field. -/
def Bytes (x : Field) : ℕ → Prop := Span x.addr x.size

/-- The field is decoded, by the function for its type and byte order. -/
def from_p (x : Field) (m : Addressed) : Except Fault Addressed :=
  match x.width, x.signed, x.order with
  | .w16, false, .little => Prod.snd <$> xcp_from_le_u16_p x.addr m
  | .w16, true, .little => Prod.snd <$> xcp_from_le_16_p x.addr m
  | .w32, false, .little => Prod.snd <$> xcp_from_le_u32_p x.addr m
  | .w32, true, .little => Prod.snd <$> xcp_from_le_32_p x.addr m
  | .w64, false, .little => Prod.snd <$> xcp_from_le_u64_p x.addr m
  | .w64, true, .little => Prod.snd <$> xcp_from_le_64_p x.addr m
  | .w16, false, .big => Prod.snd <$> xcp_from_be_u16_p x.addr m
  | .w16, true, .big => Prod.snd <$> xcp_from_be_16_p x.addr m
  | .w32, false, .big => Prod.snd <$> xcp_from_be_u32_p x.addr m
  | .w32, true, .big => Prod.snd <$> xcp_from_be_32_p x.addr m
  | .w64, false, .big => Prod.snd <$> xcp_from_be_u64_p x.addr m
  | .w64, true, .big => Prod.snd <$> xcp_from_be_64_p x.addr m

/-- The field is encoded. -/
def to_p (x : Field) (m : Addressed) : Except Fault Addressed :=
  match x.width, x.signed, x.order with
  | .w16, false, .little => Prod.snd <$> xcp_to_le_u16_p x.addr m
  | .w16, true, .little => Prod.snd <$> xcp_to_le_16_p x.addr m
  | .w32, false, .little => Prod.snd <$> xcp_to_le_u32_p x.addr m
  | .w32, true, .little => Prod.snd <$> xcp_to_le_32_p x.addr m
  | .w64, false, .little => Prod.snd <$> xcp_to_le_u64_p x.addr m
  | .w64, true, .little => Prod.snd <$> xcp_to_le_64_p x.addr m
  | .w16, false, .big => Prod.snd <$> xcp_to_be_u16_p x.addr m
  | .w16, true, .big => Prod.snd <$> xcp_to_be_16_p x.addr m
  | .w32, false, .big => Prod.snd <$> xcp_to_be_u32_p x.addr m
  | .w32, true, .big => Prod.snd <$> xcp_to_be_32_p x.addr m
  | .w64, false, .big => Prod.snd <$> xcp_to_be_u64_p x.addr m
  | .w64, true, .big => Prod.snd <$> xcp_to_be_64_p x.addr m

/-- The bytes of the field can be accessed. -/
def Mapped (x : Field) (m : Addressed) : Prop := ∀ i < x.size, m (x.addr + i) ≠ none

/-- The fields do not overlap. -/
def Apart (x y : Field) : Prop := x.addr + x.size ≤ y.addr ∨ y.addr + y.size ≤ x.addr

instance (x : Field) (m : Addressed) : Decidable (x.Mapped m) :=
  inferInstanceAs (Decidable (∀ i < x.size, m (x.addr + i) ≠ none))

instance (x y : Field) : Decidable (x.Apart y) := inferInstanceAs (Decidable (_ ∨ _))

/-- How a value of the field is encoded. -/
def encoding (x : Field) (v : BitVec (8 * x.size)) : List UInt8 :=
  match x.order with
  | .little => littleEndian x.size v
  | .big => bigEndian x.size v.toNat

/-- Where the bytes of an encoded field come from. -/
def move (x : Field) : ℕ → ℕ :=
  match x.order with
  | .little => id
  | .big => mirror x.addr x.size

end Field

/-- The fields are converted one after another. -/
def convertAll (step : Field → Addressed → Except Fault Addressed) :
    List Field → Addressed → Except Fault Addressed
  | [], m => .ok m
  | x :: xs, m => do
    let m ← step x m
    convertAll step xs m

/-! ## One conversion -/

section Convert

variable {T : Type} {w n src : ℕ} {ofBits : BitVec w → T} {bits : T → BitVec w} {f : T → T}
  {m : Addressed}

/-- What is stored is the converted value. -/
theorem convertAt_ok (h : ∀ i < n, m (src + i) ≠ none) :
    ∃ bs : List UInt8, bs.length = n ∧ m.Holds src bs ∧
      Prod.snd <$> convertAt n ofBits bits f src m =
        .ok fun i => if src ≤ i ∧ i < src + n then
          some (byte (bits (f (ofBits (word w bs)))) (i - src)) else m i := by
  obtain ⟨bs, rfl, hbs⟩ := Addressed.exists_holds h
  refine ⟨bs, rfl, hbs, ?_⟩
  have hstore := Addressed.storeWord_ok hbs (bits (f (ofBits (word w bs))))
  rw [convertAt, Addressed.loadWord_ok hbs, ok_bind]
  change Prod.snd <$> (m.storeWord src bs.length (bits (f (ofBits (word w bs)))) >>= _) = _
  rw [hstore]
  rfl

/-- A conversion that keeps the value keeps the memory. -/
theorem convertAt_same (hw : 8 * n ≤ w) (hbits : ∀ x, bits (ofBits x) = x)
    (hf : ∀ y, bits (f y) = bits y) (h : ∀ i < n, m (src + i) ≠ none) :
    Prod.snd <$> convertAt n ofBits bits f src m = .ok m := by
  obtain ⟨bs, rfl, hbs, hrun⟩ := @convertAt_ok _ _ _ _ ofBits bits f _ h
  rw [hrun]
  congr 1
  funext i
  split
  next hi =>
    obtain ⟨k, rfl⟩ := Nat.exists_eq_add_of_le hi.1
    have hk : k < bs.length := by omega
    rw [hf, hbits, Nat.add_sub_cancel_left, byte_word hw hk, hbs k hk]
  next => rfl

/-- A conversion that reverses the bytes of the value reverses them in memory. -/
theorem convertAt_reversed (hw : 8 * n ≤ w) (hbits : ∀ x, bits (ofBits x) = x)
    (hf : ∀ y, Reverses n (bits y) (bits (f y))) (h : ∀ i < n, m (src + i) ≠ none) :
    Prod.snd <$> convertAt n ofBits bits f src m = .ok (m ∘ mirror src n) := by
  obtain ⟨bs, rfl, hbs, hrun⟩ := @convertAt_ok _ _ _ _ ofBits bits f _ h
  rw [hrun]
  congr 1
  funext i
  rw [Function.comp_apply]
  split
  next hi =>
    have hspan : Span src bs.length i := hi
    obtain ⟨k, rfl⟩ := Nat.exists_eq_add_of_le hi.1
    have hk : k < bs.length := by omega
    rw [mirror, if_pos hspan, Nat.add_sub_cancel_left, hf _ k hk, hbits, byte_word hw (by omega),
      hbs]
  next hi => rw [(mirror_rearranges src bs.length).outside i hi]

end Convert

namespace Field

variable {x : Field} {m : Addressed}

theorem move_rearranges (x : Field) : Rearranges x.Bytes x.move := by
  obtain ⟨addr, width, signed, order⟩ := x
  cases order with
  | little => exact id_rearranges _
  | big => exact mirror_rearranges _ _

theorem move_involutive (x : Field) : Function.Involutive x.move := by
  obtain ⟨addr, width, signed, order⟩ := x
  cases order with
  | little => exact fun _ => rfl
  | big => exact mirror_involutive _ _

/-- **Decoding a field** moves its bytes. -/
theorem from_p_ok (h : x.Mapped m) : x.from_p m = .ok (m ∘ x.move) := by
  obtain ⟨addr, width, signed, order⟩ := x
  cases order with
  | little =>
    cases width <;> cases signed <;>
      exact convertAt_same (by decide) (fun _ => rfl) (fun _ => rfl) h
  | big =>
    cases width with
    | w16 =>
      cases signed with
      | false => exact convertAt_reversed (by decide) (fun _ => rfl) reverses_swap_u16 h
      | true =>
        exact convertAt_reversed (by decide) (fun _ => rfl)
          (fun s => reverses_swap_u16 s.toUInt16) h
    | w32 =>
      cases signed with
      | false => exact convertAt_reversed (by decide) (fun _ => rfl) reverses_swap_u32 h
      | true =>
        exact convertAt_reversed (by decide) (fun _ => rfl)
          (fun s => reverses_swap_u32 s.toUInt32) h
    | w64 =>
      cases signed with
      | false => exact convertAt_reversed (by decide) (fun _ => rfl) reverses_swap_u64 h
      | true =>
        exact convertAt_reversed (by decide) (fun _ => rfl)
          (fun s => reverses_swap_u64 s.toUInt64) h

theorem to_p_eq_from_p (x : Field) : x.to_p = x.from_p := by
  obtain ⟨addr, width, signed, order⟩ := x
  cases width <;> cases signed <;> cases order <;> rfl

/-- Each byte of the encoded value comes from where it is moved from. -/
theorem encoding_eq (x : Field) (v : BitVec (8 * x.size)) :
    x.encoding v = (List.range x.size).map fun k => byte v (x.move (x.addr + k) - x.addr) := by
  obtain ⟨addr, width, signed, order⟩ := x
  cases order with
  | little =>
    apply List.map_congr_left
    intro k _
    simp [move]
  | big =>
    apply List.map_congr_left
    intro k hk
    have hspan : Span addr (Field.mk addr width signed .big).size (addr + k) :=
      ⟨Nat.le_add_right _ _, Nat.add_lt_add_left (List.mem_range.1 hk) _⟩
    simp only [move, mirror, if_pos hspan, Nat.add_sub_cancel_left, byte_eq_ofNat]

theorem holds_encoding {m' : Addressed} {v : BitVec (8 * x.size)}
    (h : m.Holds x.addr (littleEndian x.size v))
    (hm' : ∀ i, x.Bytes i → m' i = m (x.move i)) : m'.Holds x.addr (x.encoding v) := by
  intro i hi
  simp only [encoding_eq, List.length_map, List.length_range] at hi
  have hspan : x.Bytes (x.addr + i) := ⟨Nat.le_add_right _ _, Nat.add_lt_add_left hi _⟩
  obtain ⟨hle, hlt⟩ := x.move_rearranges.inside _ hspan
  obtain ⟨k, hk⟩ := Nat.exists_eq_add_of_le hle
  have hk' : k < x.size := by omega
  rw [hm' _ hspan, hk, h k (by rwa [length_littleEndian])]
  simp [encoding_eq, littleEndian, hk]

theorem Apart.bytes {y : Field} (h : x.Apart y) : Rearrange.Apart x.Bytes y.Bytes := by
  rintro i ⟨hle, hlt⟩ ⟨hle', hlt'⟩
  rcases h with h | h <;> omega

theorem Mapped.move {y : Field} (hx : x.Mapped m) (hy : y.Mapped m) : y.Mapped (m ∘ x.move) := by
  intro i hi
  rw [Function.comp_apply]
  by_cases h : x.Bytes (y.addr + i)
  · obtain ⟨hle, hlt⟩ := x.move_rearranges.inside _ h
    obtain ⟨k, hk⟩ := Nat.exists_eq_add_of_le hle
    rw [hk]
    exact hx k (by omega)
  · rw [x.move_rearranges.outside _ h]
    exact hy i hi

end Field

/-! ## Several conversions -/

/-- **The conversions of several fields** move the bytes of each. -/
theorem convertAll_ok {step : Field → Addressed → Except Fault Addressed}
    (hstep : ∀ x m, x.Mapped m → step x m = .ok (m ∘ x.move)) {xs : List Field} {m : Addressed}
    (h : ∀ x ∈ xs, x.Mapped m) : convertAll step xs m = .ok (m ∘ all Field.move xs) := by
  induction xs generalizing m with
  | nil => rfl
  | cons x xs ih =>
    have hx : x.Mapped m := h x List.mem_cons_self
    have hxs : ∀ y ∈ xs, y.Mapped (m ∘ x.move) := fun y hy =>
      hx.move (h y (List.mem_cons_of_mem _ hy))
    rw [convertAll, hstep x m hx, ok_bind, ih hxs]
    rfl

/-- **A record is encoded and decoded in place**: its fields, which do not overlap, are converted
one after another. In whatever order they are, encoding leaves each field in its byte order and
changes nothing else, and decoding then restores the memory. -/
theorem record_round_trip {xs : List Field} {m : Addressed} (hmapped : ∀ x ∈ xs, x.Mapped m)
    (hapart : xs.Pairwise Field.Apart) :
    ∃ m', (∀ ys, ys.Perm xs → convertAll Field.to_p ys m = .ok m' ∧
        convertAll Field.from_p ys m' = .ok m) ∧
      (∀ x ∈ xs, ∀ v, m.Holds x.addr (littleEndian x.size v) → m'.Holds x.addr (x.encoding v)) ∧
      ∀ i, (∀ x ∈ xs, ¬x.Bytes i) → m' i = m i := by
  have hrearranges : ∀ x : Field, Rearranges x.Bytes x.move := Field.move_rearranges
  have hbytes : xs.Pairwise fun x y => Apart x.Bytes y.Bytes := hapart.imp Field.Apart.bytes
  have hall : ∀ m : Addressed, (∀ x ∈ xs, x.Mapped m) → ∀ ys : List Field, ys.Perm xs →
      convertAll Field.from_p ys m = .ok (m ∘ all Field.move xs) := by
    intro m hm ys h
    rw [convertAll_ok (fun x m => x.from_p_ok) fun y hy => hm y (h.mem_iff.1 hy),
      all_perm hrearranges hbytes h]
  have hto : Field.to_p = Field.from_p := funext Field.to_p_eq_from_p
  refine ⟨m ∘ all Field.move xs, fun ys h => ⟨?_, ?_⟩, fun x hx v hv => ?_, fun i hi => ?_⟩
  · rw [hto]
    exact hall m hmapped ys h
  · have hmapped' : ∀ x ∈ xs, x.Mapped (m ∘ all Field.move xs) := by
      intro x hx i hi
      have hspan : x.Bytes (x.addr + i) := ⟨Nat.le_add_right _ _, Nat.add_lt_add_left hi _⟩
      rw [Function.comp_apply, all_of_mem hrearranges hbytes hx hspan]
      exact (hmapped x hx).move (hmapped x hx) i hi
    rw [hall _ hmapped' ys h]
    congr 1
    funext i
    rw [Function.comp_apply, Function.comp_apply,
      all_all hrearranges hbytes Field.move_involutive]
  · apply Field.holds_encoding hv
    intro i hi
    rw [Function.comp_apply, all_of_mem hrearranges hbytes hx hi]
  · rw [Function.comp_apply, all_of_not hrearranges hi]

/-- A header of two aligned fields, with two bytes between them. -/
def header : List Field := [⟨0, .w16, false, .big⟩, ⟨4, .w32, true, .little⟩]

/-- The eight bytes of a header. -/
def headerBytes : Addressed := fun i => if i < 8 then some (UInt8.ofNat i) else none

theorem record_round_trip_header : ∃ m', (∀ ys, ys.Perm header →
      convertAll Field.to_p ys headerBytes = .ok m' ∧
        convertAll Field.from_p ys m' = .ok headerBytes) ∧
    (∀ x ∈ header, ∀ v, headerBytes.Holds x.addr (littleEndian x.size v) →
      m'.Holds x.addr (x.encoding v)) ∧
    ∀ i, (∀ x ∈ header, ¬x.Bytes i) → m' i = headerBytes i :=
  record_round_trip (by decide) (by decide)

end XcpNgGeneric.Endian
