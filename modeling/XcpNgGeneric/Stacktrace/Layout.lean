import XcpNgGeneric.Stacktrace.Frames

/-!
# The layout of the symbol block

The block has room for the pointers and for one entry for each frame: its number, its location and
a terminator. The size of the block is computed before it is written, with a width for the numbers
that comes from a logarithm.

## Main results

* `length_frameNumber`: the numbers have the width that the size of the block allows for.
* `fill_exec`: the second loop writes one entry after the other, from the last frame to the first.
* `symbol_block_layout`: what `stacktrace_symbols` returns.
-/

namespace XcpNgGeneric.Stacktrace

open Memory

variable {h : Heap Object} {ts : ℕ → CString} {size strings locations exe j : ℕ}
  {cells : Buffer (Option ℕ)} {q : ℕ → ℕ} {table : Buffer ℕ} {data : Buffer UInt8}

/-! ## The width of the frame numbers -/

theorem sizeLength_eq (hpos : 1 ≤ size) (hsize : size ≤ INT_MAX) :
    sizeLength size = Nat.log 10 (max 1 (size - 1)) + 2 := by
  have hwrap : sizeT (size + (2 ^ 64 - 1)) = size - 1 := by
    simp only [INT_MAX, sizeT] at *
    omega
  rw [sizeLength, log10, hwrap]

/-- There is room for every frame number, and for a space. -/
theorem length_numeral_lt (hj : j < size) (hsize : size ≤ INT_MAX) :
    (numeral 10 j).length < sizeLength size := by
  have hlt : j < 10 ^ (Nat.log 10 (max 1 (size - 1)) + 1) := by
    have hlog := Nat.lt_pow_succ_log_self (b := 10) (by decide) (max 1 (size - 1))
    rw [Nat.succ_eq_add_one] at hlog
    omega
  have hle := length_numeral_le hlt (Nat.succ_pos _)
  rw [sizeLength_eq (by omega) hsize]
  omega

theorem length_frameNumber (hj : j < size) (hsize : size ≤ INT_MAX) :
    (frameNumber size j).length = sizeLength size + 1 := by
  rw [frameNumber, List.length_append,
    length_leftJustified (Nat.le_of_lt (length_numeral_lt hj hsize))]
  simp [ascii, Nat.add_comm]

/-! ## Entries -/

/-- What the second loop writes for frame `j`. -/
def entry (size : ℕ) (ts : ℕ → CString) (j : ℕ) : List UInt8 := frameNumber size j ++ (ts j).image

theorem length_entry (size : ℕ) (ts : ℕ → CString) (j : ℕ) :
    (entry size ts j).length = (frameNumber size j).length + ((ts j).strlen + 1) := by
  rw [entry, List.length_append, CString.length_image]

/-- The bytes of the entries of the first `n` frames. -/
def entries (size : ℕ) (ts : ℕ → CString) (n : ℕ) : ℕ := span (fun j => (entry size ts j).length) n

/-- The entry of frame `j` stands behind those of the frames after it. -/
def offset (size : ℕ) (ts : ℕ → CString) (j : ℕ) : ℕ :=
  entries size ts size - entries size ts (j + 1)

theorem entries_succ (size : ℕ) (ts : ℕ → CString) (j : ℕ) : entries size ts (j + 1) =
    entries size ts j + ((frameNumber size j).length + ((ts j).strlen + 1)) := by
  rw [← length_entry]
  rfl

theorem entries_le (size : ℕ) (ts : ℕ → CString) (hj : j ≤ size) :
    entries size ts j ≤ entries size ts size := span_mono _ hj

theorem offset_add (hj : j < size) (ts : ℕ → CString) :
    offset size ts j + (entry size ts j).length = entries size ts size - entries size ts j := by
  have hsucc := entries_succ size ts j
  have hle : entries size ts (j + 1) ≤ entries size ts size := entries_le size ts hj
  rw [offset, length_entry]
  omega

/-- **The entries do not overlap.** -/
theorem offset_disjoint {i : ℕ} (ts : ℕ → CString) (hij : i < j) (hj : j < size) :
    offset size ts j + (entry size ts j).length ≤ offset size ts i := by
  have hmono : entries size ts (i + 1) ≤ entries size ts j := span_mono _ hij
  rw [offset_add hj, offset]
  omega

/-- **The size of the block** that the code computes is the size of the entries. -/
theorem entries_eq {n : ℕ} (hn : n ≤ size) (hsize : size ≤ INT_MAX) :
    entries size ts n = total ts n + (sizeLength size + 1) * n := by
  induction n with
  | zero => rw [Nat.mul_zero, entries, total, span_zero, span_zero]
  | succ n ih =>
    rw [entries_succ, ih (by omega), length_frameNumber (by omega) hsize, Nat.mul_succ, total_succ]
    omega

/-! ## The block -/

theorem loadBlock_exec (hp : h.get strings = some (.block table data)) :
    Exec (loadBlock strings) h (table, data) h := by
  simp [Exec, loadBlock, hp]

theorem storeData_exec (off : ℕ) (xs : List UInt8) (hp : h.get strings = some (.block table data))
    (hfits : off + xs.length ≤ data.length) : ∃ data' h', Exec (storeData strings off xs) h () h' ∧
      data.write off xs = some data' ∧
      h'.get = Function.update h.get strings (some (.block table data')) ∧ h'.next = h.next := by
  obtain ⟨data', hstore, hwrite⟩ := store_ok data off xs hfits
  obtain ⟨h', hassign, hget, hnext, -⟩ := assign_exec hp (.block table data')
  exact ⟨data', h', (loadBlock_exec hp).bind ((lift_exec hstore h).bind hassign), hwrite, hget,
    hnext⟩

theorem storePointer_exec (j off : ℕ) (hp : h.get strings = some (.block table data))
    (hfits : j < table.length) : ∃ table' h', Exec (storePointer strings j off) h () h' ∧
      table.write j [off] = some table' ∧
      h'.get = Function.update h.get strings (some (.block table' data)) ∧ h'.next = h.next := by
  obtain ⟨table', hstore, hwrite⟩ := store_ok table j [off] hfits
  obtain ⟨h', hassign, hget, hnext, -⟩ := assign_exec hp (.block table' data)
  exact ⟨table', h', (loadBlock_exec hp).bind ((lift_exec hstore h).bind hassign), hwrite, hget,
    hnext⟩

/-- The entries of the frames from `j` on have been written. -/
structure Written (size : ℕ) (ts : ℕ → CString) (table : Buffer ℕ) (data : Buffer UInt8) (j : ℕ) :
    Prop where
  length_table : table.length = size
  length_data : data.length = entries size ts size
  pointer : ∀ k, j ≤ k → k < size → table.Holds k [offset size ts k]
  holds : ∀ k, j ≤ k → k < size → data.Holds (offset size ts k) (entry size ts k)

/-- No entry has been written. -/
theorem Written.init (size : ℕ) (ts : ℕ → CString) : Written size ts (Buffer.fresh size)
    (Buffer.fresh (entries size ts size)) size := by
  constructor
  case length_table => exact Buffer.length_fresh size
  case length_data => exact Buffer.length_fresh _
  case pointer => intro k hk hlt; omega
  case holds => intro k hk hlt; omega

/-- An entry is written in two parts, the second of which replaces the terminator of the first. -/
theorem Written.step {data₁ data₂ : Buffer UInt8} {table' : Buffer ℕ}
    (hw : Written size ts table data (j + 1))
    (hnumber : data.write (offset size ts j) (frameNumber size j ++ [NUL]) = some data₁)
    (hlocation : data₁.write (offset size ts j + (frameNumber size j).length) (ts j).image =
      some data₂) (hpointer : table.write j [offset size ts j] = some table') :
    Written size ts table' data₂ j := by
  constructor
  case length_table => rw [(Buffer.length_write hpointer).2, hw.length_table]
  case length_data =>
    rw [(Buffer.length_write hlocation).2, (Buffer.length_write hnumber).2, hw.length_data]
  case pointer =>
    intro k hk hlt
    rcases Nat.lt_or_eq_of_le hk with hk | rfl
    · exact (hw.pointer k hk hlt).write hpointer (.inr hk)
    · exact Buffer.Holds.of_write hpointer
  case holds =>
    intro k hk hlt
    rcases Nat.lt_or_eq_of_le hk with hk | rfl
    · have hle := offset_disjoint ts hk hlt
      exact ((hw.holds k hk hlt).write hnumber (.inl hle)).write hlocation (.inl (by omega))
    · have hfirst := (Buffer.Holds.of_write hnumber).left
      exact (hfirst.write hlocation (.inl (Nat.le_refl _))).append (Buffer.Holds.of_write hlocation)

/-- **One iteration** of the second loop writes one entry and frees its location. -/
theorem fill_step (hj : j < size) (hp : h.get strings = some (.block table data))
    (hw : Written size ts table data (j + 1)) (hcells : h.get locations = some (.pointers cells))
    (hs : Strings h cells q ts 0 (j + 1)) : ∃ table' data' h',
      fill size strings locations (j + 1) (offset size ts j) h =
        fill size strings locations j (entries size ts size - entries size ts j) h' ∧
      Written size ts table' data' j ∧
      h'.get = Function.update (Function.update h.get strings (some (.block table' data')))
        (q j) none ∧ h'.next = h.next := by
  have hsucc := entries_succ size ts j
  have hle : entries size ts (j + 1) ≤ entries size ts size := entries_le size ts hj
  obtain ⟨b, hlocation, hstring⟩ := hs.string j (Nat.zero_le j) (Nat.lt_succ_self j)
  have hne : locations ≠ strings := Heap.ne_of_get hcells hp Object.noConfusion
  have hne' : q j ≠ strings := Heap.ne_of_get hlocation hp Object.noConfusion
  -- the number, which is terminated
  obtain ⟨data₁, h₁, hstore₁, hwrite₁, hget₁, hnext₁⟩ := storeData_exec (offset size ts j)
    (frameNumber size j ++ [NUL]) hp (by
      rw [hw.length_data, List.length_append, List.length_singleton, offset]
      omega)
  have hcells₁ : h₁.get locations = some (.pointers cells) := by
    rw [hget₁, Function.update_of_ne hne, hcells]
  have hlocation₁ : h₁.get (q j) = some (.bytes b) := by
    rw [hget₁, Function.update_of_ne hne', hlocation]
  have hp₁ : h₁.get strings = some (.block table data₁) := by
    rw [hget₁, Function.update_self]
  -- the location
  obtain ⟨data₂, h₂, hstore₂, hwrite₂, hget₂, hnext₂⟩ := storeData_exec
    (offset size ts j + (frameNumber size j).length) (ts j).image hp₁ (by
      rw [(Buffer.length_write hwrite₁).2, hw.length_data, CString.length_image, offset]
      omega)
  have hp₂ : h₂.get strings = some (.block table data₂) := by
    rw [hget₂, Function.update_self]
  -- the pointer
  obtain ⟨table', h₃, hstore₃, hwrite₃, hget₃, hnext₃⟩ := storePointer_exec j (offset size ts j) hp₂
    (by rw [hw.length_table]; exact hj)
  have hlocation₃ : h₃.get (q j) = some (.bytes b) := by
    rw [hget₃, Function.update_of_ne hne', hget₂, Function.update_of_ne hne', hlocation₁]
  obtain ⟨h₄, hfree, hget₄, hnext₄, -⟩ := free_exec hlocation₃
  refine ⟨table', data₂, h₄, ?_, hw.step hwrite₁ hwrite₂ hwrite₃, ?_, ?_⟩
  · have hpos : offset size ts j + ((frameNumber size j).length + (ts j).bytes.length + 1) =
        entries size ts size - entries size ts j := by
      rw [offset]
      simp only [CString.strlen] at hsucc
      omega
    have hcell := readCell_exec hcells₁ (hs.cell j (Nat.zero_le j) (Nat.lt_succ_self j))
    rw [fill, hstore₁.bind_eq, hcell.bind_eq]
    refine ((readString_exec hlocation₁ hstring).bind_eq _).trans ?_
    refine (hstore₂.bind_eq _).trans ((hstore₃.bind_eq _).trans ((hfree.bind_eq _).trans ?_))
    rw [hpos]
  · rw [hget₄, hget₃, hget₂, hget₁, Function.update_idem, Function.update_idem]
  · rw [hnext₄, hnext₃, hnext₂, hnext₁]

theorem fill_exec (hj : j ≤ size) (hp : h.get strings = some (.block table data))
    (hw : Written size ts table data j) (hcells : h.get locations = some (.pointers cells))
    (hs : Strings h cells q ts 0 j) : ∃ table' data' h',
      Exec (fill size strings locations j (entries size ts size - entries size ts j)) h
        (entries size ts size) h' ∧
      Written size ts table' data' 0 ∧ h'.get strings = some (.block table' data') ∧
      ∀ o, o ≠ strings → (∀ k, k < j → o ≠ q k) → h'.get o = h.get o := by
  induction j generalizing h table data with
  | zero => exact ⟨table, data, h, Exec.pure _ _, hw, hp, fun o _ _ => rfl⟩
  | succ j ih =>
    obtain ⟨table₁, data₁, h₁, hfill, hw₁, hget, hnext⟩ := fill_step hj hp hw hcells hs
    have hkept : ∀ {o x}, h.get o = some x → o ≠ strings → o ≠ q j → h₁.get o = some x := by
      intro o x ho hne hne'
      rw [hget, Function.update_of_ne hne', Function.update_of_ne hne, ho]
    have hne : ∀ k, k < j + 1 → q k ≠ strings := fun k hk =>
      hs.ne_of_get (Nat.zero_le k) hk hp fun _ => Object.noConfusion
    have hne' : q j ≠ locations :=
      hs.ne_of_get (Nat.zero_le j) (Nat.lt_succ_self j) hcells fun _ => Object.noConfusion
    have hstrings : locations ≠ strings := Heap.ne_of_get hcells hp Object.noConfusion
    have hcells₁ := hkept hcells hstrings hne'.symm
    have hp₁ : h₁.get strings = some (.block table₁ data₁) := by
      rw [hget, Function.update_of_ne (hne j (Nat.lt_succ_self j)).symm, Function.update_self]
    have hs₁ : Strings h₁ cells q ts 0 j :=
      hs.mono (Nat.le_refl 0) (Nat.le_succ j) fun k c hk hlt hc =>
        hkept hc (hne k (by omega)) (hs.ne k j hk hlt (Nat.lt_succ_self j))
    obtain ⟨table', data', h', hexec, hw', hp', hother⟩ := ih (by omega) hp₁ hw₁ hcells₁ hs₁
    refine ⟨table', data', h', hfill.trans hexec, hw', hp', ?_⟩
    intro o ho hstring
    rw [hother o ho fun k hk => hstring k (by omega), hget,
      Function.update_of_ne (hstring j (Nat.lt_succ_self j)), Function.update_of_ne ho]

/-! ## The layout -/

/-- `charCount`, as it is when the block is allocated. -/
def charCount (size : ℕ) (ts : ℕ → CString) : ℕ := total ts size + (sizeLength size + 1) * size

/-- The block that is returned for the locations `ts`: `size` pointers to lines of text, which fill
the bytes after the pointers and do not overlap. -/
structure Layout (size : ℕ) (ts : ℕ → CString) (table : Buffer ℕ) (data : Buffer UInt8) : Prop where
  length_data : data.length = charCount size ts
  written : ∀ k, k < data.length → ∃ c, data[k]? = some (some c)
  length_table : table.length = size
  pointer : ∀ j, j < size → table[j]? = some (some (offset size ts j))
  line : ∀ j, j < size → ∃ spaces text, 0 < spaces ∧
    (numeral 10 j).length + spaces = sizeLength size ∧
    text = ascii ['#'] ++ numeral 10 j ++ List.replicate spaces 32 ++ (ts j).bytes ∧
    NUL ∉ text ∧ text.length + 1 = (entry size ts j).length ∧
    data.Holds (offset size ts j) (text ++ [NUL])
  disjoint : ∀ i j, i < j → j < size →
    offset size ts j + (entry size ts j).length ≤ offset size ts i
  inside : ∀ j, j < size → offset size ts j + (entry size ts j).length ≤ data.length

/-- Every byte is in one of the entries. -/
theorem Written.byte (hw : Written size ts table data 0) {k : ℕ} (hk : k < data.length) :
    ∃ c, data[k]? = some (some c) := by
  rw [hw.length_data] at hk
  have hlast : entries size ts size - 1 - k < entries size ts size := by omega
  obtain ⟨j, hj, hlow, hhigh⟩ := exists_region hlast
  change entries size ts j ≤ _ at hlow
  change _ < entries size ts (j + 1) at hhigh
  have hoff : offset size ts j ≤ k := by
    rw [offset]
    omega
  have hend : k < offset size ts j + (entry size ts j).length := by
    rw [offset_add hj]
    omega
  have hlt : k - offset size ts j < (entry size ts j).length := by omega
  have hcell := hw.holds j (Nat.zero_le j) hj _ hlt
  rw [Nat.add_sub_cancel' hoff, List.getElem?_eq_getElem hlt] at hcell
  exact ⟨_, hcell⟩

theorem Written.layout (hsize : size ≤ INT_MAX) (hw : Written size ts table data 0) :
    Layout size ts table data := by
  constructor
  case length_data => rw [hw.length_data, entries_eq (Nat.le_refl size) hsize, charCount]
  case written => exact fun k hk => hw.byte hk
  case length_table => exact hw.length_table
  case pointer =>
    intro j hj
    exact hw.pointer j (Nat.zero_le j) hj 0 (Nat.succ_pos 0)
  case line =>
    intro j hj
    have hlt := length_numeral_lt hj hsize
    have htext : entry size ts j = ascii ['#'] ++ numeral 10 j ++
        List.replicate (sizeLength size - (numeral 10 j).length) 32 ++ (ts j).bytes ++ [NUL] := by
      simp only [entry, frameNumber, leftJustified, CString.image, List.append_assoc]
    refine ⟨sizeLength size - (numeral 10 j).length, _, by omega, by omega, rfl, ?_, ?_, ?_⟩
    · simp only [List.mem_append, not_or]
      exact ⟨⟨⟨by decide, nul_notMem_numeral (by decide) (by decide) j⟩,
        nul_notMem_replicate (by decide) _⟩, (ts j).nul_free⟩
    · rw [htext]
      simp only [List.length_append, List.length_singleton]
    · rw [← htext]
      exact hw.holds j (Nat.zero_le j) hj
  case disjoint => exact fun i j hij hj => offset_disjoint ts hij hj
  case inside =>
    intro j hj
    rw [hw.length_data, offset_add hj]
    omega

/-! ## The third step -/

/-- The block that is allocated has room for the pointers and for the entries. -/
theorem allocBlock_exec (h : Heap Object) {n : ℕ} (hroom : n + size * 8 ≤ PTRDIFF_MAX) :
    Exec (allocBlock true (n + size * 8) size) h (some h.next)
      (h.alloc (.block (Buffer.fresh size) (Buffer.fresh n))) := by
  have hmin : min size ((n + size * 8) / 8) = size := by omega
  have hsub : n + size * 8 - size * 8 = n := Nat.add_sub_cancel ..
  rw [allocBlock, hmin, hsub]
  exact alloc_exec h _ hroom

/-- The sum of the lengths does not overflow. -/
theorem count_eq (hroom : charCount size ts + size * 8 ≤ PTRDIFF_MAX) :
    sizeT (sizeT (total ts size) + (sizeLength size + 1) * size) = charCount size ts := by
  simp only [charCount, PTRDIFF_MAX, sizeT] at *
  omega

/-- **The third step**, for any locations that leave room for the block. -/
theorem buildStrings_exec (hsize : size ≤ INT_MAX)
    (hroom : charCount size ts + size * 8 ≤ PTRDIFF_MAX)
    (hcells : h.get locations = some (.pointers cells)) (hs : Strings h cells q ts 0 size)
    {b : Buffer UInt8} (hexe : h.get exe = some (.bytes b)) (hne : ∀ j, j < size → q j ≠ exe) :
    ∃ strings h' table data,
      Exec (buildStrings true size locations exe (sizeT (total ts size))) h (some strings) h' ∧
      h'.get strings = some (.block table data) ∧ Layout size ts table data := by
  have hentries : entries size ts size = charCount size ts := entries_eq (Nat.le_refl size) hsize
  have hwhole : sizeT (entries size ts size + size * 8) = entries size ts size + size * 8 := by
    rw [hentries]
    simp only [PTRDIFF_MAX, sizeT] at *
    omega
  have halloc := allocBlock_exec h (n := entries size ts size) (by rwa [hentries])
  have hblock := Heap.get_alloc_next h
    (.block (Buffer.fresh size) (Buffer.fresh (entries size ts size)))
  obtain ⟨table, data, h₁, hfill, hw, hp, hkept⟩ := fill_exec (Nat.le_refl size) hblock
    (Written.init size ts) (Heap.get_alloc hcells)
    (hs.mono (Nat.le_refl 0) (Nat.le_refl size) fun _ _ _ _ hb => Heap.get_alloc hb)
  rw [Nat.sub_self] at hfill
  have hcells₁ : h₁.get locations = some (.pointers cells) := by
    rw [hkept locations (Heap.ne_next hcells), Heap.get_alloc hcells]
    exact fun k hk =>
      (hs.ne_of_get (Nat.zero_le k) hk hcells fun _ => Object.noConfusion).symm
  have hexe₁ : h₁.get exe = some (.bytes b) := by
    rw [hkept exe (Heap.ne_next hexe) fun k hk => (hne k hk).symm, Heap.get_alloc hexe]
  obtain ⟨h₂, hfree₂, hget₂, -⟩ := free_exec hcells₁
  have hexe₂ : h₂.get exe = some (.bytes b) := by
    rw [hget₂, Function.update_of_ne (Heap.ne_of_get hexe hcells Object.noConfusion), hexe₁]
  obtain ⟨h₃, hfree₃, hget₃, -⟩ := free_exec hexe₂
  refine ⟨h.next, h₃, table, data, ?_, ?_, hw.layout hsize⟩
  · rw [buildStrings, count_eq hroom, ← hentries, hwhole]
    refine halloc.bind (hfill.bind ?_)
    rw [if_neg (fun hne => hne rfl)]
    exact hfree₂.bind (hfree₃.bind (Exec.pure _ _))
  · rw [hget₃, Function.update_of_ne (Heap.ne_next hexe).symm, hget₂,
      Function.update_of_ne (Heap.ne_next hcells).symm, hp]

/-! ## Room for the block -/

/-- The lengths of locations are results of `asprintf` and `snprintf`, which are `int`. -/
theorem strlen_lt_of_located {frame : Frame} {a : UInt64} {name s : CString}
    (hout : frame.outcome a name = .located s) : s.strlen < INT_MAX := by
  rw [Frame.outcome] at hout
  split at hout
  next =>
    split at hout
    next =>
      cases hout
      decide
    next => cases hout
  next info _ =>
    rw [Frame.fileOutcome] at hout
    split at hout
    next => cases hout
    next bin _ =>
      split at hout
      next => cases hout
      next =>
        split at hout
        next => cases hout
        next => cases hout
        next =>
          have htext := congrArg Outcome.text hout
          rw [Outcome.text_ofText] at htext
          exact strlen_lt_of_location htext

theorem total_le {n : ℕ} (hts : ∀ j, j < n → (ts j).strlen < INT_MAX) :
    total ts n ≤ n * INT_MAX := by
  induction n with
  | zero => exact Nat.zero_le _
  | succ n ih =>
    have hrest := ih fun j hj => hts j (by omega)
    have hlast := hts n (Nat.lt_succ_self n)
    rw [total_succ, Nat.succ_mul]
    omega

theorem sizeLength_le (size : ℕ) : sizeLength size ≤ 21 := by
  have hlog : Nat.log 10 (max 1 (sizeT (size + (2 ^ 64 - 1)))) < 20 := by
    apply Nat.log_lt_of_lt_pow (by omega)
    simp only [sizeT]
    omega
  rw [sizeLength, log10]
  omega

/-- Strings of such lengths leave room for the block. -/
theorem room_of_strlen_lt (hsize : size ≤ INT_MAX) (hts : ∀ j, j < size → (ts j).strlen < INT_MAX) :
    charCount size ts + size * 8 ≤ PTRDIFF_MAX := by
  have htotal := total_le hts
  have hwidth : (sizeLength size + 1) * size ≤ 22 * size :=
    Nat.mul_le_mul_right size (Nat.succ_le_succ (sizeLength_le size))
  have hsquare : size * INT_MAX ≤ INT_MAX * INT_MAX := Nat.mul_le_mul_right _ hsize
  simp only [charCount, INT_MAX, PTRDIFF_MAX] at *
  omega

/-- **The layout of the symbol block.** For every environment in which every step succeeds, the
function returns a block with the layout of the locations of its frames; and the third step builds
such a block of any strings, if their lengths are those of locations or leave room for it. No
assertion fails, and no byte outside the block is written: such runs end in a fault. -/
theorem symbol_block_layout (size : ℕ) (hsize : size ≤ INT_MAX) :
    (∀ env buffer h, Env.Succeeds env buffer size → ∃ name strings h' table data,
      env.self.result = some name ∧ Exec (stacktrace_symbols env buffer size) h (some strings) h' ∧
      h'.get strings = some (.block table data) ∧
      Layout size (env.strings buffer name) table data) ∧
    ∀ (ts : ℕ → CString) (h : Heap Object) locations exe cells q b,
      (∀ j, j < size → (ts j).strlen < INT_MAX) ∨ charCount size ts + size * 8 ≤ PTRDIFF_MAX →
      h.get locations = some (.pointers cells) → Strings h cells q ts 0 size →
      h.get exe = some (.bytes b) → (∀ j, j < size → q j ≠ exe) →
      ∃ strings h' table data,
        Exec (buildStrings true size locations exe (sizeT (total ts size))) h (some strings) h' ∧
        h'.get strings = some (.block table data) ∧ Layout size ts table data := by
  constructor
  · rintro env buffer h ⟨name, hself, htable, hlocated, hblock⟩
    obtain ⟨h₁, exe, locations, cells, q, count, hprog, hcount, htotal, hreach⟩ :=
      stacktrace_symbols_reach hsize hself htable (Nat.zero_le size) hlocated h
    have hroom : charCount size (env.strings buffer name) + size * 8 ≤ PTRDIFF_MAX :=
      room_of_strlen_lt hsize fun j hj => strlen_lt_of_located (hlocated.outcome (Nat.zero_le j) hj)
    obtain ⟨b, hexe, -⟩ := hprog.exe_string
    obtain ⟨strings, h', table, data, hbuild, hp, hlayout⟩ := buildStrings_exec hsize hroom
      hprog.table hprog.strings hexe fun j hj => hprog.exe_ne j (Nat.zero_le j) hj
    refine ⟨name, strings, h', table, data, hself, ?_, hp, hlayout⟩
    have heq : count = sizeT (total (env.strings buffer name) size) := by
      rw [← htotal, total, span_zero]
      simp only [sizeT]
      omega
    have hlocate : Exec (locate env buffer locations exe 0 count) h₁ (.done count) h₁ :=
      Exec.pure _ _
    refine (hreach.trans (hlocate.bind_eq _)).trans ?_
    rw [finish, hblock, heq]
    exact hbuild
  · intro ts h locations exe cells q b hroom hcells hs hexe hne
    apply buildStrings_exec hsize _ hcells hs hexe hne
    exact hroom.elim (room_of_strlen_lt hsize) id

theorem symbol_block_layout_outside : ∃ name strings h' table data,
    program.result = some name ∧
    Exec (stacktrace_symbols ⟨program, true, fun _ => outside, true⟩ (fun _ => 4096) 11) Heap.empty
      (some strings) h' ∧
    h'.get strings = some (.block table data) ∧
    Layout 11 (Env.strings ⟨program, true, fun _ => outside, true⟩ (fun _ => 4096) name) table
      data :=
  (symbol_block_layout 11 (by decide)).1 ⟨program, true, fun _ => outside, true⟩ (fun _ => 4096)
    Heap.empty ⟨programName, program_result, rfl, fun j _ _ => ⟨unknown, rfl⟩, rfl⟩

end XcpNgGeneric.Stacktrace
