import XcpNgGeneric.Stacktrace.Symbols

/-!
# Locating an address

What is printed about an address, and what the functions return that look for it in an object file.
What becomes of a frame is determined by what the environment answers (`Frame.outcome`).

## Main results

* `physical_addr_to_str_from_file_exec`: a new string or `NULL`, and nothing else but the tables
  that BFD has allocated.
* `physical_addr_to_str_from_file_unset`: the pointer to the table is used although it is not set.
-/

namespace XcpNgGeneric.Stacktrace

open Memory

/-! ## The outcome of a frame -/

/-- The answer of the two calls of `bfd_read_minisymbols` together. -/
def Bfd.answer (bin : Bfd) : Minisymbols :=
  let first := bin.minisymbols false
  let second := bin.minisymbols true
  if first.count = 0 then ⟨second.count, first.stored || second.stored⟩ else first

/-- Whether `read_symbols` succeeds (`none` if not), and whether it leaves a table of symbols. -/
def Bfd.tables (bin : Bfd) : Option Bool :=
  if !bin.hasSyms then none
  else if bin.answer.count < 0 then none
  else some bin.answer.stored

/-- The line that is found in a section. -/
def Section.lookup (sec : Section) (physAddress : UInt64) : Option Line :=
  if !sec.alloc then none
  else if physAddress < sec.vma then none
  else if physAddress ≥ sec.vma + sec.size then none
  else sec.nearest_line (physAddress - sec.vma)

/-- The information that is printed about an address. -/
def Bfd.info (bin : Bfd) (physAddress : UInt64) : SymbolInfo :=
  symbolInfo bin physAddress (bin.sections.findSome? fun sec => sec.lookup physAddress)

theorem nul_notMem_nameOr (name : Option CString) : NUL ∉ nameOr name := by
  cases name with
  | none => decide
  | some s =>
    simp only [nameOr]
    split
    next => decide
    next => exact s.nul_free

theorem nul_notMem_text (info : SymbolInfo) : NUL ∉ info.text := by
  simp only [SymbolInfo.text, List.mem_append, not_or]
  exact ⟨⟨⟨⟨⟨⟨⟨⟨⟨by decide, nul_notMem_hexadecimal _ _⟩, by decide⟩, nul_notMem_nameOr _⟩,
    by decide⟩, nul_notMem_numeral (by decide) (by decide) _⟩, by decide⟩, nul_notMem_nameOr _⟩,
    by decide⟩, info.libraryName.nul_free⟩

/-- The location that is printed, if it can be. -/
def Frame.location (frame : Frame) (info : SymbolInfo) : Option CString :=
  if h : (frame.measured && frame.memory && frame.printed) = true ∧ info.text.length < INT_MAX then
    some ⟨info.text, nul_notMem_text info, by
      have hlt := h.2
      simp only [INT_MAX, PTRDIFF_MAX] at *
      omega⟩
  else none

/-- How `physical_addr_to_str_from_file` ends, and how an iteration of the first loop does. -/
inductive Outcome
  | located (s : CString)
  /-- `asprintf` fails. -/
  | unprinted
  /-- `physical_addr_to_str_from_file` returns `NULL`. -/
  | unresolved
  /-- BFD has found no symbols and has left the pointer to their table unset. -/
  | unset

namespace Outcome

/-- The outcome if this is printed, or nothing. -/
def ofText : Option CString → Outcome
  | none => .unresolved
  | some s => .located s

/-- The text that is printed. -/
def text : Outcome → Option CString
  | .located s => some s
  | _ => none

@[simp] theorem text_ofText (o : Option CString) : (ofText o).text = o := by
  cases o <;> rfl

theorem ofText_ne_unset (o : Option CString) : ofText o ≠ .unset := by
  cases o <;> exact Outcome.noConfusion

theorem ofText_ne_unprinted (o : Option CString) : ofText o ≠ .unprinted := by
  cases o <;> exact Outcome.noConfusion

end Outcome

/-- The outcome of `physical_addr_to_str_from_file`. -/
def Frame.fileOutcome (frame : Frame) (filename : List UInt8) (physAddress : UInt64) : Outcome :=
  match frame.bfd_openr filename with
  | none => .unresolved
  | some bin =>
    if !bin.isObject then .unresolved
    else
      match bin.tables with
      | none => .unresolved
      | some false => .unset
      | some true => .ofText (frame.location (bin.info physAddress))

theorem Frame.fileOutcome_ne_unprinted (frame : Frame) (filename : List UInt8) (a : UInt64) :
    frame.fileOutcome filename a ≠ .unprinted := by
  rw [Frame.fileOutcome]
  split
  next => exact Outcome.noConfusion
  next =>
    split
    next => exact Outcome.noConfusion
    next =>
      split
      next => exact Outcome.noConfusion
      next => exact Outcome.noConfusion
      next => exact Outcome.ofText_ne_unprinted _

/-- The outcome of an iteration of the first loop, if the program is the file `self`. -/
def Frame.outcome (frame : Frame) (address : UInt64) (self : CString) : Outcome :=
  match dl_iterate_phdr frame.objects address with
  | none => if frame.asprintf then .located unknown else .unprinted
  | some info => frame.fileOutcome (objectFile info self.bytes) (address - info.dlpi_addr)

/-! ## Reading an object file -/

/-- The tables that BFD has allocated. -/
abbrev IsTable (_ : ℕ) (x : Object) : Prop := x = .symbols

variable {h₀ h h' : Heap Object} {symbols : Option ℕ} {stored : Bool} {bin : Bfd} {frame : Frame}
  {a : UInt64} {p : ℕ} {x : Object}

/-- The pointer `symbols` is set if a table is stored. -/
def Points (h₀ h : Heap Object) (symbols : Option ℕ) (stored : Bool) : Prop :=
  match symbols with
  | none => stored = false
  | some p => stored = true ∧ h₀.next ≤ p ∧ h.get p = some .symbols

theorem bfd_read_minisymbols_exec (answer : Minisymbols) (hadds : h₀.Adds IsTable h)
    (hpoints : Points h₀ h symbols stored) :
    ∃ symbols' h', Exec (bfd_read_minisymbols answer symbols) h (answer.count, symbols') h' ∧
      h₀.Adds IsTable h' ∧ Points h₀ h' symbols' (stored || answer.stored) := by
  cases hstored : answer.stored with
  | true =>
    refine ⟨some h.next, h.alloc .symbols, ?_, hadds.alloc rfl, ?_⟩
    · rw [bfd_read_minisymbols, if_pos hstored]
      rfl
    · exact ⟨Bool.or_true stored, hadds.next_le, Heap.get_alloc_next h _⟩
  | false =>
    refine ⟨symbols, h, ?_, hadds, ?_⟩
    · rw [bfd_read_minisymbols, if_neg (by rw [hstored]; decide)]
      exact Exec.pure _ _
    · rwa [Bool.or_false]

theorem readEither_exec (bin : Bfd) (h : Heap Object) : ∃ symbols h',
    Exec (readEither bin) h (bin.answer.count, symbols) h' ∧ h.Adds IsTable h' ∧
      Points h h' symbols bin.answer.stored := by
  obtain ⟨symbols₁, h₁, hfirst, hadds₁, hpoints₁⟩ :=
    bfd_read_minisymbols_exec (bin.minisymbols false) (.refl _ h)
      (show Points h h none false from rfl)
  rw [Bool.false_or] at hpoints₁
  by_cases hzero : (bin.minisymbols false).count = 0
  · obtain ⟨symbols₂, h₂, hsecond, hadds₂, hpoints₂⟩ :=
      bfd_read_minisymbols_exec (bin.minisymbols true) hadds₁ hpoints₁
    rw [Bfd.answer, if_pos hzero]
    refine ⟨symbols₂, h₂, hfirst.bind ?_, hadds₂, hpoints₂⟩
    simp only [if_pos hzero]
    exact hsecond
  · rw [Bfd.answer, if_neg hzero]
    refine ⟨symbols₁, h₁, hfirst.bind ?_, hadds₁, hpoints₁⟩
    simp only [if_neg hzero]
    exact Exec.pure _ _

theorem read_symbols_exec (bin : Bfd) (h : Heap Object) : ∃ ret symbols h',
    Exec (read_symbols bin) h (ret, symbols) h' ∧ h.Adds IsTable h' ∧
      (bin.tables = none ∧ ret < 0 ∨
        ∃ stored, bin.tables = some stored ∧ ¬ret < 0 ∧ Points h h' symbols stored) := by
  cases hsyms : bin.hasSyms with
  | false =>
    refine ⟨-1, none, h, ?_, .refl _ h, .inl ⟨by simp [Bfd.tables, hsyms], by omega⟩⟩
    rw [read_symbols, if_pos (by simp [hsyms])]
    exact Exec.pure _ _
  | true =>
    obtain ⟨symbols, h', hread, hadds, hpoints⟩ := readEither_exec bin h
    by_cases hneg : bin.answer.count < 0
    · refine ⟨-1, symbols, h', ?_, hadds, .inl ⟨by simp [Bfd.tables, hneg], by omega⟩⟩
      rw [read_symbols, if_neg (by simp [hsyms])]
      apply hread.bind
      simp only [if_pos hneg]
      exact Exec.pure _ _
    · refine ⟨0, symbols, h', ?_, hadds, .inr ⟨_, ?_, by omega, hpoints⟩⟩
      · rw [read_symbols, if_neg (by simp [hsyms])]
        apply hread.bind
        simp only [if_neg hneg]
        exact Exec.pure _ _
      · simp [Bfd.tables, hsyms, hneg]

theorem find_in_sections_ok (table : ℕ) (a : UInt64) (sections : List Section) :
    find_in_sections (some table) a sections =
      .ok (sections.findSome? fun sec => sec.lookup a) := by
  induction sections with
  | nil => rfl
  | cons sec sections ih =>
    have hsec : find_physical_address_info sec (some table) a = .ok (sec.lookup a) := by
      rw [find_physical_address_info, Section.lookup]
      split
      next => rfl
      next =>
        split
        next => rfl
        next => split <;> rfl
    rw [find_in_sections, hsec, ok_bind, List.findSome?_cons]
    cases sec.lookup a with
    | none => exact ih
    | some line => rfl

theorem size_eq {ok : Bool} {info : SymbolInfo} (hok : ok = true)
    (hlt : info.text.length < INT_MAX) :
    (symbol_info_to_str ok info + 1).bmod (2 ^ 32) = (info.text.length + 1 : ℕ) := by
  have hle : info.text.length ≤ INT_MAX := Nat.le_of_lt hlt
  simp only [symbol_info_to_str, hok, hle, decide_true, Bool.and_self, if_true, Int.bmod_def]
  simp only [INT_MAX] at hlt
  omega

theorem size_le_zero {ok : Bool} {info : SymbolInfo}
    (hbad : ¬(ok = true ∧ info.text.length < INT_MAX)) :
    (symbol_info_to_str ok info + 1).bmod (2 ^ 32) ≤ 0 := by
  simp only [symbol_info_to_str, Bool.and_eq_true, decide_eq_true_eq, Int.bmod_def]
  split
  next hok =>
    have hge : ¬info.text.length < INT_MAX := fun hlt => hbad ⟨hok.1, hlt⟩
    simp only [INT_MAX] at *
    omega
  next => omega

/-- A text that has been measured can be printed. -/
theorem symbol_info_to_str_neg {ok : Bool} {info : SymbolInfo}
    (hlt : info.text.length < INT_MAX) : symbol_info_to_str ok info < 0 ↔ ok = false := by
  have hle : info.text.length ≤ INT_MAX := Nat.le_of_lt hlt
  cases ok with
  | false => simp [symbol_info_to_str]
  | true =>
    simp only [symbol_info_to_str, hle, decide_true, Bool.and_self, if_true, Bool.true_eq_false,
      iff_false]
    omega

theorem location_some {info : SymbolInfo} (hmeasured : frame.measured = true)
    (hlt : info.text.length < INT_MAX) (hmem : frame.memory = true)
    (hprinted : frame.printed = true) :
    ∃ s, frame.location info = some s ∧ s.bytes = info.text := by
  rw [Frame.location, dif_pos ⟨by simp [hmeasured, hmem, hprinted], hlt⟩]
  exact ⟨_, rfl, rfl⟩

theorem strlen_lt_of_location {info : SymbolInfo} {s : CString}
    (h : frame.location info = some s) : s.strlen < INT_MAX := by
  rw [Frame.location] at h
  split at h
  next hall =>
    cases h
    exact hall.2
  next => cases h

theorem location_none {info : SymbolInfo}
    (hbad : ¬((frame.measured = true ∧ info.text.length < INT_MAX) ∧ frame.memory = true ∧
      frame.printed = true)) : frame.location info = none := by
  rw [Frame.location, dif_neg]
  intro hall
  simp only [Bool.and_eq_true] at hall
  exact hbad ⟨⟨hall.1.1.1, hall.2⟩, hall.1.1.2, hall.1.2⟩

theorem newLocation_exec (frame : Frame) (info : SymbolInfo) (h : Heap Object) : ∃ r h',
    Exec (newLocation frame info) h r h' ∧
      Returned (fun _ _ => False) h h' (frame.location info) r := by
  by_cases hmeasured : frame.measured = true ∧ info.text.length < INT_MAX
  swap
  · refine ⟨none, h, ?_, ?_⟩
    · rw [newLocation, if_pos (size_le_zero hmeasured)]
      exact Exec.pure _ _
    · rw [location_none fun hall => hmeasured hall.1]
      exact .null (.refl _ h)
  have hsize := size_eq hmeasured.1 hmeasured.2
  have hpos : ¬((info.text.length + 1 : ℕ) : ℤ) ≤ 0 := by omega
  have hfits : info.text.length + 1 ≤ PTRDIFF_MAX := by
    have hlt := hmeasured.2
    simp only [INT_MAX, PTRDIFF_MAX] at *
    omega
  rw [newLocation]
  simp only [hsize, if_neg hpos, Int.toNat_natCast]
  cases hmem : frame.memory with
  | false =>
    refine ⟨none, h, (alloc_fails h _ (by simp)).bind (Exec.pure _ _), ?_⟩
    rw [location_none (by simp [hmem])]
    exact .null (.refl _ h)
  | true =>
    have halloc := alloc_exec h (.bytes (Buffer.fresh (info.text.length + 1))) hfits
    have hnew := Heap.get_alloc_next h (.bytes (Buffer.fresh (info.text.length + 1)))
    have hadds := (Heap.Adds.refl (fun p _ => p = h.next) h).alloc
      (x := .bytes (Buffer.fresh (info.text.length + 1))) rfl
    cases hprinted : frame.printed with
    | false =>
      obtain ⟨h', hfree, hget, hnext, -⟩ := free_exec hnew
      refine ⟨none, h', halloc.bind ?_, ?_⟩
      · simp only [if_pos ((symbol_info_to_str_neg hmeasured.2).2 rfl)]
        exact hfree.bind (Exec.pure _ _)
      · rw [location_none (by simp [hprinted])]
        exact .null (hadds.freed (Nat.le_refl _) hnext hget)
    | true =>
      obtain ⟨b, h', hstore, hwrite, hget, hnext, -⟩ := storeBytes_exec 0
        (info.text ++ [NUL]) hnew (by simp)
      obtain ⟨s, hs, hbytes⟩ := location_some hmeasured.1 hmeasured.2 hmem hprinted
      have himage : IsString b s := by
        rw [← hbytes] at hwrite
        exact Buffer.Holds.of_write hwrite
      have hnonneg : ¬symbol_info_to_str true info < 0 := by
        rw [symbol_info_to_str_neg hmeasured.2]
        decide
      refine ⟨some h.next, h', halloc.bind ?_, ?_⟩
      · simp only [if_neg hnonneg]
        exact hstore.bind (Exec.pure _ _)
      · rw [hs]
        exact .stored (Nat.le_refl _) hadds hget hnext himage

/-- The location is printed into a new string, if there is memory for it. -/
theorem physical_address_to_str_from_syms_exec (frame : Frame) (bin : Bfd) (table : ℕ) (a : UInt64)
    (h : Heap Object) : ∃ r h',
    Exec (physical_address_to_str_from_syms frame bin (some table) a) h r h' ∧
      Returned (fun _ _ => False) h h' (frame.location (bin.info a)) r := by
  obtain ⟨r, h', hexec, hreturned⟩ := newLocation_exec frame (bin.info a) h
  exact ⟨r, h', (lift_exec (find_in_sections_ok table a bin.sections) h).bind hexec, hreturned⟩

/-- A new string or `NULL`: nothing else is left but tables that BFD has allocated. -/
theorem physical_addr_to_str_from_file_exec {filename : List UInt8}
    (hset : frame.fileOutcome filename a ≠ .unset) (h : Heap Object) : ∃ r h',
    Exec (physical_addr_to_str_from_file frame filename a) h r h' ∧
      Returned IsTable h h' (frame.fileOutcome filename a).text r := by
  rw [physical_addr_to_str_from_file, Frame.fileOutcome] at *
  cases hopen : frame.bfd_openr filename with
  | none => exact ⟨none, h, Exec.pure _ _, .null (.refl _ h)⟩
  | some bin =>
    simp only [hopen] at hset ⊢
    cases hobject : bin.isObject with
    | false => exact ⟨none, h, Exec.pure _ _, .null (.refl _ h)⟩
    | true =>
      simp only [hobject, Bool.not_true, Bool.false_eq_true, if_false] at hset ⊢
      obtain ⟨ret, symbols, h₁, hread, hadds, ⟨htables, hneg⟩ | ⟨stored, htables, hneg, hpoints⟩⟩ :=
        read_symbols_exec bin h
      · rw [htables]
        refine ⟨none, h₁, hread.bind ?_, .null hadds⟩
        rw [if_pos hneg]
        exact Exec.pure _ _
      cases stored with
      | false => simp [htables] at hset
      | true =>
        cases symbols with
        | none => cases hpoints
        | some table =>
          obtain ⟨-, hnew, htable⟩ := hpoints
          obtain ⟨r, h₂, hsyms, hreturned⟩ :=
            physical_address_to_str_from_syms_exec frame bin table a h₁
          have hlive := hreturned.get htable
          obtain ⟨h₃, hfree, hget, hnext, -⟩ := free_exec hlive
          refine ⟨r, h₃, hread.bind ?_, ?_⟩
          · simp only [if_neg hneg]
            exact hsyms.bind (hfree.bind (Exec.pure _ _))
          · simp only [htables, Outcome.text_ofText]
            exact (Returned.after hadds hreturned).freed hnew hlive (fun _ => Object.noConfusion)
              hnext hget

/-- The pointer to the table is used although it has not been set. -/
theorem physical_addr_to_str_from_file_unset {filename : List UInt8}
    (hunset : frame.fileOutcome filename a = .unset) (h : Heap Object) :
    Faults (physical_addr_to_str_from_file frame filename a) h := by
  rw [physical_addr_to_str_from_file, Frame.fileOutcome] at *
  cases hopen : frame.bfd_openr filename with
  | none => simp [hopen] at hunset
  | some bin =>
    simp only [hopen] at hunset ⊢
    cases hobject : bin.isObject with
    | false => simp [hobject] at hunset
    | true =>
      simp only [hobject, Bool.not_true, Bool.false_eq_true, if_false] at hunset ⊢
      obtain ⟨ret, symbols, h₁, hread, hadds, ⟨htables, hneg⟩ | ⟨stored, htables, hneg, hpoints⟩⟩ :=
        read_symbols_exec bin h
      · simp [htables] at hunset
      cases stored with
      | true =>
        rw [htables] at hunset
        exact absurd hunset (Outcome.ofText_ne_unset _)
      | false =>
        cases symbols with
        | some table => cases hpoints.1
        | none =>
          apply hread.bind_faults
          simp only [if_neg hneg]
          apply Faults.of_forall
          intro buf h₂
          exact fault_faults _ _

end XcpNgGeneric.Stacktrace
