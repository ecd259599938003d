import XcpNgGeneric.Memory.Numerals
import XcpNgGeneric.Stacktrace.Order

/-!
# Reading a stack trace

The text that `xcp_stacktrace_symbols_fd` prints is read back: the lines in their order, and in each
line the number of the frame and the address in the object file, which other tools need. What is
read is compared with the objects that contain the addresses.

## Main results

* `readFrame_frameLine`: the number and the address of a line.
* `location_begins`: what a location begins with.
* `trace_read`: the whole trace.
-/

namespace XcpNgGeneric.Stacktrace

open Memory

/-! ## Reading -/

/-- The address after the bracket, which is not known where the digits are question marks. -/
def readAddress : List UInt8 → Option ℕ
  | 48 :: 120 :: 63 :: _ => none
  | cs => some (readHexadecimal cs).1

/-- The number of a frame, and its address. -/
def readFrame : List UInt8 → Option (ℕ × Option ℕ)
  | 35 :: cs =>
    match (readNumber 10 0 cs).2.dropWhile (· == 32) with
    | 91 :: address => some ((readNumber 10 0 cs).1, readAddress address)
    | _ => none
  | _ => none

def readTrace (text : List UInt8) : List (ℕ × Option ℕ) :=
  (lines newline text).filterMap readFrame

/-! ## One line -/

theorem dropWhile_spaces (k : ℕ) {c : UInt8} (hc : c ≠ 32) (cs : List UInt8) :
    (List.replicate k 32 ++ c :: cs).dropWhile (· == 32) = c :: cs := by
  induction k with
  | zero => exact List.dropWhile_cons_of_neg (by simpa using hc)
  | succ k ih =>
    rw [List.replicate_succ, List.cons_append, List.dropWhile_cons_of_pos (by rfl), ih]

/-- A line without its number. -/
theorem readFrame_frameNumber (size j : ℕ) (cs : List UInt8) :
    readFrame (frameNumber size j ++ 91 :: cs) = some (j, readAddress cs) := by
  obtain ⟨k, hk⟩ : ∃ k, sizeLength size - (numeral 10 j).length = k := ⟨_, rfl⟩
  have hrest : NoDigit 10 (List.replicate k 32 ++ 91 :: cs) := by
    intro c hc d hd
    have hdigit : digitValue c = none := by
      cases k with
      | zero =>
        obtain rfl := Option.some.inj hc
        decide
      | succ k =>
        obtain rfl := Option.some.inj hc
        decide
    rw [hdigit] at hd
    cases hd
  have hread : readNumber 10 0 (numeral 10 j ++ (List.replicate k 32 ++ 91 :: cs)) =
      (j, List.replicate k 32 ++ 91 :: cs) := readNumber_zero (by decide) (by decide) j hrest
  have hline : frameNumber size j ++ 91 :: cs =
      35 :: (numeral 10 j ++ (List.replicate k 32 ++ 91 :: cs)) := by
    rw [frameNumber, leftJustified, hk, List.append_assoc, List.append_assoc]
    rfl
  rw [hline, readFrame, hread]
  simp only [dropWhile_spaces k (show (91 : UInt8) ≠ 32 by decide)]

/-- The address that the location of a frame is printed with: in the file of the object, or none. -/
def Env.address (env : Env) (buffer : ℕ → UInt64) (j : ℕ) : Option ℕ :=
  (dl_iterate_phdr (env.frame j).objects (buffer j)).map fun info =>
    (buffer j - info.dlpi_addr).toNat

variable {env : Env} {buffer : ℕ → UInt64} {name : CString} {size : ℕ}

theorem text_begins (info : SymbolInfo) : ∃ rest, info.text =
    91 :: (hexadecimal HEX_ADDRESS_LEN info.physAddress.toNat ++ 93 :: rest) := by
  have hopen : ascii "[".toList = [91] := by decide
  have hclose : ascii "] ".toList = 93 :: [32] := by decide
  refine ⟨[32] ++ (nameOr info.filename ++ (ascii ":".toList ++ (numeral 10 info.line.toNat ++
    (ascii "  ".toList ++ (nameOr info.function ++ (ascii "() in ".toList ++
      info.libraryName.bytes)))))), ?_⟩
  rw [SymbolInfo.text, hopen, hclose]
  simp only [List.append_assoc, List.cons_append, List.nil_append]

theorem readAddress_of_ne {cs : List UInt8} (h : ∀ ds, cs ≠ 48 :: 120 :: 63 :: ds) :
    readAddress cs = some (readHexadecimal cs).1 := by
  unfold readAddress
  split
  · exact absurd rfl (h _)
  · rfl

/-- The digits of an address, where a bracket follows them. -/
theorem readAddress_hexadecimal (n : ℕ) (rest : List UInt8) :
    readAddress (hexadecimal HEX_ADDRESS_LEN n ++ 93 :: rest) = some n := by
  have hrest : NoDigit 16 (93 :: rest) := by
    intro c hc d hd
    obtain rfl := Option.some.inj hc
    have hdigit : digitValue 93 = none := by decide
    rw [hdigit] at hd
    cases hd
  have hne : ∀ ds, hexadecimal HEX_ADDRESS_LEN n ++ 93 :: rest ≠ 48 :: 120 :: 63 :: ds := by
    intro ds h
    -- the question mark would be one of the digits
    have hlen : 16 ≤ (hexadecimal HEX_ADDRESS_LEN n).length := length_hexadecimal _ _
    have hget : (hexadecimal HEX_ADDRESS_LEN n)[2]? = some 63 :=
      calc (hexadecimal HEX_ADDRESS_LEN n)[2]?
          = (hexadecimal HEX_ADDRESS_LEN n ++ 93 :: rest)[2]? :=
            (List.getElem?_append_left (by omega)).symm
        _ = some 63 := by rw [h]; rfl
    rcases digitValue_of_mem_hexadecimal (List.mem_of_getElem? hget) with hdigit | hx
    · exact hdigit (by decide)
    · cases hx
  rw [readAddress_of_ne hne, readHexadecimal_hexadecimal _ _ hrest (by simp)]

/-- What is printed about an address in an object file. -/
theorem fileOutcome_located {frame : Frame} {filename : List UInt8} {a : UInt64} {s : CString}
    (hs : frame.fileOutcome filename a = .located s) :
    ∃ info : SymbolInfo, s.bytes = info.text ∧ info.physAddress = a := by
  unfold Frame.fileOutcome at hs
  split at hs
  · cases hs
  next bin hopen =>
    split at hs
    · cases hs
    · split at hs
      · cases hs
      · cases hs
      · unfold Frame.location at hs
        split at hs
        · refine ⟨bin.info a, ?_, rfl⟩
          rw [← Outcome.located.inj hs]
        · cases hs

/-- **What a location begins with**: the bracket and the address. -/
theorem readAddress_location {j : ℕ} {s : CString}
    (hs : (env.frame j).outcome (buffer j) name = .located s) :
    ∃ cs, s.bytes = 91 :: cs ∧ readAddress cs = env.address buffer j := by
  rw [Frame.outcome] at hs
  rw [Env.address]
  cases hfind : dl_iterate_phdr (env.frame j).objects (buffer j) with
  | none =>
    rw [hfind] at hs
    simp only [] at hs
    split at hs
    · obtain rfl := Outcome.located.inj hs
      exact ⟨_, rfl, rfl⟩
    · cases hs
  | some info =>
    rw [hfind] at hs
    obtain ⟨text, htext, haddr⟩ := fileOutcome_located hs
    obtain ⟨rest, hrest⟩ := text_begins text
    refine ⟨_, htext.trans hrest, ?_⟩
    rw [readAddress_hexadecimal, haddr]
    rfl

/-! ## The trace -/

/-- The lines are whole, and no name in them has a line break. -/
structure Env.Legible (env : Env) (accepted : ℕ → ℕ) (buffer : ℕ → UInt64) (size : ℕ)
    (name : CString) : Prop where
  whole : ∀ j, j < size → (frameLine size (env.strings buffer name) j).length < accepted j
  unbroken : ∀ j, j < size → newline ∉ (env.strings buffer name j).bytes

theorem newline_notMem_frameNumber (size j : ℕ) : newline ∉ frameNumber size j := by
  rw [frameNumber, leftJustified, List.mem_append, List.mem_append, not_or, not_or]
  refine ⟨by decide, fun h => ?_, fun h => ?_⟩
  · exact digitValue_of_mem (by decide) (by decide) h (by decide)
  · exact absurd (List.eq_of_mem_replicate h) (by decide)

/-- Where the lines are whole, they are printed one after another. -/
theorem flatMap_dprintf {accepted : ℕ → ℕ} {line : ℕ → List UInt8}
    (h : ∀ j, j < size → (line j).length < accepted j) :
    ((List.range size).flatMap fun j => dprintf (accepted j) (line j)) =
      (List.range size).flatMap fun j => line j ++ [newline] := by
  apply List.flatMap_congr
  intro j hj
  apply List.take_of_length_le
  rw [List.length_append, List.length_singleton]
  exact h j (List.mem_range.1 hj)

/-- The trace that is printed, read back. -/
theorem readTrace_lines {accepted : ℕ → ℕ} (hlocated : env.LocatedFrom buffer size name 0)
    (hlegible : env.Legible accepted buffer size name) :
    readTrace ((List.range size).flatMap fun j =>
      dprintf (accepted j) (frameLine size (env.strings buffer name) j)) =
      (List.range size).map fun j => (j, env.address buffer j) := by
  have hline : ∀ j ∈ List.range size,
      newline ∉ frameLine size (env.strings buffer name) j := by
    intro j hj
    rw [frameLine, List.mem_append, not_or]
    exact ⟨newline_notMem_frameNumber size j, hlegible.unbroken j (List.mem_range.1 hj)⟩
  rw [flatMap_dprintf hlegible.whole, readTrace, lines_flatMap newline _ hline,
    List.filterMap_map]
  have hread : ∀ j ∈ List.range size,
      readFrame (frameLine size (env.strings buffer name) j) = some (j, env.address buffer j) := by
    intro j hj
    obtain ⟨cs, hbytes, haddress⟩ :=
      readAddress_location (hlocated.outcome (Nat.zero_le j) (List.mem_range.1 hj))
    rw [frameLine, hbytes, readFrame_frameNumber, haddress]
  exact (List.filterMap_congr hread).trans (congrFun List.filterMap_eq_map _)

/-- **The trace can be read.** If every step succeeds and the lines are whole and unbroken, a reader
of what `xcp_stacktrace_symbols_fd` prints finds all frames in order, and for each frame its address
in the object that contains it, or that no object does. -/
theorem trace_read {accepted : ℕ → ℕ} (hsize : size ≤ INT_MAX)
    (hsucceeds : env.Succeeds buffer size)
    (hlegible : ∀ name, env.self.result = some name → env.Legible accepted buffer size name)
    (hloaded : ∀ j, j < size → Loaded (env.frame j).objects) (h : Heap Object) :
    ∃ out h', ∃ address : ℕ → Option ℕ,
      Exec (xcp_stacktrace_symbols_fd env accepted buffer size) h (0, out) h' ∧
      readTrace out = ((List.range size).map fun j => (j, address j)) ∧
      ∀ j, j < size → ∀ a, address j = some a ↔ ∃ info ∈ (env.frame j).objects,
        info.Contains (buffer j) ∧ (buffer j - info.dlpi_addr).toNat = a := by
  obtain ⟨name, hself, htable, hlocated, hblock⟩ := hsucceeds
  obtain ⟨h', hexec, -⟩ :=
    symbols_fd_prints hsize hself htable hlocated hblock accepted h
  refine ⟨_, h', env.address buffer, hexec, readTrace_lines hlocated (hlegible name hself), ?_⟩
  intro j hj a
  rw [Env.address, Option.map_eq_some_iff]
  constructor
  · rintro ⟨info, hfind, ha⟩
    obtain ⟨hmem, hin⟩ := (located_object (hloaded j hj) (buffer j) info).1 hfind
    exact ⟨info, hmem, hin, ha⟩
  · rintro ⟨info, hmem, hin, ha⟩
    exact ⟨info, (located_object (hloaded j hj) (buffer j) info).2 ⟨hmem, hin⟩, ha⟩

/-- An object file without sections. -/
def bare : Bfd where
  filename := programName
  isObject := true
  hasSyms := true
  minisymbols _ := ⟨1, true⟩
  sections := []

/-- The program is loaded at one page, and its file is `bare`. -/
def inProgram : Env where
  self := program
  table := true
  frame _ := { outside with objects := [segment 4096], bfd_openr := fun _ => some bare }
  block := true

/-- An address in the program, and one outside. -/
def twoAddresses (j : ℕ) : UInt64 := if j = 0 then 4100 else 0

theorem trace_read_inProgram : ∃ out h',
    Exec (xcp_stacktrace_symbols_fd inProgram (fun _ => 100) twoAddresses 2) Heap.empty
      (0, out) h' ∧
    ∃ address : ℕ → Option ℕ, readTrace out = [(0, address 0), (1, address 1)] ∧
      address 0 = some 4 := by
  have hsucceeds : inProgram.Succeeds twoAddresses 2 := by
    refine ⟨programName, program_result, rfl, fun j _ _ => ?_, rfl⟩
    cases j with
    | zero => exact ⟨_, rfl⟩
    | succ j => exact ⟨unknown, rfl⟩
  have hlegible : inProgram.Legible (fun _ => 100) twoAddresses 2 programName := by
    constructor
    · decide +kernel
    · decide +kernel
  obtain ⟨out, h', address, hexec, hread, haddress⟩ := trace_read (by decide) hsucceeds
    (fun name hname => by
      rw [show inProgram.self = program from rfl, program_result] at hname
      exact Option.some.inj hname ▸ hlegible)
    (fun j _ => ⟨by simp [inProgram, segment, Fits, DlPhdrInfo.start], List.pairwise_singleton _ _⟩)
    Heap.empty
  refine ⟨out, h', hexec, address, hread, (haddress 0 (by decide) 4).2 ⟨segment 4096, ?_, ?_, rfl⟩⟩
  · exact List.mem_singleton_self _
  · exact ⟨⟨PT_LOAD, 0, 4096⟩, List.mem_singleton_self _, rfl, by decide, by decide⟩

end XcpNgGeneric.Stacktrace
