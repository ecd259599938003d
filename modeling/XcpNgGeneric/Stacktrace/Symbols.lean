import Mathlib.Data.Nat.Log
import XcpNgGeneric.File.Readlink
import XcpNgGeneric.Memory.Format

/-!
# Symbols of a stack trace

The functions of `bfd-stacktrace.c`. What the dynamic linker, BFD and the allocator answer is the
environment of a call: one `Frame` for each address, and an `Env` for the call as a whole.

`stacktrace_symbols` locates the frames from the last to the first, and then copies the locations
into one block. The jumps to `fail` carry the index of the loop in which they are made.
-/

namespace XcpNgGeneric.Stacktrace

open Memory

/-! ## The environment -/

/-- `PT_LOAD`. -/
def PT_LOAD : UInt32 := 1

structure ProgramHeader where
  p_type : UInt32
  p_vaddr : UInt64
  p_memsz : UInt64

/-- An object that `dl_iterate_phdr` visits. -/
structure DlPhdrInfo where
  dlpi_addr : UInt64
  dlpi_name : Option CString
  dlpi_phdr : List ProgramHeader

/-- What `bfd_find_nearest_line` finds. -/
structure Line where
  filename : Option CString
  function : Option CString
  line : UInt32

structure Section where
  /-- The flag `SEC_ALLOC`. -/
  alloc : Bool
  vma : UInt64
  size : UInt64
  /-- The answer of `bfd_find_nearest_line` at an offset. -/
  nearest_line : UInt64 → Option Line

/-- The answer of `bfd_read_minisymbols`. -/
structure Minisymbols where
  count : ℤ
  /-- Whether a table has been allocated and its address stored. -/
  stored : Bool

/-- An open object file. -/
structure Bfd where
  filename : CString
  /-- The answer of `bfd_check_format`. -/
  isObject : Bool
  /-- The flag `HAS_SYMS`. -/
  hasSyms : Bool
  /-- For the ordinary and for the dynamic symbols. -/
  minisymbols : Bool → Minisymbols
  sections : List Section

/-- What is answered while one frame is located. -/
structure Frame where
  /-- The objects that `dl_iterate_phdr` visits. -/
  objects : List DlPhdrInfo
  /-- Whether `asprintf` succeeds. -/
  asprintf : Bool
  bfd_openr : List UInt8 → Option Bfd
  /-- Whether `snprintf` can compute the length of the location. -/
  measured : Bool
  /-- Whether there is memory for the location. -/
  memory : Bool
  /-- Whether `snprintf` can print the location. -/
  printed : Bool

/-- What is answered during one call of `stacktrace_symbols`. -/
structure Env where
  /-- The link `/proc/self/exe`. -/
  self : File.Links
  /-- Whether there is memory for `locations`. -/
  table : Bool
  frame : ℕ → Frame
  /-- Whether there is memory for the block. -/
  block : Bool

/-! ## Locations as text -/

structure SymbolInfo where
  filename : Option CString
  function : Option CString
  line : UInt32
  physAddress : UInt64
  libraryName : CString

/-- `HEX_ADDRESS_LEN`. -/
def HEX_ADDRESS_LEN : ℕ := 16

/-- The name, or two question marks if it is missing or empty. -/
def nameOr (name : Option CString) : List UInt8 :=
  match name with
  | none => ascii "??".toList
  | some s => if s.get 0 = NUL then ascii "??".toList else s.bytes

/-- What `symbol_info_to_str` prints. -/
def SymbolInfo.text (info : SymbolInfo) : List UInt8 :=
  ascii "[".toList ++ hexadecimal HEX_ADDRESS_LEN info.physAddress.toNat ++ ascii "] ".toList ++
    nameOr info.filename ++ ascii ":".toList ++ numeral 10 info.line.toNat ++
    ascii "  ".toList ++ nameOr info.function ++ ascii "() in ".toList ++ info.libraryName.bytes

/-- The result of `symbol_info_to_str`, which is that of `snprintf`. -/
def symbol_info_to_str (ok : Bool) (info : SymbolInfo) : ℤ :=
  if ok && info.text.length ≤ INT_MAX then info.text.length else -1

/-- The location of an address that no object contains. -/
def unknown : CString where
  bytes := ascii "[0x????] ??:??  ??()".toList
  nul_free := by decide
  fits := by decide

/-! ## Reading an object file -/

/-- `bfd_read_minisymbols`; `symbols` is indeterminate until a table has been stored. -/
def bfd_read_minisymbols (answer : Minisymbols) (symbols : Option ℕ) : Mem (ℤ × Option ℕ) :=
  if answer.stored then fun h => .ok ((answer.count, some h.next), h.alloc .symbols)
  else pure (answer.count, symbols)

/-- The ordinary symbols, and the dynamic ones if there are none. -/
def readEither (bin : Bfd) : Mem (ℤ × Option ℕ) := do
  let (count, symbols) ← bfd_read_minisymbols (bin.minisymbols false) none
  if count = 0 then bfd_read_minisymbols (bin.minisymbols true) symbols
  else pure (count, symbols)

def read_symbols (bin : Bfd) : Mem (ℤ × Option ℕ) :=
  if !bin.hasSyms then pure (-1, none)
  else do
    let (count, symbols) ← readEither bin
    if count < 0 then pure (-1, symbols) else pure (0, symbols)

def find_physical_address_info (sec : Section) (symbols : Option ℕ) (physAddress : UInt64) :
    Except Fault (Option Line) :=
  if !sec.alloc then .ok none
  else if physAddress < sec.vma then .ok none
  else if physAddress ≥ sec.vma + sec.size then .ok none
  else match symbols with
    | none => .error .indeterminate
    | some _ => .ok (sec.nearest_line (physAddress - sec.vma))

/-- The loop over the sections. -/
def find_in_sections (symbols : Option ℕ) (physAddress : UInt64) :
    List Section → Except Fault (Option Line)
  | [] => .ok none
  | sec :: sections => do
    match ← find_physical_address_info sec symbols physAddress with
    | some line => pure (some line)
    | none => find_in_sections symbols physAddress sections

/-- The information about an address, for which a line was found or not. -/
def symbolInfo (bin : Bfd) (physAddress : UInt64) (line : Option Line) : SymbolInfo where
  filename := line.bind Line.filename
  function := line.bind Line.function
  line := (line.map Line.line).getD 0
  physAddress := physAddress
  libraryName := bin.filename

/-- The information is printed into a new string. -/
def newLocation (frame : Frame) (info : SymbolInfo) : Mem (Option ℕ) :=
  -- the sum of two `int`
  let size := (symbol_info_to_str frame.measured info + 1).bmod (2 ^ 32)
  if size ≤ 0 then pure none
  else do
    match ← alloc frame.memory size.toNat (.bytes (Buffer.fresh size.toNat)) with
    | none => pure none
    | some str =>
      if symbol_info_to_str frame.printed info < 0 then
        free (some str)
        pure none
      else
        storeBytes str 0 (info.text ++ [NUL])
        pure (some str)

def physical_address_to_str_from_syms (frame : Frame) (bin : Bfd) (symbols : Option ℕ)
    (physAddress : UInt64) : Mem (Option ℕ) := do
  let line ← find_in_sections symbols physAddress bin.sections
  newLocation frame (symbolInfo bin physAddress line)

def physical_addr_to_str_from_file (frame : Frame) (filename : List UInt8)
    (physAddress : UInt64) : Mem (Option ℕ) := do
  match frame.bfd_openr filename with
  | none => pure none
  | some bin =>
    if !bin.isObject then
      pure none
    else
      let (ret, symbols) ← read_symbols bin
      if ret < 0 then
        pure none
      else
        let buf ← physical_address_to_str_from_syms frame bin symbols physAddress
        match symbols with
        | none => fault .indeterminate
        | some table =>
          free (some table)
          pure buf

/-! ## Locating the frames -/

def find_symbol_location (address : UInt64) (info : DlPhdrInfo) : Bool :=
  info.dlpi_phdr.any fun header =>
    let start := info.dlpi_addr + header.p_vaddr
    header.p_type == PT_LOAD && start ≤ address && address < start + header.p_memsz

/-- `dl_iterate_phdr(find_symbol_location, &symbol)`: the object that contains the address. -/
def dl_iterate_phdr (objects : List DlPhdrInfo) (address : UInt64) : Option DlPhdrInfo :=
  objects.find? (find_symbol_location address)

/-- The cells that `locations` points to. -/
def loadCells (locations : Option ℕ) : Mem (Buffer (Option ℕ)) := fun h =>
  match locations.bind h.get with
  | some (.pointers cells) => .ok (cells, h)
  | _ => .error .notAllocated

/-- `locations[i]`. -/
def readCell (locations : Option ℕ) (i : ℤ) : Mem (Option ℕ) := do
  let cells ← loadCells locations
  if i < 0 then fault .outOfBounds
  else
    match cells[i.toNat]? with
    | none => fault .outOfBounds
    | some none => fault .indeterminate
    | some (some p) => pure p

/-- The cell `i` of `locations` is changed; `none` makes it indeterminate. -/
def setCell (locations i : ℕ) (value : Option (Option ℕ)) : Mem Unit := do
  let cells ← loadCells (some locations)
  if i < cells.length then assign locations (.pointers (cells.set i value))
  else fault .outOfBounds

/-- `asprintf(&locations[i], …)`, which leaves the cell indeterminate if it fails. -/
def asprintf (ok : Bool) (locations i : ℕ) (s : CString) : Mem ℤ := do
  match ← alloc ok (s.strlen + 1) (.bytes (s.image.map some)) with
  | none =>
    setCell locations i none
    pure (-1)
  | some p =>
    setCell locations i (some (some p))
    pure s.strlen

/-- The file of a frame: the object, or the program itself if the object has no name. -/
def objectFile (info : DlPhdrInfo) (self : List UInt8) : List UInt8 :=
  match info.dlpi_name with
  | none => self
  | some filepath => if filepath.get 0 ≠ NUL then filepath.bytes else self

/-- One iteration of the first loop: the length of the location of frame `i`; `none` is
`goto fail`. -/
def locateFrame (frame : Frame) (address : UInt64) (locations self i : ℕ) : Mem (Option ℕ) := do
  match dl_iterate_phdr frame.objects address with
  | none =>
    let size ← asprintf frame.asprintf locations i unknown
    if size < 0 then pure none else pure (some size.toNat)
  | some info =>
    let self ← readString self
    let str ← physical_addr_to_str_from_file frame (objectFile info self)
      (address - info.dlpi_addr)
    setCell locations i (some str)
    match str with
    | none => pure none
    | some str =>
      let s ← readString str
      pure (some s.length)

/-- How the first loop ends. -/
inductive Located
  /-- `goto fail`, with this index. -/
  | fail (i : ℤ)
  | done (charCount : ℕ)

/-- The first loop, before the iterations for the frames below the given one. -/
def locate (env : Env) (buffer : ℕ → UInt64) (locations self : ℕ) : ℕ → ℕ → Mem Located
  | 0, charCount => pure (.done charCount)
  | i + 1, charCount => do
    match ← locateFrame (env.frame i) (buffer i) locations self i with
    | none => pure (.fail i)
    | some n => locate env buffer locations self i (sizeT (charCount + (n + 1)))

/-! ## The block -/

/-- `(int)log10((double)n)`. -/
def log10 (n : ℕ) : ℕ := Nat.log 10 n

/-- The width of the frame numbers, `(int)log10((double)XCP_MAX(1u, size - 1)) + 2`. -/
def sizeLength (size : ℕ) : ℕ := log10 (max 1 (sizeT (size + (2 ^ 64 - 1)))) + 2

/-- What the second loop prints before the location of frame `j`. -/
def frameNumber (size j : ℕ) : List UInt8 := ascii ['#'] ++ leftJustified (sizeLength size) j

/-- `malloc(n)`, for a block of `size` pointers and the bytes after them. -/
def allocBlock (mem : Bool) (n size : ℕ) : Mem (Option ℕ) :=
  alloc mem n (.block (Buffer.fresh (min size (n / 8))) (Buffer.fresh (n - size * 8)))

/-- The pointers and the bytes of a block. -/
def loadBlock (strings : ℕ) : Mem (Buffer ℕ × Buffer UInt8) := fun h =>
  match h.get strings with
  | some (.block table data) => .ok ((table, data), h)
  | _ => .error .notAllocated

/-- The bytes `xs` are stored at the offset `off` from the end of the pointers. -/
def storeData (strings off : ℕ) (xs : List UInt8) : Mem Unit := do
  let (table, data) ← loadBlock strings
  let data ← store data off xs
  assign strings (.block table data)

/-- `strings[j]` is made to point to the offset `off`. -/
def storePointer (strings j off : ℕ) : Mem Unit := do
  let (table, data) ← loadBlock strings
  let table ← store table j [off]
  assign strings (.block table data)

/-- The string that a pointer points to, which may be `NULL`. -/
def readStringAt : Option ℕ → Mem (List UInt8)
  | none => fault .notAllocated
  | some p => readString p

/-- The second loop, before the iterations for the frames below the given one. -/
def fill (size strings locations : ℕ) : ℕ → ℕ → Mem ℕ
  | 0, data => pure data
  | j + 1, data => do
    let number := frameNumber size j
    storeData strings data (number ++ [NUL])
    let offset := number.length
    let location ← readCell (some locations) j
    let s ← readStringAt location
    storeData strings (data + offset) (s ++ [NUL])
    storePointer strings j data
    free location
    fill size strings locations j (data + (offset + s.length + 1))

/-! ## The function -/

/-- The loop at `fail`, which goes on for `n` iterations. -/
def release (locations : Option ℕ) : ℕ → ℤ → Mem Unit
  | 0, _ => pure ()
  | n + 1, i => do
    let location ← readCell locations i
    free location
    release locations n (i + 1)

/-- What follows the label `fail`. -/
def fail (locations : Option ℕ) (self size : ℕ) (i : ℤ) : Mem (Option ℕ) := do
  release locations (size - i).toNat i
  free locations
  free (some self)
  pure none

/-- The third step. -/
def buildStrings (mem : Bool) (size locations self charCount : ℕ) : Mem (Option ℕ) := do
  let charCount := sizeT (charCount + (sizeLength size + 1) * size)
  match ← allocBlock mem (sizeT (charCount + size * 8)) size with
  | none => fail (some locations) self size (-1)
  | some strings =>
    let data ← fill size strings locations size 0
    if charCount ≠ data then
      fault .assertion
    else
      free (some locations)
      free (some self)
      pure (some strings)

/-- What follows the first loop. -/
def finish (env : Env) (size locations self : ℕ) : Located → Mem (Option ℕ)
  | .fail i => fail (some locations) self size i
  | .done charCount => buildStrings env.block size locations self charCount

def stacktrace_symbols (env : Env) (buffer : ℕ → UInt64) (size : ℕ) : Mem (Option ℕ) := do
  match ← File.xcp_readlink env.self with
  | none => pure none
  | some self =>
    match ← alloc env.table (size * 8) (.pointers (Buffer.fresh size)) with
    | none => fail none self size size
    | some locations =>
      let located ← locate env buffer locations self size 0
      finish env size locations self located

end XcpNgGeneric.Stacktrace
