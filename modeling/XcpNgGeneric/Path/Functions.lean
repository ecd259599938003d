import XcpNgGeneric.Memory.Strings

/-!
# Functions on pathnames

The functions of `path.c`. Pointers into a pathname are indices; every function that returns a new
string makes one allocation, and `mem` says whether it succeeds.
-/

namespace XcpNgGeneric.Path

open Memory

/-- `'/'`. -/
def SLASH : UInt8 := 47

/-- `'.'`. -/
def DOT : UInt8 := 46

def xcp_path_is_abs (pathname : CString) : Bool := pathname.get 0 == SLASH

def xcp_path_combine (mem : Bool) (pathname subpath : CString) :
    Except Fault (Option (Buffer UInt8)) :=
  if pathname.get 0 = NUL ∨ xcp_path_is_abs subpath then strdup mem subpath
  else
    let pathnameLen := pathname.strlen
    let subpathLen := subpath.strlen
    let addSeparator := pathname.get (pathnameLen - 1) != SLASH
    match malloc mem (sizeT (pathnameLen + subpathLen + 1 + addSeparator.toNat)) with
    | none => .ok none
    | some res => do
      -- 1. the pathname, 2. the separator, 3. the subpath with its terminator
      let res ← store res 0 (pathname.image.take pathnameLen)
      let res ← if addSeparator then store res pathnameLen [SLASH] else pure res
      let res ← store res (pathnameLen + addSeparator.toNat) (subpath.image.take (subpathLen + 1))
      pure (some res)

/-- The beginning of the slashes that end before `pos`. -/
def get_first_slash (start : CString) : ℕ → ℕ
  | 0 => 0
  | pos + 1 => if start.get pos ≠ SLASH then pos + 1 else get_first_slash start pos

/-- Steps 1 and 2 of `xcp_path_parent_dir`: the slash before the last component. -/
def parentSlash (pathname : CString) : Option ℕ :=
  match strrchr pathname SLASH with
  | none => none
  | some slash =>
    if slash ≠ 0 ∧ pathname.get (slash + 1) = NUL then
      let p := get_first_slash pathname slash
      if p ≠ 0 then memrchr pathname SLASH p else some slash
    else some slash

/-- Step 3: the default path. -/
def defaultDir (mem : Bool) : Except Fault (Option (Buffer UInt8)) :=
  match malloc mem 2 with
  | none => .ok none
  | some dir => do
    let dir ← store dir 0 [DOT]
    let dir ← store dir 1 [NUL]
    pure (some dir)

/-- The length of the directory that ends before `slash`. -/
def dirLen (pathname : CString) (slash : ℕ) : ℕ :=
  let p := get_first_slash pathname slash
  if p = 0 then (if slash = 1 then slash + 1 else 1) else p

/-- A copy of the first `len` bytes. -/
def copyDir (mem : Bool) (pathname : CString) (len : ℕ) :
    Except Fault (Option (Buffer UInt8)) := do
  match ← strndup mem pathname (len + 1) with
  | none => pure none
  | some dir =>
    let dir ← store dir len [NUL]
    pure (some dir)

def xcp_path_parent_dir (mem : Bool) (pathname : Option CString) :
    Except Fault (Option (Buffer UInt8)) :=
  match pathname with
  | none => defaultDir mem
  | some pathname =>
    match parentSlash pathname with
    | none => defaultDir mem
    | some slash => copyDir mem pathname (dirLen pathname slash)

end XcpNgGeneric.Path
