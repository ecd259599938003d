import XcpNgGeneric.Foundations.Tree
import XcpNgGeneric.Path.Combine
import XcpNgGeneric.Path.WalkUp

/-!
# What pathnames name

The files of a system are a tree of directories, and a pathname names one of them for a process with
a working directory. `xcp_path_combine` and `xcp_path_parent_dir` compute with pathnames only; here
is what they do to the files that are named, in any tree.

## Main results

* `combine_resolves`: the subpath is resolved from the file that the pathname names.
* `parent_dir_resolves`: the file is the entry of the directory, and the two pathnames that are
  combined name the file again.
* `ancestors_resolve`: all directories on the way up exist, and lead back to the file.
-/

namespace XcpNgGeneric.Path

open Memory Words

/-- The files of a system. An entry is looked up with the symbolic links that it leads to, and `..`
is an entry. What a pathname with exactly two leading slashes begins from is up to the system. -/
structure FileSystem (ν : Type*) extends Tree UInt8 ν where
  root : ν
  doubleRoot : ν
  isDir_root : isDir root = true
  isDir_doubleRoot : isDir doubleRoot = true
  lookup_dot : ∀ d, isDir d = true → lookup d [DOT] = some d

namespace FileSystem

variable {ν : Type*} {fs : FileSystem ν} {cwd : ν}

/-- The directory where a pathname with `n` leading slashes begins. -/
def origin (fs : FileSystem ν) (cwd : ν) (n : ℕ) : ν :=
  if n = 0 then cwd else if n = 2 then fs.doubleRoot else fs.root

/-- The file that a pathname names for a process with the working directory `cwd`. The empty
pathname names none. -/
def find (fs : FileSystem ν) (cwd : ν) (pathname : List UInt8) : Option ν :=
  if pathname = [] then none else fs.resolve (fs.origin cwd) (parse SLASH pathname)

theorem isDir_origin (hcwd : fs.isDir cwd = true) (n : ℕ) : fs.isDir (fs.origin cwd n) = true := by
  unfold origin
  split
  · exact hcwd
  split
  · exact fs.isDir_doubleRoot
  · exact fs.isDir_root

theorem find_of_ne_nil {pathname : List UInt8} (h : pathname ≠ []) :
    fs.find cwd pathname = fs.resolve (fs.origin cwd) (parse SLASH pathname) := if_neg h

/-- A relative pathname is resolved from the working directory. -/
theorem find_rel {pathname : List UInt8} (h : pathname ≠ [])
    (hlead : (parse SLASH pathname).lead = 0) :
    fs.find cwd pathname = fs.resolve (fun _ => cwd) (parse SLASH pathname) := by
  rw [find_of_ne_nil h, Tree.resolve, Tree.resolve, hlead]
  rfl

end FileSystem

variable {ν : Type*} {fs : FileSystem ν} {cwd : ν}

/-! ## Combined pathnames -/

theorem separator_eq_seps (p : List UInt8) : separator p = seps SLASH (gap SLASH p) := by
  rw [separator, gap]
  split <;> rfl

theorem lead_eq_zero {s : List UInt8} (hs : s.head? ≠ some SLASH) : (parse SLASH s).lead = 0 := by
  have h := head?_render (parse SLASH s)
  rw [render_parse] at h
  exact Nat.eq_zero_of_not_pos fun hpos => hs (h.2 hpos)

/-- A relative subpath. -/
theorem find_join {p s : List UInt8} (hp : p ≠ []) (hs : s ≠ []) (hrel : s.head? ≠ some SLASH) :
    fs.find cwd (join p s) = (fs.find cwd p).bind fun d => fs.find d s := by
  have hlead := lead_eq_zero hrel
  obtain ⟨hnames, hsame, htrail⟩ := parse_append hp hs hlead
  have hne : (parse SLASH s).names ≠ [] :=
    Spelling.names_ne_nil (by rwa [render_parse]) hlead
  have hfind (d : ν) : fs.find d s = fs.resolve (fun _ => d) (parse SLASH s) :=
    FileSystem.find_rel hs hlead
  rw [FileSystem.find_of_ne_nil (by simp [join_rel hp hrel, hp]), FileSystem.find_of_ne_nil hp,
    join_rel hp hrel, separator_eq_seps, Tree.resolve_append hnames hsame htrail hne]
  simp only [hfind]

/-- The empty subpath. -/
theorem find_join_nil {p : List UInt8} (hp : p ≠ []) :
    fs.find cwd (join p []) = (fs.find cwd p).bind (fs.ifDir true) := by
  obtain ⟨hnames, hlead, htrail⟩ := @parse_append_gap UInt8 SLASH _ p hp
  have hjoin : join p [] = p ++ seps SLASH (gap SLASH p) := by
    rw [join_rel hp (by simp), List.append_nil, separator_eq_seps]
  rw [FileSystem.find_of_ne_nil (by simp [hjoin, hp]), FileSystem.find_of_ne_nil hp, hjoin,
    Tree.resolve_closed hnames hlead htrail]

/-- **What a combined pathname names.** The subpath is resolved as if the file that the pathname
names were the working directory; an absolute subpath is resolved by itself, as any is after the
empty pathname; and before the empty subpath, the pathname must be one of a directory. -/
theorem combine_resolves {pathname subpath res : CString}
    (h : Yields (xcp_path_combine true pathname subpath) res) (fs : FileSystem ν) (cwd : ν) :
    fs.find cwd res.bytes =
      if pathname.bytes = [] ∨ xcp_path_is_abs subpath = true then fs.find cwd subpath.bytes
      else if subpath.bytes = [] then (fs.find cwd pathname.bytes).bind (fs.ifDir true)
      else (fs.find cwd pathname.bytes).bind fun d => fs.find d subpath.bytes := by
  rw [combine_yields_iff.1 h]
  split_ifs with hearly hnil
  · rw [is_abs_iff_head?] at hearly
    rw [join, if_pos hearly]
  · obtain ⟨hp, -⟩ := not_or.1 hearly
    rw [hnil]
    exact find_join_nil hp
  · obtain ⟨hp, habs⟩ := not_or.1 hearly
    rw [is_abs_iff_head?] at habs
    exact find_join hp hnil habs

/-- The files `/`, `/a` and `/a/b`. -/
inductive Node
  | top
  | a
  | b
  deriving DecidableEq

def sample : FileSystem Node where
  isDir v := v ≠ .b
  lookup d n :=
    if d = .b then none
    else if n = [DOT] then some d
    else if d = .top ∧ n = [97] then some .a
    else if d = .a ∧ n = [98] then some .b
    else none
  isDir_of_lookup d n v h := by
    obtain ⟨hd, -⟩ := Option.ite_none_left_eq_some.1 h
    exact decide_eq_true hd
  root := .top
  doubleRoot := .top
  isDir_root := rfl
  isDir_doubleRoot := rfl
  lookup_dot d hd := by
    rw [if_neg (of_decide_eq_true hd), if_pos rfl]

theorem combine_resolves_short :
    sample.find .top [97, 47, 98] = ((sample.find .top [97]).bind fun d => sample.find d [98]) ∧
      sample.find .top [97, 47, 98] = some .b := by
  have h := @combine_resolves Node (short [97] (by decide)) (short [98] (by decide))
    (short [97, 47, 98] (by decide)) (combine_yields_iff.2 rfl) sample .top
  rw [if_neg (by decide), if_neg (by decide)] at h
  exact ⟨h, rfl⟩

/-! ## Directories -/

theorem resolve_rootName (hcwd : fs.isDir cwd = true) (n : ℕ) :
    fs.resolve (fs.origin cwd) (rootName n) = some (fs.origin cwd n) := by
  have hdir (k : ℕ) : fs.resolve (fs.origin cwd) (.blank k : Pathname) = some (fs.origin cwd k) :=
    Tree.ifDir_of_isDir (FileSystem.isDir_origin hcwd k) _
  by_cases hzero : n = 0
  · subst hzero
    show ((fs.lookup cwd [DOT]).bind fun w => some w).bind (fs.ifDir false) = some cwd
    rw [fs.lookup_dot cwd hcwd, Option.bind_some, Option.bind_some, Tree.ifDir_false]
  · by_cases htwo : n = 2
    · subst htwo
      exact hdir 2
    · have hone : fs.origin cwd n = fs.origin cwd 1 := by simp [FileSystem.origin, hzero, htwo]
      rw [rootName, if_neg hzero, if_neg htwo, hone]
      exact hdir 1

/-- A file is the entry with the last name in the directory. -/
theorem resolve_words (hcwd : fs.isDir cwd = true) (lead : ℕ) (before : List (Spaced SLASH))
    (last : Word SLASH) (trail : ℕ) :
    fs.resolve (fs.origin cwd) (.words lead before last trail) =
      (fs.resolve (fs.origin cwd) (up (.words lead before last trail))).bind fun d =>
        (fs.lookup d last.letters).bind (fs.ifDir (0 < trail)) := by
  cases before with
  | nil =>
    rw [up, resolve_rootName hcwd, Option.bind_some, Tree.resolve, Spelling.names_words,
      List.reverse_nil, List.map_nil, List.nil_append, Tree.walk_singleton]
    rfl
  | cons x before =>
    rw [up, Tree.resolve, Tree.resolve, Spelling.names_words_cons, Tree.walk_append,
      Option.bind_assoc, Option.bind_assoc]
    congr 1
    funext d
    rw [Tree.walk_singleton, Spelling.trail, Spelling.trail, decide_eq_false (Nat.lt_irrefl 0),
      Tree.ifDir_false, Option.bind_some]

theorem parse_ne_blank {bytes : List UInt8} (h : parse SLASH bytes ≠ .blank 0) : bytes ≠ [] := by
  rintro rfl
  exact h rfl

theorem up_ne_blank (P : Pathname) : up P ≠ .blank 0 := by
  have hroot (n : ℕ) : rootName n ≠ .blank 0 := by
    unfold rootName
    split
    · exact nofun
    split <;> simp
  cases P with
  | blank n => exact hroot n
  | words lead before last trail =>
    cases before with
    | nil => exact hroot lead
    | cons x before => exact nofun

theorem find_dir (fs : FileSystem ν) (cwd : ν) {s dir : CString}
    (h : Yields (xcp_path_parent_dir true (some s)) dir) :
    fs.find cwd dir.bytes = fs.resolve (fs.origin cwd) (up (parse SLASH s.bytes)) := by
  have hparse := parse_dir h
  rw [FileSystem.find_of_ne_nil (parse_ne_blank (hparse ▸ up_ne_blank _)), hparse]

/-- A name without slashes is looked up. -/
theorem find_word (d : ν) (w : Word SLASH) : fs.find d w.letters = fs.lookup d w.letters := by
  have hparse : parse SLASH w.letters = .words 0 [] w 0 :=
    parse_eq (by simp [Spelling.render, body])
  rw [FileSystem.find_of_ne_nil w.ne_nil, hparse, Tree.resolve, Spelling.names_words,
    List.reverse_nil, List.map_nil, List.nil_append, Tree.walk_singleton, Spelling.trail,
    decide_eq_false (Nat.lt_irrefl 0)]
  have hid : fs.ifDir false = some := funext Tree.ifDir_false
  rw [hid, Option.bind_fun_some]
  rfl

/-- **What the directory of a pathname names.** Without a component the pathname and its directory
begin a walk at the same place. Otherwise the file is the entry with the last name in the directory,
if slashes after the name do not ask for a directory where there is none; and the directory and the
last name are combined to a pathname of the same file. -/
theorem parent_dir_resolves {pathname dir : CString}
    (h : Yields (xcp_path_parent_dir true (some pathname)) dir) (hcwd : fs.isDir cwd = true) :
    (∀ n, parse SLASH pathname.bytes = .blank n →
      fs.find cwd dir.bytes = some (fs.origin cwd n)) ∧
    ∀ lead before last trail, parse SLASH pathname.bytes = .words lead before last trail →
      fs.find cwd pathname.bytes = ((fs.find cwd dir.bytes).bind fun d =>
        (fs.lookup d last.letters).bind (fs.ifDir (0 < trail))) ∧
      ∀ name res : CString, name.bytes = last.letters →
        Yields (xcp_path_combine true dir name) res →
        fs.find cwd pathname.bytes = (fs.find cwd res.bytes).bind (fs.ifDir (0 < trail)) := by
  have hdir := find_dir fs cwd h
  constructor
  · intro n hparse
    rw [hdir, hparse]
    exact resolve_rootName hcwd n
  · intro lead before last trail hparse
    have hne : pathname.bytes ≠ [] := parse_ne_blank (by rw [hparse]; exact nofun)
    have hfile : fs.find cwd pathname.bytes = ((fs.find cwd dir.bytes).bind fun d =>
        (fs.lookup d last.letters).bind (fs.ifDir (0 < trail))) := by
      rw [FileSystem.find_of_ne_nil hne, hdir, hparse, resolve_words hcwd]
    refine ⟨hfile, fun name res hname hres => ?_⟩
    have hdirne : dir.bytes ≠ [] := parse_ne_blank (parse_dir h ▸ up_ne_blank _)
    have hrel : last.letters.head? ≠ some SLASH := fun hhead =>
      last.sep_free (List.mem_of_head? hhead)
    rw [hfile, combine_yields_iff.1 hres, hname, find_join hdirne last.ne_nil hrel,
      Option.bind_assoc]
    simp only [find_word]

/-- The directory of `/a/b/` has the entry `b`, but it is not a directory. -/
theorem parent_dir_resolves_short : ∃ dir : CString, dir.bytes = [47, 97] ∧
    sample.find .top [47, 97, 47, 98, 47] = ((sample.find .top dir.bytes).bind fun d =>
      (sample.lookup d [98]).bind (sample.ifDir true)) ∧
    sample.find .top dir.bytes = some .a ∧ sample.find .top [47, 97, 47, 98, 47] = none := by
  obtain ⟨dir, h, hdir⟩ := parent_dir_yields (short [47, 97, 47, 98, 47] (by decide))
  have hbytes : dir.bytes = [47, 97] := hdir
  have hcwd : sample.isDir .top = true := rfl
  obtain ⟨hfile, -⟩ := (parent_dir_resolves h hcwd).2 1
    [⟨Word.single 97 (by decide), 1, Nat.one_pos⟩] (Word.single 98 (by decide)) 1 rfl
  exact ⟨dir, hbytes, hfile, by rw [hbytes]; rfl, rfl⟩

/-! ## All directories on the way up -/

theorem iterate_rootName (n i : ℕ) : up^[i] (rootName n) = rootName n :=
  Function.iterate_fixed (up_rootName n) i

/-- The directories that are left after some calls, by induction on the components. -/
theorem resolve_iterate (hcwd : fs.isDir cwd = true) {P : Pathname} {v : ν}
    (hv : fs.resolve (fs.origin cwd) P = some v) (i : ℕ) :
    ∃ d, fs.resolve (fs.origin cwd) (up^[i + 1] P) = some d ∧ fs.isDir d = true ∧
      fs.walk d (P.names.drop (P.count - (i + 1))) = some v := by
  cases P with
  | blank n =>
    obtain ⟨rfl, -⟩ := Tree.ifDir_eq_some hv
    refine ⟨fs.origin cwd n, ?_, FileSystem.isDir_origin hcwd n, ?_⟩
    · rw [Function.iterate_succ_apply, up, iterate_rootName, resolve_rootName hcwd]
    · rw [Spelling.names_blank, List.drop_nil]
      rfl
  | words lead before last trail =>
    induction before generalizing last trail v i with
    | nil =>
      have hwalk : fs.walk (fs.origin cwd lead) [last.letters] = some v := by
        obtain ⟨w, hw, hdir⟩ := Option.bind_eq_some_iff.1 hv
        obtain ⟨rfl, -⟩ := Tree.ifDir_eq_some hdir
        exact hw
      refine ⟨fs.origin cwd lead, ?_, FileSystem.isDir_origin hcwd lead, ?_⟩
      · rw [Function.iterate_succ_apply, up, iterate_rootName, resolve_rootName hcwd]
      · rw [Spelling.count, List.length_nil, Nat.zero_add, Nat.add_comm i 1, Nat.sub_add_eq,
          Nat.sub_self, Nat.zero_sub, List.drop_zero]
        exact hwalk
    | cons x before ih =>
      have hparent : up (.words lead (x :: before) last trail) = .words lead before x.word 0 := rfl
      rw [resolve_words hcwd, hparent] at hv
      obtain ⟨u, hu, hlast⟩ := Option.bind_eq_some_iff.1 hv
      obtain ⟨w, hw, hdir⟩ := Option.bind_eq_some_iff.1 hlast
      obtain ⟨rfl, -⟩ := Tree.ifDir_eq_some hdir
      have hcount : (Spelling.words lead (x :: before) last trail).count =
          (Spelling.words lead before x.word 0).count + 1 := rfl
      have hlen := Spelling.length_names (.words lead before x.word 0)
      rw [Function.iterate_succ_apply, hparent, Spelling.names_words_cons, hcount,
        Nat.add_sub_add_right, List.drop_append_of_le_length (by omega)]
      cases i with
      | zero =>
        refine ⟨u, hu, fs.isDir_of_lookup u _ w hw, ?_⟩
        rw [Nat.sub_zero, ← hlen, List.drop_length, List.nil_append, Tree.walk_singleton, hw]
      | succ i =>
        obtain ⟨d, hd, hisDir, hwalk⟩ := ih i x.word 0 hu
        refine ⟨d, hd, hisDir, ?_⟩
        rw [Tree.walk_append, hwalk, Option.bind_some, Tree.walk_singleton, hw]

/-- **The way up exists, and leads back.** If a pathname names a file, all that repeated calls of
`xcp_path_parent_dir` return name directories, however often it is called, and the components that
were removed lead from each of them to the file. -/
theorem ancestors_resolve {f : ℕ → CString}
    (hf : ∀ i, Yields (xcp_path_parent_dir true (some (f i))) (f (i + 1)))
    (hcwd : fs.isDir cwd = true) {v : ν} (hv : fs.find cwd (f 0).bytes = some v) (i : ℕ) :
    ∃ d, fs.find cwd (f (i + 1)).bytes = some d ∧ fs.isDir d = true ∧
      fs.walk d ((parse SLASH (f 0).bytes).names.drop
        ((parse SLASH (f 0).bytes).count - (i + 1))) = some v := by
  have hparse (j : ℕ) : parse SLASH (f j).bytes = up^[j] (parse SLASH (f 0).bytes) := by
    induction j with
    | zero => rfl
    | succ j ih => rw [parse_dir (hf j), ih, Function.iterate_succ_apply']
  obtain ⟨-, hresolve⟩ := Option.ite_none_left_eq_some.1 hv
  obtain ⟨d, hd, hdir⟩ := resolve_iterate hcwd hresolve i
  refine ⟨d, ?_, hdir⟩
  rw [find_dir fs cwd (hf i), hparse, ← Function.iterate_succ_apply' up i, hd]

theorem ancestors_resolve_short : ∃ f : ℕ → CString, (f 0).bytes = [97, 47, 98] ∧
    ∀ i, ∃ d, sample.find .top (f (i + 1)).bytes = some d ∧ sample.isDir d = true ∧
      sample.walk d (([[97], [98]] : List (List UInt8)).drop (2 - (i + 1))) = some .b := by
  choose dirOf hyields _ using parent_dir_yields
  have hf (i : ℕ) : Yields (xcp_path_parent_dir true
      (some (dirOf^[i] (short [97, 47, 98] (by decide)))))
      (dirOf^[i + 1] (short [97, 47, 98] (by decide))) := by
    rw [Function.iterate_succ_apply']
    exact hyields _
  have hcwd : sample.isDir .top = true := rfl
  exact ⟨fun i => dirOf^[i] (short [97, 47, 98] (by decide)), rfl,
    ancestors_resolve hf hcwd rfl⟩

end XcpNgGeneric.Path
