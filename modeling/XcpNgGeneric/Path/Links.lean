import Mathlib.Logic.Relation
import XcpNgGeneric.File.Readlink
import XcpNgGeneric.Path.Resolution

/-!
# Following symbolic links

The target of a symbolic link is a pathname for a process that works in the directory of the link.
To follow a link by hand, the directory of its pathname is combined with its target: the three
functions `xcp_readlink`, `xcp_path_parent_dir` and `xcp_path_combine` together.

## Main results

* `find_target`: a link that is followed once.
* `links_followed`: links that are followed one after another.
-/

namespace XcpNgGeneric.Path

open Memory Words

/-- A file system with symbolic links, which `lookup` follows; `link` is the target of an entry that
is one. -/
structure LinkSystem (ν : Type*) extends FileSystem ν where
  link : ν → List UInt8 → Option (List UInt8)
  link_ne_nil : ∀ d n t, link d n = some t → t ≠ []
  lookup_link : ∀ d n t, link d n = some t → lookup d n = toFileSystem.find d t

namespace LinkSystem

variable {ν : Type*}

/-- The target of a pathname whose last component is a symbolic link. -/
def linkAt (fs : LinkSystem ν) (cwd : ν) (pathname : List UInt8) : Option (List UInt8) :=
  match parse SLASH pathname with
  | .words lead before last 0 =>
    (fs.resolve (fs.origin cwd) (up (.words lead before last 0))).bind fun d =>
      fs.link d last.letters
  | _ => none

/-- The calls of `readlink` that `xcp_readlink` makes find the target of the link. -/
def Answers (fs : LinkSystem ν) (cwd : ν) (pathname : CString) (links : File.Links) : Prop :=
  ∀ i t, links.target i = some t → fs.linkAt cwd pathname.bytes = some t.bytes

end LinkSystem

variable {ν : Type*} {fs : LinkSystem ν} {cwd : ν} {pathname dir target res : CString}

/-- An absolute pathname is the same in every directory. -/
theorem find_abs {s : List UInt8} (hs : s.head? = some SLASH) (d : ν) :
    fs.find cwd s = fs.find d s := by
  have hne : s ≠ [] := by
    rintro rfl
    cases hs
  have hlead : 0 < (parse SLASH s).lead := by
    rw [← head?_render, render_parse]
    exact hs
  have horigin : fs.origin cwd (parse SLASH s).lead = fs.origin d (parse SLASH s).lead := by
    have hzero : (parse SLASH s).lead ≠ 0 := Nat.ne_of_gt hlead
    rw [FileSystem.origin, FileSystem.origin, if_neg hzero, if_neg hzero]
  rw [FileSystem.find_of_ne_nil hne, FileSystem.find_of_ne_nil hne, Tree.resolve, Tree.resolve,
    horigin]

/-- **A link is followed**: the directory and the target are combined to a pathname of the file. -/
theorem find_target (hcwd : fs.isDir cwd = true)
    (hlink : fs.linkAt cwd pathname.bytes = some target.bytes)
    (hdir : Yields (xcp_path_parent_dir true (some pathname)) dir)
    (hres : Yields (xcp_path_combine true dir target) res) :
    fs.find cwd res.bytes = fs.find cwd pathname.bytes := by
  unfold LinkSystem.linkAt at hlink
  split at hlink
  next lead before last hparse =>
    obtain ⟨d, hd, hlink⟩ := Option.bind_eq_some_iff.1 hlink
    have hfinddir : fs.find cwd dir.bytes = some d := by
      rw [find_dir fs.toFileSystem cwd hdir, hparse, hd]
    have hne : pathname.bytes ≠ [] := parse_ne_blank (by rw [hparse]; exact nofun)
    have htarget := fs.link_ne_nil d last.letters target.bytes hlink
    have hfile : fs.find cwd pathname.bytes = fs.find d target.bytes := by
      rw [FileSystem.find_of_ne_nil hne, hparse, resolve_words hcwd, hd, Option.bind_some,
        fs.lookup_link d last.letters target.bytes hlink]
      have hid : fs.ifDir false = some := funext Tree.ifDir_false
      rw [decide_eq_false (Nat.lt_irrefl 0), hid, Option.bind_fun_some]
    rw [hfile, combine_yields_iff.1 hres]
    by_cases habs : target.bytes.head? = some SLASH
    · rw [join_abs _ habs]
      exact find_abs habs d
    · have hdirne : dir.bytes ≠ [] := parse_ne_blank (parse_dir hdir ▸ up_ne_blank _)
      rw [find_join hdirne htarget habs, hfinddir, Option.bind_some]
  next => cases hlink

/-- What `xcp_readlink` returns, some call of `readlink` has found. -/
theorem target_of_found {links : File.Links} {fuel i bufSize : ℕ} {s : CString}
    (h : links.found fuel i bufSize = some s) : ∃ j, links.target j = some s := by
  induction fuel generalizing i bufSize with
  | zero => cases h
  | succ fuel ih =>
    rw [File.Links.found] at h
    cases ht : links.target i with
    | none =>
      rw [ht] at h
      cases h
    | some t =>
      simp only [ht] at h
      split_ifs at h with hfree hmem
      · exact ⟨i, ht.trans h⟩
      · exact ih h

/-- A string that `xcp_readlink` returns is the target of the link. -/
theorem linkAt_of_readlink {links : File.Links} {h h' : Heap Object} {p : ℕ} {b : Buffer UInt8}
    (hlinks : fs.Answers cwd pathname links) (hread : Exec (File.xcp_readlink links) h (some p) h')
    (hp : h'.get p = some (.bytes b)) (hb : IsString b target) :
    fs.linkAt cwd pathname.bytes = some target.bytes := by
  obtain ⟨r, h₁, hexec, hreturned⟩ := File.xcp_readlink_exec links h
  obtain ⟨rfl, rfl⟩ : r = some p ∧ h₁ = h' := by
    have heq := Except.ok.inj (hexec.symm.trans hread)
    exact ⟨congrArg Prod.fst heq, congrArg Prod.snd heq⟩
  generalize hresult : links.result = result at hreturned
  cases hreturned with
  | @string s _ b' hnew hp' hs hadds =>
    rw [hp] at hp'
    obtain rfl := Object.bytes.inj (Option.some.inj hp')
    obtain rfl := hb.unique hs
    rw [File.Links.result] at hresult
    split at hresult
    · obtain ⟨j, hj⟩ := target_of_found hresult
      exact hlinks j target hj
    · cases hresult

/-- One link is followed with the three functions. -/
inductive Follows (fs : LinkSystem ν) (cwd : ν) (pathname : CString) : CString → Prop
  | target {links : File.Links} {h h' : Heap Object} {p : ℕ} {b : Buffer UInt8}
    {target dir res : CString} (hlinks : fs.Answers cwd pathname links)
    (hread : Exec (File.xcp_readlink links) h (some p) h') (hp : h'.get p = some (.bytes b))
    (hb : IsString b target) (hdir : Yields (xcp_path_parent_dir true (some pathname)) dir)
    (hres : Yields (xcp_path_combine true dir target) res) : Follows fs cwd pathname res

/-- **Links are followed.** However many links are followed with `xcp_readlink`,
`xcp_path_parent_dir` and `xcp_path_combine`, every pathname that is found on the way names the same
file, or none of them does. -/
theorem links_followed (hcwd : fs.isDir cwd = true)
    (h : Relation.ReflTransGen (Follows fs cwd) pathname res) :
    fs.find cwd res.bytes = fs.find cwd pathname.bytes := by
  induction h with
  | refl => rfl
  | tail _ hlast ih =>
    cases hlast with
    | target hlinks hread hp hb hdir hres =>
      rw [find_target hcwd (linkAt_of_readlink hlinks hread hp hb) hdir hres, ih]

/-- The files of `sample`, and the link `/l` with the target `a/b`. -/
def linked : LinkSystem Node where
  isDir := sample.isDir
  lookup d n := if d = .top ∧ n = [108] then some .b else sample.lookup d n
  isDir_of_lookup d n v h := by
    split_ifs at h with hl
    · rw [hl.1]
      rfl
    · exact sample.isDir_of_lookup d n v h
  root := .top
  doubleRoot := .top
  isDir_root := rfl
  isDir_doubleRoot := rfl
  lookup_dot d hd := by
    rw [if_neg (fun h => absurd h.2 (by decide))]
    exact sample.lookup_dot d hd
  link d n := if d = .top ∧ n = [108] then some [97, 47, 98] else none
  link_ne_nil d n t h := by
    obtain ⟨-, h⟩ := Option.ite_none_right_eq_some.1 h
    obtain rfl := Option.some.inj h
    exact List.cons_ne_nil _ _
  lookup_link d n t h := by
    obtain ⟨⟨rfl, rfl⟩, h⟩ := Option.ite_none_right_eq_some.1 h
    obtain rfl := Option.some.inj h
    rfl

theorem links_followed_linked : ∃ res : CString, res.bytes = [46, 47, 97, 47, 98] ∧
    linked.find .top res.bytes = linked.find .top [108] ∧
    linked.find .top [108] = some .b := by
  obtain ⟨dir, hdir, hdot⟩ := parent_dir_yields (short [108] (by decide))
  have hres : Yields (xcp_path_combine true dir (short [97, 47, 98] (by decide)))
      (short [46, 47, 97, 47, 98] (by decide)) := by
    rw [combine_yields_iff, hdot]
    rfl
  obtain ⟨r, h', hread, hreturned⟩ := File.xcp_readlink_exec
    ⟨fun _ => true, fun _ => some (short [97, 47, 98] (by decide))⟩ Heap.empty
  have hresult : File.Links.result ⟨fun _ => true, fun _ => some (short [97, 47, 98] (by decide))⟩ =
      some (short [97, 47, 98] (by decide)) := rfl
  rw [hresult] at hreturned
  cases hreturned with
  | string hnew hp hs hadds =>
    have hcwd : linked.isDir .top = true := rfl
    have hstep : Follows linked .top (short [108] (by decide))
        (short [46, 47, 97, 47, 98] (by decide)) :=
      .target (fun i t ht => by cases ht; rfl) hread hp hs hdir hres
    exact ⟨_, rfl, links_followed hcwd (Relation.ReflTransGen.single hstep), rfl⟩

end XcpNgGeneric.Path
