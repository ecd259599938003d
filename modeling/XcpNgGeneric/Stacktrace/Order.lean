import XcpNgGeneric.Foundations.Search
import XcpNgGeneric.Stacktrace.Print

/-!
# The order of objects and sections

An address is searched in the segments of the objects that the dynamic linker lists, and then in the
sections of an object file. Where no two of them overlap, the order in which they are listed changes
nothing: neither what is printed nor what is done with memory.

## Main results

* `find_symbol_location_iff`: an object is found by the addresses of its segments.
* `located_object`: the object that is found is the one that contains the address.
* `symbols_fd_reordered`: the whole call does not depend on the order.
-/

namespace XcpNgGeneric.Stacktrace

open Memory Searching

/-! ## Ranges of addresses -/

/-- The address is in the range of `n` addresses from `start`. -/
def Within (start n a : UInt64) : Prop := start.toNat ≤ a.toNat ∧ a.toNat < start.toNat + n.toNat

/-- The range does not go past the last address. -/
def Fits (start n : UInt64) : Prop := start.toNat + n.toNat < 2 ^ 64

/-- The ranges have no address in common. -/
def Disjoint (start n start' n' : UInt64) : Prop :=
  start.toNat + n.toNat ≤ start'.toNat ∨ start'.toNat + n'.toNat ≤ start.toNat

theorem Disjoint.not_within {start n start' n' a : UInt64} (h : Disjoint start n start' n')
    (ha : Within start n a) : ¬Within start' n' a := by
  unfold Disjoint Within at *
  omega

theorem lt_end {start n : UInt64} (h : Fits start n) (a : UInt64) :
    a < start + n ↔ a.toNat < start.toNat + n.toNat := by
  unfold Fits at h
  rw [UInt64.lt_iff_toNat_lt, UInt64.toNat_add, Nat.mod_eq_of_lt h]

/-! ## Objects -/

/-- A segment that is loaded. -/
def ProgramHeader.loaded (header : ProgramHeader) : Prop := header.p_type = PT_LOAD

/-- Where a segment begins. -/
def DlPhdrInfo.start (info : DlPhdrInfo) (header : ProgramHeader) : UInt64 :=
  info.dlpi_addr + header.p_vaddr

/-- The address is in a segment of the object. -/
def DlPhdrInfo.Contains (info : DlPhdrInfo) (a : UInt64) : Prop :=
  ∃ header ∈ info.dlpi_phdr, header.loaded ∧ Within (info.start header) header.p_memsz a

/-- The segments are loaded at addresses, and those of different objects do not overlap. -/
structure Loaded (objects : List DlPhdrInfo) : Prop where
  fits : ∀ info ∈ objects, ∀ header ∈ info.dlpi_phdr, header.loaded →
    Fits (info.start header) header.p_memsz
  apart : objects.Pairwise fun info info' =>
    ∀ header ∈ info.dlpi_phdr, header.loaded → ∀ header' ∈ info'.dlpi_phdr, header'.loaded →
      Disjoint (info.start header) header.p_memsz (info'.start header') header'.p_memsz

/-- **An object is found by the addresses of its segments.** -/
theorem find_symbol_location_iff {info : DlPhdrInfo} (a : UInt64)
    (hfits : ∀ header ∈ info.dlpi_phdr, header.loaded → Fits (info.start header) header.p_memsz) :
    find_symbol_location a info = true ↔ info.Contains a := by
  have hheader (header : ProgramHeader) (hmem : header ∈ info.dlpi_phdr) :
      (header.p_type == PT_LOAD && info.dlpi_addr + header.p_vaddr ≤ a &&
        a < info.dlpi_addr + header.p_vaddr + header.p_memsz) = true ↔
      header.loaded ∧ Within (info.start header) header.p_memsz a := by
    rw [Bool.and_eq_true, Bool.and_eq_true, beq_iff_eq, decide_eq_true_iff, decide_eq_true_iff,
      and_assoc]
    refine and_congr_right fun hload => ?_
    rw [UInt64.le_iff_toNat_le]
    exact and_congr_right fun _ => lt_end (hfits header hmem hload) a
  rw [find_symbol_location, List.any_eq_true]
  constructor
  · rintro ⟨header, hmem, h⟩
    exact ⟨header, hmem, (hheader header hmem).1 h⟩
  · rintro ⟨header, hmem, h⟩
    exact ⟨header, hmem, (hheader header hmem).2 h⟩

variable {objects objects' : List DlPhdrInfo} {a : UInt64}

theorem Loaded.alone (h : Loaded objects) (a : UInt64) : objects.Pairwise
    (Alone none fun info => if find_symbol_location a info = true then some info else none) := by
  refine h.apart.imp_of_mem ?_
  intro info info' hmem hmem' hapart
  by_cases hinfo : find_symbol_location a info = true
  · right
    refine if_neg fun hinfo' => ?_
    obtain ⟨header, hheader, hload, hin⟩ := (find_symbol_location_iff a (h.fits info hmem)).1 hinfo
    obtain ⟨header', hheader', hload', hin'⟩ :=
      (find_symbol_location_iff a (h.fits info' hmem')).1 hinfo'
    exact (hapart header hheader hload header' hheader' hload').not_within hin hin'
  · exact Or.inl (if_neg hinfo)

/-- **The object that is found is the one that contains the address.** -/
theorem located_object (h : Loaded objects) (a : UInt64) (info : DlPhdrInfo) :
    dl_iterate_phdr objects a = some info ↔ info ∈ objects ∧ info.Contains a := by
  constructor
  · intro hfind
    have hmem := List.mem_of_find?_eq_some hfind
    exact ⟨hmem, (find_symbol_location_iff a (h.fits info hmem)).1 (List.find?_some hfind)⟩
  · rintro ⟨hmem, hin⟩
    have hhit := (find_symbol_location_iff a (h.fits info hmem)).2 hin
    have hfind := (find?_search (find_symbol_location a)).eq_of_mem (h.alone a) hmem
      (by simp [hhit])
    rw [dl_iterate_phdr, hfind, if_pos hhit]

theorem dl_iterate_phdr_perm (h : Loaded objects) (hperm : objects.Perm objects') (a : UInt64) :
    dl_iterate_phdr objects a = dl_iterate_phdr objects' a :=
  (find?_search (find_symbol_location a)).perm (h.alone a) hperm

/-! ## Sections -/

/-- The sections that have memory are at addresses, and do not overlap. -/
structure Placed (sections : List Section) : Prop where
  fits : ∀ sec ∈ sections, sec.alloc = true → Fits sec.vma sec.size
  apart : sections.Pairwise fun sec sec' => sec.alloc = true → sec'.alloc = true →
    Disjoint sec.vma sec.size sec'.vma sec'.size

theorem find_in_sections_search (symbols : Option ℕ) (a : UInt64) :
    Search (.ok none) (fun sec => find_physical_address_info sec symbols a)
      (find_in_sections symbols a) where
  nil := rfl
  skip sec sections h := by
    rw [find_in_sections, h]
    rfl
  stop sec sections h := by
    rw [find_in_sections]
    cases hinfo : find_physical_address_info sec symbols a with
    | error e => rfl
    | ok line =>
      cases line with
      | none => exact absurd hinfo h
      | some line => rfl

/-- A section where something is found contains the address. -/
theorem within_of_found {sec : Section} {symbols : Option ℕ}
    (hfits : sec.alloc = true → Fits sec.vma sec.size)
    (h : find_physical_address_info sec symbols a ≠ .ok none) :
    sec.alloc = true ∧ Within sec.vma sec.size a := by
  unfold find_physical_address_info at h
  split_ifs at h with halloc hlow hhigh
  · exact absurd rfl h
  · exact absurd rfl h
  · exact absurd rfl h
  · have hload : sec.alloc = true := by simpa using halloc
    refine ⟨hload, ?_, ?_⟩
    · rw [UInt64.lt_iff_toNat_lt] at hlow
      omega
    · exact (lt_end (hfits hload) a).1 (UInt64.not_le.1 hhigh)

theorem Placed.alone {sections : List Section} (h : Placed sections) (symbols : Option ℕ)
    (a : UInt64) : sections.Pairwise
      (Alone (.ok none) fun sec => find_physical_address_info sec symbols a) := by
  refine h.apart.imp_of_mem ?_
  intro sec sec' hmem hmem' hapart
  by_contra hnot
  obtain ⟨hsec, hsec'⟩ := not_or.1 hnot
  obtain ⟨halloc, hin⟩ := within_of_found (h.fits sec hmem) hsec
  obtain ⟨halloc', hin'⟩ := within_of_found (h.fits sec' hmem') hsec'
  exact (hapart halloc halloc').not_within hin hin'

/-! ## The calls -/

/-- The same file with its sections in another order. -/
inductive Bfd.Reordered (bin : Bfd) : Bfd → Prop
  | sections {sections : List Section} (h : bin.sections.Perm sections) :
    Reordered bin { bin with sections := sections }

/-- The same answers with the objects, and the sections of each file, in another order. -/
inductive Frame.Reordered (frame : Frame) : Frame → Prop
  | files {objects : List DlPhdrInfo} {bfd_openr : List UInt8 → Option Bfd}
    (hobjects : frame.objects.Perm objects)
    (hfiles : ∀ filename,
      Option.Rel Bfd.Reordered (frame.bfd_openr filename) (bfd_openr filename)) :
    Reordered frame { frame with objects := objects, bfd_openr := bfd_openr }

inductive Env.Reordered (env : Env) : Env → Prop
  | frames {frame : ℕ → Frame} (h : ∀ i, (env.frame i).Reordered (frame i)) :
    Reordered env { env with frame := frame }

/-- The objects and the sections of their files do not overlap. -/
structure Frame.Separate (frame : Frame) : Prop where
  objects : Loaded frame.objects
  sections : ∀ filename bin, frame.bfd_openr filename = some bin → Placed bin.sections

variable {frame frame' : Frame} {env env' : Env}

theorem physical_address_to_str_reordered {bin bin' : Bfd} (hsections : Placed bin.sections)
    (hbin : bin.Reordered bin') (symbols : Option ℕ) (a : UInt64) {objects : List DlPhdrInfo}
    {bfd_openr : List UInt8 → Option Bfd} :
    physical_address_to_str_from_syms frame bin symbols a = physical_address_to_str_from_syms
      { frame with objects := objects, bfd_openr := bfd_openr } bin' symbols a := by
  cases hbin with
  | sections hperm =>
    have hfind := (find_in_sections_search symbols a).perm (hsections.alone symbols a) hperm
    rw [physical_address_to_str_from_syms, physical_address_to_str_from_syms, hfind]
    rfl

theorem physical_addr_to_str_reordered (hsep : frame.Separate) (h : frame.Reordered frame')
    (filename : List UInt8) (a : UInt64) : physical_addr_to_str_from_file frame filename a =
      physical_addr_to_str_from_file frame' filename a := by
  cases h with
  | @files objects bfd_openr hobjects hfiles =>
    have hfile := hfiles filename
    generalize hopen' : bfd_openr filename = file' at hfile
    cases hopen : frame.bfd_openr filename with
    | none =>
      rw [hopen] at hfile
      cases hfile
      simp only [physical_addr_to_str_from_file, hopen, hopen']
    | some bin =>
      rw [hopen] at hfile
      cases hfile with
      | some hbin =>
        have hstr (symbols : Option ℕ) : physical_address_to_str_from_syms frame bin symbols a =
            physical_address_to_str_from_syms
              { frame with objects := objects, bfd_openr := bfd_openr } _ symbols a :=
          physical_address_to_str_reordered (hsep.sections filename bin hopen) hbin symbols a
        simp only [physical_addr_to_str_from_file, hopen, hopen', hstr]
        cases hbin
        rfl

theorem locateFrame_reordered (hsep : frame.Separate) (h : frame.Reordered frame')
    (address : UInt64) (locations self i : ℕ) : locateFrame frame address locations self i =
      locateFrame frame' address locations self i := by
  have hstr := physical_addr_to_str_reordered hsep h
  cases h with
  | files hobjects hfiles =>
    have hfind := dl_iterate_phdr_perm hsep.objects hobjects address
    rw [locateFrame, locateFrame]
    simp only [hfind, hstr]

theorem locate_reordered (hsep : ∀ i, (env.frame i).Separate) (h : env.Reordered env')
    (buffer : ℕ → UInt64) (locations self i charCount : ℕ) :
    locate env buffer locations self i charCount =
      locate env' buffer locations self i charCount := by
  cases h with
  | frames hframes =>
    induction i generalizing charCount with
    | zero => rfl
    | succ i ih =>
      rw [locate, locate, locateFrame_reordered (hsep i) (hframes i)]
      simp only [ih]

theorem stacktrace_symbols_reordered (hsep : ∀ i, (env.frame i).Separate) (h : env.Reordered env')
    (buffer : ℕ → UInt64) (size : ℕ) :
    stacktrace_symbols env buffer size = stacktrace_symbols env' buffer size := by
  have hlocate := locate_reordered hsep h buffer
  cases h with
  | frames hframes =>
    rw [stacktrace_symbols, stacktrace_symbols]
    simp only [hlocate]
    rfl

/-- **The order does not matter.** Where neither the segments of different objects nor the sections
of a file overlap, `xcp_stacktrace_symbols_fd` does the same, on every heap, in whatever order the
objects and the sections are listed. -/
theorem symbols_fd_reordered (hsep : ∀ i, (env.frame i).Separate) (h : env.Reordered env')
    (accepted : ℕ → ℕ) (buffer : ℕ → UInt64) (size : ℕ) :
    xcp_stacktrace_symbols_fd env accepted buffer size =
      xcp_stacktrace_symbols_fd env' accepted buffer size := by
  rw [xcp_stacktrace_symbols_fd, xcp_stacktrace_symbols_fd, stacktrace_symbols_reordered hsep h]

/-- An object of one segment. -/
def segment (base : UInt64) : DlPhdrInfo := ⟨base, none, [⟨PT_LOAD, 0, 4096⟩]⟩

/-- Two objects in either order. -/
theorem symbols_fd_reordered_two : xcp_stacktrace_symbols_fd
      ⟨program, true, fun _ => { outside with objects := [segment 4096, segment 8192] }, true⟩
      (fun _ => 100) (fun _ => 8200) 2 = xcp_stacktrace_symbols_fd
      ⟨program, true, fun _ => { outside with objects := [segment 8192, segment 4096] }, true⟩
      (fun _ => 100) (fun _ => 8200) 2 := by
  refine symbols_fd_reordered (fun _ => ⟨⟨?_, ?_⟩, ?_⟩)
    (.frames fun _ => .files (List.Perm.swap _ _ []) fun _ => ?_) _ _ _
  · simp [segment, Fits, DlPhdrInfo.start]
  · simp [segment, Disjoint, DlPhdrInfo.start]
  · intro filename bin hopen
    cases hopen
  · exact .none

end XcpNgGeneric.Stacktrace
