import XcpNgGeneric.Stacktrace.Frames

/-!
# The cleanup of stacktrace_symbols

One label, `fail`, serves the jumps before, in and after the first loop, and its own loop begins
with the index at which the jump was made.

## Main results

* `fail_exec`: the cleanup after the frames from `k` on have been located.
* `cleanup_iff`: which failures the cleanup serves.
-/

namespace XcpNgGeneric.Stacktrace

open Memory

/-! ## Failures -/

/-- The first step of a call that fails. -/
inductive Failure
  /-- `xcp_readlink`. -/
  | readlink
  /-- The allocation of `locations`. -/
  | table
  /-- `asprintf`, for a frame. -/
  | asprintf (i : ℕ)
  /-- `physical_addr_to_str_from_file`, for a frame. -/
  | file (i : ℕ)
  /-- `bfd_read_minisymbols`, which sets no pointer in `physical_addr_to_str_from_file`. -/
  | unset (i : ℕ)
  /-- The allocation of the block. -/
  | block

/-- The step that fails first in the environment `env`. -/
inductive Env.FailsFirst (env : Env) (buffer : ℕ → UInt64) (size : ℕ) : Failure → Prop
  | readlink (hself : env.self.result = none) : FailsFirst env buffer size .readlink
  | table {name : CString} (hself : env.self.result = some name) (htable : env.table = false) :
      FailsFirst env buffer size .table
  | asprintf {name : CString} {i : ℕ} (hself : env.self.result = some name)
      (htable : env.table = true) (hi : i < size)
      (hlocated : env.LocatedFrom buffer size name (i + 1))
      (hout : (env.frame i).outcome (buffer i) name = .unprinted) :
      FailsFirst env buffer size (.asprintf i)
  | file {name : CString} {i : ℕ} (hself : env.self.result = some name)
      (htable : env.table = true) (hi : i < size)
      (hlocated : env.LocatedFrom buffer size name (i + 1))
      (hout : (env.frame i).outcome (buffer i) name = .unresolved) :
      FailsFirst env buffer size (.file i)
  | unset {name : CString} {i : ℕ} (hself : env.self.result = some name)
      (htable : env.table = true) (hi : i < size)
      (hlocated : env.LocatedFrom buffer size name (i + 1))
      (hout : (env.frame i).outcome (buffer i) name = .unset) :
      FailsFirst env buffer size (.unset i)
  | block {name : CString} (hself : env.self.result = some name) (htable : env.table = true)
      (hlocated : env.LocatedFrom buffer size name 0) (hblock : env.block = false) :
      FailsFirst env buffer size .block

variable {h₀ h : Heap Object} {name : CString} {ts : ℕ → CString} {size exe locations k lo : ℕ}
  {cells : Buffer (Option ℕ)} {q : ℕ → ℕ}

theorem release_exec {n : ℕ} (hn : lo + n = size) (hp : h.get locations = some (.pointers cells))
    (hs : Strings h cells q ts lo size) : ∃ h', Exec (release (some locations) n lo) h () h' ∧
      h'.next = h.next ∧ (∀ j, lo ≤ j → j < size → h'.get (q j) = none) ∧
      ∀ o, (∀ j, lo ≤ j → j < size → o ≠ q j) → h'.get o = h.get o := by
  induction n generalizing lo h with
  | zero =>
    refine ⟨h, Exec.pure _ _, rfl, ?_, fun o ho => rfl⟩
    intro j hj hlt
    omega
  | succ n ih =>
    obtain ⟨b, hb, hstring⟩ := hs.string lo (Nat.le_refl lo) (by omega)
    obtain ⟨h₁, hfree, hget, hnext, -⟩ := free_exec hb
    have hne : ∀ j, lo + 1 ≤ j → j < size → q j ≠ q lo := fun j hj hlt =>
      (hs.ne lo j (Nat.le_refl lo) hj hlt).symm
    have hp₁ : h₁.get locations = some (.pointers cells) := by
      rw [hget, Function.update_of_ne (Heap.ne_of_get hp hb Object.noConfusion), hp]
    have hs₁ : Strings h₁ cells q ts (lo + 1) size :=
      hs.mono (Nat.le_succ lo) (Nat.le_refl size) fun j c hj hlt hc => by
        rw [hget, Function.update_of_ne (hne j hj hlt), hc]
    obtain ⟨h', hexec, hnext', hfreed, hkept⟩ := ih (by omega) hp₁ hs₁
    refine ⟨h', ?_, hnext'.trans hnext, ?_, ?_⟩
    · exact (readCell_exec hp (hs.cell lo (Nat.le_refl lo) (by omega))).bind (hfree.bind hexec)
    · intro j hj hlt
      rcases Nat.lt_or_eq_of_le hj with hj | rfl
      · exact hfreed j hj hlt
      · rw [hkept _ fun j hj hlt => (hne j hj hlt).symm, hget, Function.update_self]
    · intro o ho
      rw [hkept o fun j hj hlt => ho j (by omega) hlt, hget,
        Function.update_of_ne (ho lo (Nat.le_refl lo) (by omega))]

/-- **The cleanup** frees all that has been allocated, if it begins with the frame that was located
last. -/
theorem fail_exec (hprog : Progress h₀ name ts size exe locations h cells q k) (hk : k ≤ size) :
    ∃ h', Exec (fail (some locations) exe size k) h none h' ∧ h₀.Adds IsTable h' := by
  obtain ⟨h₁, hrelease, hnext₁, hfreed, hkept⟩ :=
    release_exec (n := size - k) (by omega) hprog.table hprog.strings
  obtain ⟨b, hexe, -⟩ := hprog.exe_string
  have hlocations₁ : h₁.get locations = some (.pointers cells) := by
    rw [hkept locations fun j hj hlt => (hprog.string_ne_locations hj hlt).symm, hprog.table]
  have hexe₁ : h₁.get exe = some (.bytes b) := by
    rw [hkept exe fun j hj hlt => (hprog.exe_ne j hj hlt).symm, hexe]
  obtain ⟨h₂, hfree₂, hget₂, hnext₂, -⟩ := free_exec hlocations₁
  have hexe₂ : h₂.get exe = some (.bytes b) := by
    rw [hget₂, Function.update_of_ne hprog.exe_ne_locations, hexe₁]
  obtain ⟨h₃, hfree₃, hget₃, hnext₃, -⟩ := free_exec hexe₂
  refine ⟨h₃, ?_, ?_⟩
  · have hcount : ((size : ℤ) - k).toNat = size - k := by omega
    rw [fail, hcount]
    exact hrelease.bind (hfree₂.bind (hfree₃.bind (Exec.pure _ _)))
  apply hprog.adds.without
    (S := fun o => o = exe ∨ o = locations ∨ ∃ j, k ≤ j ∧ j < size ∧ o = q j)
  case hS =>
    rintro o (rfl | rfl | ⟨j, hj, hlt, rfl⟩)
    · exact hprog.exe_new
    · exact hprog.locations_new
    · exact hprog.string_new j hj hlt
  case hnext => rw [hnext₃, hnext₂, hnext₁]
  case hfreed =>
    rintro o (rfl | rfl | ⟨j, hj, hlt, rfl⟩)
    · rw [hget₃, Function.update_self]
    · rw [hget₃, Function.update_of_ne hprog.exe_ne_locations.symm, hget₂, Function.update_self]
    · rw [hget₃, Function.update_of_ne (hprog.exe_ne j hj hlt), hget₂,
        Function.update_of_ne (hprog.string_ne_locations hj hlt), hfreed j hj hlt]
  case hkept =>
    intro o ho
    simp only [not_or, not_exists, not_and] at ho
    rw [hget₃, Function.update_of_ne ho.1, hget₂, Function.update_of_ne ho.2.1,
      hkept o fun j hj hlt => ho.2.2 j hj hlt]
  case hPQ =>
    rintro o x hfreed (ho | ho | ho | ho)
    · exact absurd (.inl ho) hfreed
    · exact absurd (.inr (.inl ho)) hfreed
    · exact absurd (.inr (.inr ho)) hfreed
    · exact ho

/-- The cell of the frame that could not be located is `NULL`. -/
theorem fail_exec_null (hprog : Progress h₀ name ts size exe locations h cells q (k + 1))
    (hk : k < size) (hnull : cells[k]? = some (some none)) :
    ∃ h', Exec (fail (some locations) exe size k) h none h' ∧ h₀.Adds IsTable h' := by
  obtain ⟨h', hexec, hadds⟩ := fail_exec hprog hk
  refine ⟨h', ?_, hadds⟩
  have hcount : ((size : ℤ) - k).toNat = ((size : ℤ) - (k + 1 : ℕ)).toNat + 1 := by omega
  have hskip : release (some locations) ((size : ℤ) - k).toNat k h =
      release (some locations) ((size : ℤ) - (k + 1 : ℕ)).toNat (k + 1 : ℕ) h := by
    rw [hcount, release]
    exact ((readCell_exec hprog.table hnull).bind_eq _).trans ((Exec.pure () h).bind_eq _)
  exact (bind_congr_left hskip _).trans hexec

/-- The cell of the frame that could not be located is indeterminate. -/
theorem fail_faults (hprog : Progress h₀ name ts size exe locations h cells q (k + 1))
    (hk : k < size) (hcell : cells[k]? = some none) :
    Faults (fail (some locations) exe size k) h := by
  obtain ⟨n, hn⟩ : ∃ n, ((size : ℤ) - k).toNat = n + 1 := ⟨size - k - 1, by omega⟩
  rw [fail, hn]
  exact ((readCell_indeterminate hprog.table hcell).bind _).bind _

/-- The first loop has come to its end. -/
theorem fail_faults_end (hprog : Progress h₀ name ts size exe locations h cells q 0) :
    Faults (fail (some locations) exe size (-1)) h := by
  have hn : ((size : ℤ) - -1).toNat = size + 1 := by omega
  rw [fail, hn]
  exact ((readCell_negative hprog.table (by omega)).bind _).bind _

/-! ## The call -/

variable {env : Env} {buffer : ℕ → UInt64}

/-- The call returns `NULL`, and has freed all that it has allocated, once each, and nothing else;
the tables that BFD allocates are not its own. -/
def CleansUp (env : Env) (buffer : ℕ → UInt64) (size : ℕ) (h : Heap Object) : Prop :=
  ∃ h', Exec (stacktrace_symbols env buffer size) h none h' ∧ h.Adds IsTable h'

theorem cleansUp_readlink (hself : env.self.result = none) (h : Heap Object) :
    CleansUp env buffer size h := by
  obtain ⟨r, h', hread, hret⟩ := File.xcp_readlink_exec env.self h
  rw [hself] at hret
  cases hret with
  | null hadds =>
    exact ⟨h', hread.bind (Exec.pure _ _), hadds.mono fun _ _ _ hfalse => hfalse.elim⟩

theorem cleansUp_table (hself : env.self.result = some name) (htable : env.table = false)
    (h : Heap Object) : CleansUp env buffer size h := by
  obtain ⟨r, h₁, hread, hret⟩ := File.xcp_readlink_exec env.self h
  rw [hself] at hret
  cases hret with
  | @string _ exe b hnew hp hs hadds =>
    obtain ⟨h', hfree, hget, hnext, -⟩ := free_exec hp
    have hadds₁ := hadds.mono (Q := fun o _ => o = exe) fun _ _ _ ho => ho.resolve_right id
    refine ⟨h', hread.bind ((alloc_fails h₁ _ (by simp [htable])).bind ?_), ?_⟩
    · have hcount : ((size : ℤ) - size).toNat = 0 := by omega
      rw [fail, hcount]
      exact (Exec.pure _ _).bind ((Exec.pure _ _).bind (hfree.bind (Exec.pure _ _)))
    · exact (hadds₁.freed hnew hnext hget).mono fun _ _ _ hfalse => hfalse.elim

/-- A frame is not located. -/
theorem locate_stop {i charCount : ℕ} {h' : Heap Object}
    (hframe : Exec (locateFrame (env.frame i) (buffer i) locations exe i) h none h') :
    (locate env buffer locations exe (i + 1) charCount >>= finish env size locations exe) h =
      fail (some locations) exe size i h' := by
  have hlocate : Exec (locate env buffer locations exe (i + 1) charCount) h (.fail i) h' := by
    rw [locate]
    exact hframe.bind (Exec.pure _ _)
  exact hlocate.bind_eq _

theorem cleansUp_file {i : ℕ} (hsize : size ≤ INT_MAX) (hself : env.self.result = some name)
    (htable : env.table = true) (hi : i < size)
    (hlocated : env.LocatedFrom buffer size name (i + 1))
    (hout : (env.frame i).outcome (buffer i) name = .unresolved) (h : Heap Object) :
    CleansUp env buffer size h := by
  obtain ⟨h₁, exe, locations, cells, q, charCount, hprog, -, -, hreach⟩ :=
    stacktrace_symbols_reach hsize hself htable hi hlocated h
  obtain ⟨h₂, cells₂, hframe, hprog₂, hcell⟩ := locateFrame_unresolved hprog hi hout
  obtain ⟨h', hfail, hadds⟩ := fail_exec_null hprog₂ hi hcell
  exact ⟨h', (hreach.trans (locate_stop hframe)).trans hfail, hadds⟩

theorem faults_asprintf {i : ℕ} (hsize : size ≤ INT_MAX) (hself : env.self.result = some name)
    (htable : env.table = true) (hi : i < size)
    (hlocated : env.LocatedFrom buffer size name (i + 1))
    (hout : (env.frame i).outcome (buffer i) name = .unprinted) (h : Heap Object) :
    Faults (stacktrace_symbols env buffer size) h := by
  obtain ⟨h₁, exe, locations, cells, q, charCount, hprog, -, -, hreach⟩ :=
    stacktrace_symbols_reach hsize hself htable hi hlocated h
  obtain ⟨h₂, cells₂, hframe, hprog₂, hcell⟩ := locateFrame_unprinted hprog hi hout
  obtain ⟨e, hfail⟩ := fail_faults hprog₂ hi hcell
  exact ⟨e, (hreach.trans (locate_stop hframe)).trans hfail⟩

theorem faults_unset {i : ℕ} (hsize : size ≤ INT_MAX) (hself : env.self.result = some name)
    (htable : env.table = true) (hi : i < size)
    (hlocated : env.LocatedFrom buffer size name (i + 1))
    (hout : (env.frame i).outcome (buffer i) name = .unset) (h : Heap Object) :
    Faults (stacktrace_symbols env buffer size) h := by
  obtain ⟨h₁, exe, locations, cells, q, charCount, hprog, -, -, hreach⟩ :=
    stacktrace_symbols_reach hsize hself htable hi hlocated h
  have hlocate : Faults (locate env buffer locations exe (i + 1) charCount) h₁ := by
    rw [locate]
    exact (locateFrame_unset hprog hout).bind _
  obtain ⟨e, hfaults⟩ := hlocate.bind (finish env size locations exe)
  exact ⟨e, hreach.trans hfaults⟩

theorem faults_block (hsize : size ≤ INT_MAX) (hself : env.self.result = some name)
    (htable : env.table = true) (hlocated : env.LocatedFrom buffer size name 0)
    (hblock : env.block = false) (h : Heap Object) :
    Faults (stacktrace_symbols env buffer size) h := by
  obtain ⟨h₁, exe, locations, cells, q, charCount, hprog, -, -, hreach⟩ :=
    stacktrace_symbols_reach hsize hself htable (Nat.zero_le size) hlocated h
  have hfaults : Faults (finish env size locations exe (.done charCount)) h₁ := by
    rw [finish, buildStrings, hblock]
    exact (alloc_fails h₁ _ (by simp)).bind_faults (fail_faults_end hprog)
  obtain ⟨e, hfaults⟩ := hfaults
  have hlocate : Exec (locate env buffer locations exe 0 charCount) h₁ (.done charCount) h₁ :=
    Exec.pure _ _
  exact ⟨e, (hreach.trans (hlocate.bind_eq _)).trans hfaults⟩

theorem not_cleansUp (hfaults : Faults (stacktrace_symbols env buffer size) h) :
    ¬CleansUp env buffer size h := by
  rintro ⟨h', hexec, -⟩
  exact hexec.not_faults hfaults

/-- **Which failures are cleaned up**: the label `fail` serves the jumps that are made before the
first loop, and those that leave `NULL` in the cell of their frame. -/
theorem cleanup_iff (env : Env) (buffer : ℕ → UInt64) (size : ℕ) (h : Heap Object) (f : Failure)
    (hsize : size ≤ INT_MAX) (hfirst : env.FailsFirst buffer size f) :
    CleansUp env buffer size h ↔ f = .readlink ∨ f = .table ∨ ∃ i, f = .file i := by
  cases hfirst with
  | readlink hself => exact iff_of_true (cleansUp_readlink hself h) (.inl rfl)
  | table hself htable => exact iff_of_true (cleansUp_table hself htable h) (.inr (.inl rfl))
  | @file name i hself htable hi hlocated hout =>
    exact iff_of_true (cleansUp_file hsize hself htable hi hlocated hout h) (.inr (.inr ⟨i, rfl⟩))
  | asprintf hself htable hi hlocated hout =>
    exact iff_of_false (not_cleansUp (faults_asprintf hsize hself htable hi hlocated hout h))
      (by simp)
  | unset hself htable hi hlocated hout =>
    exact iff_of_false (not_cleansUp (faults_unset hsize hself htable hi hlocated hout h)) (by simp)
  | block hself htable hlocated hblock =>
    exact iff_of_false (not_cleansUp (faults_block hsize hself htable hlocated hblock h)) (by simp)

/-- The program itself, whose file cannot be opened. -/
def unreadable : Frame :=
  { outside with objects := [⟨0, none, [⟨PT_LOAD, 0, 8192⟩]⟩] }

/-- The last two frames are located, and the file of the first one cannot be opened. -/
theorem cleanup_iff_unreadable :
    CleansUp ⟨program, true, fun j => if j = 0 then unreadable else outside, true⟩
        (fun _ => 4096) 3 Heap.empty ↔
      Failure.file 0 = .readlink ∨ Failure.file 0 = .table ∨ ∃ i, Failure.file 0 = .file i := by
  apply cleanup_iff _ _ _ _ _ (by decide)
  apply Env.FailsFirst.file program_result rfl (by decide) _ rfl
  intro j hj hlt
  refine ⟨unknown, ?_⟩
  show (if j = 0 then unreadable else outside).outcome 4096 programName = .located unknown
  rw [if_neg (by omega)]
  rfl

/-- There is no memory for the block, and `locations[-1]` is read. -/
theorem block_not_cleansUp :
    Env.FailsFirst ⟨program, true, fun _ => outside, false⟩ (fun _ => 4096) 1 .block ∧
      ¬CleansUp ⟨program, true, fun _ => outside, false⟩ (fun _ => 4096) 1 Heap.empty := by
  have hlocated : Env.LocatedFrom ⟨program, true, fun _ => outside, false⟩ (fun _ => 4096) 1
      programName 0 := fun j hj hlt => ⟨unknown, rfl⟩
  exact ⟨.block program_result rfl hlocated rfl,
    not_cleansUp (faults_block (by decide) program_result rfl hlocated rfl _)⟩

end XcpNgGeneric.Stacktrace
