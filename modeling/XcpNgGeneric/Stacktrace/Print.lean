import XcpNgGeneric.Stacktrace.Cleanup
import XcpNgGeneric.Stacktrace.Layout

/-!
# Printing a stack trace

`xcp_stacktrace_symbols_fd` of `stacktrace.c`, over the symbols of `bfd-stacktrace.c`. The block of
the symbols is written from the last frame to the first one, and printed from the first to the last.

## Main results

* `fill_frees`: the second loop of `stacktrace_symbols` frees the locations.
* `printFrom_exec`: the loop prints one line after another.
* `symbols_fd`: what a call prints, and what it leaves in memory.
-/

namespace XcpNgGeneric.Stacktrace

open Memory

/-! ## The function -/

def newline : UInt8 := 10

/-- `dprintf(fd, "%s\n", s)`, of which `accepted` bytes come out. -/
def dprintf (accepted : ℕ) (s : List UInt8) : List UInt8 := (s ++ [newline]).take accepted

/-- The string that `strings[i]` points to. -/
def readLine (strings i : ℕ) : Mem (List UInt8) := do
  let (table, data) ← loadBlock strings
  match table[i]? with
  | none => fault .outOfBounds
  | some none => fault .indeterminate
  | some (some off) => scan (data.drop off)

/-- The loop over the lines, before the last `n` iterations; `i` is the next. -/
def printFrom (accepted : ℕ → ℕ) (strings : ℕ) : ℕ → ℕ → Mem (List UInt8)
  | 0, _ => pure []
  | n + 1, i => do
    let s ← readLine strings i
    let out ← printFrom accepted strings n (i + 1)
    pure (dprintf (accepted i) s ++ out)

/-- The result, and what is printed. -/
def xcp_stacktrace_symbols_fd (env : Env) (accepted : ℕ → ℕ) (buffer : ℕ → UInt64) (size : ℕ) :
    Mem (ℤ × List UInt8) := do
  match ← stacktrace_symbols env buffer size with
  | none => pure (-1, [])
  | some strings =>
    let out ← printFrom accepted strings size 0
    free (some strings)
    pure (0, out)

/-! ## The lines -/

variable {h₀ h h' : Heap Object} {name : CString} {ts : ℕ → CString}
  {size strings locations exe i j n : ℕ} {cells : Buffer (Option ℕ)} {q : ℕ → ℕ}
  {table : Buffer ℕ} {data : Buffer UInt8}

/-- The number and the location of frame `j`. -/
def frameLine (size : ℕ) (ts : ℕ → CString) (j : ℕ) : List UInt8 :=
  frameNumber size j ++ (ts j).bytes

theorem entry_eq (size : ℕ) (ts : ℕ → CString) (j : ℕ) :
    entry size ts j = frameLine size ts j ++ [NUL] := by
  rw [entry, frameLine, CString.image, List.append_assoc]

theorem nul_notMem_frameLine (size : ℕ) (ts : ℕ → CString) (j : ℕ) :
    NUL ∉ frameLine size ts j := by
  simp only [frameLine, frameNumber, leftJustified, List.mem_append, not_or]
  exact ⟨⟨by decide, nul_notMem_numeral (by decide) (by decide) j,
    nul_notMem_replicate (by decide) _⟩, (ts j).nul_free⟩

theorem scan_drop {b : Buffer UInt8} {off : ℕ} {s : List UInt8} (hs : NUL ∉ s)
    (hb : b.Holds off (s ++ [NUL])) : scan (b.drop off) = .ok s := by
  have hdrop : Buffer.Holds (b.drop off) 0 (s ++ [NUL]) := by
    intro k hk
    rw [List.getElem?_drop, Nat.zero_add]
    exact hb k hk
  rw [hdrop.eq_append, List.map_append, List.append_assoc]
  exact scan_append hs _

theorem readLine_exec (hp : h.get strings = some (.block table data))
    (hw : Written size ts table data 0) (hj : j < size) :
    Exec (readLine strings j) h (frameLine size ts j) h := by
  have hpointer : table[j]? = some (some (offset size ts j)) :=
    hw.pointer j (Nat.zero_le j) hj 0 (Nat.succ_pos 0)
  have hholds := hw.holds j (Nat.zero_le j) hj
  rw [entry_eq] at hholds
  refine (loadBlock_exec hp).bind ?_
  simp only [hpointer]
  exact lift_exec (scan_drop (nul_notMem_frameLine size ts j) hholds) h

/-- **The loop prints the lines in the order of the frames.** -/
theorem printFrom_exec (accepted : ℕ → ℕ) (hp : h.get strings = some (.block table data))
    (hw : Written size ts table data 0) (hn : i + n = size) :
    Exec (printFrom accepted strings n i) h
      ((List.range' i n).flatMap fun j => dprintf (accepted j) (frameLine size ts j)) h := by
  induction n generalizing i with
  | zero => exact Exec.pure _ _
  | succ n ih =>
    rw [List.range'_succ, List.flatMap_cons]
    exact (readLine_exec hp hw (by omega)).bind ((ih (by omega)).bind (Exec.pure _ _))

/-! ## What is left in memory -/

/-- What the second loop needs in its next iteration. -/
theorem fill_next (hj : j < size) (hp : h.get strings = some (.block table data))
    (hw : Written size ts table data (j + 1)) (hcells : h.get locations = some (.pointers cells))
    (hs : Strings h cells q ts 0 (j + 1)) : ∃ table' data' h',
      fill size strings locations (j + 1) (offset size ts j) h =
        fill size strings locations j (entries size ts size - entries size ts j) h' ∧
      Written size ts table' data' j ∧ h'.get strings = some (.block table' data') ∧
      h'.get locations = some (.pointers cells) ∧ Strings h' cells q ts 0 j ∧
      h'.get (q j) = none ∧ h'.next = h.next := by
  obtain ⟨table', data', h', hfill, hw', hget, hnext⟩ := fill_step hj hp hw hcells hs
  have hne : ∀ k, k < j + 1 → q k ≠ strings := fun k hk =>
    hs.ne_of_get (Nat.zero_le k) hk hp fun _ => Object.noConfusion
  have hlast : q j ≠ locations :=
    hs.ne_of_get (Nat.zero_le j) (Nat.lt_succ_self j) hcells fun _ => Object.noConfusion
  have hkept : ∀ {o x}, h.get o = some x → o ≠ strings → o ≠ q j → h'.get o = some x := by
    intro o x ho hstrings hq
    rw [hget, Function.update_of_ne hq, Function.update_of_ne hstrings, ho]
  refine ⟨table', data', h', hfill, hw', ?_, ?_, ?_, ?_, hnext⟩
  · rw [hget, Function.update_of_ne (hne j (Nat.lt_succ_self j)).symm, Function.update_self]
  · exact hkept hcells (Heap.ne_of_get hcells hp Object.noConfusion) hlast.symm
  · exact hs.mono (Nat.le_refl 0) (Nat.le_succ j) fun k c hk hlt hc =>
      hkept hc (hne k (by omega)) (hs.ne k j hk hlt (Nat.lt_succ_self j))
  · rw [hget, Function.update_self]

/-- **The second loop frees the locations**, and allocates nothing. -/
theorem fill_frees (hj : j ≤ size) (hp : h.get strings = some (.block table data))
    (hw : Written size ts table data j) (hcells : h.get locations = some (.pointers cells))
    (hs : Strings h cells q ts 0 j) {r : ℕ}
    (hexec : Exec (fill size strings locations j (entries size ts size - entries size ts j)) h
      r h') : h'.next = h.next ∧ ∀ k, k < j → h'.get (q k) = none := by
  induction j generalizing h table data with
  | zero =>
    cases hexec
    exact ⟨rfl, fun k hk => absurd hk (Nat.not_lt_zero k)⟩
  | succ j ih =>
    obtain ⟨table₁, data₁, h₁, hfill, hw₁, hp₁, hcells₁, hs₁, hfreed, hnext⟩ :=
      fill_next hj hp hw hcells hs
    have hexec₁ : Exec (fill size strings locations j (entries size ts size - entries size ts j))
        h₁ r h' := hfill.symm.trans hexec
    obtain ⟨hnext', hrest⟩ := ih (by omega) hp₁ hw₁ hcells₁ hs₁ hexec₁
    obtain ⟨table₂, data₂, h₂, hexec₂, -, -, hother⟩ := fill_exec (by omega) hp₁ hw₁ hcells₁ hs₁
    obtain rfl : h₂ = h' := by
      have heq := Except.ok.inj (hexec₂.symm.trans hexec₁)
      exact (Prod.mk.inj heq).2
    refine ⟨hnext'.trans hnext, fun k hk => ?_⟩
    rcases Nat.lt_or_eq_of_le (Nat.lt_succ_iff.1 hk) with hk | rfl
    · exact hrest k hk
    · have hstrings : q k ≠ strings :=
        hs.ne_of_get (Nat.zero_le k) (Nat.lt_succ_self k) hp fun _ => Object.noConfusion
      rw [hother (q k) hstrings fun i hi => (hs.ne i k (Nat.zero_le i) hi (by omega)).symm, hfreed]

/-- **The third step leaves the block** and frees what the call has allocated for itself. -/
theorem buildStrings_adds (hsize : size ≤ INT_MAX)
    (hroom : charCount size ts + size * 8 ≤ PTRDIFF_MAX)
    (hprog : Progress h₀ name ts size exe locations h cells q 0) : ∃ strings h' table data,
      Exec (buildStrings true size locations exe (sizeT (total ts size))) h (some strings) h' ∧
      h₀.next ≤ strings ∧ h'.get strings = some (.block table data) ∧
      Written size ts table data 0 ∧ h₀.Adds (fun o x => o = strings ∨ IsTable o x) h' := by
  have hentries : entries size ts size = charCount size ts := entries_eq (Nat.le_refl size) hsize
  have hwhole : sizeT (entries size ts size + size * 8) = entries size ts size + size * 8 := by
    rw [hentries]
    simp only [PTRDIFF_MAX, sizeT] at *
    omega
  have hcells := hprog.table
  obtain ⟨b, hexe, -⟩ := hprog.exe_string
  have halloc := allocBlock_exec h (n := entries size ts size) (by rwa [hentries])
  have hblock := Heap.get_alloc_next h
    (.block (Buffer.fresh size) (Buffer.fresh (entries size ts size)))
  have hcells₀ := Heap.get_alloc (y := .block (Buffer.fresh size)
    (Buffer.fresh (entries size ts size))) hcells
  have hs₀ : Strings (h.alloc (.block (Buffer.fresh size) (Buffer.fresh (entries size ts size))))
      cells q ts 0 size :=
    hprog.strings.mono (Nat.le_refl 0) (Nat.le_refl size) fun _ _ _ _ hb => Heap.get_alloc hb
  obtain ⟨table, data, h₁, hfill, hw, hp, hkept⟩ := fill_exec (Nat.le_refl size) hblock
    (Written.init size ts) hcells₀ hs₀
  obtain ⟨hnext₁, hfreed₁⟩ := fill_frees (Nat.le_refl size) hblock (Written.init size ts) hcells₀
    hs₀ hfill
  rw [Nat.sub_self] at hfill
  have hcells₁ : h₁.get locations = some (.pointers cells) := by
    rw [hkept locations (Heap.ne_next hcells), hcells₀]
    exact fun k hk => (hprog.string_ne_locations (Nat.zero_le k) hk).symm
  have hexe₁ : h₁.get exe = some (.bytes b) := by
    rw [hkept exe (Heap.ne_next hexe) fun k hk => (hprog.exe_ne k (Nat.zero_le k) hk).symm,
      Heap.get_alloc hexe]
  obtain ⟨h₂, hfree₂, hget₂, hnext₂, -⟩ := free_exec hcells₁
  have hexe₂ : h₂.get exe = some (.bytes b) := by
    rw [hget₂, Function.update_of_ne hprog.exe_ne_locations, hexe₁]
  obtain ⟨h₃, hfree₃, hget₃, hnext₃, -⟩ := free_exec hexe₂
  have hstrings₃ : h₃.get h.next = some (.block table data) := by
    rw [hget₃, Function.update_of_ne (Heap.ne_next hexe).symm, hget₂,
      Function.update_of_ne (Heap.ne_next hcells).symm, hp]
  refine ⟨h.next, h₃, table, data, ?_, hprog.adds.next_le, hstrings₃, hw, ?_⟩
  · rw [buildStrings, count_eq hroom, ← hentries, hwhole]
    refine halloc.bind (hfill.bind ?_)
    rw [if_neg (fun hne => hne rfl)]
    exact hfree₂.bind (hfree₃.bind (Exec.pure _ _))
  -- the same block is allocated written, and then all but it and the tables is freed
  have hadds : h₀.Adds (fun o x => o = h.next ∨ _) (h.alloc (.block table data)) :=
    (hprog.adds.mono fun _ _ _ => Or.inr).alloc (.inl rfl)
  refine hadds.without (S := fun o => o = exe ∨ o = locations ∨ ∃ k, k < size ∧ o = q k)
    ?_ ((hnext₃.trans hnext₂).trans hnext₁) ?_ ?_ ?_
  · rintro o (rfl | rfl | ⟨k, hk, rfl⟩)
    · exact hprog.exe_new
    · exact hprog.locations_new
    · exact hprog.string_new k (Nat.zero_le k) hk
  · rintro o (rfl | rfl | ⟨k, hk, rfl⟩)
    · rw [hget₃, Function.update_self]
    · rw [hget₃, Function.update_of_ne hprog.exe_ne_locations.symm, hget₂, Function.update_self]
    · rw [hget₃, Function.update_of_ne (hprog.exe_ne k (Nat.zero_le k) hk), hget₂,
        Function.update_of_ne (hprog.string_ne_locations (Nat.zero_le k) hk), hfreed₁ k hk]
  · intro o hother
    simp only [not_or, not_exists, not_and] at hother
    obtain ⟨hoexe, holocations, hoq⟩ := hother
    by_cases ho : o = h.next
    · rw [ho, hstrings₃, Heap.get_alloc_next]
    · rw [hget₃, Function.update_of_ne hoexe, hget₂, Function.update_of_ne holocations,
        hkept o ho hoq, Heap.get_alloc_of_ne h _ ho, Heap.get_alloc_of_ne h _ ho]
  · rintro o x hother (ho | ho | ho | ⟨k, -, hk, ho⟩ | ho)
    · exact .inl ho
    · exact absurd (.inl ho) hother
    · exact absurd (.inr (.inl ho)) hother
    · exact absurd (.inr (.inr ⟨k, hk, ho⟩)) hother
    · exact .inr ho

/-! ## The call -/

variable {env : Env} {buffer : ℕ → UInt64}

/-- The whole call, when every step succeeds. -/
theorem stacktrace_symbols_adds (hsize : size ≤ INT_MAX) (hself : env.self.result = some name)
    (htable : env.table = true) (hlocated : env.LocatedFrom buffer size name 0)
    (hblock : env.block = true) (h : Heap Object) : ∃ strings h' table data,
      Exec (stacktrace_symbols env buffer size) h (some strings) h' ∧ h.next ≤ strings ∧
      h'.get strings = some (.block table data) ∧
      Written size (env.strings buffer name) table data 0 ∧
      h.Adds (fun o x => o = strings ∨ IsTable o x) h' := by
  obtain ⟨h₁, exe, locations, cells, q, count, hprog, hcount, htotal, hreach⟩ :=
    stacktrace_symbols_reach hsize hself htable (Nat.zero_le size) hlocated h
  have hroom : charCount size (env.strings buffer name) + size * 8 ≤ PTRDIFF_MAX :=
    room_of_strlen_lt hsize fun j hj => strlen_lt_of_located (hlocated.outcome (Nat.zero_le j) hj)
  obtain ⟨strings, h', table, data, hbuild, hafter⟩ := buildStrings_adds hsize hroom hprog
  refine ⟨strings, h', table, data, ?_, hafter⟩
  have heq : count = sizeT (total (env.strings buffer name) size) := by
    rw [← htotal, total, span_zero]
    simp only [sizeT]
    omega
  have hlocate : Exec (locate env buffer locations exe 0 count) h₁ (.done count) h₁ :=
    Exec.pure _ _
  refine (hreach.trans (hlocate.bind_eq _)).trans ?_
  rw [finish, hblock, heq]
  exact hbuild

/-- The whole call, when every step succeeds. -/
theorem symbols_fd_prints (hsize : size ≤ INT_MAX) (hself : env.self.result = some name)
    (htable : env.table = true) (hlocated : env.LocatedFrom buffer size name 0)
    (hblock : env.block = true) (accepted : ℕ → ℕ) (h : Heap Object) : ∃ h',
      Exec (xcp_stacktrace_symbols_fd env accepted buffer size) h
        (0, (List.range size).flatMap fun j =>
          dprintf (accepted j) (frameLine size (env.strings buffer name) j)) h' ∧
      h.Adds IsTable h' := by
  obtain ⟨strings, h₁, table, data, hsymbols, hnew, hp, hw, hadds⟩ :=
    stacktrace_symbols_adds hsize hself htable hlocated hblock h
  have hprint := printFrom_exec accepted hp hw (Nat.zero_add size)
  rw [← List.range_eq_range'] at hprint
  obtain ⟨h', hfree, hget, hnext, -⟩ := free_exec hp
  refine ⟨h', hsymbols.bind (hprint.bind (hfree.bind (Exec.pure _ _))), ?_⟩
  apply hadds.without (S := (· = strings)) _ hnext
  · rintro o rfl
    rw [hget, Function.update_self]
  · intro o ho
    rw [hget, Function.update_of_ne ho]
  · exact fun o x ho hadd => hadd.resolve_left ho
  · rintro o rfl
    exact hnew

end XcpNgGeneric.Stacktrace
