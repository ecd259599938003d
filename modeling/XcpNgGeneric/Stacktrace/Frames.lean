import XcpNgGeneric.Stacktrace.Location

/-!
# Locating the frames

What the first loop of `stacktrace_symbols` does: an iteration runs according to the outcome of its
frame (`locateFrame_located`, `locateFrame_unresolved`, `locateFrame_unprinted`,
`locateFrame_unset`), and `Progress` says what has been allocated so far.

## Main results

* `Progress.step`: one more frame has been located.
* `locate_reach`: the first loop as far as the frames are located.
* `stacktrace_symbols_reach`: the call as far as the frames are located.
-/

namespace XcpNgGeneric.Stacktrace

open Memory

variable {h₀ h h' : Heap Object} {frame : Frame} {a : UInt64} {p : ℕ} {x : Object}

/-! ## The array of locations -/

section Cells

variable {cells : Buffer (Option ℕ)} {i : ℕ} {v : Option ℕ}

theorem loadCells_exec (hp : h.get p = some (.pointers cells)) :
    Exec (loadCells (some p)) h cells h := by
  simp [Exec, loadCells, hp]

theorem readCell_exec (hp : h.get p = some (.pointers cells)) (hi : cells[i]? = some (some v)) :
    Exec (readCell (some p) i) h v h := by
  apply (loadCells_exec hp).bind
  rw [if_neg (by omega), Int.toNat_natCast, hi]
  exact Exec.pure _ _

theorem readCell_negative (hp : h.get p = some (.pointers cells)) {i : ℤ} (hi : i < 0) :
    Faults (readCell (some p) i) h := by
  apply (loadCells_exec hp).bind_faults
  rw [if_pos hi]
  exact fault_faults _ _

theorem readCell_indeterminate (hp : h.get p = some (.pointers cells))
    (hi : cells[i]? = some none) : Faults (readCell (some p) i) h := by
  apply (loadCells_exec hp).bind_faults
  rw [if_neg (by omega), Int.toNat_natCast, hi]
  exact fault_faults _ _

theorem setCell_exec (hp : h.get p = some (.pointers cells)) (hi : i < cells.length)
    (value : Option (Option ℕ)) : ∃ h', Exec (setCell p i value) h () h' ∧
      h'.get = Function.update h.get p (some (.pointers (cells.set i value))) ∧
      h'.next = h.next := by
  obtain ⟨h', hassign, hget, hnext, -⟩ := assign_exec hp (.pointers (cells.set i value))
  refine ⟨h', (loadCells_exec hp).bind ?_, hget, hnext⟩
  rw [if_pos hi]
  exact hassign

end Cells

/-- The cells from `lo` up to `hi` point to different strings. -/
structure Strings (h : Heap Object) (cells : Buffer (Option ℕ)) (q : ℕ → ℕ) (ts : ℕ → CString)
    (lo hi : ℕ) : Prop where
  cell : ∀ j, lo ≤ j → j < hi → cells[j]? = some (some (some (q j)))
  string : ∀ j, lo ≤ j → j < hi → ∃ b, h.get (q j) = some (.bytes b) ∧ IsString b (ts j)
  ne : ∀ j k, lo ≤ j → j < k → k < hi → q j ≠ q k

namespace Strings

variable {cells : Buffer (Option ℕ)} {q : ℕ → ℕ} {ts : ℕ → CString} {lo hi lo' hi' i j o : ℕ}

/-- No string is an object of another kind. -/
theorem ne_of_get (hs : Strings h cells q ts lo hi) (hlo : lo ≤ j) (hhi : j < hi)
    (ho : h.get o = some x) (hx : ∀ b, Object.bytes b ≠ x) : q j ≠ o := by
  obtain ⟨b, hb, -⟩ := hs.string j hlo hhi
  exact Heap.ne_of_get hb ho (hx b)

/-- A heap in which those of fewer cells are still there. -/
theorem mono (hs : Strings h cells q ts lo hi) (hlo : lo ≤ lo') (hhi : hi' ≤ hi)
    (hkept : ∀ j b, lo' ≤ j → j < hi' → h.get (q j) = some (.bytes b) →
      h'.get (q j) = some (.bytes b)) : Strings h' cells q ts lo' hi' := by
  constructor
  case cell => exact fun j hj hlt => hs.cell j (by omega) (by omega)
  case string =>
    intro j hj hlt
    obtain ⟨b, hb, ht⟩ := hs.string j (by omega) (by omega)
    exact ⟨b, hkept j b hj hlt hb, ht⟩
  case ne => exact fun j k hj hjk hk => hs.ne j k (by omega) hjk (by omega)

/-- A cell before those is changed. -/
theorem set (hs : Strings h cells q ts lo hi) (hlo : i < lo) (value : Option (Option ℕ)) :
    Strings h (cells.set i value) q ts lo hi := by
  constructor
  case cell =>
    intro j hj hlt
    rw [List.getElem?_set_ne (by omega), hs.cell j hj hlt]
  case string => exact hs.string
  case ne => exact hs.ne

/-- The cell before those points to one more string. -/
theorem cons {b : Buffer UInt8} (hs : Strings h cells q ts (i + 1) hi)
    (hcell : cells[i]? = some (some (some p))) (hp : h.get p = some (.bytes b))
    (ht : IsString b (ts i)) (hne : ∀ j, i < j → j < hi → q j ≠ p) :
    Strings h cells (Function.update q i p) ts i hi := by
  have hold : ∀ j, i < j → Function.update q i p j = q j := fun j hj =>
    Function.update_of_ne (by omega) ..
  constructor
  case cell =>
    intro j hj hlt
    rcases Nat.lt_or_eq_of_le hj with hj | rfl
    · rw [hold j hj, hs.cell j hj hlt]
    · rw [Function.update_self, hcell]
  case string =>
    intro j hj hlt
    rcases Nat.lt_or_eq_of_le hj with hj | rfl
    · rw [hold j hj]
      exact hs.string j hj hlt
    · rw [Function.update_self]
      exact ⟨b, hp, ht⟩
  case ne =>
    intro j k hj hjk hk
    rw [hold k (by omega)]
    rcases Nat.lt_or_eq_of_le hj with hj | rfl
    · rw [hold j hj]
      exact hs.ne j k hj hjk hk
    · rw [Function.update_self]
      exact (hne k hjk hk).symm

end Strings

/-- The state of a call that was begun in `h₀`, when the frames from `i` on have been located. -/
structure Progress (h₀ : Heap Object) (name : CString) (ts : ℕ → CString) (size exe locations : ℕ)
    (h : Heap Object) (cells : Buffer (Option ℕ)) (q : ℕ → ℕ) (i : ℕ) : Prop where
  adds : h₀.Adds (fun p x => p = exe ∨ p = locations ∨ (∃ j, i ≤ j ∧ j < size ∧ p = q j) ∨
    x = .symbols) h
  exe_new : h₀.next ≤ exe
  locations_new : h₀.next ≤ locations
  string_new : ∀ j, i ≤ j → j < size → h₀.next ≤ q j
  exe_string : ∃ b, h.get exe = some (.bytes b) ∧ IsString b name
  exe_ne : ∀ j, i ≤ j → j < size → q j ≠ exe
  table : h.get locations = some (.pointers cells)
  length : cells.length = size
  strings : Strings h cells q ts i size

namespace Progress

variable {name s : CString} {ts : ℕ → CString} {size exe locations i : ℕ} {h₁ h₂ : Heap Object}
  {cells : Buffer (Option ℕ)} {q : ℕ → ℕ}

theorem string_ne_locations (hprog : Progress h₀ name ts size exe locations h cells q i) {j : ℕ}
    (hj : i ≤ j) (hlt : j < size) : q j ≠ locations :=
  hprog.strings.ne_of_get hj hlt hprog.table fun _ => Object.noConfusion

theorem exe_ne_locations (hprog : Progress h₀ name ts size exe locations h cells q i) :
    exe ≠ locations := by
  obtain ⟨b, hb, -⟩ := hprog.exe_string
  exact Heap.ne_of_get hb hprog.table Object.noConfusion

/-- **A frame has been located**: `p` points to a new string, which the cell `i` now points to. -/
theorem step (hprog : Progress h₀ name ts size exe locations h cells q (i + 1)) (hi : i < size)
    (hret : Returned IsTable h h₁ (some (ts i)) (some p))
    (hget : h₂.get = Function.update h₁.get locations
      (some (.pointers (cells.set i (some (some p)))))) (hnext : h₂.next = h₁.next) :
    Progress h₀ name ts size exe locations h₂ (cells.set i (some (some p)))
      (Function.update q i p) i := by
  have hkept : ∀ {o x}, h.get o = some x → o ≠ locations → h₂.get o = some x := by
    intro o x ho hne
    rw [hget, Function.update_of_ne hne, hret.get ho]
  cases hret with
  | @string _ _ b hnew hp hs hadds =>
  have hfresh : ∀ {o x}, h.get o = some x → o ≠ p := fun ho =>
    Nat.ne_of_lt (Nat.lt_of_lt_of_le (Heap.lt_next ho) hnew)
  have hp₂ : h₂.get p = some (.bytes b) := by
    rw [hget, Function.update_of_ne (hfresh hprog.table).symm, hp]
  have hold : ∀ j, i < j → Function.update q i p j = q j := fun j hj =>
    Function.update_of_ne (by omega) ..
  have hlen : i < cells.length := by rw [hprog.length]; exact hi
  obtain ⟨bs, hself, hname⟩ := hprog.exe_string
  constructor
  case adds =>
    have hbefore := hprog.adds.mono (Q := fun o x => o = exe ∨ o = locations ∨
        (∃ j, i ≤ j ∧ j < size ∧ o = Function.update q i p j) ∨ x = .symbols) fun o x _ ho => by
      rcases ho with ho | ho | ⟨j, hj, hlt, ho⟩ | ho
      · exact .inl ho
      · exact .inr (.inl ho)
      · exact .inr (.inr (.inl ⟨j, by omega, hlt, by rw [hold j hj, ho]⟩))
      · exact .inr (.inr (.inr ho))
    have hafter := hbefore.trans hadds fun o x ho => by
      rcases ho with rfl | ho
      · exact .inr (.inr (.inl ⟨i, Nat.le_refl i, hi, by rw [Function.update_self]⟩))
      · exact .inr (.inr (.inr ho))
    exact hafter.update hprog.locations_new hnext hget fun x _ => .inr (.inl rfl)
  case exe_new => exact hprog.exe_new
  case locations_new => exact hprog.locations_new
  case string_new =>
    intro j hj hlt
    rcases Nat.lt_or_eq_of_le hj with hj | rfl
    · rw [hold j hj]
      exact hprog.string_new j hj hlt
    · rw [Function.update_self]
      exact Nat.le_trans hprog.adds.next_le hnew
  case exe_string => exact ⟨bs, hkept hself hprog.exe_ne_locations, hname⟩
  case exe_ne =>
    intro j hj hlt
    rcases Nat.lt_or_eq_of_le hj with hj | rfl
    · rw [hold j hj]
      exact hprog.exe_ne j hj hlt
    · rw [Function.update_self]
      exact (hfresh hself).symm
  case table => rw [hget, Function.update_self]
  case length => rw [List.length_set, hprog.length]
  case strings =>
    have hrest := (hprog.strings.mono (Nat.le_refl _) (Nat.le_refl _) fun j b hj hlt hb =>
      hkept hb (hprog.string_ne_locations hj hlt)).set (Nat.lt_succ_self i) (some (some p))
    apply hrest.cons (List.getElem?_set_self hlen) hp₂ hs
    intro j hj hlt
    obtain ⟨c, hc, -⟩ := hprog.strings.string j hj hlt
    exact hfresh hc

/-- **A frame could not be located**: nothing is new but the value of the cell `i`. -/
theorem stop (hprog : Progress h₀ name ts size exe locations h cells q (i + 1))
    (hret : Returned IsTable h h₁ none none) (value : Option (Option ℕ))
    (hget : h₂.get = Function.update h₁.get locations (some (.pointers (cells.set i value))))
    (hnext : h₂.next = h₁.next) :
    Progress h₀ name ts size exe locations h₂ (cells.set i value) q (i + 1) := by
  have hkept : ∀ {o x}, h.get o = some x → o ≠ locations → h₂.get o = some x := by
    intro o x ho hne
    rw [hget, Function.update_of_ne hne, hret.get ho]
  cases hret with
  | null hadds =>
  obtain ⟨bs, hself, hname⟩ := hprog.exe_string
  constructor
  case adds =>
    have hafter := hprog.adds.trans hadds fun o x ho => .inr (.inr (.inr ho))
    exact hafter.update hprog.locations_new hnext hget fun x _ => .inr (.inl rfl)
  case exe_new => exact hprog.exe_new
  case locations_new => exact hprog.locations_new
  case string_new => exact hprog.string_new
  case exe_string => exact ⟨bs, hkept hself hprog.exe_ne_locations, hname⟩
  case exe_ne => exact hprog.exe_ne
  case table => rw [hget, Function.update_self]
  case length => rw [List.length_set, hprog.length]
  case strings =>
    exact (hprog.strings.mono (Nat.le_refl _) (Nat.le_refl _) fun j b hj hlt hb =>
      hkept hb (hprog.string_ne_locations hj hlt)).set (Nat.lt_succ_self i) value

end Progress

/-! ## One frame -/

section Frame

variable {name : CString} {ts : ℕ → CString} {size exe locations i : ℕ} {cells : Buffer (Option ℕ)}
  {q : ℕ → ℕ}

theorem asprintf_exec {s : CString} (hs : s.strlen < INT_MAX)
    (hp : h.get p = some (.pointers cells)) (hi : i < cells.length) :
    ∃ h', Exec (asprintf true p i s) h s.strlen h' ∧
      h'.get = Function.update (h.alloc (.bytes (s.image.map some))).get p
        (some (.pointers (cells.set i (some (some h.next))))) ∧ h'.next = h.next + 1 := by
  have hfits : s.strlen + 1 ≤ PTRDIFF_MAX := by
    simp only [INT_MAX, PTRDIFF_MAX] at *
    omega
  obtain ⟨h', hset, hget, hnext⟩ := setCell_exec
    (Heap.get_alloc (y := .bytes (s.image.map some)) hp) hi (some (some h.next))
  refine ⟨h', ?_, hget, hnext⟩
  exact (alloc_exec h _ hfits).bind (hset.bind (Exec.pure _ _))

theorem asprintf_fails (s : CString) (hp : h.get p = some (.pointers cells))
    (hi : i < cells.length) : ∃ h', Exec (asprintf false p i s) h (-1) h' ∧
      h'.get = Function.update h.get p (some (.pointers (cells.set i none))) ∧
      h'.next = h.next := by
  obtain ⟨h', hset, hget, hnext⟩ := setCell_exec hp hi none
  exact ⟨h', (alloc_fails h _ (by simp)).bind (hset.bind (Exec.pure _ _)), hget, hnext⟩

theorem locateFrame_located
    (hprog : Progress h₀ name ts size exe locations h cells q (i + 1)) (hi : i < size)
    (hout : frame.outcome a name = .located (ts i)) :
    ∃ h' cells' q', Exec (locateFrame frame a locations exe i) h (some (ts i).strlen) h' ∧
      Progress h₀ name ts size exe locations h' cells' q' i := by
  have hlen : i < cells.length := by rw [hprog.length]; exact hi
  rw [Frame.outcome] at hout
  rw [locateFrame]
  cases hfind : dl_iterate_phdr frame.objects a with
  | none =>
    simp only [hfind] at hout ⊢
    cases hok : frame.asprintf with
    | false => simp [hok] at hout
    | true =>
      rw [hok, if_pos rfl] at hout
      have hunknown : unknown = ts i := Outcome.located.inj hout
      obtain ⟨h', hexec, hget, hnext⟩ := asprintf_exec (s := unknown) (by decide) hprog.table hlen
      rw [hunknown] at hexec hget ⊢
      refine ⟨h', _, _, hexec.bind ?_, hprog.step hi (Returned.alloc _ h (ts i)) hget hnext⟩
      rw [if_neg (by omega)]
      exact Exec.pure _ _
  | some info =>
    simp only [hfind] at hout ⊢
    obtain ⟨b, hself, hname⟩ := hprog.exe_string
    have hset : frame.fileOutcome (objectFile info name.bytes) (a - info.dlpi_addr) ≠ .unset := by
      rw [hout]
      exact Outcome.noConfusion
    obtain ⟨r, h₁, hfile, hret⟩ := physical_addr_to_str_from_file_exec hset h
    rw [hout, Outcome.text] at hret
    cases r with
    | none => cases hret
    | some str =>
      obtain ⟨h₂, hset, hget, hnext⟩ := setCell_exec (hret.get hprog.table) hlen (some (some str))
      have hprog₂ := hprog.step hi hret hget hnext
      obtain ⟨c, hc, ht⟩ := hprog₂.strings.string i (Nat.le_refl i) hi
      rw [Function.update_self] at hc
      refine ⟨h₂, _, _, (readString_exec hself hname).bind ?_, hprog₂⟩
      exact hfile.bind (hset.bind ((readString_exec hc ht).bind (Exec.pure _ _)))

/-- `physical_addr_to_str_from_file` returns `NULL`, which is stored. -/
theorem locateFrame_unresolved
    (hprog : Progress h₀ name ts size exe locations h cells q (i + 1)) (hi : i < size)
    (hout : frame.outcome a name = .unresolved) :
    ∃ h' cells', Exec (locateFrame frame a locations exe i) h none h' ∧
      Progress h₀ name ts size exe locations h' cells' q (i + 1) ∧
      cells'[i]? = some (some none) := by
  have hlen : i < cells.length := by rw [hprog.length]; exact hi
  rw [Frame.outcome] at hout
  rw [locateFrame]
  cases hfind : dl_iterate_phdr frame.objects a with
  | none =>
    simp only [hfind] at hout
    split at hout <;> cases hout
  | some info =>
    simp only [hfind] at hout ⊢
    obtain ⟨b, hself, hname⟩ := hprog.exe_string
    have hset : frame.fileOutcome (objectFile info name.bytes) (a - info.dlpi_addr) ≠ .unset := by
      rw [hout]
      exact Outcome.noConfusion
    obtain ⟨r, h₁, hfile, hret⟩ := physical_addr_to_str_from_file_exec hset h
    rw [hout] at hret
    change Returned IsTable h h₁ none r at hret
    cases r with
    | some str => cases hret
    | none =>
      obtain ⟨h₂, hset, hget, hnext⟩ := setCell_exec (hret.get hprog.table) hlen (some none)
      refine ⟨h₂, _, ?_, hprog.stop hret (some none) hget hnext, List.getElem?_set_self hlen⟩
      apply (readString_exec hself hname).bind
      exact hfile.bind (hset.bind (Exec.pure _ _))

/-- `asprintf` fails, and leaves the cell indeterminate. -/
theorem locateFrame_unprinted
    (hprog : Progress h₀ name ts size exe locations h cells q (i + 1)) (hi : i < size)
    (hout : frame.outcome a name = .unprinted) :
    ∃ h' cells', Exec (locateFrame frame a locations exe i) h none h' ∧
      Progress h₀ name ts size exe locations h' cells' q (i + 1) ∧ cells'[i]? = some none := by
  have hlen : i < cells.length := by rw [hprog.length]; exact hi
  rw [Frame.outcome] at hout
  rw [locateFrame]
  cases hfind : dl_iterate_phdr frame.objects a with
  | some info =>
    simp only [hfind] at hout
    exact absurd hout (frame.fileOutcome_ne_unprinted _ _)
  | none =>
    simp only [hfind] at hout ⊢
    cases hok : frame.asprintf with
    | true => simp [hok] at hout
    | false =>
      obtain ⟨h', hexec, hget, hnext⟩ := asprintf_fails unknown hprog.table hlen
      refine ⟨h', _, hexec.bind ?_, hprog.stop (.null (.refl _ h)) none hget hnext,
        List.getElem?_set_self hlen⟩
      rw [if_pos (by omega)]
      exact Exec.pure _ _

/-- BFD leaves the pointer to its table unset. -/
theorem locateFrame_unset (hprog : Progress h₀ name ts size exe locations h cells q (i + 1))
    (hout : frame.outcome a name = .unset) : Faults (locateFrame frame a locations exe i) h := by
  rw [Frame.outcome] at hout
  rw [locateFrame]
  cases hfind : dl_iterate_phdr frame.objects a with
  | none =>
    simp only [hfind] at hout
    split at hout <;> cases hout
  | some info =>
    simp only [hfind] at hout ⊢
    obtain ⟨b, hself, hname⟩ := hprog.exe_string
    apply (readString_exec hself hname).bind_faults
    exact (physical_addr_to_str_from_file_unset hout h).bind _

/-! ## The first loop -/

/-- The bytes of the first `n` locations, with their terminators. -/
def total (ts : ℕ → CString) : ℕ → ℕ := span fun j => (ts j).strlen + 1

theorem total_succ (ts : ℕ → CString) (n : ℕ) :
    total ts (n + 1) = total ts n + ((ts n).strlen + 1) := rfl

/-- **As far as the frames are located**, the loop comes to the next one, and has counted their
bytes. -/
theorem locate_reach {env : Env} {buffer : ℕ → UInt64} {k charCount : ℕ}
    (hprog : Progress h₀ name ts size exe locations h cells q i) (hki : k ≤ i) (hi : i ≤ size)
    (hcount : charCount < 2 ^ 64)
    (hout : ∀ j, k ≤ j → j < i → (env.frame j).outcome (buffer j) name = .located (ts j)) :
    ∃ h' cells' q' charCount', Progress h₀ name ts size exe locations h' cells' q' k ∧
      charCount' < 2 ^ 64 ∧ sizeT (charCount' + total ts k) = sizeT (charCount + total ts i) ∧
      locate env buffer locations exe i charCount h =
        locate env buffer locations exe k charCount' h' := by
  induction i generalizing h cells q charCount with
  | zero =>
    obtain rfl : k = 0 := by omega
    exact ⟨h, cells, q, charCount, hprog, hcount, rfl, rfl⟩
  | succ i ih =>
    rcases Nat.lt_or_eq_of_le hki with hlt | rfl
    · obtain ⟨h₁, cells₁, q₁, hframe, hprog₁⟩ := locateFrame_located hprog (by omega)
        (hout i (by omega) (by omega))
      have hcount₁ : sizeT (charCount + ((ts i).strlen + 1)) < 2 ^ 64 := by
        rw [sizeT]
        omega
      obtain ⟨h', cells', q', charCount', hprog', hcount', htotal, hlocate⟩ := ih hprog₁ (by omega)
        (by omega) hcount₁ fun j hj hji => hout j hj (by omega)
      refine ⟨h', cells', q', charCount', hprog', hcount', ?_, ?_⟩
      · rw [htotal, total_succ]
        simp only [sizeT]
        omega
      · rw [← hlocate, locate]
        exact hframe.bind_eq _
    · exact ⟨h, cells, q, charCount, hprog, hcount, rfl, rfl⟩

end Frame

/-! ## The call -/

section Call

variable {env : Env} {buffer : ℕ → UInt64} {name : CString} {size k : ℕ}

/-- The frames from `k` on are located. -/
def Env.LocatedFrom (env : Env) (buffer : ℕ → UInt64) (size : ℕ) (name : CString) (k : ℕ) : Prop :=
  ∀ j, k ≤ j → j < size → ∃ s, (env.frame j).outcome (buffer j) name = .located s

/-- Every step succeeds. -/
def Env.Succeeds (env : Env) (buffer : ℕ → UInt64) (size : ℕ) : Prop :=
  ∃ name, env.self.result = some name ∧ env.table = true ∧ env.LocatedFrom buffer size name 0 ∧
    env.block = true

/-- The locations of the frames of a program. -/
def Env.strings (env : Env) (buffer : ℕ → UInt64) (name : CString) (j : ℕ) : CString :=
  ((env.frame j).outcome (buffer j) name).text.getD unknown

theorem Env.LocatedFrom.outcome (hlocated : env.LocatedFrom buffer size name k) {j : ℕ} (hj : k ≤ j)
    (hlt : j < size) :
    (env.frame j).outcome (buffer j) name = .located (env.strings buffer name j) := by
  obtain ⟨s, hs⟩ := hlocated j hj hlt
  rw [Env.strings, hs]
  rfl

/-- The call has read the link to the program and allocated the array. -/
theorem Progress.init (size : ℕ) {ts : ℕ → CString} {exe : ℕ}
    (hret : Returned (fun _ _ => False) h₀ h (some name) (some exe)) :
    Progress h₀ name ts size exe h.next (h.alloc (.pointers (Buffer.fresh size)))
      (Buffer.fresh size) (fun _ => 0) size := by
  cases hret with
  | @string _ _ b hnew hp hs hadds =>
  constructor
  case adds =>
    have hbefore := hadds.mono (Q := fun o x => o = exe ∨ o = h.next ∨
        (∃ j, size ≤ j ∧ j < size ∧ o = 0) ∨ x = .symbols) fun o x _ ho =>
      .inl (ho.resolve_right id)
    exact hbefore.alloc (.inr (.inl rfl))
  case exe_new => exact hnew
  case locations_new => exact hadds.next_le
  case string_new => intro j hj hlt; omega
  case exe_string => exact ⟨b, Heap.get_alloc hp, hs⟩
  case exe_ne => intro j hj hlt; omega
  case table => exact Heap.get_alloc_next h _
  case length => exact Buffer.length_fresh size
  case strings =>
    constructor
    case cell => intro j hj hlt; omega
    case string => intro j hj hlt; omega
    case ne => intro j k hj hjk hk; omega

/-- **The call up to the first frame that is not located** has the state `Progress`; what it does is
what it does from there. -/
theorem stacktrace_symbols_reach (hsize : size ≤ INT_MAX) (hself : env.self.result = some name)
    (htable : env.table = true) (hk : k ≤ size) (hlocated : env.LocatedFrom buffer size name k)
    (h : Heap Object) : ∃ h' exe locations cells q charCount,
      Progress h name (env.strings buffer name) size exe locations h' cells q k ∧
      charCount < 2 ^ 64 ∧ sizeT (charCount + total (env.strings buffer name) k) =
        sizeT (total (env.strings buffer name) size) ∧
      stacktrace_symbols env buffer size h =
        (locate env buffer locations exe k charCount >>= finish env size locations exe) h' := by
  obtain ⟨r, h₁, hread, hret⟩ := File.xcp_readlink_exec env.self h
  rw [hself] at hret
  cases r with
  | none => cases hret
  | some exe =>
    have hfits : size * 8 ≤ PTRDIFF_MAX := by
      simp only [INT_MAX, PTRDIFF_MAX] at *
      omega
    obtain ⟨h', cells, q, charCount, hprog, hcount, htotal, hlocate⟩ :=
      locate_reach (Progress.init size hret) hk (Nat.le_refl size) (show 0 < 2 ^ 64 by decide)
        fun j hj hlt => hlocated.outcome hj hlt
    refine ⟨h', exe, h₁.next, cells, q, charCount, hprog, hcount, ?_, ?_⟩
    · rw [htotal, Nat.zero_add]
    · rw [stacktrace_symbols, hread.bind_eq, htable]
      exact ((alloc_exec h₁ _ hfits).bind_eq _).trans (bind_congr_left hlocate _)

end Call

/-! ## A program -/

def programName : CString := ⟨ascii ['/', 'a'], by decide, by decide⟩

/-- The link to the program `/a`. -/
def program : File.Links where
  memory _ := true
  target _ := some programName

theorem program_result : program.result = some programName := rfl

/-- An address outside the objects of the program. -/
def outside : Frame where
  objects := []
  asprintf := true
  bfd_openr _ := none
  measured := true
  memory := true
  printed := true

end XcpNgGeneric.Stacktrace
