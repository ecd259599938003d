import XcpNgGeneric.Descriptor.System
import XcpNgGeneric.Memory.Objects

/-!
# Reading a symbolic link

`xcp_readlink` of `file.c`, which doubles its buffer until the target of the link leaves a byte of
it free. The link may be changed between two calls of `readlink`, so that each call finds its own
target.

## Main results

* `xcp_readlink_exec`: the function returns, with a new string or with everything freed.
* `readlink_complete`: nothing is truncated.
-/

namespace XcpNgGeneric.File

open Memory

/-- What the environment of one call of `xcp_readlink` answers. -/
structure Links where
  /-- Whether the allocations succeed: `malloc`, and then each `realloc`. -/
  memory : ℕ → Bool
  /-- What the link contains when `readlink` is called; `none` if this call fails. -/
  target : ℕ → Option CString

/-- `readlink(pathname, buf, n)`. -/
def readlink (target : Option CString) (buf n : ℕ) : Mem ℤ :=
  match target with
  | none => pure (-1)
  | some s => do
    storeBytes buf 0 (s.bytes.take n)
    pure (min n s.strlen : ℕ)

/-- The loop, and what follows it. -/
def grow (links : Links) : ℕ → ℕ → ℕ → ℕ → Mem (Option ℕ)
  | 0, _, _, _ => fault .endless
  | fuel + 1, i, buf, bufSize => do
    let ret ← readlink (links.target i) buf (bufSize - 1)
    if Descriptor.sizeT ret = bufSize - 1 then
      let bufSize := sizeT (bufSize <<< 1)
      match ← realloc (links.memory (i + 1)) buf bufSize with
      | none =>
        free (some buf)
        pure none
      | some p => grow links fuel (i + 1) p bufSize
    else if ret = -1 then
      free (some buf)
      pure none
    else
      storeBytes buf ret.toNat [NUL]
      pure (some buf)

/-- No buffer can be doubled more than 60 times (`grow_exec`). -/
def xcp_readlink (links : Links) : Mem (Option ℕ) := do
  let bufSize := 16
  match ← alloc (links.memory 0) bufSize (.bytes (Buffer.fresh bufSize)) with
  | none => pure none
  | some buf => grow links 60 0 buf bufSize

namespace Links

/-- The target that call `i` finds leaves no byte of its buffer free. -/
def Fills (links : Links) (i : ℕ) : Prop :=
  ∃ s, links.target i = some s ∧ 16 * 2 ^ i - 1 ≤ s.strlen

/-- The target that the loop returns, if it comes to call `i` with a buffer of `bufSize` bytes. -/
def found (links : Links) : ℕ → ℕ → ℕ → Option CString
  | 0, _, _ => none
  | fuel + 1, i, bufSize =>
    match links.target i with
    | none => none
    | some s =>
      if s.strlen < bufSize - 1 then some s
      else if links.memory (i + 1) = true ∧ 2 * bufSize ≤ PTRDIFF_MAX then
        links.found fuel (i + 1) (2 * bufSize)
      else none

/-- The target that `xcp_readlink` returns; `none` if it returns `NULL`. -/
def result (links : Links) : Option CString :=
  if links.memory 0 then links.found 60 0 16 else none

variable {links : Links} {fuel i bufSize : ℕ} {s : CString}

theorem found_none (ht : links.target i = none) : links.found (fuel + 1) i bufSize = none := by
  simp [found, ht]

theorem found_of_lt (ht : links.target i = some s) (hfree : s.strlen < bufSize - 1) :
    links.found (fuel + 1) i bufSize = some s := by
  simp [found, ht, hfree]

theorem found_again (ht : links.target i = some s) (hfree : ¬s.strlen < bufSize - 1)
    (hmem : links.memory (i + 1) = true ∧ 2 * bufSize ≤ PTRDIFF_MAX) :
    links.found (fuel + 1) i bufSize = links.found fuel (i + 1) (2 * bufSize) := by
  simp [found, ht, hfree, hmem]

theorem found_stop (ht : links.target i = some s) (hfree : ¬s.strlen < bufSize - 1)
    (hmem : ¬(links.memory (i + 1) = true ∧ 2 * bufSize ≤ PTRDIFF_MAX)) :
    links.found (fuel + 1) i bufSize = none := by
  rw [found, ht]
  simp only [if_neg hfree, if_neg hmem]

end Links

/-! ## One iteration -/

variable {links : Links} {h₀ h : Heap Object} {fuel i buf bufSize : ℕ} {b : Buffer UInt8}
  {s : CString}

theorem readlink_exec (hp : h.get buf = some (.bytes b)) (hb : b.length = bufSize)
    (hle : 16 ≤ bufSize) : ∃ b' h', Exec (readlink (some s) buf (bufSize - 1)) h
      (min (bufSize - 1) s.strlen : ℕ) h' ∧ b.write 0 (s.bytes.take (bufSize - 1)) = some b' ∧
      h'.get = Function.update h.get buf (some (.bytes b')) ∧ h'.next = h.next := by
  obtain ⟨b', h', hstore, hwrite, hget, hnext, -⟩ := storeBytes_exec 0
    (s.bytes.take (bufSize - 1)) hp (by rw [List.length_take]; omega)
  exact ⟨b', h', hstore.bind (Exec.pure _ _), hwrite, hget, hnext⟩

/-- The call fails. -/
theorem grow_fails (hp : h.get buf = some (.bytes b)) (hle : bufSize ≤ PTRDIFF_MAX)
    (ht : links.target i = none) : ∃ h', Exec (grow links (fuel + 1) i buf bufSize) h none h' ∧
      h'.get = Function.update h.get buf none ∧ h'.next = h.next := by
  obtain ⟨h', hfree, hget, hnext, -⟩ := free_exec hp
  refine ⟨h', ?_, hget, hnext⟩
  have hread : Exec (readlink (links.target i) buf (bufSize - 1)) h (-1) h := by
    rw [ht]
    exact Exec.pure _ _
  have hsize : Descriptor.sizeT (-1) ≠ bufSize - 1 := by
    simp only [Descriptor.sizeT, PTRDIFF_MAX] at *
    omega
  rw [grow]
  apply hread.bind
  rw [if_neg hsize, if_pos rfl]
  exact hfree.bind (Exec.pure _ _)

theorem sizeT_natCast {n : ℕ} (hn : n ≤ PTRDIFF_MAX) : Descriptor.sizeT n = n := by
  simp only [Descriptor.sizeT, PTRDIFF_MAX] at *
  omega

/-- The target leaves a byte of the buffer free. -/
theorem grow_found (hp : h.get buf = some (.bytes b)) (hb : b.length = bufSize)
    (hle : 16 ≤ bufSize) (hle' : bufSize ≤ PTRDIFF_MAX) (ht : links.target i = some s)
    (hfree : s.strlen < bufSize - 1) :
    ∃ b' h', Exec (grow links (fuel + 1) i buf bufSize) h (some buf) h' ∧ IsString b' s ∧
      h'.get = Function.update h.get buf (some (.bytes b')) ∧ h'.next = h.next := by
  obtain ⟨b₁, h₁, hread, hwrite, hget, hnext⟩ := readlink_exec (s := s) hp hb hle
  rw [Nat.min_eq_right (Nat.le_of_lt hfree)] at hread
  rw [List.take_of_length_le (Nat.le_of_lt hfree)] at hwrite
  obtain ⟨b₂, h₂, hstore, hwrite', hget', hnext', -⟩ := storeBytes_exec s.strlen [NUL]
    (show h₁.get buf = some (.bytes b₁) by rw [hget, Function.update_self])
    (by rw [(Buffer.length_write hwrite).2, List.length_singleton]; omega)
  have himage : b.write 0 s.image = some b₂ := by
    rw [CString.image, ← Buffer.write_write, hwrite, Option.bind_some, Nat.zero_add]
    exact hwrite'
  refine ⟨b₂, h₂, ?_, Buffer.Holds.of_write himage, ?_, hnext'.trans hnext⟩
  · have hsize : Descriptor.sizeT s.strlen ≠ bufSize - 1 := by
      rw [sizeT_natCast (by omega)]
      omega
    rw [grow, ht]
    apply hread.bind
    rw [if_neg hsize, if_neg (by omega)]
    exact hstore.bind (Exec.pure _ _)
  · rw [hget', hget, Function.update_idem]

/-- The second half of an iteration whose target may have been truncated. -/
def enlarge (links : Links) (fuel i buf bufSize : ℕ) : Mem (Option ℕ) := do
  match ← realloc (links.memory (i + 1)) buf bufSize with
  | none =>
    free (some buf)
    pure none
  | some p => grow links fuel (i + 1) p bufSize

/-- The target may have been truncated. -/
theorem grow_again (fuel : ℕ) (hp : h.get buf = some (.bytes b)) (hb : b.length = bufSize)
    (hle : 16 ≤ bufSize) (hle' : bufSize ≤ PTRDIFF_MAX) (ht : links.target i = some s)
    (hfull : bufSize - 1 ≤ s.strlen) : ∃ b₁ h₁, b₁.length = bufSize ∧
      h₁.get = Function.update h.get buf (some (.bytes b₁)) ∧ h₁.next = h.next ∧
      ∀ r h', Exec (enlarge links fuel i buf (2 * bufSize)) h₁ r h' →
        Exec (grow links (fuel + 1) i buf bufSize) h r h' := by
  obtain ⟨b₁, h₁, hread, hwrite, hget, hnext⟩ := readlink_exec (s := s) hp hb hle
  rw [Nat.min_eq_left hfull] at hread
  refine ⟨b₁, h₁, by rw [(Buffer.length_write hwrite).2, hb], hget, hnext, ?_⟩
  intro r h' hrest
  have hshift : sizeT (bufSize <<< 1) = 2 * bufSize := by
    rw [Nat.shiftLeft_eq, sizeT, PTRDIFF_MAX] at *
    omega
  rw [grow, ht]
  apply hread.bind
  rw [if_pos (sizeT_natCast (by omega)), hshift]
  exact hrest

/-- There is no memory for a larger buffer. -/
theorem enlarge_fails (fuel : ℕ) (hp : h.get buf = some (.bytes b))
    (hmem : ¬(links.memory (i + 1) = true ∧ bufSize ≤ PTRDIFF_MAX)) :
    ∃ h', Exec (enlarge links fuel i buf bufSize) h none h' ∧
      h'.get = Function.update h.get buf none ∧ h'.next = h.next := by
  obtain ⟨h', hfree, hget, hnext, -⟩ := free_exec hp
  exact ⟨h', (realloc_fails hp hmem).bind (hfree.bind (Exec.pure _ _)), hget, hnext⟩

theorem enlarge_exec (fuel : ℕ) (hp : h.get buf = some (.bytes b))
    (hmem : links.memory (i + 1) = true) (hle : bufSize ≤ PTRDIFF_MAX) :
    ∃ b₁ h₁, b₁.length = bufSize ∧
      h₁.get = Function.update (Function.update h.get h.next (some (.bytes b₁))) buf none ∧
      h₁.next = h.next + 1 ∧
      ∀ r h', Exec (grow links fuel (i + 1) h.next bufSize) h₁ r h' →
        Exec (enlarge links fuel i buf bufSize) h r h' := by
  obtain ⟨b₁, h₁, hrealloc, hlength, hget, hnext⟩ := realloc_exec hp hle
  refine ⟨b₁, h₁, hlength, hget, hnext, ?_⟩
  intro r h' hrest
  rw [enlarge, hmem]
  exact hrealloc.bind hrest

/-! ## The loop -/

theorem two_mul_mul_pow (m k : ℕ) : 2 * m * 2 ^ k = m * 2 ^ (k + 1) := by
  rw [Nat.pow_succ', ← Nat.mul_assoc, Nat.mul_comm m 2]

/-- The loop ends: the doublings that are left overflow `size_t`. -/
theorem grow_exec (links : Links) (fuel i : ℕ) (hfuel : 2 ^ 64 ≤ bufSize * 2 ^ fuel)
    (hp : h.get buf = some (.bytes b)) (hb : b.length = bufSize) (hle : 16 ≤ bufSize)
    (hle' : bufSize ≤ PTRDIFF_MAX) (hnew : h₀.next ≤ buf) (hadds : h₀.Adds (fun q _ => q = buf) h) :
    ∃ r h', Exec (grow links fuel i buf bufSize) h r h' ∧
      Returned (fun _ _ => False) h₀ h' (links.found fuel i bufSize) r := by
  induction fuel generalizing i buf bufSize b h with
  | zero =>
    simp only [PTRDIFF_MAX] at hle'
    omega
  | succ fuel ih =>
    cases ht : links.target i with
    | none =>
      obtain ⟨h', hexec, hget, hnext⟩ := grow_fails hp hle' ht
      refine ⟨none, h', hexec, ?_⟩
      rw [Links.found_none ht]
      exact .null (hadds.freed hnew hnext hget)
    | some s =>
      by_cases hfree : s.strlen < bufSize - 1
      · obtain ⟨b', h', hexec, hs, hget, hnext⟩ := grow_found hp hb hle hle' ht hfree
        refine ⟨some buf, h', hexec, ?_⟩
        rw [Links.found_of_lt ht hfree]
        exact .stored hnew hadds hget hnext hs
      -- the buffer is read to its end, and enlarged
      obtain ⟨b₁, h₁, hlength, hget, hnext, hagain⟩ := grow_again fuel hp hb hle hle' ht
        (by omega)
      have hp₁ : h₁.get buf = some (.bytes b₁) := by rw [hget, Function.update_self]
      have hadds₁ : h₀.Adds (fun q _ => q = buf) h₁ := hadds.update hnew hnext hget fun x hx => rfl
      by_cases hmem : links.memory (i + 1) = true ∧ 2 * bufSize ≤ PTRDIFF_MAX
      · rw [Links.found_again ht hfree hmem]
        obtain ⟨b₂, h₂, hlength₂, hget₂, hnext₂, hrest⟩ := enlarge_exec fuel hp₁ hmem.1 hmem.2
        have hp₂ : h₂.get h₁.next = some (.bytes b₂) := by
          rw [hget₂, Function.update_of_ne (Heap.ne_next hp₁).symm, Function.update_self]
        obtain ⟨r, h', hexec, hreturned⟩ := ih (i := i + 1) (by rwa [two_mul_mul_pow]) hp₂ hlength₂
          (by omega) hmem.2 hadds₁.next_le (hadds₁.moved hnew hnext₂ hget₂)
        exact ⟨r, h', hagain _ _ (hrest _ _ hexec), hreturned⟩
      · obtain ⟨h', hexec, hget', hnext'⟩ := enlarge_fails fuel hp₁ hmem
        refine ⟨none, h', hagain _ _ hexec, ?_⟩
        rw [Links.found_stop ht hfree hmem]
        exact .null (hadds₁.freed hnew hnext' hget')

/-- **What `xcp_readlink` returns**: the target that leaves a byte of its buffer free, as a new
string. -/
theorem xcp_readlink_exec (links : Links) (h : Heap Object) : ∃ r h',
    Exec (xcp_readlink links) h r h' ∧ Returned (fun _ _ => False) h h' links.result r := by
  cases hmem : links.memory 0 with
  | false =>
    refine ⟨none, h, (alloc_fails h _ (by simp [hmem])).bind (Exec.pure _ _), ?_⟩
    rw [Links.result, hmem]
    exact .null (.refl _ h)
  | true =>
    have hnew := Heap.get_alloc_next h (.bytes (Buffer.fresh 16))
    obtain ⟨r, h', hgrow, hreturned⟩ := grow_exec links 60 0 (by decide) hnew
      (Buffer.length_fresh 16) (by decide) (by decide) (Nat.le_refl _)
      ((Heap.Adds.refl _ h).alloc rfl)
    refine ⟨r, h', ?_, ?_⟩
    · rw [xcp_readlink, hmem]
      exact (alloc_exec h _ (by decide)).bind hgrow
    · rw [Links.result, hmem]
      exact hreturned

/-! ## Nothing is truncated -/

/-- If there is memory for every buffer that is needed, the loop comes to the first call whose
target leaves a byte of its buffer free. -/
theorem found_first (fuel i : ℕ) (hmemory : ∀ i, links.memory i = true)
    (hsize : ∀ i, (∀ j < i, links.Fills j) → 16 * 2 ^ i < 2 ^ 63)
    (hfuel : 2 ^ 64 ≤ 16 * 2 ^ i * 2 ^ fuel) (hfills : ∀ j < i, links.Fills j) :
    ∃ k, (∀ j < k, links.Fills j) ∧ ¬links.Fills k ∧
      links.found fuel i (16 * 2 ^ i) = links.target k := by
  induction fuel generalizing i with
  | zero =>
    have hlt := hsize i hfills
    omega
  | succ fuel ih =>
    cases ht : links.target i with
    | none =>
      refine ⟨i, hfills, ?_, by rw [Links.found_none ht, ht]⟩
      rintro ⟨s, hs, -⟩
      rw [ht] at hs
      cases hs
    | some s =>
      by_cases hfree : s.strlen < 16 * 2 ^ i - 1
      · refine ⟨i, hfills, ?_, by rw [Links.found_of_lt ht hfree, ht]⟩
        rintro ⟨t, hs, hle⟩
        rw [ht] at hs
        cases hs
        omega
      have hdouble : 2 * (16 * 2 ^ i) = 16 * 2 ^ (i + 1) := by
        rw [Nat.pow_succ]
        omega
      have hfills' : ∀ j < i + 1, links.Fills j := by
        intro j hj
        rcases Nat.lt_succ_iff_lt_or_eq.1 hj with hlt | rfl
        · exact hfills j hlt
        · exact ⟨s, ht, by omega⟩
      have hlt := hsize (i + 1) hfills'
      rw [Links.found_again ht hfree ⟨hmemory _, by rw [PTRDIFF_MAX]; omega⟩, hdouble]
      apply ih (i + 1) _ hfills'
      rwa [← hdouble, two_mul_mul_pow]

/-- **`xcp_readlink` never truncates**: it returns the complete target of the last call of
`readlink`, which is the first whose target leaves a byte of its buffer free, or `NULL` if one of
its calls fails. -/
theorem readlink_complete (links : Links) (h : Heap Object) (hmemory : ∀ i, links.memory i = true)
    (hsize : ∀ i, (∀ j < i, links.Fills j) → 16 * 2 ^ i < 2 ^ 63) :
    ∃ i, (∀ j < i, links.Fills j) ∧ ¬links.Fills i ∧
      ∃ r h', Exec (xcp_readlink links) h r h' ∧ (r = none ↔ ∃ j ≤ i, links.target j = none) ∧
        ∀ p, r = some p → ∃ s b, links.target i = some s ∧ s.strlen < 16 * 2 ^ i - 1 ∧
          h'.get p = some (.bytes b) ∧ IsString b s := by
  obtain ⟨i, hfills, hlast, hfound⟩ := found_first 60 0 hmemory hsize (by decide)
    fun j hj => absurd hj (Nat.not_lt_zero j)
  obtain ⟨r, h', hexec, hreturned⟩ := xcp_readlink_exec links h
  rw [Links.result, hmemory 0, if_pos rfl] at hreturned
  change links.found 60 0 16 = _ at hfound
  rw [hfound] at hreturned
  refine ⟨i, hfills, hlast, r, h', hexec, ?_⟩
  cases ht : links.target i with
  | none =>
    rw [ht] at hreturned
    cases hreturned
    refine ⟨⟨fun _ => ⟨i, Nat.le_refl i, ht⟩, fun _ => rfl⟩, ?_⟩
    intro p hp
    cases hp
  | some s =>
    rw [ht] at hreturned
    cases hreturned with
    | string hnew hp hs hadds =>
      have hlt : s.strlen < 16 * 2 ^ i - 1 := by
        by_contra hge
        exact hlast ⟨s, ht, by omega⟩
      constructor
      · constructor
        · intro hnull
          cases hnull
        · rintro ⟨j, hj, hnone⟩
          rcases Nat.lt_or_eq_of_le hj with hlt | rfl
          · obtain ⟨t, hsome, -⟩ := hfills j hlt
            rw [hnone] at hsome
            cases hsome
          · rw [hnone] at ht
            cases ht
      · intro q hq
        cases hq
        exact ⟨s, _, rfl, hlt, hp, hs⟩

/-- A link whose target of 15 bytes, which fill the first buffer, is then replaced by a shorter
one. -/
def replaced : Links where
  memory _ := true
  target i :=
    if i = 0 then some ⟨List.replicate 15 120, by decide, by decide⟩
    else some ⟨[121], by decide, by decide⟩

theorem readlink_complete_replaced :
    ∃ i, (∀ j < i, replaced.Fills j) ∧ ¬replaced.Fills i ∧
      ∃ r h', Exec (xcp_readlink replaced) Heap.empty r h' ∧
        (r = none ↔ ∃ j ≤ i, replaced.target j = none) ∧
        ∀ p, r = some p → ∃ s b, replaced.target i = some s ∧ s.strlen < 16 * 2 ^ i - 1 ∧
          h'.get p = some (.bytes b) ∧ IsString b s := by
  apply readlink_complete replaced Heap.empty fun _ => rfl
  intro i hfills
  have hle : i ≤ 1 := by
    by_contra hgt
    obtain ⟨s, hs, hlong⟩ := hfills 1 (by omega)
    cases hs
    exact absurd hlong (by decide)
  have hpow : 2 ^ i ≤ 2 ^ 1 := Nat.pow_le_pow_right (by decide) hle
  omega

end XcpNgGeneric.File
