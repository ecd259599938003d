import XcpNgGeneric.Memory.Addressed

/-!
# Searching arrays

`algorithm.h`: the index of the first element of an array for which a predicate holds, and of a
string in an array of pointers to strings. A predicate is handed the addresses of the element and of
the needle.

## Main results

* `arr_index_of_finds`: the predicate is asked about one element after another, up to the first for
  which it holds.
* `str_arr_index_of_eq`: the index of a string.
-/

namespace XcpNgGeneric.Algorithm

open Bytes Memory

/-! ## The functions -/

/-- `(size_t)-1`. -/
def SIZE_MAX : ℕ := 2 ^ 64 - 1

/-- The size of an address space, which bounds every loop over memory. -/
def spaceSize : ℕ := 2 ^ 64

abbrev XcpPredicate := ℕ → ℕ → Addressed → Except Fault Bool

/-- The loop of `strcmp`; the bytes are compared as `unsigned char`. -/
def strcmpLoop (m : Addressed) : ℕ → ℕ → ℕ → Except Fault ℤ
  | 0, _, _ => .error .endless
  | fuel + 1, p, q => do
    let c ← m.loadByte p
    let d ← m.loadByte q
    if c ≠ d ∨ c = NUL then pure ((c.toNat : ℤ) - d.toNat) else strcmpLoop m fuel (p + 1) (q + 1)

def strcmp (m : Addressed) (s t : ℕ) : Except Fault ℤ := strcmpLoop m spaceSize s t

def xcp_pred_str_equal : XcpPredicate := fun elem needle m => do
  let s ← m.loadWord elem 8 64
  let r ← strcmp m s.toNat needle
  pure (r == 0)

/-- The loop from `p` on. -/
def indexLoop (arr elemSize stop needle : ℕ) (predicate : XcpPredicate) (m : Addressed) :
    ℕ → ℕ → Except Fault ℕ
  | 0, p => if p < stop then .error .endless else pure SIZE_MAX
  | fuel + 1, p =>
    if p < stop then do
      let holds ← predicate p needle m
      if holds then pure ((p - arr) / elemSize)
      else indexLoop arr elemSize stop needle predicate m fuel (p + elemSize)
    else pure SIZE_MAX

def xcp_arr_index_of (arr elemSize n needle : ℕ) (predicate : XcpPredicate) (m : Addressed) :
    Except Fault ℕ :=
  let stop := arr + sizeT (n * elemSize)
  indexLoop arr elemSize stop needle predicate m (stop - arr) arr

def xcp_str_arr_index_of (arr n needle : ℕ) (m : Addressed) : Except Fault ℕ :=
  xcp_arr_index_of arr 8 n needle xcp_pred_str_equal m

/-! ## Any predicate -/

/-- What a search in `n` elements yields, if `holds i` is what the predicate says of the element
`i`: it is asked about no element behind the first for which it holds or fails. -/
def Finds (holds : ℕ → Except Fault Bool) (n : ℕ) : Except Fault ℕ → Prop
  | .ok r => (∃ i < n, r = i ∧ holds i = .ok true ∧ ∀ j < i, holds j = .ok false) ∨
      (r = SIZE_MAX ∧ ∀ j < n, holds j = .ok false)
  | .error e => ∃ i < n, holds i = .error e ∧ ∀ j < i, holds j = .ok false

/-- The loop from the element `k` on, after those before it have been asked about. -/
theorem indexLoop_finds {arr elemSize needle : ℕ} {predicate : XcpPredicate} {m : Addressed}
    (hpos : 0 < elemSize) (n : ℕ) {fuel k : ℕ} (hk : k ≤ n) (hfuel : n - k ≤ fuel)
    (hbefore : ∀ j < k, predicate (arr + j * elemSize) needle m = .ok false) :
    Finds (fun i => predicate (arr + i * elemSize) needle m) n
      (indexLoop arr elemSize (arr + n * elemSize) needle predicate m fuel
        (arr + k * elemSize)) := by
  induction fuel generalizing k with
  | zero =>
    obtain rfl : k = n := by omega
    rw [indexLoop, if_neg (Nat.lt_irrefl _)]
    exact Or.inr ⟨rfl, hbefore⟩
  | succ fuel ih =>
    rw [indexLoop]
    rcases Nat.lt_or_ge k n with hlt | hge
    · have hstop : arr + k * elemSize < arr + n * elemSize :=
        Nat.add_lt_add_left (Nat.mul_lt_mul_of_pos_right hlt hpos) _
      rw [if_pos hstop]
      cases hcall : predicate (arr + k * elemSize) needle m with
      | error e => exact ⟨k, hlt, hcall, hbefore⟩
      | ok b =>
        rw [ok_bind]
        cases b with
        | true =>
          refine Or.inl ⟨k, hlt, ?_, hcall, hbefore⟩
          rw [Nat.add_sub_cancel_left, Nat.mul_div_cancel _ hpos]
        | false =>
          have hnext : arr + k * elemSize + elemSize = arr + (k + 1) * elemSize := by
            rw [Nat.succ_mul, Nat.add_assoc]
          rw [if_neg Bool.false_ne_true, hnext]
          apply ih hlt (by omega)
          intro j hj
          rcases Nat.lt_succ_iff_lt_or_eq.1 hj with hj | rfl
          · exact hbefore j hj
          · exact hcall
    · obtain rfl : k = n := by omega
      rw [if_neg (Nat.lt_irrefl _)]
      exact Or.inr ⟨rfl, hbefore⟩

/-- **A search** asks about one element after another, and stops at the first for which the
predicate holds. -/
theorem arr_index_of_finds {arr elemSize n needle : ℕ} (predicate : XcpPredicate) (m : Addressed)
    (hpos : 0 < elemSize) (hsize : n * elemSize < 2 ^ 64) :
    Finds (fun i => predicate (arr + i * elemSize) needle m) n
      (xcp_arr_index_of arr elemSize n needle predicate m) := by
  have hstop : sizeT (n * elemSize) = n * elemSize := Nat.mod_eq_of_lt hsize
  have hfuel : n ≤ n * elemSize := Nat.le_mul_of_pos_right n hpos
  have h := @indexLoop_finds arr elemSize needle predicate m hpos n (n * elemSize) 0 (Nat.zero_le _)
    hfuel (fun j hj => absurd hj (Nat.not_lt_zero j))
  rw [Nat.zero_mul, Nat.add_zero] at h
  rw [xcp_arr_index_of, hstop]
  simpa using h

/-- A search in an array of which the first elements are `xs`. -/
theorem Finds.eq_findIdx {α : Type} {holds : ℕ → Except Fault Bool} {n : ℕ}
    {r : Except Fault ℕ} (h : Finds holds n r) {xs : List α} {q : α → Bool}
    (hxs : ∀ i, (h : i < xs.length) → holds i = .ok (q xs[i]))
    (hn : n = xs.length ∨ (xs.length ≤ n ∧ ∃ x ∈ xs, q x)) :
    r = .ok ((xs.findIdx? q).getD SIZE_MAX) := by
  have hvalue : ∀ {i b}, (h : i < xs.length) → holds i = .ok b → q xs[i] = b := by
    intro i b h heq
    rw [hxs i h] at heq
    exact Except.ok.inj heq
  -- no search goes beyond the elements that are known
  have hwithin : ∀ i < n, (∀ j < i, holds j = .ok false) → i < xs.length := by
    intro i hi hbefore
    by_contra hge
    rcases hn with rfl | ⟨-, x, hx, hq⟩
    · exact hge hi
    · obtain ⟨k, hk, rfl⟩ := List.getElem_of_mem hx
      rw [hvalue hk (hbefore k (by omega))] at hq
      cases hq
  cases r with
  | error e =>
    obtain ⟨i, hi, hfail, hbefore⟩ := h
    rw [hxs i (hwithin i hi hbefore)] at hfail
    cases hfail
  | ok r =>
    rcases h with ⟨i, hi, rfl, htrue, hbefore⟩ | ⟨rfl, hall⟩
    · have hlt := hwithin r hi hbefore
      have hfirst : xs.findIdx? q = some r := by
        rw [List.findIdx?_eq_some_iff_getElem]
        refine ⟨hlt, hvalue hlt htrue, fun j hj => ?_⟩
        rw [hvalue (by omega) (hbefore j hj)]
        exact Bool.false_ne_true
      rw [hfirst]
      rfl
    · have hnone : xs.findIdx? q = none := by
        rw [List.findIdx?_eq_none_iff]
        intro x hx
        obtain ⟨k, hk, rfl⟩ := List.getElem_of_mem hx
        exact hvalue hk (hall k (by rcases hn with rfl | ⟨hle, -⟩ <;> omega))
      rw [hnone]
      rfl

/-! ## Strings -/

theorem toNat_sub_ne {c d : UInt8} (h : c ≠ d) : (c.toNat : ℤ) - d.toNat ≠ 0 := by
  intro hzero
  apply h
  apply UInt8.toNat_inj.1
  omega

/-- The loop of `strcmp`, over the bytes of the strings that are left. -/
theorem strcmpLoop_ok {m : Addressed} {as bs : List UInt8} (has : NUL ∉ as) (hbs : NUL ∉ bs)
    {fuel p q : ℕ} (hp : m.Holds p (as ++ [NUL])) (hq : m.Holds q (bs ++ [NUL]))
    (hfuel : as.length < fuel) : ∃ r, strcmpLoop m fuel p q = .ok r ∧ (r = 0 ↔ as = bs) := by
  induction as generalizing bs fuel p q with
  | nil =>
    obtain ⟨fuel, rfl⟩ := Nat.exists_eq_succ_of_ne_zero (Nat.ne_of_gt hfuel)
    rw [List.nil_append] at hp
    cases bs with
    | nil =>
      rw [List.nil_append] at hq
      refine ⟨0, ?_, iff_of_true rfl rfl⟩
      rw [strcmpLoop, Addressed.loadByte_ok hp.head, ok_bind, Addressed.loadByte_ok hq.head,
        ok_bind, if_pos (Or.inr rfl)]
      rfl
    | cons d bs =>
      have hd : NUL ≠ d := fun h => hbs (h ▸ List.mem_cons_self)
      rw [List.cons_append] at hq
      refine ⟨_, ?_, iff_of_false (toNat_sub_ne hd) (List.cons_ne_nil d bs).symm⟩
      rw [strcmpLoop, Addressed.loadByte_ok hp.head, ok_bind, Addressed.loadByte_ok hq.head,
        ok_bind, if_pos (Or.inr rfl)]
      rfl
  | cons c as ih =>
    obtain ⟨fuel, rfl⟩ := Nat.exists_eq_succ_of_ne_zero (Nat.ne_of_gt (Nat.zero_lt_of_lt hfuel))
    have hc : c ≠ NUL := fun h => has (h ▸ List.mem_cons_self)
    rw [List.cons_append] at hp
    cases bs with
    | nil =>
      rw [List.nil_append] at hq
      refine ⟨_, ?_, iff_of_false (toNat_sub_ne hc) (List.cons_ne_nil c as)⟩
      rw [strcmpLoop, Addressed.loadByte_ok hp.head, ok_bind, Addressed.loadByte_ok hq.head,
        ok_bind, if_pos (Or.inl hc)]
      rfl
    | cons d bs =>
      rw [List.cons_append] at hq
      rw [strcmpLoop, Addressed.loadByte_ok hp.head, ok_bind, Addressed.loadByte_ok hq.head,
        ok_bind]
      by_cases hcd : c = d
      · subst hcd
        rw [if_neg (by simp [hc])]
        obtain ⟨r, hr, hiff⟩ := ih (fun h => has (List.mem_cons_of_mem c h))
          (fun h => hbs (List.mem_cons_of_mem c h)) hp.tail hq.tail (Nat.lt_of_succ_lt_succ hfuel)
        exact ⟨r, hr, by rw [hiff, List.cons_inj_right]⟩
      · rw [if_pos (Or.inl hcd)]
        exact ⟨_, rfl, iff_of_false (toNat_sub_ne hcd) fun h => hcd (List.cons.inj h).1⟩

/-- `s` is the string that the pointer at the address `a` points to. -/
def PointsTo (m : Addressed) (a : ℕ) (s : CString) : Prop :=
  ∃ p : BitVec 64, m.Holds a (littleEndian 8 p) ∧ m.Holds p.toNat s.image

theorem pred_str_equal_ok {m : Addressed} {elem needle : ℕ} {s t : CString}
    (hs : PointsTo m elem s) (ht : m.Holds needle t.image) :
    xcp_pred_str_equal elem needle m = .ok (decide (s = t)) := by
  obtain ⟨p, hp, hs⟩ := hs
  have hload : m.loadWord elem 8 64 = .ok p := by
    have h := Addressed.loadWord_ok hp 64
    rwa [length_littleEndian, @word_littleEndian 64 8 rfl] at h
  have hfuel : s.bytes.length < spaceSize := Nat.lt_of_lt_of_le s.fits (by decide)
  obtain ⟨r, hr, hiff⟩ := strcmpLoop_ok s.nul_free t.nul_free hs ht hfuel
  rw [xcp_pred_str_equal, hload, ok_bind, strcmp, hr]
  have heq : (r == 0) = decide (s = t) := by
    rw [Bool.eq_iff_iff, beq_iff_eq, hiff, decide_eq_true_iff, CString.ext_iff]
  rw [← heq]
  rfl

/-- **The index of a string** in an array of `n` pointers, of which the first ones point to the
strings `ss`: it is that of the first one that is equal to the needle. The pointers behind it may
point anywhere. -/
theorem str_arr_index_of_eq {m : Addressed} {arr n needle : ℕ} {ss : List CString} {t : CString}
    (hsize : n * 8 ≤ PTRDIFF_MAX) (hss : ∀ i, (h : i < ss.length) → PointsTo m (arr + i * 8) ss[i])
    (ht : m.Holds needle t.image) (hn : n = ss.length ∨ (ss.length ≤ n ∧ t ∈ ss)) :
    xcp_str_arr_index_of arr n needle m = .ok ((ss.findIdx? fun s => s = t).getD SIZE_MAX) := by
  apply (arr_index_of_finds xcp_pred_str_equal m (by decide) (Nat.lt_of_le_of_lt hsize
    (by decide))).eq_findIdx
  · exact fun i h => pred_str_equal_ok (hss i h) ht
  · rcases hn with hn | ⟨hle, hmem⟩
    · exact Or.inl hn
    · exact Or.inr ⟨hle, t, hmem, decide_eq_true rfl⟩

/-- The string `"a"`. -/
def nameA : CString := ⟨[97], by decide, by decide⟩

/-- The string `"b"`. -/
def nameB : CString := ⟨[98], by decide, by decide⟩

/-- Two pointers, to `"a"` and `"b"`, these strings, and another `"b"`. -/
def names : Addressed := fun i =>
  (littleEndian 8 16#64 ++ littleEndian 8 18#64 ++ nameA.image ++ nameB.image ++ nameB.image)[i]?

theorem str_arr_index_of_names : xcp_str_arr_index_of 0 2 20 names = .ok 1 := by
  have hA : PointsTo names 0 nameA := ⟨16#64, by decide, by decide⟩
  have hB : PointsTo names 8 nameB := ⟨18#64, by decide, by decide⟩
  have hindex : ([nameA, nameB].findIdx? fun s => s = nameB) = some 1 := by decide
  have h := @str_arr_index_of_eq names 0 2 20 [nameA, nameB] nameB (by decide)
    (fun i hi => match i, hi with
      | 0, _ => hA
      | 1, _ => hB) (by decide) (Or.inl rfl)
  rwa [hindex] at h

end XcpNgGeneric.Algorithm
