import XcpNgGeneric.Coroutine.Refinement
import XcpNgGeneric.Foundations.Regions
import XcpNgGeneric.Math.Rounding

/-!
# The memory of coroutines

`xcp_coroutine_create` allocates a record and maps a stack whose lowest page is the guard page;
`xcp_coroutine_destroy` unmaps and frees them again. `Process` is a thread with the address space
and the records; the system calls may fail, and map a stack wherever there is room. The rest of the
program maps and unmaps pages of its own in between (`others`).

## Main results

* `stacks_held`: in every run the address space is that of the rest of the program with one stack
  for each coroutine that has not returned.
* `stacks_released`: once all coroutines have returned nothing is left of them.
-/

namespace XcpNgGeneric.Coroutine

open TailQueue Runs Regions Math CInt

variable {F D : Type}

/-! ## The size of a stack -/

theorem wide_ulong : 32 ≤ 64 := by decide

/-- `unsigned long`, and `size_t`. -/
def ulong : IntType := ⟨64, false, wide_ulong⟩

def XCP_COROUTINE_STACK_SIZE : ℤ := 1024 * 1024

/-- The local `stackSize` of `xcp_coroutine_create_stack` and `xcp_coroutine_destroy_stack`. -/
def stackSize (pageSize : ℤ) : Option ℤ := do
  let size ← XCP_ROUND_UP_2 ulong XCP_COROUTINE_STACK_SIZE pageSize
  ulong.add size pageSize

/-- The pages that `len` bytes take. -/
def pages (pageSize len : ℕ) : ℕ := (len + pageSize - 1) / pageSize

/-- The pages of a stack. -/
def stackPages (pageSize : ℕ) : ℕ := pages pageSize ((stackSize pageSize).getD 0).toNat

/-- The protections of pages. -/
inductive Prot
  | none
  | readWrite
  deriving DecidableEq

/-- The guard page, and the stack proper. -/
def stackShape (offset : ℕ) : Prot := if offset = 0 then .none else .readWrite

/-! ## The functions -/

/-- What the system answers during one `xcp_coroutine_create`. -/
structure Resources where
  malloc : Bool
  /-- The first page of the new mapping. -/
  mmap : Option ℕ
  mprotect : Bool

/-- `xcp_coroutine_create_stack`. -/
def create_stack (pageSize : ℕ) (ans : Resources) (space : Space Prot) :
    Option ℕ × Space Prot :=
  match ans.mmap with
  | none => (none, space)
  | some stack =>
    let space := put space stack (stackPages pageSize) (some .readWrite)
    if ans.mprotect then (some stack, put space stack (pages pageSize pageSize) (some .none))
    else (none, put space stack (stackPages pageSize) none)

/-- `xcp_coroutine_destroy_stack`. -/
def destroy_stack (pageSize : ℕ) (stack : ℕ) (space : Space Prot) : Space Prot :=
  put space stack (stackPages pageSize) none

/-- A thread with the memory of its coroutines. -/
structure Process (F D : Type) where
  thread : State F D
  space : Space Prot
  /-- The records that are allocated. -/
  records : List Ptr
  /-- `coroutine->stack`. -/
  stack : Ptr → ℕ
  /-- What the rest of the program has mapped. -/
  others : Space Prot

namespace Process

/-- `xcp_coroutine_create` up to `xcp_coroutine_init`, and whether it goes on. -/
def allocate (pageSize : ℕ) (p : Process F D) (ans : Resources) : Bool × Process F D :=
  if ans.malloc then
    let coroutine := p.thread.created + 1
    let records := p.records ++ [coroutine]
    match create_stack pageSize ans p.space with
    | (none, space) => (false, { p with space := space, records := records.erase coroutine })
    | (some stack, space) =>
      (true, { p with
        space := space
        records := records
        stack := Function.update p.stack coroutine stack })
  else (false, p)

/-- `xcp_coroutine_destroy`. -/
def destroy (pageSize : ℕ) (p : Process F D) (coroutine : Ptr) : Process F D :=
  { p with
    space := destroy_stack pageSize (p.stack coroutine) p.space
    records := p.records.erase coroutine }

end Process

/-- What happens next. -/
inductive Input (F D : Type)
  | create (cb : F) (userData : D) (ans : Resources)
  /-- Another action of the thread. -/
  | act (a : Action F D)
  /-- The rest of the program maps, protects or unmaps `n` pages from `a` on. -/
  | others (a n : ℕ) (v : Option Prot)

/-- `xcp_coroutine_create` is not one of the other actions. -/
def Action.isCreate : Action F D → Bool
  | .create _ _ _ => true
  | _ => false

namespace Process

/-- One step: the thread's, along with the memory of the coroutine that it creates or destroys. -/
def step (pageSize : ℕ) (p : Process F D) : Input F D → Option (Process F D)
  | .create cb userData ans =>
    let (ok, q) := p.allocate pageSize ans
    (Coroutine.step p.thread (.create cb userData ok)).map fun t => { q with thread := t }
  | .act a =>
    if a.isCreate then none
    else
      (Coroutine.step p.thread a).map fun t =>
        (t.destroyed.drop p.thread.destroyed.length).foldl (destroy pageSize)
          { p with thread := t }
  | .others a n v =>
    some { p with space := put p.space a n v, others := put p.others a n v }

/-- Before the first call. -/
def start (others : Space Prot) : Process F D where
  thread := .init
  space := others
  records := []
  stack _ := 0
  others := others

/-- The system maps a stack in free pages; the rest of the program changes what it has mapped, or
what is free; and the thread keeps the contract. -/
def Fair (pageSize : ℕ) (p : Process F D) : Input F D → Prop
  | .create _ _ ans => ∀ a ∈ ans.mmap, Free p.space a (stackPages pageSize)
  | .act a => Contract p.thread a
  | .others a n _ => ∀ i, Within a n i → p.others i ≠ none ∨ p.space i = none

end Process

/-! ## The size of a stack is exact -/

theorem stackSize_eq {k : ℕ} (hk : k < 63) :
    stackSize (2 ^ k) = some (max XCP_COROUTINE_STACK_SIZE (2 ^ k) + 2 ^ k) := by
  have hW : (2 : ℤ) ^ ulong.width = 18446744073709551616 := rfl
  have hX : XCP_COROUTINE_STACK_SIZE = 2 ^ 20 := rfl
  have hpos := IntType.two_pow_pos k
  have hle : (2 : ℤ) ^ k ≤ 2 ^ 62 := pow_le_pow_right₀ (by decide) (by omega)
  have h20 : (2 : ℤ) ^ 20 = 1048576 := rfl
  have h62 : (2 : ℤ) ^ 62 = 4611686018427387904 := rfl
  have hround : XCP_ROUND_UP_2 ulong XCP_COROUTINE_STACK_SIZE (2 ^ k) =
      some (max XCP_COROUTINE_STACK_SIZE (2 ^ k)) := by
    rw [round_up_2_eq rfl (show k < ulong.width by change k < 64; omega), hW, hX]
    congr 1
    rcases Nat.le_total k 20 with h | h
    · have hdvd : (2 : ℤ) ^ k ∣ 2 ^ 20 := pow_dvd_pow 2 h
      have hmax : max ((2 : ℤ) ^ 20) (2 ^ k) = 2 ^ 20 :=
        max_eq_left (pow_le_pow_right₀ (by decide) h)
      have hmod : ((2 : ℤ) ^ 20 + 2 ^ k - 1) % 2 ^ k = 2 ^ k - 1 := by
        rw [add_sub_assoc, Int.add_emod, Int.emod_eq_zero_of_dvd hdvd, zero_add, Int.emod_emod,
          Int.emod_eq_of_lt (by omega) (by omega)]
      rw [hmod, hmax]
      omega
    · have hmax : max ((2 : ℤ) ^ 20) (2 ^ k) = 2 ^ k :=
        max_eq_right (pow_le_pow_right₀ (by decide) h)
      have hlt : (2 : ℤ) ^ 20 ≤ 2 ^ k := pow_le_pow_right₀ (by decide) h
      have hmod : ((2 : ℤ) ^ 20 + 2 ^ k - 1) % 2 ^ k = 2 ^ 20 - 1 := by
        rw [show (2 : ℤ) ^ 20 + 2 ^ k - 1 = 2 ^ 20 - 1 + 2 ^ k by omega, Int.add_emod_right,
          Int.emod_eq_of_lt (by omega) (by omega)]
      rw [hmod, hmax]
      omega
  unfold stackSize
  rw [hround]
  simp only [Option.bind_eq_bind, Option.bind_some]
  rw [IntType.add, IntType.arith_unsigned rfl, hW, hX]
  congr 1
  omega

/-- The pages of a stack: those of `XCP_COROUTINE_STACK_SIZE`, and the guard page. -/
theorem stackPages_eq {k : ℕ} (hk : k < 63) : stackPages (2 ^ k) = 2 ^ (20 - k) + 1 := by
  have hmul : max (2 ^ 20) (2 ^ k) = 2 ^ k * 2 ^ (20 - k) := by
    rw [← Nat.pow_add]
    rcases Nat.le_total k 20 with h | h
    · rw [Nat.add_sub_cancel' h]
      exact max_eq_left (Nat.pow_le_pow_right (by decide) h)
    · rw [Nat.sub_eq_zero_of_le h, Nat.add_zero]
      exact max_eq_right (Nat.pow_le_pow_right (by decide) h)
  have hsize : ((stackSize ((2 ^ k : ℕ) : ℤ)).getD 0).toNat = 2 ^ k * (2 ^ (20 - k) + 1) := by
    have hcast : max XCP_COROUTINE_STACK_SIZE (2 ^ k) + 2 ^ k =
        ((max (2 ^ 20) (2 ^ k) + 2 ^ k : ℕ) : ℤ) := by
      push_cast
      rfl
    rw [Nat.cast_pow, Nat.cast_ofNat, stackSize_eq hk, hcast, Nat.mul_add, ← hmul, Nat.mul_one]
    exact Int.toNat_natCast _
  have hpos : 0 < 2 ^ k := Nat.two_pow_pos k
  rw [stackPages, pages, hsize, Nat.add_sub_assoc hpos, Nat.mul_add_div hpos,
    Nat.div_eq_of_lt (by omega), Nat.add_zero]

theorem pages_self {k : ℕ} : pages (2 ^ k) (2 ^ k) = 1 := by
  have hpos : 0 < 2 ^ k := Nat.two_pow_pos k
  rw [pages, Nat.add_sub_assoc hpos, Nat.add_div_left _ hpos, Nat.div_eq_of_lt (by omega)]

/-! ## One step -/

/-- The address space and the records are those of the coroutines that have not returned. -/
structure Stacked (pageSize : ℕ) (p : Process F D) : Prop where
  holds : Regions.Holds p.others p.space (· ∈ p.records) p.stack (stackPages pageSize) stackShape
  nodup : p.records.Nodup
  thread : p.thread.Live → (∃ ds q, Intact p.thread ds q) ∧
    ∀ c, c ∈ p.records ↔ (0 < c ∧ c ≤ p.thread.created) ∧ .ret c ∉ p.thread.log

/-- The protections of a new stack. -/
theorem create_stack_some {k : ℕ} (hk : k < 63) {ans : Resources} {space space' : Space Prot}
    {a : ℕ} (h : create_stack (2 ^ k) ans space = (some a, space')) :
    ans.mmap = some a ∧
      (∀ i, Within a (stackPages (2 ^ k)) i → space' i = some (stackShape (i - a))) ∧
      ∀ i, ¬Within a (stackPages (2 ^ k)) i → space' i = space i := by
  have hguard : ∀ i, Within a 1 i ↔ i = a := fun i => by
    unfold Within
    omega
  have hfirst : Within a (stackPages (2 ^ k)) a := by
    have hpages := stackPages_eq hk
    have hpos := Nat.two_pow_pos (20 - k)
    unfold Within
    omega
  unfold create_stack at h
  split at h
  next => cases h
  next b hb =>
    simp only [pages_self] at h
    split at h
    next =>
      obtain ⟨rfl, rfl⟩ : b = a ∧ _ = space' := by simpa using h
      refine ⟨hb, fun i hi => ?_, fun i hi => ?_⟩
      · by_cases hia : i = b
        · rw [put_within ((hguard i).2 hia), stackShape, if_pos (by omega)]
        · have hne : i - b ≠ 0 := by
            have := hi.1
            omega
          rw [put_of_not (fun hw => hia ((hguard i).1 hw)), put_within hi, stackShape, if_neg hne]
      · have hia : i ≠ b := fun he => hi (he ▸ hfirst)
        rw [put_of_not (fun hw => hia ((hguard i).1 hw)), put_of_not hi]
    next => cases h

/-- **A failing call leaves the address space alone.** -/
theorem create_stack_none {pageSize : ℕ} {ans : Resources} {space space' : Space Prot}
    (hf : ∀ a ∈ ans.mmap, Free space a (stackPages pageSize))
    (h : create_stack pageSize ans space = (none, space')) : space' = space := by
  unfold create_stack at h
  split at h
  next =>
    obtain ⟨-, rfl⟩ := Prod.mk.inj h
    rfl
  next a ha =>
    simp only at h
    split at h
    next => cases h
    next =>
      obtain ⟨-, rfl⟩ := Prod.mk.inj h
      exact put_none (hf a ha) _

/-- What `xcp_coroutine_create` does before it initialises the coroutine. -/
theorem allocate_spec {k : ℕ} (hk : k < 63) {p q : Process F D} {ans : Resources} {ok : Bool}
    (hp : Stacked (2 ^ k) p) (hf : ∀ a ∈ ans.mmap, Free p.space a (stackPages (2 ^ k)))
    (hnew : p.thread.created + 1 ∉ p.records) (h : p.allocate (2 ^ k) ans = (ok, q)) :
    q.thread = p.thread ∧ Regions.Holds q.others q.space (· ∈ q.records) q.stack
      (stackPages (2 ^ k)) stackShape ∧ q.records.Nodup ∧
      ∀ c, c ∈ q.records ↔ c ∈ p.records ∨ ok = true ∧ c = p.thread.created + 1 := by
  unfold Process.allocate at h
  split at h
  next =>
    simp only at h
    split at h
    next space' hcs =>
      obtain ⟨rfl, rfl⟩ := Prod.mk.inj h
      have hrec : (p.records ++ [p.thread.created + 1]).erase (p.thread.created + 1) =
          p.records := by
        rw [List.erase_append_right _ hnew]
        simp
      rw [create_stack_none hf hcs, hrec]
      exact ⟨rfl, hp.holds, hp.nodup, by simp⟩
    next a space' hcs =>
      obtain ⟨rfl, rfl⟩ := Prod.mk.inj h
      obtain ⟨ha, hin, hout⟩ := create_stack_some hk hcs
      have hins := hp.holds.insert hnew (hf a ha) hin hout
      refine ⟨rfl, hins.congr fun c => by simp [or_comm], ?_, by simp⟩
      rw [List.nodup_append]
      refine ⟨hp.nodup, by simp, fun c hc d hd he => hnew ?_⟩
      rwa [← List.mem_singleton.1 hd, ← he]
  next =>
    obtain ⟨rfl, rfl⟩ := Prod.mk.inj h
    exact ⟨rfl, hp.holds, hp.nodup, by simp⟩

theorem Stacked.create {k : ℕ} (hk : k < 63) {p p' : Process F D} {cb : F} {userData : D}
    {ans : Resources} (hp : Stacked (2 ^ k) p)
    (hf : ∀ a ∈ ans.mmap, Free p.space a (stackPages (2 ^ k)))
    (hs : p.step (2 ^ k) (.create cb userData ans) = some p') : Stacked (2 ^ k) p' := by
  rcases hal : p.allocate (2 ^ k) ans with ⟨ok, q⟩
  simp only [Process.step, hal] at hs
  obtain ⟨t, ht, rfl⟩ := Option.map_eq_some_iff.1 hs
  have hu : p.thread.control = .user := by
    cases h : p.thread.control <;> simp [step, h] at ht ⊢
  obtain ⟨⟨ds, q₀, hi⟩, hrec⟩ := hp.thread (Or.inl hu)
  have hnew : p.thread.created + 1 ∉ p.records := fun h =>
    Nat.not_succ_le_self _ ((hrec _).1 h).1.2
  obtain ⟨-, hholds, hnd, hmem⟩ := allocate_spec hk hp hf hnew hal
  have hok : Contract p.thread (.create cb userData ok) :=
    ⟨by simp [Careful, Action.handed], by simp [Action.handed], trivial⟩
  obtain rfl : p.thread.create cb userData ok = t := by simpa [step, hu] using ht
  refine ⟨hholds, hnd, fun _ => ?_⟩
  cases ok with
  | false =>
    refine ⟨⟨ds, q₀, hi⟩, fun c => ?_⟩
    change _ ↔ (0 < c ∧ c ≤ p.thread.created) ∧ .ret c ∉ p.thread.log
    rw [hmem, hrec]
    simp
  | true =>
    have hcr := hi.chained.create_eq hu cb userData
    obtain ⟨q', hi'⟩ := hi.effect (.create cb userData hu) hok
    refine ⟨⟨ds, q', hcr ▸ hi'⟩, fun c => ?_⟩
    have hret : .ret (p.thread.created + 1) ∉ p.thread.log :=
      (hi.chained.fresh _ (Nat.lt_succ_self _)).2
    rw [hmem, hrec, hcr]
    have hlog : .ret c ∈ (p.thread.afterCreate cb userData).log ↔ .ret c ∈ p.thread.log := by
      simp [State.afterCreate]
    rw [hlog]
    change _ ↔ (0 < c ∧ c ≤ p.thread.created + 1) ∧ _
    rcases eq_or_ne c (p.thread.created + 1) with rfl | hne
    · simp [hret]
    · have hle : c ≤ p.thread.created + 1 ↔ c ≤ p.thread.created :=
        Nat.le_succ_iff.trans (or_iff_left hne)
      simp [hne, hle]

/-- What a step of the thread that creates nothing destroys. -/
theorem Effect.released {s t : State F D} {ds ds' : List Ptr} {a : Action F D}
    (he : Effect s ds a t ds') (hc : Chained s ds) (hown : OwnReturn s a)
    (ha : a.isCreate = false) : t.created = s.created ∧
      ((t.destroyed = s.destroyed ∧ ∀ c, .ret c ∈ t.log ↔ .ret c ∈ s.log) ∨
        (s.sp ≠ dummy ∧ t.destroyed = s.destroyed ++ [s.sp] ∧
          ∀ c, .ret c ∈ t.log ↔ .ret c ∈ s.log ∨ c = s.sp)) := by
  cases he with
  | create => cases ha
  | noMemory => cases ha
  | enter a c m => exact ⟨rfl, Or.inl ⟨rfl, by simp [State.afterEnter]⟩⟩
  | defer act c coroutine p es m => exact ⟨rfl, Or.inl ⟨rfl, by simp [State.afterDefer]⟩⟩
  | leave act coroutine callee => exact ⟨rfl, Or.inl ⟨rfl, by simp [State.afterLeave]⟩⟩
  | wake act coroutine x callee m pt e hl hf hx hm h0 hxa hxc hret hpt =>
    refine ⟨rfl, Or.inl ⟨rfl, fun c => ?_⟩⟩
    rcases hpt with ⟨-, -, cb, userData, -, -, rfl⟩ | ⟨-, -, rfl⟩ <;> simp [State.afterWake]
  | back act coroutine p es m₁ m₂ returned hu hds hsp hf hco hm₁ hm₂ =>
    subst hds
    refine ⟨rfl, ?_⟩
    cases returned with
    | false =>
      refine Or.inl ⟨?_, by simp [State.afterBack]⟩
      simp [State.afterBack]
    | true =>
      have hcaller : s.caller s.sp = some p := hc.callers.1
      obtain rfl : coroutine = s.sp := by
        simpa [OwnReturn, hcaller, State.argument, hf] using hown
      refine Or.inr ⟨hsp, ?_, by simp [State.afterBack]⟩
      simp [State.afterBack]

theorem Stacked.act {pageSize : ℕ} {p p' : Process F D} {a : Action F D}
    (hp : Stacked pageSize p) (hok : Contract p.thread a)
    (hs : p.step pageSize (.act a) = some p') : Stacked pageSize p' := by
  simp only [Process.step] at hs
  split at hs
  next => cases hs
  next hcreate =>
    obtain ⟨t, ht, rfl⟩ := Option.map_eq_some_iff.1 hs
    have hlive : p.thread.Live := by
      by_contra h
      rw [step_none (not_or.1 h)] at ht
      cases ht
    obtain ⟨⟨ds, q, hi⟩, hrec⟩ := hp.thread hlive
    rcases step_effect hi.chained hi.heads ht with ⟨ds', he⟩ | hd
    · obtain ⟨q', hi'⟩ := hi.effect he hok
      obtain ⟨hcr, ⟨hdes, hlog⟩ | ⟨h0, hdes, hlog⟩⟩ :=
        he.released hi.chained hok.own (Bool.eq_false_iff.2 hcreate)
      · rw [hdes, List.drop_length, List.foldl_nil]
        refine ⟨hp.holds, hp.nodup, fun _ => ⟨⟨ds', q', hi'⟩, fun c => ?_⟩⟩
        change c ∈ p.records ↔ (0 < c ∧ c ≤ t.created) ∧ .ret c ∉ t.log
        rw [hrec, hcr, hlog]
      · -- the coroutine that runs has returned
        rw [hdes, List.drop_left, List.foldl_cons, List.foldl_nil]
        have hsp : p.thread.sp ∈ p.records := (hrec _).2
          ⟨⟨Nat.pos_of_ne_zero h0, hi.chained.alive_sp.1⟩, hi.chained.active _ (by simp)⟩
        have hmem : ∀ c, c ∈ p.records.erase p.thread.sp ↔ c ≠ p.thread.sp ∧ c ∈ p.records :=
          fun c => hp.nodup.mem_erase_iff
        refine ⟨(hp.holds.erase hsp).congr hmem, hp.nodup.erase _, fun _ =>
          ⟨⟨ds', q', hi'⟩, fun c => ?_⟩⟩
        change c ∈ p.records.erase p.thread.sp ↔ (0 < c ∧ c ≤ t.created) ∧ .ret c ∉ t.log
        rw [hmem, hrec, hcr, hlog]
        tauto
    · rw [hd.destroyed, List.drop_length, List.foldl_nil]
      exact ⟨hp.holds, hp.nodup, fun hlive' => absurd hlive' (not_or.2 hd.control)⟩

theorem Stacked.others {pageSize : ℕ} {p p' : Process F D} {a n : ℕ} {v : Option Prot}
    (hp : Stacked pageSize p) (hf : p.Fair pageSize (.others a n v))
    (hs : p.step pageSize (.others a n v) = some p') : Stacked pageSize p' := by
  obtain rfl := Option.some.inj hs
  refine ⟨hp.holds.change v fun i hi c hc hw => ?_, hp.nodup, hp.thread⟩
  rcases hf i hi with h | h
  · exact h (hp.holds.apart c hc i hw)
  · exact hp.holds.not_within h hc hw

/-! ## Runs -/

theorem run_stacked {k : ℕ} (hk : k < 63) {others : Space Prot} {is : List (Input F D)}
    {p : Process F D}
    (hok : Obeys (Process.step (2 ^ k)) (Process.Fair (2 ^ k)) (Process.start others) is)
    (hp : run (Process.step (2 ^ k)) (Process.start others) is = some p) : Stacked (2 ^ k) p := by
  refine run_invariant (fun p i p' hp hf hs => ?_) ?_ hok hp
  · cases i with
    | create cb userData ans => exact hp.create hk hf hs
    | act a => exact hp.act hf hs
    | others a n v => exact hp.others hf hs
  · refine ⟨Regions.Holds.empty others (by simp [Process.start]) _ _ _, List.nodup_nil, fun _ => ?_⟩
    refine ⟨⟨[], _, Chained.init, Heads.init, Queued.init, Placed.init, Lived.init,
      Avoids.init_state⟩, fun c => ?_⟩
    have hno : ¬(0 < c ∧ c ≤ 0) := fun h => Nat.not_lt_of_le h.2 h.1
    exact iff_of_false (by simp [Process.start]) fun h => hno h.1

/-- **The memory of coroutines.** Whatever the system answers and wherever it maps the stacks, and
whatever the rest of the program maps and unmaps meanwhile, in every run within the contract the
records are those of the coroutines that have not returned, and the address space is that of the
rest of the program with, for each of them, a stack of its own above a guard page. Once all have
returned nothing is left of them. -/
theorem stacks_held {k : ℕ} (hk : k < 63) {others : Space Prot} {is : List (Input F D)}
    {p : Process F D}
    (hok : Obeys (Process.step (2 ^ k)) (Process.Fair (2 ^ k)) (Process.start others) is)
    (hp : run (Process.step (2 ^ k)) (Process.start others) is = some p) :
    Stacked (2 ^ k) p ∧
      (p.thread.Live → (∀ c, 0 < c → c ≤ p.thread.created → .ret c ∈ p.thread.log) →
        p.space = p.others ∧ p.records = []) := by
  have h := run_stacked hk hok hp
  refine ⟨h, fun hlive hret => ?_⟩
  have hnone : ∀ c, c ∉ p.records := fun c hc => by
    obtain ⟨⟨hpos, hle⟩, hnot⟩ := ((h.thread hlive).2 c).1 hc
    exact hnot (hret c hpos hle)
  exact ⟨h.holds.eq_base hnone, List.eq_nil_iff_forall_not_mem.2 hnone⟩

/-- A stack at page 100, and a second call whose `mprotect` fails. -/
theorem stacks_held_active : ∃ p : Process ℕ ℕ,
    run (Process.step (2 ^ 12)) (Process.start fun _ => none)
      [.create 0 0 ⟨true, some 100, true⟩, .act (.resume 1), .act .tick,
        .create 0 0 ⟨true, some 500, false⟩] = some p ∧ p.records = [1] ∧ Stacked (2 ^ 12) p := by
  have h : ∃ p : Process ℕ ℕ,
      run (Process.step (2 ^ 12)) (Process.start fun _ => none)
        [.create 0 0 ⟨true, some 100, true⟩, .act (.resume 1), .act .tick,
          .create 0 0 ⟨true, some 500, false⟩] = some p ∧ p.records = [1] := ⟨_, rfl, rfl⟩
  obtain ⟨p, hp, hrec⟩ := h
  refine ⟨p, hp, hrec, (stacks_held (by decide) ?_ hp).1⟩
  refine ⟨?_, ?_⟩
  · rintro a ⟨⟩ i hi
    rfl
  rintro _ ⟨⟩
  refine ⟨show Contract _ _ by decide, ?_⟩
  rintro _ ⟨⟩
  refine ⟨show Contract _ _ by decide, ?_⟩
  rintro _ ⟨⟩
  refine ⟨?_, fun _ _ => trivial⟩
  rintro a ⟨⟩ i hi
  have hpages := stackPages_eq (k := 12) (by decide)
  have hnot : ∀ n, n ≤ 257 → ¬Within 100 n i := fun n hn hw => by
    have := hi.1
    have := hw.2
    omega
  change put (put _ 100 (stackPages (2 ^ 12)) _) 100 (pages (2 ^ 12) (2 ^ 12)) _ i = none
  rw [put_of_not (hnot _ (by decide)), put_of_not (hnot _ hpages.le)]
  rfl

end XcpNgGeneric.Coroutine
