import OsCamp.BumpAllocator
import OsCamp.FreeListRuns

/-!
The alignment sum of the two bump paths is an unchecked addition. A call is safe
exactly where that sum fits in a word: then it returns null and leaves the bump
pointer alone, or cuts an aligned block off inside the heap. Where the sum does
not fit, a debug build panics, and a release build may set the bump pointer to an
address below the heap.
-/

set_option autoImplicit false

namespace OsCamp.AlignOverflow

open ByteMemory CoreAlloc Execution FreeListAllocator FreeListHeap FreeListSpec FreeListRuns

/-- Null with the bump pointer where it was, or an aligned block inside the heap. -/
def GoodOutcome (heapStart heapEnd next size align p next' : ℕ) : Prop :=
  (p = 0 ∧ next' = next) ∨
    (p ≠ 0 ∧ p % align = 0 ∧ heapStart ≤ p ∧ p + size ≤ heapEnd)

/-- A call of `BumpAllocator::alloc`: no sum overflows, and the outcome is good. -/
structure BumpCallSafe (heapStart heapEnd next : ℕ) (layout : Layout) : Prop where
  no_overflow : (alignUp .debug next layout.align).isSome
  outcome : ∀ profile, ∃ p next',
    BumpAllocator.alloc profile heapEnd next layout = some (p, next') ∧
      GoodOutcome heapStart heapEnd next layout.size layout.align p next'

/-- The same for `FreeListAllocator::alloc`, whose sum is computed after the list loop. -/
structure ListCallSafe (heapStart heapEnd : ℕ) (s : State) (layout : Layout) : Prop where
  no_overflow : ∀ prev, s.walk layout = some (prev, 0) →
    (alignUp .debug s.bumpNext (blockAlign layout)).isSome
  outcome : ∀ profile, ∃ p s', s.alloc profile layout = some (p, s') ∧
    GoodOutcome heapStart heapEnd s.bumpNext (blockSize layout) layout.align p s'.bumpNext

/-- The alignment sum fits in a word. -/
def BumpSumFits (next : ℕ) (layout : Layout) : Prop := next + layout.align < 2 ^ 64

/-- The call finds a free block, or its alignment sum fits in a word. -/
def ListSumFits (s : State) (layout : Layout) : Prop :=
  ∀ prev, s.walk layout = some (prev, 0) → s.bumpNext + blockAlign layout < 2 ^ 64

/-- One call of `BumpAllocator::alloc` as a step of `next`. -/
def bumpStep (profile : Profile) (heapEnd next : ℕ) (layout : Layout) : Option ℕ :=
  (BumpAllocator.alloc profile heapEnd next layout).map Prod.snd

def ListCallFits (sys : System) (call : Call) : Prop :=
  ∀ layout, call = .alloc layout → ListSumFits sys.state layout

variable {profile : Profile} {heapStart heapEnd next size align : ℕ} {layout : Layout}

/-- Both bump paths: with a sum that fits, the block is cut off above the pointer or refused. -/
theorem bumpRange_of_lt (profile : Profile) (heapEnd size : ℕ) (halign : ∃ k, align = 2 ^ k)
    (hfit : next + align < 2 ^ 64) :
    bumpRange profile heapEnd next size align = some none ∨
    ∃ allocStart allocEnd, bumpRange profile heapEnd next size align =
        some (some (allocStart, allocEnd)) ∧
      next ≤ allocStart ∧ allocStart % align = 0 ∧ allocStart + size = allocEnd ∧
      allocEnd ≤ heapEnd := by
  have hstart := alignUp_of_lt profile halign hfit
  have hpos := align_pos halign
  have hcut : ∀ out, bumpRange profile heapEnd next size align = some (some out) →
      next ≤ out.1 ∧ out.1 % align = 0 ∧ out.1 + size = out.2 ∧ out.2 ≤ heapEnd := by
    intro out hout
    obtain ⟨hround, hstop, hend⟩ := bumpRange_spec halign (by omega) hout
    refine ⟨hround ▸ le_roundUp next hpos, ?_, hstop, hend⟩
    rw [hround]
    exact roundUp_mod next align
  cases hrange : bumpRange profile heapEnd next size align with
  | none =>
    unfold bumpRange at hrange
    rw [hstart, Option.bind_eq_bind, Option.bind_some] at hrange
    split at hrange
    · split_ifs at hrange
    · cases hrange
  | some out =>
    cases out with
    | none => exact Or.inl rfl
    | some out => exact Or.inr ⟨out.1, out.2, rfl, hcut out hrange⟩

section Bump

theorem bump_next_inside (hle : heapStart ≤ heapEnd)
    (h : Reach (bumpStep profile heapEnd) BumpSumFits heapStart next) :
    heapStart ≤ next ∧ next ≤ heapEnd := by
  refine Reach.invariant (I := fun next => heapStart ≤ next ∧ next ≤ heapEnd)
    ⟨Nat.le_refl _, hle⟩ ?_ h
  intro next layout next' hi hfit hs
  obtain ⟨out, halloc, rfl⟩ := Option.map_eq_some_iff.mp hs
  obtain ⟨range, hrange, rfl⟩ := Option.map_eq_some_iff.mp halloc
  rcases bumpRange_of_lt profile heapEnd layout.size layout.align_pow hfit
    with hnone | ⟨allocStart, allocEnd, hcut, hstart, -, hstop, hend⟩
  · have heq : none = range := Option.some.inj (hnone.symm.trans hrange)
    subst range
    exact hi
  · have heq : some (allocStart, allocEnd) = range := Option.some.inj (hcut.symm.trans hrange)
    subst range
    show heapStart ≤ allocEnd ∧ allocEnd ≤ heapEnd
    omega

theorem bumpCallSafe_iff (hpos : 0 < heapStart) (hnext : heapStart ≤ next) :
    BumpCallSafe heapStart heapEnd next layout ↔ BumpSumFits next layout := by
  constructor
  · intro h
    exact (alignUp_debug_isSome_iff layout.align_pow).mp h.no_overflow
  · intro hfit
    refine ⟨(alignUp_debug_isSome_iff layout.align_pow).mpr hfit, ?_⟩
    intro profile
    unfold BumpAllocator.alloc BumpAllocator.allocRange
    rcases bumpRange_of_lt profile heapEnd layout.size layout.align_pow hfit
      with hnone | ⟨allocStart, allocEnd, hcut, hstart, hmod, hstop, hend⟩
    · rw [hnone]
      exact ⟨0, next, rfl, Or.inl ⟨rfl, rfl⟩⟩
    · rw [hcut]
      refine ⟨allocStart, allocEnd, rfl, Or.inr ⟨by omega, hmod, by omega, by omega⟩⟩

end Bump

section FreeList

variable {sys : System} {free : List Packing.Region}

theorem ListSumFits.noWrap {s : State} (h : ListSumFits s layout) : NoWrap s layout :=
  fun prev hwalk => (h prev hwalk).le

theorem runInv_reach (hpos : 0 < heapStart) (hle : heapStart ≤ heapEnd) (hend : heapEnd < 2 ^ 64)
    {memory : Memory} (h : Reach (FreeListRuns.step profile) ListCallFits
      (System.new heapStart heapEnd memory) sys) : ∃ free, RunInv heapStart heapEnd sys free := by
  refine Reach.invariant (I := fun sys => ∃ free, RunInv heapStart heapEnd sys free)
    ⟨[], RunInv.new memory hpos hle hend⟩ ?_ h
  intro sys call sys' hi hfit hs
  obtain ⟨free, hinv⟩ := hi
  cases call with
  | alloc layout =>
    obtain ⟨⟨p, s'⟩, halloc, hout⟩ := Option.map_eq_some_iff.mp hs
    cases hout
    exact hinv.alloc (hfit layout rfl).noWrap halloc
  | dealloc block =>
    obtain ⟨hblock, hout⟩ := Option.ite_none_right_eq_some.mp hs
    cases hout
    exact ⟨_, hinv.dealloc hblock⟩
  | write block offset byte =>
    obtain ⟨hblock, hout⟩ := Option.ite_none_right_eq_some.mp hs
    cases hout
    exact ⟨free, hinv.write hblock.1 hblock.2 byte⟩

/-- With a sum that fits, a call does not panic. -/
theorem alloc_isSome (h : RunInv heapStart heapEnd sys free) (hfit : ListSumFits sys.state layout)
    (profile : Profile) : ∃ p s', sys.state.alloc profile layout = some (p, s') := by
  obtain ⟨⟨prev, curr⟩, hwalk, -⟩ := walk_spec h.heap layout
  unfold State.alloc
  rw [hwalk, Option.bind_eq_bind, Option.bind_some]
  by_cases hcurr : curr = 0
  · subst curr
    simp only [if_true]
    unfold State.bump
    rcases bumpRange_of_lt profile sys.state.heapEnd (blockSize layout)
      (blockAlign_pow layout) (hfit prev hwalk) with hnone | ⟨allocStart, allocEnd, hcut, -⟩
    · rw [hnone]
      exact ⟨_, _, rfl⟩
    · rw [hcut]
      exact ⟨_, _, rfl⟩
  · simp only [if_neg hcurr]
    exact ⟨_, _, rfl⟩

theorem listCallSafe_iff (h : RunInv heapStart heapEnd sys free) :
    ListCallSafe heapStart heapEnd sys.state layout ↔ ListSumFits sys.state layout := by
  constructor
  · intro hsafe prev hwalk
    exact (alignUp_debug_isSome_iff (blockAlign_pow layout)).mp (hsafe.no_overflow prev hwalk)
  · intro hfit
    constructor
    · intro prev hwalk
      exact (alignUp_debug_isSome_iff (blockAlign_pow layout)).mpr (hfit prev hwalk)
    · intro profile
      obtain ⟨p, s', halloc⟩ := alloc_isSome h hfit profile
      refine ⟨p, s', halloc, ?_⟩
      obtain ⟨free', hinv⟩ := h.alloc hfit.noWrap halloc
      by_cases hp : p = 0
      · left
        subst p
        refine ⟨rfl, ?_⟩
        have hspec := alloc_spec h.heap hfit.noWrap halloc
        generalize hzero : (0 : ℕ) = p at hspec
        cases hspec with
        | reuse l₁ r l₂ s' hfree hskip hfits hheap =>
          have hne := (hheap.mem_inside List.mem_cons_self).1
          simp only at hne
          omega
        | cut p s' hskip hmod hheap =>
          have hne := (hheap.mem_inside List.mem_cons_self).1
          simp only at hne
          omega
        | null hskip => rfl
      · right
        rw [if_neg hp] at hinv
        have hsafe := hinv.heapSafe
        have hin := hsafe.inside ⟨p, layout⟩ List.mem_cons_self
        exact ⟨hp, hsafe.aligned ⟨p, layout⟩ List.mem_cons_self, hin.1, hin.2⟩

end FreeList

/-- In every run whose calls keep the alignment sum within a word, a further call
of either allocator is safe exactly where its own sum fits. -/
theorem alignment_safe_iff (profile : Profile) (hpos : 0 < heapStart) (hle : heapStart ≤ heapEnd)
    (hend : heapEnd < 2 ^ 64) :
    (∀ next, Reach (bumpStep profile heapEnd) BumpSumFits heapStart next → ∀ layout,
      (BumpCallSafe heapStart heapEnd next layout ↔ BumpSumFits next layout)) ∧
    (∀ memory sys, Reach (FreeListRuns.step profile) ListCallFits
        (System.new heapStart heapEnd memory) sys → ∀ layout,
      (ListCallSafe heapStart heapEnd sys.state layout ↔ ListSumFits sys.state layout)) := by
  constructor
  · intro next h layout
    exact bumpCallSafe_iff hpos (bump_next_inside hle h).1
  · intro memory sys h layout
    obtain ⟨free, hinv⟩ := runInv_reach hpos hle hend h
    exact listCallSafe_iff hinv

theorem alignment_safe_iff_higher_half :
    BumpCallSafe (2 ^ 64 - 8192) (2 ^ 64 - 4096) (2 ^ 64 - 8192) (.align8 64 (by decide)) := by
  apply ((alignment_safe_iff .release (by decide) (by decide) (by decide)).1 _ Reach.init _).mpr
  show 2 ^ 64 - 8192 + 8 < 2 ^ 64
  decide

/-- Two pages below the top of the address space, an alignment of 16384 wraps the sum. -/
def wideLayout : Layout := ⟨64, 16384, ⟨14, rfl⟩, by decide⟩

/-- A release build returns null but sets `next` to 64, far below the heap, and the
next call hands out that address; a debug build panics. -/
theorem alignment_sum_wraps :
    BumpAllocator.alloc .debug (2 ^ 64 - 4096) (2 ^ 64 - 8192) wideLayout = none ∧
    BumpAllocator.alloc .release (2 ^ 64 - 4096) (2 ^ 64 - 8192) wideLayout = some (0, 64) ∧
    BumpAllocator.alloc .release (2 ^ 64 - 4096) 64 (.align8 8 (by decide)) = some (64, 72) ∧
    ¬ BumpCallSafe (2 ^ 64 - 8192) (2 ^ 64 - 4096) (2 ^ 64 - 8192) wideLayout ∧
    ¬ ListCallSafe (2 ^ 64 - 8192) (2 ^ 64 - 4096)
      (State.new (2 ^ 64 - 8192) (2 ^ 64 - 4096) fun _ => 0) wideLayout := by
  refine ⟨by decide, by decide, by decide, ?_, ?_⟩
  · intro h
    have hpanic : (alignUp .debug (2 ^ 64 - 8192) wideLayout.align).isSome = false := by decide
    exact absurd h.no_overflow (by rw [hpanic]; decide)
  · intro h
    have hpanic : (alignUp .debug (2 ^ 64 - 8192) (blockAlign wideLayout)).isSome = false := by
      decide
    exact absurd (h.no_overflow 0 (by decide +kernel)) (by
      change ¬ (alignUp .debug (2 ^ 64 - 8192) (blockAlign wideLayout)).isSome
      rw [hpanic]
      decide)

end OsCamp.AlignOverflow
