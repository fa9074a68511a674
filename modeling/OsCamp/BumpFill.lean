import OsCamp.AlignOverflow
import Mathlib.Order.Bounds.Basic

/-!
How full a bump allocator gets. The alignment expression takes the least multiple
of the alignment at or above the address, so that less than one alignment of
padding is lost, a null says that the heap has no more than size and padding left,
and byte-aligned requests fill the heap to its last byte. The expression adds the
alignment before it subtracts 1; a debug build panics where that sum reaches
2^64, although the multiple itself is a word.
-/

set_option autoImplicit false

namespace OsCamp.BumpFill

open CoreAlloc Execution AlignOverflow

/-- The expression computes the least multiple of the alignment at or above `x`. -/
def RoundsUp (profile : Profile) (x align : ℕ) : Prop :=
  ∃ start, alignUp profile x align = some start ∧
    IsLeast {m | align ∣ m ∧ x ≤ m} start ∧ start < x + align

/-- The sum fits in a word, or wraps around to zero, where the subtraction wraps it back. -/
def SumComputed (profile : Profile) (x align : ℕ) : Prop :=
  x + align < 2 ^ 64 ∨ profile = .release ∧ x + align = 2 ^ 64

/-- `GlobalAlloc` forbids a size of 0; it is admitted where the sum does not wrap past zero. -/
def Requested (next : ℕ) (layout : Layout) : Prop :=
  0 < layout.size ∨ next + layout.align ≤ 2 ^ 64

/-- A request without alignment. -/
abbrev ByteRequest := {layout : Layout // layout.align = 1}

/-- The bump pointer with the sizes granted so far. -/
structure Fill where
  next : ℕ
  granted : ℕ
  deriving DecidableEq

def Fill.new (heapStart : ℕ) : Fill := ⟨heapStart, 0⟩

def fillStep (profile : Profile) (heapEnd : ℕ) (s : Fill) (request : ByteRequest) : Option Fill :=
  (BumpAllocator.alloc profile heapEnd s.next request.1).map fun
    | (p, next) => ⟨next, if p = 0 then s.granted else s.granted + request.1.size⟩

/-- The request succeeds iff it fits in the room that the granted ones left. -/
def ServedByRoom (profile : Profile) (heapStart heapEnd : ℕ) (s : Fill) (request : ByteRequest) :
    Prop :=
  ∃ p next, BumpAllocator.alloc profile heapEnd s.next request.1 = some (p, next) ∧
    (p ≠ 0 ↔ s.granted + request.1.size ≤ heapEnd - heapStart)

variable {profile : Profile} {heapStart heapEnd next x align : ℕ} {layout : Layout}

theorem isLeast_roundUp (x : ℕ) (halign : 0 < align) :
    IsLeast {m | align ∣ m ∧ x ≤ m} (roundUp x align) := by
  constructor
  · exact ⟨Nat.dvd_of_mod_eq_zero (roundUp_mod x align), le_roundUp x halign⟩
  · intro m hm
    exact roundUp_le halign hm.1 hm.2

theorem alignUp_of_sumComputed (halign : ∃ k, align = 2 ^ k) (h : SumComputed profile x align) :
    alignUp profile x align = some (roundUp x align) := by
  rcases h with hlt | ⟨hrelease, hwrap⟩
  · exact alignUp_of_lt profile halign hlt
  · obtain ⟨start, hstart⟩ := Option.isSome_iff_exists.mp (alignUp_release_isSome x align)
    subst profile
    rw [hstart, alignUp_eq_roundUp halign (by omega) hstart]

theorem sumComputed_of_isSome (halign : ∃ k, align = 2 ^ k) (hfit : x + align ≤ 2 ^ 64)
    (h : (alignUp profile x align).isSome) : SumComputed profile x align := by
  cases profile with
  | debug => exact Or.inl ((alignUp_debug_isSome_iff halign).mp h)
  | release =>
    rcases Nat.lt_or_eq_of_le hfit with hlt | heq
    · exact Or.inl hlt
    · exact Or.inr ⟨rfl, heq⟩

/-- The expression is the least multiple exactly where its sum is computed. -/
theorem roundsUp_iff (halign : ∃ k, align = 2 ^ k) (hword : align < 2 ^ 64) :
    RoundsUp profile x align ↔ SumComputed profile x align := by
  constructor
  · intro hround
    obtain ⟨start, hstart, hleast, -⟩ := hround
    refine sumComputed_of_isSome halign ?_ (hstart ▸ rfl)
    by_contra hwrap
    have hlt := alignUp_lt_of_wrap hword (by omega) hstart
    have hge : x ≤ start := hleast.1.2
    omega
  · intro h
    have hpos := align_pos halign
    exact ⟨_, alignUp_of_sumComputed halign h, isLeast_roundUp x hpos, roundUp_lt x hpos⟩

section Null

/-- The block that a call cuts off, or why it has none. -/
theorem allocRange_cases {range : Option (ℕ × ℕ)} (hfit : next + layout.align ≤ 2 ^ 64)
    (hend : heapEnd < 2 ^ 64)
    (h : BumpAllocator.allocRange profile heapEnd next layout = some range) :
    (range = some (roundUp next layout.align, roundUp next layout.align + layout.size) ∧
      roundUp next layout.align + layout.size ≤ heapEnd) ∨
    (range = none ∧ heapEnd < roundUp next layout.align + layout.size) := by
  obtain ⟨start, hstart, h⟩ := Option.bind_eq_some_iff.mp h
  have hround := alignUp_eq_roundUp layout.align_pow hfit hstart
  subst start
  unfold checkedAdd at h
  split_ifs at h with hlt
  · simp only at h
    split_ifs at h with hle
    · exact Or.inl ⟨(Option.some.inj h).symm, hle⟩
    · exact Or.inr ⟨(Option.some.inj h).symm, by omega⟩
  · exact Or.inr ⟨(Option.some.inj h).symm, by omega⟩

/-- Whatever the sum does, an allocated block ends inside the heap. -/
theorem bumpStep_next {next' : ℕ} (h : bumpStep profile heapEnd next layout = some next') :
    next' = next ∨ (layout.size ≤ next' ∧ next' ≤ heapEnd) := by
  obtain ⟨out, halloc, rfl⟩ := Option.map_eq_some_iff.mp h
  obtain ⟨range, hrange, rfl⟩ := Option.map_eq_some_iff.mp halloc
  obtain ⟨start, -, hrange⟩ := Option.bind_eq_some_iff.mp hrange
  unfold checkedAdd at hrange
  split_ifs at hrange with hlt
  · simp only at hrange
    split_ifs at hrange with hle
    · cases hrange
      exact Or.inr ⟨Nat.le_add_left _ _, hle⟩
    · cases hrange
      exact Or.inl rfl
  · cases hrange
    exact Or.inl rfl

/-- The bump pointer never reaches 0, the address that stands for null. -/
theorem next_bounds (hpos : 0 < heapStart) (hle : heapStart ≤ heapEnd) (hend : heapEnd < 2 ^ 64)
    (h : Reach (bumpStep profile heapEnd) Requested heapStart next) :
    0 < next ∧ next ≤ heapEnd := by
  refine Reach.invariant (I := fun next => 0 < next ∧ next ≤ heapEnd) ⟨hpos, hle⟩ ?_ h
  intro next layout next' hi hrequested hs
  rcases bumpStep_next hs with hsame | ⟨hsize, hlast⟩
  · exact hsame ▸ hi
  · refine ⟨?_, hlast⟩
    rcases hrequested with hsome | hfit
    · omega
    · obtain ⟨out, halloc, rfl⟩ := Option.map_eq_some_iff.mp hs
      obtain ⟨range, hrange, rfl⟩ := Option.map_eq_some_iff.mp halloc
      have hround := le_roundUp next layout.align_pos
      rcases allocRange_cases hfit hend hrange with ⟨rfl, -⟩ | ⟨rfl, -⟩
      · simp only
        omega
      · exact hi.1

/-- A null says that size and padding do not fit any more. -/
theorem room_of_null {next' : ℕ} (hend : heapEnd < 2 ^ 64) (hpos : 0 < next)
    (hnext : next ≤ heapEnd)
    (h : BumpAllocator.alloc profile heapEnd next layout = some (0, next')) :
    heapEnd - next < layout.size + layout.align - 1 := by
  have halign := layout.align_pos
  by_cases hfit : next + layout.align ≤ 2 ^ 64
  · obtain ⟨range, hrange, hout⟩ := Option.map_eq_some_iff.mp h
    have hround := le_roundUp next halign
    have hpadding := roundUp_lt next halign
    rcases allocRange_cases hfit hend hrange with ⟨rfl, -⟩ | ⟨rfl, hfull⟩
    · have hzero : roundUp next layout.align = 0 := congrArg Prod.fst hout
      omega
    · omega
  · omega

end Null

section Fill

variable {s s' : Fill} {request : ByteRequest}

/-- The pointer stands behind the granted bytes. -/
structure Filled (heapStart heapEnd : ℕ) (s : Fill) : Prop where
  next_eq : s.next = heapStart + s.granted
  next_le : s.next ≤ heapEnd

/-- A byte-aligned request starts at the pointer itself. -/
theorem roundUp_one (x : ℕ) : roundUp x 1 = x := by
  simp [roundUp]

/-- A byte-aligned request in a heap filled so far, where its sum is computed. -/
theorem alloc_byte (hend : heapEnd < 2 ^ 64) (hsum : SumComputed profile next 1)
    (hbyte : layout.align = 1) :
    BumpAllocator.alloc profile heapEnd next layout =
      some (if next + layout.size ≤ heapEnd then (next, next + layout.size) else (0, next)) := by
  have hpow : ∃ k, 1 = 2 ^ k := ⟨0, rfl⟩
  have hstart : alignUp profile next layout.align = some next := by
    rw [hbyte, alignUp_of_sumComputed hpow hsum, roundUp_one]
  unfold BumpAllocator.alloc BumpAllocator.allocRange FreeListAllocator.bumpRange checkedAdd
  rw [hstart, Option.bind_eq_bind, Option.bind_some]
  by_cases hle : next + layout.size ≤ heapEnd
  · have hlt : next + layout.size < 2 ^ 64 := by omega
    simp only [if_pos hlt, if_pos hle]
    rfl
  · by_cases hlt : next + layout.size < 2 ^ 64
    · simp only [if_pos hlt, if_neg hle]
      rfl
    · simp only [if_neg hlt, if_neg hle]
      rfl

theorem filled_new (hle : heapStart ≤ heapEnd) : Filled heapStart heapEnd (Fill.new heapStart) :=
  ⟨rfl, hle⟩

/-- Where the alignment sum is computed, the request is served by the room left. -/
theorem Filled.served (h : Filled heapStart heapEnd s) (hpos : 0 < heapStart)
    (hend : heapEnd < 2 ^ 64) (hsum : SumComputed profile s.next 1) (request : ByteRequest) :
    ServedByRoom profile heapStart heapEnd s request := by
  have hnext := h.next_eq
  have hlast := h.next_le
  have halloc := alloc_byte hend hsum request.2
  by_cases hle : s.next + request.1.size ≤ heapEnd
  · rw [if_pos hle] at halloc
    exact ⟨_, _, halloc, by omega⟩
  · rw [if_neg hle] at halloc
    exact ⟨_, _, halloc, by omega⟩

theorem fillStep_isSome_iff (hend : heapEnd < 2 ^ 64) (hnext : s.next ≤ heapEnd) :
    (fillStep profile heapEnd s request).isSome = true ↔ SumComputed profile s.next 1 := by
  have hpow : ∃ k, 1 = 2 ^ k := ⟨0, rfl⟩
  constructor
  · intro hsome
    apply sumComputed_of_isSome hpow (by omega)
    by_contra hnone
    have hpanic := Option.not_isSome_iff_eq_none.mp hnone
    unfold fillStep BumpAllocator.alloc BumpAllocator.allocRange
      FreeListAllocator.bumpRange at hsome
    rw [request.2, hpanic] at hsome
    cases hsome
  · intro hsum
    unfold fillStep
    rw [alloc_byte hend hsum request.2]
    rfl

theorem Filled.step (h : Filled heapStart heapEnd s) (hpos : 0 < heapStart)
    (hend : heapEnd < 2 ^ 64) (hs : fillStep profile heapEnd s request = some s') :
    Filled heapStart heapEnd s' := by
  have hnext := h.next_eq
  have hsum := (fillStep_isSome_iff hend h.next_le).mp (Option.isSome_of_eq_some hs)
  unfold fillStep at hs
  rw [alloc_byte hend hsum request.2] at hs
  split_ifs at hs with hle
  · have hne : s.next ≠ 0 := by omega
    rw [Option.map_some] at hs
    simp only [if_neg hne] at hs
    cases hs
    exact ⟨by simp only; omega, hle⟩
  · cases hs
    exact h

theorem Filled.servedByRoom_iff (h : Filled heapStart heapEnd s) (hpos : 0 < heapStart)
    (hend : heapEnd < 2 ^ 64) :
    ServedByRoom profile heapStart heapEnd s request ↔ SumComputed profile s.next 1 := by
  constructor
  · intro hserved
    obtain ⟨p, next, halloc, -⟩ := hserved
    have hsome : (fillStep profile heapEnd s request).isSome = true := by
      unfold fillStep
      rw [halloc]
      rfl
    exact (fillStep_isSome_iff hend h.next_le).mp hsome
  · intro hsum
    exact h.served hpos hend hsum request

end Fill

/-- The expression is the least multiple exactly where its sum is computed; a call
of the bump allocator returns null only where size and padding do not fit; and in
every list of byte-aligned requests a request is served by the room left exactly
where its sum is computed. -/
theorem align_up_iff (profile : Profile) (hpos : 0 < heapStart) (hle : heapStart ≤ heapEnd)
    (hend : heapEnd < 2 ^ 64) :
    (∀ x align, x < 2 ^ 64 → (∃ k, align = 2 ^ k) → align < 2 ^ 64 →
      (RoundsUp profile x align ↔ SumComputed profile x align)) ∧
    (∀ next, Reach (bumpStep profile heapEnd) Requested heapStart next → next ≤ heapEnd ∧
      ∀ layout next', BumpAllocator.alloc profile heapEnd next layout = some (0, next') →
        heapEnd - next < layout.size + layout.align - 1) ∧
    ∀ requests : List ByteRequest,
      ((run (fillStep profile heapEnd) (Fill.new heapStart) requests).isSome = true ↔
        Admitted (fillStep profile heapEnd) (fun s _ => SumComputed profile s.next 1)
          (Fill.new heapStart) requests) ∧
      ∀ s, run (fillStep profile heapEnd) (Fill.new heapStart) requests = some s →
        s.next = heapStart + s.granted ∧ ∀ request : ByteRequest,
          (ServedByRoom profile heapStart heapEnd s request ↔ SumComputed profile s.next 1) := by
  refine ⟨?_, ?_, ?_⟩
  · intro x align _ halign hword
    exact roundsUp_iff halign hword
  · intro next hreach
    obtain ⟨hnext, hlast⟩ := next_bounds hpos hle hend hreach
    exact ⟨hlast, fun layout next' hnull => room_of_null hend hnext hlast hnull⟩
  · intro requests
    constructor
    · exact run_isSome_iff (I := Filled heapStart heapEnd)
        (fun _ _ _ h hs => h.step hpos hend hs)
        (fun _ _ h => fillStep_isSome_iff hend h.next_le) (filled_new hle) requests
    · intro s hrun
      have hreach : Reachable (fillStep profile heapEnd) (Fill.new heapStart) s :=
        Reach.init.run hrun
      have h : Filled heapStart heapEnd s :=
        Reach.invariant (filled_new hle) (fun _ _ _ h _ hs => h.step hpos hend hs) hreach
      exact ⟨h.next_eq, fun _ => h.servedByRoom_iff hpos hend⟩

/-- A request of bytes without alignment. -/
def bytes (size : ℕ) (h : size + 1 ≤ 2 ^ 63) : ByteRequest := ⟨⟨size, 1, ⟨0, rfl⟩, h⟩, rfl⟩

theorem align_up_iff_one_page :
    RoundsUp .debug 4100 64 ∧
    (∃ next, bumpStep .debug 8192 4096 (.align8 4000 (by decide)) = some next ∧ next ≤ 8192) ∧
    ∃ s, run (fillStep .debug 8192) (Fill.new 4096)
        [bytes 4000 (by decide), bytes 100 (by decide)] = some s ∧
      s.granted = 4000 ∧ ServedByRoom .debug 4096 8192 s (bytes 96 (by decide)) := by
  obtain ⟨hround, hnull, hfill⟩ := align_up_iff .debug (by decide : 0 < 4096)
    (by decide : 4096 ≤ 8192) (by decide : 8192 < 2 ^ 64)
  refine ⟨?_, ?_, ?_⟩
  · exact (hround 4100 64 (by decide) ⟨6, rfl⟩ (by decide)).mpr (Or.inl (by decide))
  · obtain ⟨next, hs⟩ : ∃ next, bumpStep .debug 8192 4096 (.align8 4000 (by decide)) = some next :=
      ⟨8096, by decide⟩
    have hreach : Reach (bumpStep .debug 8192) Requested 4096 next :=
      Reach.step (.align8 4000 (by decide)) Reach.init (Or.inl (by decide)) hs
    exact ⟨next, hs, (hnull next hreach).1⟩
  · obtain ⟨s, hrun, hgranted, hnext⟩ : ∃ s, run (fillStep .debug 8192) (Fill.new 4096)
        [bytes 4000 (by decide), bytes 100 (by decide)] = some s ∧ s.granted = 4000 ∧
          s.next = 8096 :=
      ⟨⟨8096, 4000⟩, by decide, rfl, rfl⟩
    refine ⟨s, hrun, hgranted, ?_⟩
    apply ((hfill _).2 s hrun).2 _ |>.mpr
    rw [hnext]
    exact Or.inl (by decide)

/-- Eight bytes below the top of the address space a debug build panics, where the
address itself is the multiple. -/
theorem align_up_panics_at_top :
    2 ^ 64 - 8 + 8 - 1 < 2 ^ 64 ∧ IsLeast {m | 8 ∣ m ∧ 2 ^ 64 - 8 ≤ m} (2 ^ 64 - 8) ∧
    ¬ RoundsUp .debug (2 ^ 64 - 8) 8 ∧
    bumpStep .debug (2 ^ 64 - 8) (2 ^ 64 - 4096) (bytes 4088 (by decide)).1 = some (2 ^ 64 - 8) ∧
    BumpAllocator.alloc .debug (2 ^ 64 - 8) (2 ^ 64 - 8) (.align8 8 (by decide)) = none := by
  refine ⟨by decide, ?_, ?_, by decide, by decide⟩
  · have hround : roundUp (2 ^ 64 - 8) 8 = 2 ^ 64 - 8 := by decide
    have hleast := isLeast_roundUp (2 ^ 64 - 8) (by decide : 0 < 8)
    rw [hround] at hleast
    exact hleast
  · intro hround
    obtain ⟨start, hstart, -⟩ := hround
    have hpanic : alignUp .debug (2 ^ 64 - 8) 8 = none := by decide
    rw [hpanic] at hstart
    cases hstart

end OsCamp.BumpFill
