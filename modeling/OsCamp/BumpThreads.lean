import OsCamp.BumpAllocator
import OsCamp.Execution
import OsCamp.FreeListSpec

/-!
Threads that share the bump allocator never get overlapping blocks between two
resets. A block is computed from a value of `next` that may be stale, but the
exchange succeeds only on that same value, so at the moment of success it is the
block next to the last one; that the value was stored again in between (by a
reset, say) does not matter.
-/

set_option autoImplicit false

namespace OsCamp.BumpThreads

open CoreAlloc Execution Packing BumpAllocator
open FreeListSpec (bumpRange_spec)

def blockRegion (b : Block) : Region := ⟨b.ptr, b.layout.size⟩

/-- Every requested alignment still fits above the heap. -/
def AlignFits {T : Type*} (heapEnd : ℕ) (_ : State T) (a : Action T) : Prop :=
  ∀ t layout, a = .beginAlloc t layout → heapEnd + layout.align ≤ 2 ^ 64

/-- The request of a call in progress. -/
def request : Pc → Option Layout
  | .idle => none
  | .load layout => some layout
  | .exchange layout _ _ _ => some layout

/-- The step ends a call of `t` without a block. -/
def ReturnsNull {T : Type*} (s s' : State T) (t : T) (layout : Layout) : Prop :=
  request (s.pc t) = some layout ∧ s'.pc t = .idle ∧ s'.granted = s.granted

structure Inv {T : Type*} (profile : Profile) (heapStart heapEnd : ℕ) (s : State T) : Prop where
  start_eq : s.heapStart = heapStart
  end_eq : s.heapEnd = heapEnd
  start_le : heapStart ≤ s.next
  next_le : s.next ≤ heapEnd
  fits : ∀ t layout, request (s.pc t) = some layout → heapEnd + layout.align ≤ 2 ^ 64
  /-- What a thread is about to exchange was computed from the value it expects. -/
  computed : ∀ t layout prevNext allocStart allocEnd,
    s.pc t = .exchange layout prevNext allocStart allocEnd →
    allocRange profile heapEnd prevNext layout = some (some (allocStart, allocEnd))
  packed : ∀ n, Packed heapStart heapEnd ((s.granted n).map blockRegion)
  current : Packed heapStart s.next ((s.granted s.resets).map blockRegion)
  future : ∀ n, s.resets < n → s.granted n = []
  aligned : ∀ n, ∀ b ∈ s.granted n, b.ptr % b.layout.align = 0

variable {T : Type*} {profile : Profile} {heapStart heapEnd : ℕ} {s s' : State T}
  {t : T} {layout : Layout}

/-- A request is refused only where the rounded address and the size pass the heap's end. -/
theorem allocRange_none {prevNext : ℕ} (hfit : prevNext + layout.align ≤ 2 ^ 64)
    (hend : heapEnd < 2 ^ 64) (h : allocRange profile heapEnd prevNext layout = some none) :
    heapEnd < roundUp prevNext layout.align + layout.size := by
  obtain ⟨start, hstart, h⟩ := Option.bind_eq_some_iff.mp h
  have hround := alignUp_eq_roundUp layout.align_pow hfit hstart
  unfold checkedAdd at h
  split_ifs at h with hlt
  · simp only at h
    split_ifs at h with hle
    · cases h
    · omega
  · omega

theorem packed_widen {lo hi hi' : ℕ} {l : List Region} (h : Packed lo hi l) (hle : hi ≤ hi') :
    Packed lo hi' l where
  inside r hr := by
    have hin := h.inside r hr
    omega
  disjoint := h.disjoint

namespace Inv

theorem new (hle : heapStart ≤ heapEnd) :
    Inv profile heapStart heapEnd (State.new heapStart heapEnd : State T) where
  start_eq := rfl
  end_eq := rfl
  start_le := Nat.le_refl _
  next_le := hle
  fits := fun _ _ h => nomatch h
  computed := fun _ _ _ _ _ h => nomatch h
  packed := fun _ => Packed.nil
  current := Packed.nil
  future := fun _ _ => rfl
  aligned := fun _ _ hb => nomatch hb

theorem reset (h : Inv profile heapStart heapEnd s) : Inv profile heapStart heapEnd s.reset := by
  have hempty : s.granted (s.resets + 1) = [] := h.future _ (by omega)
  refine { h with start_le := ?_, next_le := ?_, current := ?_, future := ?_ }
  · exact h.start_eq.ge
  · show s.heapStart ≤ heapEnd
    have hlo := h.start_le
    have hhi := h.next_le
    have hstart := h.start_eq
    omega
  · show Packed heapStart s.heapStart ((s.granted (s.resets + 1)).map blockRegion)
    rw [hempty]
    exact Packed.nil
  · intro n hn
    apply h.future n
    change s.resets + 1 < n at hn
    omega

variable [DecidableEq T]

/-- Only the position of `t` changes. -/
theorem goto (h : Inv profile heapStart heapEnd s) {pc : Pc}
    (hfits : ∀ layout, request pc = some layout → heapEnd + layout.align ≤ 2 ^ 64)
    (hcomputed : ∀ layout prevNext allocStart allocEnd,
      pc = .exchange layout prevNext allocStart allocEnd →
      allocRange profile heapEnd prevNext layout = some (some (allocStart, allocEnd))) :
    Inv profile heapStart heapEnd (s.goto t pc) := by
  refine { h with fits := ?_, computed := ?_ }
  · intro u layout hu
    by_cases hut : u = t
    · subst u
      apply hfits layout
      simpa [State.goto] using hu
    · apply h.fits u layout
      simpa [State.goto, hut] using hu
  · intro u layout prevNext allocStart allocEnd hu
    by_cases hut : u = t
    · subst u
      apply hcomputed layout prevNext allocStart allocEnd
      simpa [State.goto] using hu
    · apply h.computed u layout prevNext allocStart allocEnd
      simpa [State.goto, hut] using hu

theorem idle (h : Inv profile heapStart heapEnd s) (t : T) :
    Inv profile heapStart heapEnd (s.goto t .idle) :=
  h.goto (fun _ hrequest => nomatch hrequest) fun _ _ _ _ hpc => nomatch hpc

theorem attempt (h : Inv profile heapStart heapEnd s) (hrequest : request (s.pc t) = some layout)
    (hs : s.attempt profile t layout = some s') : Inv profile heapStart heapEnd s' := by
  obtain ⟨range, hrange, rfl⟩ := Option.map_eq_some_iff.mp hs
  rw [h.end_eq] at hrange
  cases range with
  | none => exact h.idle t
  | some block =>
    obtain ⟨allocStart, allocEnd⟩ := block
    apply h.goto
    · intro layout' hlayout'
      cases hlayout'
      exact h.fits t layout hrequest
    · intro layout' prevNext start stop hpc
      cases hpc
      exact hrange

/-- The exchange succeeds on the value the block was computed from. -/
theorem grant (h : Inv profile heapStart heapEnd s) {allocStart allocEnd : ℕ}
    (hpc : s.pc t = .exchange layout s.next allocStart allocEnd) :
    Inv profile heapStart heapEnd (s.grant t ⟨allocStart, layout⟩ allocEnd) := by
  have hcomputed := h.computed t layout s.next allocStart allocEnd hpc
  have hfit := h.fits t layout (by rw [hpc]; rfl)
  have hnext := h.next_le
  have hlo := h.start_le
  obtain ⟨hround, hstop, hend⟩ :=
    bumpRange_spec layout.align_pow (by omega) hcomputed
  have hle := le_roundUp s.next layout.align_pos
  have hpacked : Packed heapStart allocEnd
      (blockRegion ⟨allocStart, layout⟩ :: (s.granted s.resets).map blockRegion) := by
    apply h.current.cons_above h.start_le
    · show s.next ≤ allocStart
      omega
    · exact hstop
  have hidle := h.idle t
  refine { hidle with
    start_le := ?_
    next_le := hend
    packed := ?_
    current := ?_
    future := ?_
    aligned := ?_
  }
  · show heapStart ≤ allocEnd
    omega
  · intro n
    by_cases hn : n = s.resets
    · subst n
      simpa [State.grant] using packed_widen hpacked hend
    · simpa [State.grant, hn] using h.packed n
  · simpa [State.grant, State.goto] using hpacked
  · intro n hn
    have hne : n ≠ s.resets := by
      intro heq
      exact absurd hn (by simp [State.grant, State.goto, heq])
    simpa [State.grant, hne] using h.future n hn
  · intro n b hb
    by_cases hn : n = s.resets
    · subst n
      have hmem : b = ⟨allocStart, layout⟩ ∨ b ∈ s.granted s.resets := by
        simpa [State.grant] using hb
      rcases hmem with rfl | hmem
      · rw [hround]
        exact roundUp_mod _ _
      · exact h.aligned s.resets b hmem
    · apply h.aligned n b
      simpa [State.grant, hn] using hb

end Inv

/-- What one step can do. -/
inductive Effect [DecidableEq T] (profile : Profile) (s : State T) : Action T → State T → Prop
  | start (t : T) (layout : Layout) (hpc : s.pc t = .idle) :
      Effect profile s (.beginAlloc t layout) (s.goto t (.load layout))
  | attempt (a : Action T) (t : T) (layout : Layout) (s' : State T) (ha : a ≠ .reset)
      (hrequest : request (s.pc t) = some layout) (hs : s.attempt profile t layout = some s') :
      Effect profile s a s'
  | grant (a : Action T) (t : T) (layout : Layout) (allocStart allocEnd : ℕ)
      (hpc : s.pc t = .exchange layout s.next allocStart allocEnd) :
      Effect profile s a (s.grant t ⟨allocStart, layout⟩ allocEnd)
  | reset : Effect profile s .reset s.reset

variable [DecidableEq T]

theorem step_cases {a : Action T} (hs : step profile s a = some s') : Effect profile s a s' := by
  cases a with
  | beginAlloc t layout =>
    obtain ⟨hpc, hout⟩ := Option.ite_none_right_eq_some.mp hs
    cases hout
    exact Effect.start t layout hpc
  | load t =>
    change s.load profile t = some s' at hs
    unfold State.load at hs
    cases hpc : s.pc t with
    | load layout =>
      rw [hpc] at hs
      exact Effect.attempt _ t layout s' (by simp) (by rw [hpc]; rfl) hs
    | idle => simp [hpc] at hs
    | exchange layout prevNext allocStart allocEnd => simp [hpc] at hs
  | exchange t spurious =>
    change s.exchange profile t spurious = some s' at hs
    unfold State.exchange at hs
    cases hpc : s.pc t with
    | exchange layout prevNext allocStart allocEnd =>
      simp only [hpc] at hs
      split_ifs at hs with hcas
      · cases hs
        rw [← hcas.1] at hpc
        exact Effect.grant _ t layout allocStart allocEnd hpc
      · exact Effect.attempt _ t layout s' (by simp) (by rw [hpc]; rfl) hs
    | idle => simp [hpc] at hs
    | load layout => simp [hpc] at hs
  | reset =>
    cases hs
    exact Effect.reset

theorem Inv.step (h : Inv profile heapStart heapEnd s) {a : Action T}
    (hok : AlignFits heapEnd s a) (hs : step profile s a = some s') :
    Inv profile heapStart heapEnd s' := by
  cases step_cases hs with
  | start t layout hpc =>
    apply h.goto
    · intro layout' hlayout'
      cases hlayout'
      exact hok t layout rfl
    · intro layout' prevNext start stop hpc'
      cases hpc'
  | attempt _ t layout _ _ hrequest hattempt => exact h.attempt hrequest hattempt
  | grant _ t layout allocStart allocEnd hpc => exact h.grant hpc
  | reset => exact h.reset

/-- What holds of the blocks and of `next` in a state. -/
structure BumpSafe (heapStart heapEnd : ℕ) (s : State T) : Prop where
  disjoint : ∀ n, (s.granted n).Pairwise fun b b' => (blockRegion b).Disjoint (blockRegion b')
  inside : ∀ n, ∀ b ∈ s.granted n,
    0 < b.ptr ∧ heapStart ≤ b.ptr ∧ b.ptr + b.layout.size ≤ heapEnd
  aligned : ∀ n, ∀ b ∈ s.granted n, b.ptr % b.layout.align = 0
  next_inside : heapStart ≤ s.next ∧ s.next ≤ heapEnd

/-- A step between resets never lowers `next`; a refused call leaves it alone, and
at that step the request does not fit above it. -/
structure StepSafe (heapEnd : ℕ) (s : State T) (a : Action T) (s' : State T) : Prop where
  next_le : a ≠ .reset → s.next ≤ s'.next
  null : ∀ t layout, ReturnsNull s s' t layout →
    heapEnd < roundUp s.next layout.align + layout.size ∧ s'.next = s.next

/-- A thread that another one's step leaves idle had no call to end. -/
theorem not_returnsNull_of_ne {u v : T} {pc : Pc} {layout : Layout} (hne : u ≠ v) :
    ¬ ReturnsNull s (s.goto v pc) u layout := by
  rintro ⟨hrequest, hidle, -⟩
  have hsame : s.pc u = .idle := by simpa [State.goto, hne] using hidle
  rw [hsame] at hrequest
  cases hrequest

theorem Inv.stepSafe (h : Inv profile heapStart heapEnd s) (hend : heapEnd < 2 ^ 64)
    {a : Action T} (hs : BumpAllocator.step profile s a = some s') : StepSafe heapEnd s a s' := by
  cases step_cases hs with
  | start t layout hpc =>
    refine ⟨fun _ => Nat.le_refl _, ?_⟩
    intro u layout' hnull
    by_cases hut : u = t
    · subst u
      simp [ReturnsNull, hpc, request] at hnull
    · exact absurd hnull (not_returnsNull_of_ne hut)
  | attempt _ t layout _ _ hrequest hattempt =>
    obtain ⟨range, hrange, rfl⟩ := Option.map_eq_some_iff.mp hattempt
    rw [h.end_eq] at hrange
    have hnext := h.next_le
    have hfit := h.fits t layout hrequest
    cases range with
    | none =>
      refine ⟨fun _ => Nat.le_refl _, ?_⟩
      intro u layout' hnull
      by_cases hut : u = t
      · subst u
        have hlayout : layout = layout' := Option.some.inj (hrequest.symm.trans hnull.1)
        subst layout'
        exact ⟨allocRange_none (by omega) hend hrange, rfl⟩
      · exact absurd hnull (not_returnsNull_of_ne hut)
    | some block =>
      refine ⟨fun _ => Nat.le_refl _, ?_⟩
      intro u layout' hnull
      by_cases hut : u = t
      · subst u
        simp [ReturnsNull, State.goto] at hnull
      · exact absurd hnull (not_returnsNull_of_ne hut)
  | grant _ t layout allocStart allocEnd hpc =>
    have hcomputed := h.computed t layout s.next allocStart allocEnd hpc
    have hfit := h.fits t layout (by rw [hpc]; rfl)
    have hnext := h.next_le
    obtain ⟨hround, hstop, -⟩ := bumpRange_spec layout.align_pow (by omega) hcomputed
    have hle := le_roundUp s.next layout.align_pos
    constructor
    · intro _
      show s.next ≤ allocEnd
      omega
    · intro u layout' hnull
      have hgranted := congrFun hnull.2.2 s.resets
      simp [State.grant] at hgranted
  | reset =>
    refine ⟨fun hne => absurd rfl hne, ?_⟩
    intro u layout' hnull
    obtain ⟨hrequest, hidle, -⟩ := hnull
    change s.pc u = .idle at hidle
    rw [hidle] at hrequest
    cases hrequest

/-- In every interleaving, with any spurious failures and any resets: the blocks of
one reset period are disjoint, aligned and inside the heap, `next` stays in the
heap and grows between resets, and null is returned only where nothing fits. -/
theorem reachable_bumpSafe (profile : Profile) (hpos : 0 < heapStart) (hle : heapStart ≤ heapEnd)
    (hend : heapEnd < 2 ^ 64)
    (h : Reach (step profile) (AlignFits heapEnd) (State.new heapStart heapEnd) s) :
    BumpSafe heapStart heapEnd s ∧
      ∀ a s', step profile s a = some s' → StepSafe heapEnd s a s' := by
  have hinv : Inv profile heapStart heapEnd s :=
    Reach.invariant (Inv.new hle) (fun _ _ _ hi hok hs => hi.step hok hs) h
  refine ⟨?_, fun a s' hs => hinv.stepSafe hend hs⟩
  refine { disjoint := ?_, inside := ?_, aligned := hinv.aligned,
           next_inside := ⟨hinv.start_le, hinv.next_le⟩ }
  · intro n
    exact List.pairwise_map.mp (hinv.packed n).disjoint
  · intro n b hb
    have hin := (hinv.packed n).inside (blockRegion b) (List.mem_map_of_mem hb)
    change heapStart ≤ b.ptr ∧ b.ptr + b.layout.size ≤ heapEnd at hin
    omega

theorem reachable_bumpSafe_after_reset :
    let layout := Layout.align8 64 (by decide)
    let actions : List (Action (Fin 2)) := [.beginAlloc 0 layout, .load 0, .beginAlloc 1 layout,
      .load 1, .exchange 0 true, .exchange 0 false, .exchange 1 false, .exchange 1 false,
      .beginAlloc 0 layout, .load 0, .reset, .exchange 0 false, .exchange 0 false]
    ∃ s, run (step .debug) (State.new 4096 8192) actions = some s ∧
      s.granted 0 = [⟨4160, layout⟩, ⟨4096, layout⟩] ∧ s.granted 1 = [⟨4096, layout⟩] ∧
      BumpSafe 4096 8192 s := by
  intro layout actions
  have hend : (run (step .debug) (State.new 4096 8192) actions).map
      (fun s => (s.granted 0, s.granted 1)) =
        some ([⟨4160, layout⟩, ⟨4096, layout⟩], [⟨4096, layout⟩]) := by decide +kernel
  obtain ⟨s, hrun, hgranted⟩ := Option.map_eq_some_iff.mp hend
  rw [Prod.mk.injEq] at hgranted
  have hok : ∀ a ∈ actions, ∀ s, AlignFits 8192 s a := by
    intro a ha s t layout' heq
    subst a
    have hcalls : t = 0 ∧ layout' = layout ∨ t = 1 ∧ layout' = layout ∨
        t = 0 ∧ layout' = layout := by simpa [actions] using ha
    have hlayout : layout' = layout := by tauto
    subst layout'
    decide
  exact ⟨s, hrun, hgranted.1, hgranted.2, (reachable_bumpSafe .debug (by decide) (by decide)
    (by decide) (Reach.init.run_of_forall hok hrun)).1⟩

end OsCamp.BumpThreads
