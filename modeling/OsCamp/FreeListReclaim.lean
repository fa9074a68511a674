import OsCamp.FreeListRuns

/-!
What freed blocks are worth. `dealloc` records the size of the layout it is
given, so a block that was reused for a smaller request keeps only that size.
A freed block can serve every request up to the last one it was handed out for.
-/

set_option autoImplicit false

namespace OsCamp.FreeListReclaim

open CoreAlloc ByteMemory Execution FreeListAllocator Packing FreeListHeap FreeListSpec FreeListRuns

/-- A system with the blocks granted so far, the latest first. -/
structure Logged where
  sys : System
  granted : List Block

def Logged.new (heapStart heapEnd : ℕ) (memory : Memory) : Logged :=
  ⟨System.new heapStart heapEnd memory, []⟩

/-- A call adds to the log the block that it makes live, if any. -/
def stepLogged (profile : Profile) (s : Logged) (call : Call) : Option Logged :=
  (step profile s.sys call).map fun sys' =>
    ⟨sys', sys'.live.take (sys'.live.length - s.sys.live.length) ++ s.granted⟩

/-- The latest grant of the address. -/
def lastGrant (granted : List Block) (p : ℕ) : Option Block := granted.find? fun b => b.ptr = p

/-- The call computes no alignment sum above 2^64. -/
def Unwrapped (s : Logged) (call : Call) : Prop :=
  ∀ layout, call = .alloc layout → NoWrap s.sys.state layout

/-- Every granted block is live, or free with the size of its latest grant. -/
structure LogInv (heapStart heapEnd : ℕ) (s : Logged) (free : List Region) : Prop where
  run : RunInv heapStart heapEnd s.sys free
  live_last : ∀ b ∈ s.sys.live, lastGrant s.granted b.ptr = some b
  free_last : ∀ r ∈ free, ∃ b, lastGrant s.granted r.start = some b ∧ b.region = r
  covered : ∀ b ∈ s.granted, (∃ b' ∈ s.sys.live, b'.ptr = b.ptr) ∨ ∃ r ∈ free, r.start = b.ptr
  aligned : ∀ b ∈ s.granted, b.ptr % blockAlign b.layout = 0

variable {profile : Profile} {heapStart heapEnd : ℕ} {s t : Logged} {free free' : List Region}
  {state : State} {layout : Layout} {granted : List Block} {b : Block} {p : ℕ}

theorem lastGrant_cons_self : lastGrant (b :: granted) b.ptr = some b :=
  List.find?_cons_of_pos (by simp)

theorem lastGrant_cons_of_ne (h : b.ptr ≠ p) :
    lastGrant (b :: granted) p = lastGrant granted p :=
  List.find?_cons_of_neg (by simp [h])

/-- A call of `alloc` logs its block unless it returns null. -/
theorem stepLogged_alloc (hs : stepLogged profile s (.alloc layout) = some t) :
    ∃ p state, s.sys.state.alloc profile layout = some (p, state) ∧
      t = if p = 0 then ⟨⟨state, s.sys.live⟩, s.granted⟩
        else ⟨⟨state, ⟨p, layout⟩ :: s.sys.live⟩, ⟨p, layout⟩ :: s.granted⟩ := by
  obtain ⟨sys', hsys, hout⟩ := Option.map_eq_some_iff.mp hs
  obtain ⟨⟨p, state⟩, halloc, hsys'⟩ := Option.map_eq_some_iff.mp hsys
  refine ⟨p, state, halloc, ?_⟩
  rw [← hout, ← hsys']
  by_cases hnull : p = 0
  · simp [hnull]
  · simp [hnull]

namespace LogInv

theorem new (memory : Memory) (hpos : 0 < heapStart) (hle : heapStart ≤ heapEnd)
    (hlt : heapEnd < 2 ^ 64) :
    LogInv heapStart heapEnd (Logged.new heapStart heapEnd memory) [] where
  run := RunInv.new memory hpos hle hlt
  live_last := fun _ hb => nomatch hb
  free_last := fun _ hr => nomatch hr
  covered := fun _ hb => nomatch hb
  aligned := fun _ hb => nomatch hb

/-- A grant takes its block off the free list, or the block is new. -/
theorem grant (h : LogInv heapStart heapEnd s free)
    (hrun : RunInv heapStart heapEnd ⟨state, ⟨p, layout⟩ :: s.sys.live⟩ free')
    (hsub : ∀ r ∈ free', r ∈ free) (hleft : ∀ r ∈ free, r ∈ free' ∨ r.start = p) :
    LogInv heapStart heapEnd
      ⟨⟨state, ⟨p, layout⟩ :: s.sys.live⟩, ⟨p, layout⟩ :: s.granted⟩ free' := by
  have hpos : ∀ r ∈ List.map Block.region (⟨p, layout⟩ :: s.sys.live) ++ free', 0 < r.size := by
    intro r hr
    have hsize := hrun.heap.header r hr
    unfold headerSize at hsize
    omega
  have hnodup := hrun.heap.packed.starts_nodup hpos
  simp only [List.map_cons, List.cons_append, List.map_append, List.nodup_cons, List.mem_append,
    List.mem_map, not_or] at hnodup
  obtain ⟨⟨hlive, hfree⟩, -⟩ := hnodup
  refine { run := hrun, live_last := ?_, free_last := ?_, covered := ?_, aligned := ?_ }
  · intro b hb
    rcases List.mem_cons.mp hb with heq | hmem
    · rw [heq]
      exact lastGrant_cons_self
    · have hne : p ≠ b.ptr := fun heq => hlive ⟨b.region, ⟨b, hmem, rfl⟩, heq.symm⟩
      rw [lastGrant_cons_of_ne hne]
      exact h.live_last b hmem
  · intro r hr
    have hne : p ≠ r.start := fun heq => hfree ⟨r, hr, heq.symm⟩
    rw [lastGrant_cons_of_ne hne]
    exact h.free_last r (hsub r hr)
  · intro b hb
    rcases List.mem_cons.mp hb with heq | hmem
    · exact Or.inl ⟨⟨p, layout⟩, List.mem_cons_self, by rw [heq]⟩
    · rcases h.covered b hmem with ⟨b', hb', hptr⟩ | ⟨r, hr, hptr⟩
      · exact Or.inl ⟨b', List.mem_cons_of_mem _ hb', hptr⟩
      · rcases hleft r hr with hstill | hstart
        · exact Or.inr ⟨r, hstill, hptr⟩
        · exact Or.inl ⟨⟨p, layout⟩, List.mem_cons_self, hstart.symm.trans hptr⟩
  · intro b hb
    rcases List.mem_cons.mp hb with heq | hmem
    · rw [heq]
      exact hrun.aligned _ List.mem_cons_self
    · exact h.aligned b hmem

theorem alloc (h : LogInv heapStart heapEnd s free) (hfit : NoWrap s.sys.state layout)
    (hs : stepLogged profile s (.alloc layout) = some t) :
    ∃ free', LogInv heapStart heapEnd t free' := by
  obtain ⟨p, state, halloc, ht⟩ := stepLogged_alloc hs
  cases alloc_spec h.run.heap hfit halloc with
  | reuse l₁ r l₂ s' hfree hskip hfits hheap =>
    have hrun := h.run.grant halloc hheap hfits.1
    rw [if_neg (hheap.mem_inside List.mem_cons_self).1.ne'] at ht
    rw [ht]
    refine ⟨l₁ ++ l₂, h.grant hrun ?_ ?_⟩
    · intro x hx
      exact hfree ▸ mem_of_mem_removed hx r
    · intro x hx
      rw [hfree] at hx
      rcases List.mem_append.mp hx with h₁ | h₂
      · exact Or.inl (List.mem_append_left _ h₁)
      · rcases List.mem_cons.mp h₂ with heq | h₂
        · exact Or.inr (by rw [heq])
        · exact Or.inl (List.mem_append_right _ h₂)
  | cut p s' hskip hmod hheap =>
    have hrun := h.run.grant halloc hheap hmod
    rw [if_neg (hheap.mem_inside List.mem_cons_self).1.ne'] at ht
    rw [ht]
    exact ⟨free, h.grant hrun (fun _ hr => hr) fun _ hr => Or.inl hr⟩
  | null hskip =>
    rw [if_pos rfl] at ht
    exact ⟨free, ht ▸ h⟩

theorem dealloc (h : LogInv heapStart heapEnd s free) {block : Block}
    (hblock : block ∈ s.sys.live) :
    LogInv heapStart heapEnd
      ⟨⟨s.sys.state.dealloc block.ptr block.layout, s.sys.live.erase block⟩, s.granted⟩
      (block.region :: free) := by
  refine { run := h.run.dealloc hblock, live_last := ?_, free_last := ?_, covered := ?_,
           aligned := h.aligned }
  · intro b hb
    exact h.live_last b (List.mem_of_mem_erase hb)
  · intro r hr
    rcases List.mem_cons.mp hr with heq | hmem
    · rw [heq]
      exact ⟨block, h.live_last block hblock, rfl⟩
    · exact h.free_last r hmem
  · intro b hb
    rcases h.covered b hb with ⟨b', hb', hptr⟩ | ⟨r, hr, hptr⟩
    · by_cases hbb : b' = block
      · exact Or.inr ⟨block.region, List.mem_cons_self, hbb ▸ hptr⟩
      · exact Or.inl ⟨b', (List.mem_erase_of_ne hbb).mpr hb', hptr⟩
    · exact Or.inr ⟨r, List.mem_cons_of_mem _ hr, hptr⟩

theorem step (h : LogInv heapStart heapEnd s free) {call : Call} (hok : Unwrapped s call)
    (hs : stepLogged profile s call = some t) : ∃ free', LogInv heapStart heapEnd t free' := by
  cases call with
  | alloc layout => exact h.alloc (hok layout rfl) hs
  | dealloc block =>
    obtain ⟨sys', hsys, hout⟩ := Option.map_eq_some_iff.mp hs
    obtain ⟨hblock, hsys'⟩ := Option.ite_none_right_eq_some.mp hsys
    cases hsys'
    have hlength := List.length_erase_of_mem hblock
    have hnone : (s.sys.live.erase block).length - s.sys.live.length = 0 := by omega
    simp only [hnone, List.take_zero, List.nil_append] at hout
    rw [← hout]
    exact ⟨_, h.dealloc hblock⟩
  | write block offset byte =>
    obtain ⟨sys', hsys, hout⟩ := Option.map_eq_some_iff.mp hs
    obtain ⟨hblock, hsys'⟩ := Option.ite_none_right_eq_some.mp hsys
    cases hsys'
    simp only [Nat.sub_self, List.take_zero, List.nil_append] at hout
    rw [← hout]
    exact ⟨free, { h with run := h.run.write hblock.1 hblock.2 byte }⟩

/-- With nothing live, every granted block is free and as large as its latest grant. -/
theorem fits (h : LogInv heapStart heapEnd s free) (hfreed : s.sys.live = []) {last : Block}
    (hb : b ∈ s.granted) (hlast : lastGrant s.granted b.ptr = some last)
    (hsize : blockSize b.layout ≤ blockSize last.layout) : ∃ r ∈ free, RegionFits b.layout r := by
  rcases h.covered b hb with ⟨b', hb', -⟩ | ⟨r, hr, hptr⟩
  · rw [hfreed] at hb'
    exact nomatch hb'
  · obtain ⟨last', hlast', hregion⟩ := h.free_last r hr
    rw [hptr, hlast] at hlast'
    cases hlast'
    refine ⟨r, hr, ?_, ?_⟩
    · rw [hptr]
      exact h.aligned b hb
    · rw [← hregion]
      exact hsize

end LogInv

/-- A request that some free node fits is served from the list. -/
theorem alloc_ne_null_of_fits {s : State} {owned : List Region} (h : HeapInv s owned free)
    (hfits : ∃ r ∈ free, RegionFits layout r) :
    ∃ p s', s.alloc profile layout = some (p, s') ∧ p ≠ 0 := by
  obtain ⟨r, hr, hfit⟩ := hfits
  obtain ⟨⟨prev, curr⟩, hwalk, -, hresult⟩ := walk_spec h layout
  rw [State.alloc, hwalk, Option.bind_eq_bind, Option.bind_some]
  cases hresult with
  | found l₁ q l₂ prev hfree hskip hq hlink =>
    have hmem : q ∈ owned ++ free := by
      rw [hfree]
      exact List.mem_append_right _ (List.mem_append_right _ List.mem_cons_self)
    have hne : q.start ≠ 0 := (h.mem_inside hmem).1.ne'
    simp only [hne, if_false]
    exact ⟨_, _, rfl, hne⟩
  | exhausted prev hskip => exact absurd hfit (hskip r hr)

theorem exists_logInv_step {call : Call} (h : ∃ free, LogInv heapStart heapEnd s free)
    (hok : Unwrapped s call) (hs : stepLogged profile s call = some t) :
    ∃ free, LogInv heapStart heapEnd t free := by
  obtain ⟨free, hinv⟩ := h
  exact hinv.step hok hs

/-- Alignments that fit above the heap compute no sum above 2^64. -/
theorem unwrapped_of_alignFits {memory : Memory} (hpos : 0 < heapStart) (hle : heapStart ≤ heapEnd)
    (hlt : heapEnd < 2 ^ 64)
    (h : Reach (stepLogged profile) (fun s => AlignFits heapEnd s.sys)
      (Logged.new heapStart heapEnd memory) s) :
    Reach (stepLogged profile) Unwrapped (Logged.new heapStart heapEnd memory) s := by
  refine h.weaken (I := fun s => ∃ free, LogInv heapStart heapEnd s free)
    ⟨[], LogInv.new memory hpos hle hlt⟩ (fun _ _ _ => exists_logInv_step) ?_
  intro s call hi hok layout hcall
  obtain ⟨free, hinv⟩ := hi
  exact hinv.run.noWrap (hok layout hcall)

/-- Once everything is freed, a request can be served again if the block it once
got was last handed out for a request at least as large. -/
theorem reallocatable (profile : Profile) {heapStart heapEnd : ℕ} (memory : Memory)
    (hpos : 0 < heapStart) (hle : heapStart ≤ heapEnd) (hlt : heapEnd < 2 ^ 64) {s : Logged}
    (h : Reach (stepLogged profile) Unwrapped (Logged.new heapStart heapEnd memory) s)
    (hfreed : s.sys.live = []) {b last : Block} (hb : b ∈ s.granted)
    (hlast : lastGrant s.granted b.ptr = some last)
    (hsize : blockSize b.layout ≤ blockSize last.layout) :
    ∃ p s', s.sys.state.alloc profile b.layout = some (p, s') ∧ p ≠ 0 := by
  obtain ⟨free, hinv⟩ := Reach.invariant (I := fun s => ∃ free, LogInv heapStart heapEnd s free)
    ⟨[], LogInv.new memory hpos hle hlt⟩ (fun _ _ _ => exists_logInv_step) h
  exact alloc_ne_null_of_fits hinv.run.heap (hinv.fits hfreed hb hlast hsize)

theorem reallocatable_two_blocks :
    let large := Layout.align8 64 (by decide)
    let small := Layout.align8 24 (by decide)
    let calls : List Call :=
      [.alloc large, .alloc small, .dealloc ⟨4096, large⟩, .dealloc ⟨4160, small⟩]
    ∃ s, run (stepLogged .release) (Logged.new 4096 4192 fun _ => 0) calls = some s ∧
      ∃ p s', s.sys.state.alloc .release large = some (p, s') ∧ p ≠ 0 := by
  intro large small calls
  have hend : (run (stepLogged .release) (Logged.new 4096 4192 fun _ => 0) calls).map
      (fun s => (s.sys.live, s.granted)) = some ([], [⟨4160, small⟩, ⟨4096, large⟩]) := by
    decide +kernel
  obtain ⟨s, hrun, hs⟩ := Option.map_eq_some_iff.mp hend
  obtain ⟨hfreed, hgranted⟩ := Prod.mk.inj hs
  have hok : ∀ call ∈ calls, ∀ s : Logged, AlignFits 4192 s.sys call := by
    intro call hcall s layout hlayout
    simp only [calls, List.mem_cons, List.not_mem_nil, or_false] at hcall
    rcases hcall with rfl | rfl | rfl | rfl <;> cases hlayout <;> decide
  have hreach := unwrapped_of_alignFits (by decide) (by decide) (by decide)
    (Reach.init.run_of_forall hok hrun)
  have hlarge : (⟨4096, large⟩ : Block) ∈ s.granted := by
    rw [hgranted]
    decide
  have hlast : lastGrant s.granted 4096 = some ⟨4096, large⟩ := by
    rw [hgranted]
    decide
  exact ⟨s, hrun, reallocatable .release _ (by decide) (by decide) (by decide) hreach hfreed
    hlarge hlast (Nat.le_refl _)⟩

/-- One block of 64 bytes fills the heap. Reused and freed for 24 bytes, it is
too small for the request that it served before. -/
theorem capacity_lost :
    let large := Layout.align8 64 (by decide)
    let small := Layout.align8 24 (by decide)
    let calls : List Call :=
      [.alloc large, .dealloc ⟨4096, large⟩, .alloc small, .dealloc ⟨4096, small⟩]
    ∃ s, run (stepLogged .debug) (Logged.new 4096 4160 fun _ => 0) calls = some s ∧
      s.sys.live = [] ∧ ⟨4096, large⟩ ∈ s.granted ∧
      (s.sys.state.alloc .debug large).map Prod.fst = some 0 := by
  intro large small calls
  have hend : (run (stepLogged .debug) (Logged.new 4096 4160 fun _ => 0) calls).map
      (fun s => (s.sys.live, s.granted, (s.sys.state.alloc .debug large).map Prod.fst)) =
      some ([], [⟨4096, small⟩, ⟨4096, large⟩], some 0) := by decide +kernel
  obtain ⟨s, hrun, hs⟩ := Option.map_eq_some_iff.mp hend
  simp only [Prod.mk.injEq] at hs
  obtain ⟨hlive, hgranted, hnull⟩ := hs
  refine ⟨s, hrun, hlive, ?_, hnull⟩
  rw [hgranted]
  decide

end OsCamp.FreeListReclaim
