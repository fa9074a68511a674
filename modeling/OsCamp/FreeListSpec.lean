import OsCamp.FreeListHeap

/-!
What one call does to the two lists of regions. The walk of `alloc` ends and
finds the first fitting node; `alloc` removes it, or cuts a block off the bump
region, or returns null and changes nothing. `dealloc` puts the block first.
-/

set_option autoImplicit false

namespace OsCamp.FreeListSpec

open ByteMemory CoreAlloc FreeListAllocator LinkedChain Packing FreeListHeap

variable {s s' : State} {owned free l : List Region} {r : Region} {layout : Layout}
  {profile : Profile} {prev curr p : ℕ}

theorem blockAlign_pow (layout : Layout) : ∃ k, blockAlign layout = 2 ^ k := by
  obtain ⟨k, hk⟩ := layout.align_pow
  unfold blockAlign headerAlign
  rcases le_total layout.align 8 with hle | hle
  · exact ⟨3, max_eq_right hle⟩
  · exact ⟨k, (max_eq_left hle).trans hk⟩

theorem blockAlign_pos (layout : Layout) : 0 < blockAlign layout :=
  Nat.lt_of_lt_of_le (by decide) (le_max_right layout.align headerAlign)

theorem headerSize_le_blockSize (layout : Layout) : headerSize ≤ blockSize layout :=
  le_max_right _ _

theorem blockSize_lt (layout : Layout) : blockSize layout < 2 ^ 64 := by
  have hsize := layout.size_le
  unfold blockSize headerSize
  omega

/-- The outcome of the list loop over the rest `l` of the list. -/
inductive WalkResult (s : State) (layout : Layout) (l : List Region) : ℕ × ℕ → Prop
  | found (l₁ : List Region) (r : Region) (l₂ : List Region) (prev : ℕ) :
      l = l₁ ++ r :: l₂ → (∀ x ∈ l₁, ¬ RegionFits layout x) → RegionFits layout r →
      link s prev = r.start → WalkResult s layout l (prev, r.start)
  | exhausted (prev : ℕ) : (∀ x ∈ l, ¬ RegionFits layout x) → WalkResult s layout l (prev, 0)

theorem WalkResult.cons (hr : ¬ RegionFits layout r) {out : ℕ × ℕ}
    (h : WalkResult s layout l out) : WalkResult s layout (r :: l) out := by
  have hskip : ∀ l' : List Region, (∀ x ∈ l', ¬ RegionFits layout x) →
      ∀ x ∈ r :: l', ¬ RegionFits layout x := by
    intro l' hl' x hx
    rcases List.mem_cons.mp hx with heq | hmem
    · exact heq ▸ hr
    · exact hl' x hmem
  cases h with
  | found l₁ q l₂ prev hl hskipped hfits hlink =>
    exact .found (r :: l₁) q l₂ prev (by rw [hl]; rfl) (hskip l₁ hskipped) hfits hlink
  | exhausted prev hskipped => exact .exhausted prev (hskip l hskipped)

/-- From any point of the list the loop ends with the first fitting node after it. -/
theorem search_spec (hlinked : Linked (link s) prev (l.map Region.start) 0)
    (hnonnull : 0 ∉ l.map Region.start) (hsizes : ∀ r ∈ l, s.size r.start = r.size)
    (hcurr : link s prev = curr) {fuel : ℕ} (hfuel : l.length < fuel) :
    ∃ out, s.search (blockSize layout) (blockAlign layout) fuel prev curr = some out ∧
      out.1 ∈ prev :: l.map Region.start ∧ WalkResult s layout l out := by
  induction l generalizing prev curr fuel with
  | nil =>
    obtain ⟨fuel, hsucc⟩ : ∃ n, fuel = n + 1 := ⟨fuel - 1, by omega⟩
    have hzero : curr = 0 := hcurr.symm.trans hlinked
    refine ⟨(prev, 0), ?_, List.mem_cons_self, .exhausted prev (fun _ hx => nomatch hx)⟩
    rw [hsucc, State.search, if_pos hzero]
  | cons r l ih =>
    obtain ⟨fuel, hsucc⟩ : ∃ n, fuel = n + 1 := ⟨fuel - 1, by omega⟩
    obtain ⟨hfirst, hrest⟩ := hlinked
    have hr : curr = r.start := hcurr.symm.trans hfirst
    have hne : curr ≠ 0 := fun h0 => hnonnull (by rw [← h0, hr]; exact List.mem_cons_self)
    have hsize : s.size curr = r.size := by
      rw [hr]
      exact hsizes r List.mem_cons_self
    rw [hsucc, State.search, if_neg hne]
    by_cases hfits : s.Fits (blockSize layout) (blockAlign layout) curr
    · rw [if_pos hfits]
      refine ⟨(prev, curr), rfl, List.mem_cons_self, ?_⟩
      rw [hr]
      refine .found [] r l prev rfl (fun _ hx => nomatch hx) ?_ hfirst
      unfold State.Fits at hfits
      rw [hsize, hr] at hfits
      exact hfits
    · rw [if_neg hfits]
      have hskip : ¬ RegionFits layout r := by
        unfold State.Fits at hfits
        rw [hsize, hr] at hfits
        exact hfits
      have hlength : l.length < fuel := by
        simp only [List.length_cons] at hfuel
        omega
      rw [hr] at hne ⊢
      obtain ⟨out, hout, hmem, hwalk⟩ := ih hrest (fun hm => hnonnull (List.mem_cons_of_mem _ hm))
        (fun x hx => hsizes x (List.mem_cons_of_mem _ hx)) (link_of_ne hne) hlength
      exact ⟨out, hout, List.mem_cons_of_mem _ hmem, hwalk.cons hskip⟩

/-- The nodes of a list are as many as its addresses. -/
theorem length_le_of_starts (h : Represents s free) {n : ℕ} (hlt : ∀ r ∈ free, r.start < n) :
    free.length ≤ n := by
  have hnodup := h.linked.nodup h.nonnull
  have hsub : free.map Region.start ⊆ List.range n := by
    intro a ha
    obtain ⟨r, hr, hra⟩ := List.mem_map.mp ha
    exact List.mem_range.mpr (hra ▸ hlt r hr)
  have hlength := (List.subperm_of_subset hnodup hsub).length_le
  rw [List.length_map, List.length_range] at hlength
  exact hlength

/-- The list has fewer nodes than there are addresses. -/
theorem free_length_lt (h : HeapInv s owned free) : free.length < 2 ^ 64 := by
  have hle : free.length ≤ s.heapEnd := by
    apply length_le_of_starts h.represents
    intro r hr
    have hin := h.packed.inside r (List.mem_append_right _ hr)
    have hsize := h.header r (List.mem_append_right _ hr)
    have hnext := h.next_le
    unfold Region.stop headerSize at *
    omega
  have hend := h.end_lt
  omega

theorem walk_spec (h : HeapInv s owned free) (layout : Layout) :
    ∃ out, s.walk layout = some out ∧ out.1 ∈ 0 :: free.map Region.start ∧
      WalkResult s layout free out :=
  search_spec h.represents.linked h.represents.nonnull h.represents.sizes (link_zero s)
    (free_length_lt h)

theorem bumpRange_spec {heapEnd prevNext size align allocStart allocEnd : ℕ}
    (halign : ∃ k, align = 2 ^ k) (hfit : prevNext + align ≤ 2 ^ 64)
    (h : bumpRange profile heapEnd prevNext size align = some (some (allocStart, allocEnd))) :
    allocStart = roundUp prevNext align ∧ allocStart + size = allocEnd ∧ allocEnd ≤ heapEnd := by
  obtain ⟨start, hstart, h⟩ := Option.bind_eq_some_iff.mp h
  have hround := alignUp_eq_roundUp halign hfit hstart
  unfold checkedAdd at h
  split_ifs at h with hlt
  · simp only at h
    split_ifs at h with hle
    · cases h
      exact ⟨hround, rfl, hle⟩
    · cases h
  · cases h

/-- The three outcomes of `alloc`. -/
inductive AllocEffect (s : State) (owned free : List Region) (layout : Layout) : ℕ → State → Prop
  | reuse (l₁ : List Region) (r : Region) (l₂ : List Region) (s' : State) :
      free = l₁ ++ r :: l₂ → (∀ x ∈ l₁, ¬ RegionFits layout x) → RegionFits layout r →
      HeapInv s' (⟨r.start, blockSize layout⟩ :: owned) (l₁ ++ l₂) →
      AllocEffect s owned free layout r.start s'
  | cut (p : ℕ) (s' : State) : (∀ x ∈ free, ¬ RegionFits layout x) →
      p % blockAlign layout = 0 → HeapInv s' (⟨p, blockSize layout⟩ :: owned) free →
      AllocEffect s owned free layout p s'
  | null : (∀ x ∈ free, ¬ RegionFits layout x) → AllocEffect s owned free layout 0 s

/-- The alignment sum of the bump path stays within 2^64 where it is computed. -/
def NoWrap (s : State) (layout : Layout) : Prop :=
  ∀ prev, s.walk layout = some (prev, 0) → s.bumpNext + blockAlign layout ≤ 2 ^ 64

theorem alloc_spec (h : HeapInv s owned free) (hfit : NoWrap s layout)
    (halloc : s.alloc profile layout = some (p, s')) : AllocEffect s owned free layout p s' := by
  obtain ⟨⟨prev, curr⟩, hwalk, hprev, hresult⟩ := walk_spec h layout
  rw [State.alloc, hwalk, Option.bind_eq_bind, Option.bind_some] at halloc
  cases hresult with
  | found l₁ r l₂ prev hfree hskip hfits hlink =>
    have hr : r ∈ owned ++ free := by
      rw [hfree]
      exact List.mem_append_right _ (List.mem_append_right _ List.mem_cons_self)
    have hne : r.start ≠ 0 := (h.mem_inside hr).1.ne'
    simp only [hne, if_false] at halloc
    cases halloc
    rw [hfree] at h hprev
    exact .reuse l₁ r l₂ _ hfree hskip hfits
      (h.unlink hprev hlink (headerSize_le_blockSize layout) hfits.2)
  | exhausted prev hskip =>
    simp only [if_true] at halloc
    obtain ⟨range, hrange, hout⟩ := Option.map_eq_some_iff.mp halloc
    cases range with
    | none =>
      cases hout
      exact .null hskip
    | some range =>
      obtain ⟨allocStart, allocEnd⟩ := range
      cases hout
      obtain ⟨hround, hend, hle⟩ := bumpRange_spec (blockAlign_pow layout) (hfit prev hwalk) hrange
      have hstart := le_roundUp s.bumpNext (blockAlign_pos layout)
      refine .cut p _ hskip (hround ▸ roundUp_mod _ _) ?_
      exact h.bump (hround ▸ hstart) (headerSize_le_blockSize layout) hend hle

theorem freeList_lt (h : HeapInv s owned free) : s.freeList < 2 ^ 64 := by
  rcases h.represents.linked.link_mem List.mem_cons_self with hmem | hzero
  · obtain ⟨r, hr, hstart⟩ := List.mem_map.mp hmem
    have hin := h.mem_inside (List.mem_append_right _ hr)
    rw [link_zero] at hstart
    unfold Region.stop at hin
    omega
  · rw [link_zero] at hzero
    omega

theorem dealloc_spec (h : HeapInv s (⟨p, blockSize layout⟩ :: owned) free) :
    HeapInv (s.dealloc p layout) owned (⟨p, blockSize layout⟩ :: free) := by
  have hne : p ≠ 0 := (h.mem_inside List.mem_cons_self).1.ne'
  have hwritten := (h.writeSize List.mem_cons_self (blockSize layout)).writeNext
    List.mem_cons_self s.freeList
  rw [State.dealloc, if_neg hne]
  refine hwritten.push ?_ ?_
  · rw [size_writeNext]
    exact size_writeSize (blockSize_lt layout)
  · exact next_writeNext (freeList_lt h)

end OsCamp.FreeListSpec
