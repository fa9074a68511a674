import OsCamp.FreeListSpec

/-!
First fit on any well-formed list, whatever its sizes and alignments and wherever
it comes from. `alloc` takes the first node that suits the request out of the list
and leaves the others as they were; without such a node it leaves the list alone.
A block that `dealloc` has put first is the first candidate of the next search.
-/

set_option autoImplicit false

namespace OsCamp.FreeListFirstFit

open ByteMemory CoreAlloc FreeListAllocator FreeListHeap FreeListSpec LinkedChain Packing

variable {profile : Profile} {s s' : State} {owned free l₁ l₂ : List Region} {r : Region}
  {layout layout' : Layout} {p v x : ℕ}

/-- The listed regions are the nodes of the free list, and no two headers overlap. -/
structure WellFormed (s : State) (free : List Region) : Prop where
  represents : Represents s free
  apart : HeadersApart free
  inside : ∀ r ∈ free, r.start + headerSize ≤ 2 ^ 64

instance decidableRegionFits (layout : Layout) (r : Region) : Decidable (RegionFits layout r) :=
  inferInstanceAs (Decidable (r.start % blockAlign layout = 0 ∧ blockSize layout ≤ r.size))

def firstFit (layout : Layout) (free : List Region) : Option Region :=
  free.find? fun r => RegionFits layout r

/-- The list without its first fitting node. -/
def removeFirstFit (layout : Layout) (free : List Region) : List Region :=
  free.eraseP fun r => RegionFits layout r

theorem firstFit_eq (hskip : ∀ x ∈ l₁, ¬ RegionFits layout x) (hfits : RegionFits layout r) :
    firstFit layout (l₁ ++ r :: l₂) = some r := by
  apply List.find?_eq_some_iff_append.mpr
  refine ⟨decide_eq_true hfits, l₁, l₂, rfl, ?_⟩
  intro x hx
  simp [hskip x hx]

theorem firstFit_eq_none (hskip : ∀ x ∈ free, ¬ RegionFits layout x) :
    firstFit layout free = none := by
  apply List.find?_eq_none.mpr
  intro x hx
  simp [hskip x hx]

theorem removeFirstFit_eq (hskip : ∀ x ∈ l₁, ¬ RegionFits layout x)
    (hfits : RegionFits layout r) :
    removeFirstFit layout (l₁ ++ r :: l₂) = l₁ ++ l₂ := by
  have hleft : ∀ x ∈ l₁, ¬ decide (RegionFits layout x) = true := by
    intro x hx
    simp [hskip x hx]
  have hpick : (r :: l₂).eraseP (fun x => decide (RegionFits layout x)) = l₂ :=
    List.eraseP_cons_of_pos (decide_eq_true hfits)
  unfold removeFirstFit
  rw [List.eraseP_append_right _ hleft, hpick]

namespace WellFormed

/-- The list of a state that the allocator reaches is well formed. -/
theorem of_heapInv (h : HeapInv s owned free) : WellFormed s free where
  represents := h.represents
  apart := h.headersApart
  inside := by
    intro r hr
    have hmem : r ∈ owned ++ free := List.mem_append_right _ hr
    have hin := h.mem_inside hmem
    have hsize := h.header r hmem
    unfold Region.stop at hin
    omega

theorem length_lt (h : WellFormed s free) : free.length < 2 ^ 64 := by
  have hle : free.length ≤ 2 ^ 64 - 1 := by
    apply length_le_of_starts h.represents
    intro r hr
    have hin := h.inside r hr
    unfold headerSize at hin
    omega
  omega

theorem freeList_lt (h : WellFormed s free) : s.freeList < 2 ^ 64 := by
  rcases h.represents.linked.link_mem List.mem_cons_self with hmem | hzero
  · obtain ⟨r, hr, hstart⟩ := List.mem_map.mp hmem
    have hin := h.inside r hr
    rw [link_zero] at hstart
    unfold headerSize at hin
    omega
  · rw [link_zero] at hzero
    omega

theorem walk (h : WellFormed s free) (layout : Layout) :
    ∃ out, s.walk layout = some out ∧ out.1 ∈ 0 :: free.map Region.start ∧
      WalkResult s layout free out :=
  search_spec h.represents.linked h.represents.nonnull h.represents.sizes (link_zero s) h.length_lt

/-- A part of the nodes that is a list of its own is well formed. -/
theorem sublist (h : WellFormed s free) {free' : List Region} (hrep : Represents s' free')
    (hsub : ∀ r ∈ free', r ∈ free) : WellFormed s' free' where
  represents := hrep
  apart := fun a ha b hb => h.apart a (hsub a ha) b (hsub b hb)
  inside := fun r hr => h.inside r (hsub r hr)

/-- Writes outside the headers of the nodes leave the list alone. -/
theorem congr (h : WellFormed s free) (hhead : s'.freeList = s.freeList)
    (hmem : ∀ r ∈ free, SameOn s.memory s'.memory r.start headerSize) : WellFormed s' free :=
  h.sublist (h.represents.congr hhead hmem) fun _ hr => hr

end WellFormed

/-- What `alloc` does with the free list. -/
structure TakesFirstFit (profile : Profile) (s : State) (free : List Region) (layout : Layout) :
    Prop where
  found : ∀ r, firstFit layout free = some r → ∃ s', s.alloc profile layout = some (r.start, s') ∧
    WellFormed s' (removeFirstFit layout free) ∧ s'.bumpNext = s.bumpNext
  absent : firstFit layout free = none → s.alloc profile layout = s.bump profile layout ∧
    ∀ p s', s.bump profile layout = some (p, s') →
      WellFormed s' free ∧ s'.freeList = s.freeList ∧ s'.memory = s.memory

theorem takesFirstFit (profile : Profile) (h : WellFormed s free) (layout : Layout) :
    TakesFirstFit profile s free layout := by
  obtain ⟨⟨prev, curr⟩, hwalk, hprev, hresult⟩ := h.walk layout
  have halloc : s.alloc profile layout =
      if curr = 0 then s.bump profile layout
      else some (curr, s.writeLink prev (s.next curr)) := by
    rw [State.alloc, hwalk, Option.bind_eq_bind, Option.bind_some]
    rfl
  cases hresult with
  | found l₁ r l₂ prev hfree hskip hfits hlink =>
    subst hfree
    have hfirst : firstFit layout (l₁ ++ r :: l₂) = some r := firstFit_eq hskip hfits
    have hne : r.start ≠ 0 := by
      intro hzero
      apply h.represents.nonnull
      rw [← hzero]
      exact List.mem_map_of_mem (List.mem_append_right _ List.mem_cons_self)
    rw [if_neg hne] at halloc
    constructor
    · intro r' hr'
      have hsame : r = r' := Option.some.inj (hfirst.symm.trans hr')
      subst r'
      refine ⟨_, halloc, ?_, writeLink_bumpNext⟩
      rw [removeFirstFit_eq hskip hfits]
      exact h.sublist (h.represents.unlink h.apart hprev hlink) fun x hx => mem_of_mem_removed hx r
    · intro hnone
      rw [hfirst] at hnone
      exact absurd hnone (Option.some_ne_none r)
  | exhausted prev hskip =>
    have hfirst : firstFit layout free = none := firstFit_eq_none hskip
    rw [if_pos rfl] at halloc
    constructor
    · intro r hr
      rw [hfirst] at hr
      exact absurd hr.symm (Option.some_ne_none r)
    · intro _
      refine ⟨halloc, ?_⟩
      intro p s' hbump
      obtain ⟨range, -, hout⟩ := Option.map_eq_some_iff.mp hbump
      cases range with
      | none =>
        cases hout
        exact ⟨h, rfl, rfl⟩
      | some range =>
        cases hout
        exact ⟨h.congr rfl fun _ _ _ _ _ => rfl, rfl, rfl⟩

/-- The header that `dealloc` writes at a block is the only memory it changes. -/
theorem dealloc_memory (hne : p ≠ 0) (hx : x < p ∨ p + headerSize ≤ x) :
    (s.dealloc p layout).memory x = s.memory x := by
  have houtside : ∀ t : State, ∀ v, (t.writeSize p v).memory x = t.memory x ∧
      (t.writeNext p v).memory x = t.memory x := by
    intro t v
    unfold headerSize at hx
    exact ⟨if_neg (by omega), if_neg (by omega)⟩
  rw [State.dealloc, if_neg hne]
  show ((s.writeSize p (blockSize layout)).writeNext p s.freeList).memory x = _
  rw [(houtside _ _).2, (houtside _ _).1]

theorem dealloc_header (layout : Layout) (hne : p ≠ 0) (hhead : s.freeList < 2 ^ 64) :
    (s.dealloc p layout).freeList = p ∧ (s.dealloc p layout).size p = blockSize layout ∧
      (s.dealloc p layout).next p = s.freeList := by
  rw [State.dealloc, if_neg hne]
  refine ⟨rfl, ?_, ?_⟩
  · rw [size_setFreeListHead, size_writeNext]
    exact size_writeSize (blockSize_lt layout)
  · exact next_writeNext hhead

def Apart (p : ℕ) (free : List Region) : Prop :=
  ∀ r ∈ free, p + headerSize ≤ r.start ∨ r.start + headerSize ≤ p

theorem sameOn_dealloc (hne : p ≠ 0) (hapart : Apart p free) (hr : r ∈ free) :
    SameOn s.memory (s.dealloc p layout).memory r.start headerSize := by
  intro x hlo hhi
  have hd := hapart r hr
  exact dealloc_memory hne (by omega)

/-- A block that lies beside the nodes becomes the first of the list. -/
theorem WellFormed.dealloc (h : WellFormed s free) (hne : p ≠ 0) (hp : p + headerSize ≤ 2 ^ 64)
    (hapart : Apart p free) (layout : Layout) :
    WellFormed (s.dealloc p layout) (⟨p, blockSize layout⟩ :: free) := by
  obtain ⟨-, hsize, hnext⟩ := dealloc_header layout hne h.freeList_lt
  have hwritten : WellFormed { s with memory := (s.dealloc p layout).memory } free :=
    h.congr rfl fun r hr => sameOn_dealloc hne hapart hr
  have hstate : s.dealloc p layout =
      State.setFreeListHead { s with memory := (s.dealloc p layout).memory } p := by
    rw [State.dealloc, if_neg hne]
    rfl
  refine { represents := ?_, apart := ?_, inside := ?_ }
  · rw [hstate]
    exact hwritten.represents.push (r := ⟨p, blockSize layout⟩) hne hsize hnext
  · intro a ha b hb hab
    rcases List.mem_cons.mp ha with heqa | ha <;> rcases List.mem_cons.mp hb with heqb | hb
    · exact absurd (heqa.trans heqb.symm ▸ rfl) hab
    · rw [heqa]
      exact hapart b hb
    · rw [heqb]
      exact (hapart a ha).symm
    · exact h.apart a ha b hb hab
  · intro a ha
    rcases List.mem_cons.mp ha with heqa | ha
    · rw [heqa]
      exact hp
    · exact h.inside a ha

/-- State `s'` has the free list and the bump pointer of `s`, and differs from it at
most in the header of the block at `p`. -/
structure Restored (s : State) (p : ℕ) (s' : State) : Prop where
  freeList : s'.freeList = s.freeList
  bumpNext : s'.bumpNext = s.bumpNext
  memory : ∀ x, x < p ∨ p + headerSize ≤ x → s'.memory x = s.memory x
  wellFormed : ∀ free, WellFormed s free → Apart p free → WellFormed s' free

/-- In any state a freed block serves the next request that it suits. -/
theorem alloc_dealloc (profile : Profile) (hne : p ≠ 0) (hhead : s.freeList < 2 ^ 64)
    (hsize : blockSize layout' ≤ blockSize layout) (halign : p % blockAlign layout' = 0) :
    ∃ s', (s.dealloc p layout).alloc profile layout' = some (p, s') ∧ Restored s p s' := by
  obtain ⟨hfirst, hfreed, hnext⟩ := dealloc_header layout hne hhead
  have hfits : (s.dealloc p layout).Fits (blockSize layout') (blockAlign layout') p := by
    refine ⟨halign, ?_⟩
    rw [hfreed]
    exact hsize
  have hwalk : (s.dealloc p layout).walk layout' = some (0, p) := by
    obtain ⟨fuel, hfuel⟩ : ∃ n, 2 ^ 64 = n + 1 := ⟨2 ^ 64 - 1, by omega⟩
    rw [State.walk, hfirst, hfuel, State.search, if_neg hne, if_pos hfits]
  have halloc : (s.dealloc p layout).alloc profile layout' =
      some (p, (s.dealloc p layout).setFreeListHead s.freeList) := by
    rw [State.alloc, hwalk, Option.bind_eq_bind, Option.bind_some]
    simp only [if_neg hne]
    rw [hnext]
    rfl
  refine ⟨_, halloc, { freeList := rfl, bumpNext := ?_, memory := ?_, wellFormed := ?_ }⟩
  · rw [State.dealloc, if_neg hne]
    rfl
  · intro x hx
    exact dealloc_memory hne hx
  · intro free h hapart
    exact h.congr rfl fun r hr => sameOn_dealloc hne hapart hr

/-- First fit is exact on every well-formed list, and in every state a freed block
comes back and leaves the list as it was. -/
theorem first_fit_exact (profile : Profile) :
    (∀ s free layout, WellFormed s free → TakesFirstFit profile s free layout) ∧
      ∀ s p layout layout', p ≠ 0 → s.freeList < 2 ^ 64 →
        blockSize layout' ≤ blockSize layout → p % blockAlign layout' = 0 →
        ∃ s', (s.dealloc p layout).alloc profile layout' = some (p, s') ∧ Restored s p s' :=
  ⟨fun _ _ layout h => takesFirstFit profile h layout,
    fun _ _ _ _ hne hhead hsize halign => alloc_dealloc profile hne hhead hsize halign⟩

def threeFreed : State :=
  (((State.new 4096 8192 fun _ => 0).dealloc 4096 (.align8 16 (by omega))).dealloc 4160
    (.align8 64 (by omega))).dealloc 4224 (.align8 32 (by omega))

theorem threeFreed_wellFormed : WellFormed threeFreed [⟨4224, 32⟩, ⟨4160, 64⟩, ⟨4096, 16⟩] := by
  have hnew : WellFormed (State.new 4096 8192 fun _ => 0) [] :=
    WellFormed.of_heapInv (HeapInv.new _ (by omega) (by omega) (by omega))
  have hone := hnew.dealloc (p := 4096) (by omega) (by decide) (fun _ hr => nomatch hr)
    (.align8 16 (by omega))
  have htwo := hone.dealloc (p := 4160) (by omega) (by decide) (by simp [Apart, headerSize])
    (.align8 64 (by omega))
  exact htwo.dealloc (p := 4224) (by omega) (by decide) (by simp [Apart, headerSize])
    (.align8 32 (by omega))

theorem first_fit_exact_three_nodes :
    (∃ s', threeFreed.alloc .release (.align8 64 (by omega)) = some (4160, s') ∧
      WellFormed s' [⟨4224, 32⟩, ⟨4096, 16⟩] ∧ s'.bumpNext = 4096) ∧
    ∃ s', (threeFreed.dealloc 4352 (.align8 40 (by omega))).alloc .release
        (.align8 24 (by omega)) = some (4352, s') ∧ Restored threeFreed 4352 s' := by
  obtain ⟨htakes, hback⟩ := first_fit_exact .release
  constructor
  · exact (htakes threeFreed _ (.align8 64 (by omega)) threeFreed_wellFormed).found
      ⟨4160, 64⟩ (by decide)
  · exact hback threeFreed 4352 _ _ (by omega) (by decide) (by decide) (by decide)

end OsCamp.FreeListFirstFit
