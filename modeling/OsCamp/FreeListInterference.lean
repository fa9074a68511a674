import OsCamp.FreeListThreads

/-!
What a thread inside a call relies on: in the list loop on the link through
which it found its node, in `dealloc` on the head that it read. A write of
another thread that takes nothing of this away keeps the thread's view of the
list true.
-/

set_option autoImplicit false

namespace OsCamp.FreeListInterference

open ByteMemory CoreAlloc FreeListAllocator LinkedChain Packing FreeListHeap FreeListRuns
  FreeListThreads

/-- The link that the next access writes; 0 is the list head. -/
def rewrites : Pc → Option ℕ
  | .unlink _ prev _ _ => some prev
  | .freeSet _ => some 0
  | _ => none

/-- The node that the next access takes off the list. -/
def removes : Pc → Option ℕ
  | .unlink _ _ curr _ => some curr
  | _ => none

/-- The links whose last read value the thread still uses; a node that is too small
is passed without a use of the link to it. -/
def readLinks (heap : State) : Pc → List ℕ
  | .readSize layout prev curr => if blockSize layout ≤ heap.size curr then [prev] else []
  | .takeNext _ prev _ => [prev]
  | .unlink _ prev curr _ => [prev, curr]
  | .freeSize _ _ => [0]
  | .freeNext _ _ => [0]
  | .freeSet _ => [0]
  | _ => []

/-- The nodes that the thread expects to stay on the list. -/
def standsOn (heap : State) : Pc → List ℕ
  | .readSize layout prev curr => if blockSize layout ≤ heap.size curr then [prev] else [curr]
  | .readNext _ curr => [curr]
  | .takeNext _ prev _ => [prev]
  | .unlink _ prev _ _ => [prev]
  | _ => []

/-- The next access of the first thread takes away what the second relies on. -/
def Disturbs (heap : State) (pc pc' : Pc) : Prop :=
  (∃ x ∈ readLinks heap pc', rewrites pc = some x) ∨ ∃ x ∈ standsOn heap pc', removes pc = some x

instance (heap : State) (pc pc' : Pc) : Decidable (Disturbs heap pc pc') :=
  inferInstanceAs (Decidable ((∃ x ∈ readLinks heap pc', rewrites pc = some x) ∨
    ∃ x ∈ standsOn heap pc', removes pc = some x))

/-- The alignment that the next access adds to the bump pointer. -/
def addedAlign (heap : State) : Pc → Option ℕ
  | .bumpLoad layout => some (blockAlign layout)
  | .exchange layout seen _ _ =>
    if heap.bumpNext = seen then none else some (blockAlign layout)
  | _ => none

/-- The link leads to the node, and both are on the list. -/
def Stands (heap : State) (free : List Region) (prev curr : ℕ) : Prop :=
  prev ∈ 0 :: free.map Region.start ∧ link heap prev = curr ∧ curr ∈ free.map Region.start

/-- What a thread's local variables say about the heap. -/
def PcInv (heap : State) (free : List Region) : Pc → Prop
  | .idle => True
  | .allocHead _ => True
  | .readSize layout prev curr => curr ∈ free.map Region.start ∧
    (blockSize layout ≤ heap.size curr → Stands heap free prev curr)
  | .readNext _ curr => curr ∈ free.map Region.start
  | .takeNext layout prev curr => Stands heap free prev curr ∧ blockSize layout ≤ heap.size curr
  | .unlink layout prev curr next =>
    Stands heap free prev curr ∧ blockSize layout ≤ heap.size curr ∧ link heap curr = next
  | .bumpLoad _ => True
  | .exchange layout seen allocStart allocEnd =>
    seen ≤ allocStart ∧ allocStart + blockSize layout = allocEnd ∧ allocEnd ≤ heap.heapEnd
  | .freeHead _ => True
  | .freeSize _ head => heap.freeList = head
  | .freeNext block head => heap.freeList = head ∧ heap.size block.ptr = blockSize block.layout
  | .freeSet block =>
    heap.size block.ptr = blockSize block.layout ∧ heap.next block.ptr = heap.freeList

variable {heap heap' : State} {owned free l₁ l₂ : List Region} {layout : Layout} {pc : Pc}
  {prev : ℕ} {r : Region}

/-- The loop goes on at the end of the list or at a node of it. -/
theorem visit_inv (h : Represents heap free) (hprev : prev ∈ 0 :: free.map Region.start) :
    PcInv heap free (visit layout prev (link heap prev)) := by
  unfold visit
  split_ifs with hzero halign
  · trivial
  · rcases h.linked.link_mem hprev with hmem | hend
    · exact ⟨hmem, fun _ => ⟨hprev, rfl, hmem⟩⟩
    · exact absurd hend hzero
  · rcases h.linked.link_mem hprev with hmem | hend
    · exact hmem
    · exact absurd hend hzero

/-- Changes outside the headers of free nodes and of the thread's own block. -/
theorem PcInv.frame (h : PcInv heap free pc) (hhead : heap'.freeList = heap.freeList)
    (hend : heap'.heapEnd = heap.heapEnd)
    (hfree : ∀ r ∈ free, SameOn heap.memory heap'.memory r.start headerSize)
    (hblock : ∀ b, pc.block = some b → SameOn heap.memory heap'.memory b.ptr headerSize) :
    PcInv heap' free pc := by
  have hsize : ∀ x ∈ free.map Region.start, heap'.size x = heap.size x := by
    intro x hx
    obtain ⟨r, hr, hrx⟩ := List.mem_map.mp hx
    exact hrx ▸ size_congr (hfree r hr)
  have hstands : ∀ {prev curr}, Stands heap free prev curr → Stands heap' free prev curr := by
    intro prev curr hs
    exact ⟨hs.1, (link_congr hhead hfree hs.1).trans hs.2.1, hs.2.2⟩
  cases pc with
  | idle => trivial
  | allocHead layout => trivial
  | readSize layout prev curr =>
    refine ⟨h.1, ?_⟩
    rw [hsize curr h.1]
    exact fun hfit => hstands (h.2 hfit)
  | readNext layout curr => exact h
  | takeNext layout prev curr =>
    refine ⟨hstands h.1, ?_⟩
    rw [hsize curr h.1.2.2]
    exact h.2
  | unlink layout prev curr next =>
    obtain ⟨hs, hfit, hn⟩ := h
    refine ⟨hstands hs, ?_, ?_⟩
    · rw [hsize curr hs.2.2]
      exact hfit
    · exact (link_congr hhead hfree (List.mem_cons_of_mem _ hs.2.2)).trans hn
  | bumpLoad layout => trivial
  | exchange layout seen allocStart allocEnd => exact ⟨h.1, h.2.1, hend ▸ h.2.2⟩
  | freeHead block => trivial
  | freeSize block head => exact hhead.trans h
  | freeNext block head => exact ⟨hhead.trans h.1, (size_congr (hblock block rfl)).trans h.2⟩
  | freeSet block =>
    refine ⟨(size_congr (hblock block rfl)).trans h.1, ?_⟩
    rw [next_congr (hblock block rfl), h.2, hhead]

theorem mem_removed_or_eq {x : ℕ} (hx : x ∈ (l₁ ++ r :: l₂).map Region.start) :
    x ∈ (l₁ ++ l₂).map Region.start ∨ x = r.start := by
  simp only [List.map_append, List.map_cons, List.mem_append, List.mem_cons] at hx ⊢
  rcases hx with h₁ | heq | h₂
  · exact Or.inl (Or.inl h₁)
  · exact Or.inr heq
  · exact Or.inl (Or.inr h₂)

/-- The removal of another node, found through another link. -/
theorem Stands.unlink {p c v : ℕ} (h : Stands heap (l₁ ++ r :: l₂) p c)
    (hheap : HeapInv heap owned (l₁ ++ r :: l₂))
    (hprev : prev ∈ 0 :: (l₁ ++ r :: l₂).map Region.start) (hlink : link heap prev = r.start)
    (hne : p ≠ prev) (hner : p ≠ r.start) :
    Stands (heap.writeLink prev v) (l₁ ++ l₂) p c := by
  obtain ⟨hp, hpc, hc⟩ := h
  have hrep := hheap.represents
  have hcr : c ≠ r.start := by
    intro heq
    refine hne (hrep.linked.link_inj hrep.nonnull hp hprev ?_ (hpc ▸ hc))
    rw [hpc, hlink, heq]
  refine ⟨?_, ?_, (mem_removed_or_eq hc).resolve_right hcr⟩
  · rcases List.mem_cons.mp hp with hzero | hmem
    · exact hzero ▸ List.mem_cons_self
    · exact List.mem_cons_of_mem _ ((mem_removed_or_eq hmem).resolve_right hner)
  · exact (link_writeLink_of_ne hheap.headersApart hprev hp hne).trans hpc

/-- Unlinking writes into no header of a client's block. -/
theorem sameOn_writeLink_owned (h : HeapInv heap owned free) {v : ℕ}
    (hprev : prev ∈ 0 :: free.map Region.start) (hr : r ∈ owned) :
    SameOn heap.memory (heap.writeLink prev v).memory r.start headerSize := by
  refine sameOn_writeLink ?_
  intro hne
  obtain ⟨q, hq, hqp⟩ := List.mem_map.mp ((List.mem_cons.mp hprev).resolve_left hne)
  have hd := h.owned_disjoint_free hr hq
  have hsr := h.header r (List.mem_append_left _ hr)
  have hsq := h.header q (List.mem_append_right _ hq)
  unfold Region.Disjoint Region.stop at hd
  omega

/-- Another thread's removal of a node that this one does not rely on. -/
theorem PcInv.unlink {next v : ℕ} (h : PcInv heap (l₁ ++ r :: l₂) pc)
    (hheap : HeapInv heap owned (l₁ ++ r :: l₂))
    (hprev : prev ∈ 0 :: (l₁ ++ r :: l₂).map Region.start) (hlink : link heap prev = r.start)
    (hquiet : ¬ Disturbs heap (.unlink layout prev r.start next) pc)
    (hblock : ∀ b, pc.block = some b → b.region ∈ owned) :
    PcInv (heap.writeLink prev v) (l₁ ++ l₂) pc := by
  have hapart := hheap.headersApart
  have hlinks : ∀ x ∈ readLinks heap pc, x ≠ prev := by
    intro x hx heq
    exact hquiet (Or.inl ⟨x, hx, by rw [heq]; rfl⟩)
  have hnodes : ∀ x ∈ standsOn heap pc, x ≠ r.start := by
    intro x hx heq
    exact hquiet (Or.inr ⟨x, hx, by rw [heq]; rfl⟩)
  have hsize : ∀ x ∈ (l₁ ++ r :: l₂).map Region.start,
      (heap.writeLink prev v).size x = heap.size x := by
    intro x hx
    obtain ⟨q, hq, hqx⟩ := List.mem_map.mp hx
    exact hqx ▸ size_writeLink hapart hprev hq
  have hheader : ∀ b, pc.block = some b →
      SameOn heap.memory (heap.writeLink prev v).memory b.ptr headerSize :=
    fun b hb => sameOn_writeLink_owned hheap hprev (hblock b hb)
  cases pc with
  | idle => trivial
  | allocHead layout => trivial
  | readSize layout p c =>
    rw [PcInv, hsize c h.1]
    by_cases hfit : blockSize layout ≤ heap.size c
    · have hs : Stands (heap.writeLink prev v) (l₁ ++ l₂) p c :=
        (h.2 hfit).unlink hheap hprev hlink (hlinks p (by simp [readLinks, hfit]))
          (hnodes p (by simp [standsOn, hfit]))
      exact ⟨hs.2.2, fun _ => hs⟩
    · have hne := hnodes c (by simp [standsOn, hfit])
      exact ⟨(mem_removed_or_eq h.1).resolve_right hne, fun hfits => absurd hfits hfit⟩
  | readNext layout c => exact (mem_removed_or_eq h).resolve_right (hnodes c (by simp [standsOn]))
  | takeNext layout p c =>
    obtain ⟨hs, hfit⟩ := h
    refine ⟨hs.unlink hheap hprev hlink (hlinks p (by simp [readLinks]))
      (hnodes p (by simp [standsOn])), ?_⟩
    rw [hsize c hs.2.2]
    exact hfit
  | unlink layout p c n =>
    obtain ⟨hs, hfit, hn⟩ := h
    refine ⟨hs.unlink hheap hprev hlink (hlinks p (by simp [readLinks]))
      (hnodes p (by simp [standsOn])), ?_, ?_⟩
    · rw [hsize c hs.2.2]
      exact hfit
    · have hne := hlinks c (by simp [readLinks])
      exact (link_writeLink_of_ne hapart hprev (List.mem_cons_of_mem _ hs.2.2) hne).trans hn
  | bumpLoad layout => trivial
  | exchange layout seen allocStart allocEnd =>
    refine ⟨h.1, h.2.1, ?_⟩
    rw [writeLink_heapEnd]
    exact h.2.2
  | freeHead block => trivial
  | freeSize block head =>
    have hne := (hlinks 0 (by simp [readLinks])).symm
    exact (freeList_writeLink hne).trans h
  | freeNext block head =>
    have hne := (hlinks 0 (by simp [readLinks])).symm
    exact ⟨(freeList_writeLink hne).trans h.1, (size_congr (hheader block rfl)).trans h.2⟩
  | freeSet block =>
    have hne := (hlinks 0 (by simp [readLinks])).symm
    refine ⟨(size_congr (hheader block rfl)).trans h.1, ?_⟩
    rw [next_congr (hheader block rfl), freeList_writeLink hne]
    exact h.2

/-- A push changes no link but the head. -/
theorem Stands.push {p c : ℕ} (h : Stands heap free p c) (hne : p ≠ 0) :
    Stands (heap.setFreeListHead r.start) (r :: free) p c := by
  obtain ⟨hp, hpc, hc⟩ := h
  have hmem := (List.mem_cons.mp hp).resolve_left hne
  refine ⟨?_, (link_setFreeListHead hne).trans hpc, List.mem_cons_of_mem _ hc⟩
  exact List.mem_cons_of_mem _ (List.mem_cons_of_mem _ hmem)

/-- Another thread's push, while this one relies on no value of the head. -/
theorem PcInv.push {block : Block} (h : PcInv heap free pc)
    (hquiet : ¬ Disturbs heap (.freeSet block) pc) :
    PcInv (heap.setFreeListHead r.start) (r :: free) pc := by
  have hlinks : ∀ x ∈ readLinks heap pc, x ≠ 0 := by
    intro x hx heq
    exact hquiet (Or.inl ⟨x, hx, by rw [heq]; rfl⟩)
  cases pc with
  | idle => trivial
  | allocHead layout => trivial
  | readSize layout p c =>
    refine ⟨List.mem_cons_of_mem _ h.1, ?_⟩
    intro hfit
    rw [size_setFreeListHead] at hfit
    exact (h.2 hfit).push (hlinks p (by simp [readLinks, hfit]))
  | readNext layout c => exact List.mem_cons_of_mem _ h
  | takeNext layout p c => exact ⟨h.1.push (hlinks p (by simp [readLinks])), h.2⟩
  | unlink layout p c n =>
    obtain ⟨hs, hfit, hn⟩ := h
    have hne : c ≠ 0 := hlinks c (by simp [readLinks])
    exact ⟨hs.push (hlinks p (by simp [readLinks])), hfit, (link_setFreeListHead hne).trans hn⟩
  | bumpLoad layout => trivial
  | exchange layout seen allocStart allocEnd => exact h
  | freeHead block => trivial
  | freeSize block head => exact absurd rfl (hlinks 0 (by simp [readLinks]))
  | freeNext block head => exact absurd rfl (hlinks 0 (by simp [readLinks]))
  | freeSet block => exact absurd rfl (hlinks 0 (by simp [readLinks]))

end OsCamp.FreeListInterference
