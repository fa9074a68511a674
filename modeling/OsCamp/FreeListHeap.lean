import OsCamp.FreeListAllocator
import OsCamp.LinkedChain
import OsCamp.Packing

/-!
The heap as lists of regions: the free list read from memory, and the regions
owned by clients. Free and owned regions are packed below the bump pointer, so
a write inside an owned region leaves every header alone. Each operation of the
allocator moves a region between the two lists.
-/

set_option autoImplicit false

namespace OsCamp.FreeListHeap

open ByteMemory CoreAlloc FreeListAllocator LinkedChain Packing

/-- The pointer stored after `prev`: the list head where `prev` is null. -/
def link (s : State) (prev : ℕ) : ℕ := if prev = 0 then s.freeList else s.next prev

/-- The nodes of the free list in memory are the listed regions. -/
structure Represents (s : State) (free : List Region) : Prop where
  linked : Linked (link s) 0 (free.map Region.start) 0
  nonnull : 0 ∉ free.map Region.start
  sizes : ∀ r ∈ free, s.size r.start = r.size

def HeadersApart (free : List Region) : Prop :=
  ∀ a ∈ free, ∀ b ∈ free, a.start ≠ b.start →
    a.start + headerSize ≤ b.start ∨ b.start + headerSize ≤ a.start

/-- The block suits the request. -/
def RegionFits (layout : Layout) (r : Region) : Prop :=
  r.start % blockAlign layout = 0 ∧ blockSize layout ≤ r.size

structure HeapInv (s : State) (owned free : List Region) : Prop where
  represents : Represents s free
  packed : Packed s.heapStart s.bumpNext (owned ++ free)
  header : ∀ r ∈ owned ++ free, headerSize ≤ r.size
  start_pos : 0 < s.heapStart
  start_le : s.heapStart ≤ s.bumpNext
  next_le : s.bumpNext ≤ s.heapEnd
  end_lt : s.heapEnd < 2 ^ 64

variable {s s' : State} {owned owned' free l₁ l₂ : List Region} {r : Region} {prev n v x : ℕ}

theorem link_zero (s : State) : link s 0 = s.freeList := if_pos rfl

theorem link_of_ne (hx : x ≠ 0) : link s x = s.next x := if_neg hx

theorem next_congr (h : SameOn s.memory s'.memory x headerSize) : s'.next x = s.next x :=
  load_congr (h.mono (by omega) (by unfold headerSize; omega))

theorem size_congr (h : SameOn s.memory s'.memory x headerSize) : s'.size x = s.size x :=
  load_congr (h.mono (by omega) (by unfold headerSize; omega))

theorem next_writeNext (hv : v < 2 ^ 64) : (s.writeNext x v).next x = v :=
  load_store s.memory (x + 8) hv

theorem size_writeSize (hv : v < 2 ^ 64) : (s.writeSize x v).size x = v :=
  load_store s.memory x hv

theorem size_writeNext (s : State) (x v : ℕ) : (s.writeNext x v).size x = s.size x :=
  load_store_of_disjoint (by omega)

theorem size_setFreeListHead (s : State) (v x : ℕ) : (s.setFreeListHead v).size x = s.size x := rfl

/-- The two header fields lie inside the region of their node. -/
theorem writeSize_outside (hsize : headerSize ≤ r.size) (hx : x < r.start ∨ r.stop ≤ x) :
    (s.writeSize r.start v).memory x = s.memory x := by
  unfold Region.stop headerSize at *
  exact if_neg (by omega)

theorem writeNext_outside (hsize : headerSize ≤ r.size) (hx : x < r.start ∨ r.stop ≤ x) :
    (s.writeNext r.start v).memory x = s.memory x := by
  unfold Region.stop headerSize at *
  exact if_neg (by omega)

theorem next_lt (s : State) (x : ℕ) : s.next x < 2 ^ 64 := load_lt s.memory (x + 8) 8

theorem link_congr (hhead : s'.freeList = s.freeList)
    (hmem : ∀ r ∈ free, SameOn s.memory s'.memory r.start headerSize)
    (hx : x ∈ 0 :: free.map Region.start) : link s' x = link s x := by
  by_cases hzero : x = 0
  · rw [hzero, link_zero, link_zero, hhead]
  · obtain ⟨r, hr, hrx⟩ := List.mem_map.mp ((List.mem_cons.mp hx).resolve_left hzero)
    rw [link_of_ne hzero, link_of_ne hzero, ← hrx]
    exact next_congr (hmem r hr)

theorem Represents.congr (h : Represents s free) (hhead : s'.freeList = s.freeList)
    (hmem : ∀ r ∈ free, SameOn s.memory s'.memory r.start headerSize) : Represents s' free := by
  refine { linked := h.linked.congr ?_, nonnull := h.nonnull, sizes := ?_ }
  · intro x hx
    exact link_congr hhead hmem hx
  · intro r hr
    rw [size_congr (hmem r hr)]
    exact h.sizes r hr

/-- A change of the head alone leaves every node's link in place. -/
theorem link_setFreeListHead (hx : x ≠ 0) : link (s.setFreeListHead v) x = link s x := by
  rw [link_of_ne hx, link_of_ne hx]
  rfl

/-- Writing one link touches no header apart from the node that holds it. -/
theorem sameOn_writeLink (hdisj : prev ≠ 0 → x + headerSize ≤ prev ∨ prev + headerSize ≤ x) :
    SameOn s.memory (s.writeLink prev v).memory x headerSize := by
  unfold State.writeLink
  split_ifs with hzero
  · exact fun _ _ _ => rfl
  · have hd := hdisj hzero
    unfold headerSize at *
    exact sameOn_store (by omega)

theorem link_writeLink_self (hv : v < 2 ^ 64) : link (s.writeLink prev v) prev = v := by
  by_cases hzero : prev = 0
  · rw [hzero, link_zero]
    rfl
  · rw [link_of_ne hzero, State.writeLink, if_neg hzero]
    exact next_writeNext hv

theorem freeList_writeLink (hprev : prev ≠ 0) :
    (s.writeLink prev v).freeList = s.freeList := by
  rw [State.writeLink, if_neg hprev]
  rfl

theorem sameOn_writeLink_node (hapart : HeadersApart free)
    (hprev : prev ∈ 0 :: free.map Region.start) (hr : r ∈ free) (hne : r.start ≠ prev) :
    SameOn s.memory (s.writeLink prev v).memory r.start headerSize := by
  refine sameOn_writeLink ?_
  intro hzero
  obtain ⟨q, hq, hqp⟩ := List.mem_map.mp ((List.mem_cons.mp hprev).resolve_left hzero)
  rw [← hqp] at hne ⊢
  exact hapart r hr q hq hne

/-- Writing one link changes no other link of the list. -/
theorem link_writeLink_of_ne (hapart : HeadersApart free)
    (hprev : prev ∈ 0 :: free.map Region.start) (hx : x ∈ 0 :: free.map Region.start)
    (hne : x ≠ prev) : link (s.writeLink prev v) x = link s x := by
  by_cases hzero : x = 0
  · rw [hzero, link_zero, link_zero]
    exact freeList_writeLink fun hp => hne (hzero.trans hp.symm)
  · obtain ⟨r, hr, hrx⟩ := List.mem_map.mp ((List.mem_cons.mp hx).resolve_left hzero)
    rw [link_of_ne hzero, link_of_ne hzero, ← hrx]
    exact next_congr (sameOn_writeLink_node hapart hprev hr (hrx ▸ hne))

/-- Writing one link changes no recorded size. -/
theorem size_writeLink (hapart : HeadersApart free)
    (hprev : prev ∈ 0 :: free.map Region.start) (hr : r ∈ free) :
    (s.writeLink prev v).size r.start = s.size r.start := by
  by_cases hne : r.start = prev
  · rw [hne, State.writeLink]
    split_ifs
    · exact size_setFreeListHead s v prev
    · exact size_writeNext s prev v
  · exact size_congr (sameOn_writeLink_node hapart hprev hr hne)

theorem mem_of_mem_removed {l₁ l₂ : List Region} (hx : r ∈ l₁ ++ l₂) (q : Region) :
    r ∈ l₁ ++ q :: l₂ := by
  rcases List.mem_append.mp hx with h₁ | h₂
  · exact List.mem_append_left _ h₁
  · exact List.mem_append_right _ (List.mem_cons_of_mem _ h₂)

/-- Bypassing a node removes exactly it from the list. -/
theorem Represents.unlink (h : Represents s (l₁ ++ r :: l₂)) (hapart : HeadersApart (l₁ ++ r :: l₂))
    (hprev : prev ∈ 0 :: (l₁ ++ r :: l₂).map Region.start) (hlink : link s prev = r.start) :
    Represents (s.writeLink prev (s.next r.start)) (l₁ ++ l₂) := by
  have hrmem : r.start ∈ (l₁ ++ r :: l₂).map Region.start :=
    List.mem_map_of_mem (List.mem_append_right _ List.mem_cons_self)
  have hrne : r.start ≠ 0 := fun h0 => h.nonnull (h0 ▸ hrmem)
  have hsub : ∀ x ∈ (l₁ ++ l₂).map Region.start, x ∈ (l₁ ++ r :: l₂).map Region.start := by
    intro x hx
    obtain ⟨q, hq, hqx⟩ := List.mem_map.mp hx
    exact List.mem_map.mpr ⟨q, mem_of_mem_removed hq r, hqx⟩
  have hlinked := h.linked
  have hnonnull := h.nonnull
  have hstarts := hprev
  simp only [List.map_append, List.map_cons] at hlinked hnonnull hstarts
  refine { linked := ?_, nonnull := fun hm => h.nonnull (hsub 0 hm), sizes := ?_ }
  · rw [List.map_append]
    refine hlinked.unlink hnonnull hnonnull hstarts hlink ?_ ?_
    · rw [link_writeLink_self (next_lt s _), link_of_ne hrne]
    · intro x hx hne
      rw [← List.map_append] at hx
      refine link_writeLink_of_ne hapart hprev ?_ hne
      rcases List.mem_cons.mp hx with hzero | hmem
      · exact hzero ▸ List.mem_cons_self
      · exact List.mem_cons_of_mem _ (hsub x hmem)
  · intro x hx
    have hmem := mem_of_mem_removed hx r
    rw [size_writeLink hapart hprev hmem]
    exact h.sizes x hmem

/-- A node whose header is written becomes the first of the list. -/
theorem Represents.push (h : Represents s free) (hne : r.start ≠ 0)
    (hsize : s.size r.start = r.size) (hnext : s.next r.start = s.freeList) :
    Represents (s.setFreeListHead r.start) (r :: free) := by
  refine { linked := ?_, nonnull := ?_, sizes := ?_ }
  · refine h.linked.push ?_ ?_ ?_
    · exact link_zero _
    · rw [link_setFreeListHead hne, link_of_ne hne, link_zero, hnext]
    · intro x hx
      refine link_setFreeListHead ?_
      intro h0
      exact h.nonnull (h0 ▸ hx)
  · intro hm
    rcases List.mem_cons.mp hm with h0 | hm
    · exact hne h0.symm
    · exact h.nonnull hm
  · intro x hx
    rcases List.mem_cons.mp hx with heq | hmem
    · rw [heq]
      exact hsize
    · exact h.sizes x hmem

@[simp] theorem writeLink_heapStart : (s.writeLink prev v).heapStart = s.heapStart := by
  unfold State.writeLink
  split <;> rfl

@[simp] theorem writeLink_heapEnd : (s.writeLink prev v).heapEnd = s.heapEnd := by
  unfold State.writeLink
  split <;> rfl

@[simp] theorem writeLink_bumpNext : (s.writeLink prev v).bumpNext = s.bumpNext := by
  unfold State.writeLink
  split <;> rfl

namespace HeapInv

theorem new {heapStart heapEnd : ℕ} (memory : Memory) (hpos : 0 < heapStart)
    (hle : heapStart ≤ heapEnd) (hlt : heapEnd < 2 ^ 64) :
    HeapInv (State.new heapStart heapEnd memory) [] [] where
  represents := { linked := rfl, nonnull := List.not_mem_nil, sizes := by simp }
  packed := Packed.nil
  header := by simp
  start_pos := hpos
  start_le := Nat.le_refl _
  next_le := hle
  end_lt := hlt

theorem perm (h : HeapInv s owned free) (hperm : owned.Perm owned') : HeapInv s owned' free :=
  { h with
    packed := h.packed.perm (hperm.append_right free)
    header := fun r hr => h.header r ((hperm.append_right free).mem_iff.mpr hr) }

theorem owned_disjoint_free (h : HeapInv s owned free) {f : Region} (hr : r ∈ owned)
    (hf : f ∈ free) : r.Disjoint f :=
  (List.pairwise_append.mp h.packed.disjoint).2.2 r hr f hf

theorem mem_inside (h : HeapInv s owned free) (hr : r ∈ owned ++ free) :
    0 < r.start ∧ r.stop < 2 ^ 64 := by
  have hin := h.packed.inside r hr
  have hpos := h.start_pos
  have hnext := h.next_le
  have hend := h.end_lt
  omega

theorem headersApart (h : HeapInv s owned free) : HeadersApart free := by
  intro a ha b hb hne
  have hma : a ∈ owned ++ free := List.mem_append_right _ ha
  have hmb : b ∈ owned ++ free := List.mem_append_right _ hb
  have hd := h.packed.disjoint_of_ne hma hmb fun heq => hne (congrArg Region.start heq)
  have hsa := h.header a hma
  have hsb := h.header b hmb
  unfold Region.Disjoint Region.stop at hd
  omega

theorem header_same (h : HeapInv s owned free) {memory : Memory} {f : Region}
    (hf : f ∈ owned ++ free) (hd : r.Disjoint f)
    (hmem : ∀ x, x < r.start ∨ r.stop ≤ x → memory x = s.memory x) :
    SameOn s.memory memory f.start headerSize := by
  intro x hlo hhi
  have hsize := h.header f hf
  refine hmem x ?_
  unfold Region.Disjoint Region.stop at *
  omega

/-- Writes inside an owned region change no header of the free list. -/
theorem write (h : HeapInv s owned free) (hr : r ∈ owned) {memory : Memory}
    (hmem : ∀ x, x < r.start ∨ r.stop ≤ x → memory x = s.memory x) :
    HeapInv { s with memory := memory } owned free := by
  refine { h with represents := h.represents.congr rfl ?_ }
  intro f hf
  exact h.header_same (List.mem_append_right _ hf) (h.owned_disjoint_free hr hf) hmem

theorem writeSize (h : HeapInv s owned free) (hr : r ∈ owned) (v : ℕ) :
    HeapInv (s.writeSize r.start v) owned free :=
  h.write hr fun _ hx => writeSize_outside (h.header r (List.mem_append_left _ hr)) hx

theorem writeNext (h : HeapInv s owned free) (hr : r ∈ owned) (v : ℕ) :
    HeapInv (s.writeNext r.start v) owned free :=
  h.write hr fun _ hx => writeNext_outside (h.header r (List.mem_append_left _ hr)) hx

/-- The removed node goes to the client, perhaps with fewer bytes than it had. -/
theorem unlink (h : HeapInv s owned (l₁ ++ r :: l₂))
    (hprev : prev ∈ 0 :: (l₁ ++ r :: l₂).map Region.start) (hlink : link s prev = r.start)
    (hheader : headerSize ≤ n) (hn : n ≤ r.size) :
    HeapInv (s.writeLink prev (s.next r.start)) (⟨r.start, n⟩ :: owned) (l₁ ++ l₂) := by
  have hperm : (owned ++ (l₁ ++ r :: l₂)).Perm (r :: (owned ++ (l₁ ++ l₂))) := by
    rw [← List.append_assoc, ← List.append_assoc]
    exact List.perm_middle
  refine { represents := ?_, packed := ?_, header := ?_, start_pos := ?_, start_le := ?_,
           next_le := ?_, end_lt := ?_ }
  · exact h.represents.unlink h.headersApart hprev hlink
  · have hcut : Packed s.heapStart s.bumpNext (⟨r.start, n⟩ :: (owned ++ (l₁ ++ l₂))) :=
      (h.packed.perm hperm).shrink rfl hn
    simpa using hcut
  · intro x hx
    rcases List.mem_cons.mp hx with heq | hmem
    · rw [heq]
      exact hheader
    · exact h.header x (hperm.mem_iff.mpr (List.mem_cons_of_mem _ hmem))
  · simpa using h.start_pos
  · simpa using h.start_le
  · simpa using h.next_le
  · simpa using h.end_lt

/-- An owned region with its header written becomes the first free node. -/
theorem push (h : HeapInv s (r :: owned) free) (hsize : s.size r.start = r.size)
    (hnext : s.next r.start = s.freeList) :
    HeapInv (s.setFreeListHead r.start) owned (r :: free) := by
  have hperm : (r :: owned ++ free).Perm (owned ++ r :: free) := List.perm_middle.symm
  have hne : r.start ≠ 0 := by
    have hin := h.mem_inside List.mem_cons_self
    omega
  exact { h with represents := h.represents.push hne hsize hnext,
                 packed := h.packed.perm hperm,
                 header := fun x hx => h.header x (hperm.mem_iff.mpr hx) }

/-- A block cut off above the bump pointer. -/
theorem bump (h : HeapInv s owned free) {allocStart allocEnd : ℕ}
    (hstart : s.bumpNext ≤ allocStart) (hheader : headerSize ≤ n)
    (hend : allocStart + n = allocEnd) (hle : allocEnd ≤ s.heapEnd) :
    HeapInv { s with bumpNext := allocEnd } (⟨allocStart, n⟩ :: owned) free := by
  have hlo := h.start_le
  refine { h with represents := h.represents.congr rfl ?_,
                  packed := h.packed.cons_above hlo hstart hend, header := ?_,
                  start_le := ?_, next_le := hle }
  · exact fun _ _ _ _ _ => rfl
  · intro x hx
    rcases List.mem_cons.mp hx with heq | hmem
    · rw [heq]
      exact hheader
    · exact h.header x hmem
  · change s.heapStart ≤ allocEnd
    omega

end HeapInv

end OsCamp.FreeListHeap
