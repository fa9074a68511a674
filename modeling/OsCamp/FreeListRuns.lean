import OsCamp.Execution
import OsCamp.FreeListSpec

/-!
Single-threaded runs of the allocator. Clients hold blocks, give back only
blocks they hold, and may write any byte of a block they hold in between. The
invariant is the packing of live blocks and free nodes below the bump pointer.
-/

set_option autoImplicit false

namespace OsCamp.FreeListRuns

open ByteMemory CoreAlloc Execution FreeListAllocator LinkedChain Packing FreeListHeap FreeListSpec

/-- An allocation that has not been given back. -/
structure Block where
  ptr : ℕ
  layout : Layout
  deriving DecidableEq

def Block.region (b : Block) : Region := ⟨b.ptr, blockSize b.layout⟩

structure System where
  state : State
  live : List Block

def System.new (heapStart heapEnd : ℕ) (memory : Memory) : System :=
  ⟨State.new heapStart heapEnd memory, []⟩

inductive Call
  | alloc (layout : Layout)
  | dealloc (block : Block)
  | write (block : Block) (offset : ℕ) (byte : BitVec 8)

def writeByte (s : State) (a : ℕ) (byte : BitVec 8) : State :=
  { s with memory := fun x => if x = a then byte else s.memory x }

def step (profile : Profile) (sys : System) : Call → Option System
  | .alloc layout => (sys.state.alloc profile layout).map fun out =>
      ⟨out.2, if out.1 = 0 then sys.live else ⟨out.1, layout⟩ :: sys.live⟩
  | .dealloc block =>
    if block ∈ sys.live then
      some ⟨sys.state.dealloc block.ptr block.layout, sys.live.erase block⟩
    else none
  | .write block offset byte =>
    if block ∈ sys.live ∧ offset < blockSize block.layout then
      some ⟨writeByte sys.state (block.ptr + offset) byte, sys.live⟩
    else none

/-- Every requested alignment still fits above the heap. -/
def AlignFits (heapEnd : ℕ) (_ : System) (call : Call) : Prop :=
  ∀ layout, call = .alloc layout → heapEnd + blockAlign layout ≤ 2 ^ 64

/-- Following the list from its head visits exactly the listed nodes. -/
def FreeNodes (s : State) (nodes : List ℕ) : Prop := Linked (link s) 0 nodes 0 ∧ 0 ∉ nodes

/-- The range that a free node covers by its recorded size. -/
def nodeRegion (s : State) (node : ℕ) : Region := ⟨node, s.size node⟩

structure ListSafe (heapStart heapEnd : ℕ) (sys : System) (nodes : List ℕ) : Prop where
  linked : FreeNodes sys.state nodes
  nodup : nodes.Nodup
  inside : ∀ a ∈ nodes, heapStart ≤ a ∧ a + sys.state.size a ≤ sys.state.bumpNext
  below_end : sys.state.bumpNext ≤ heapEnd
  apart : nodes.Pairwise fun a b => (nodeRegion sys.state a).Disjoint (nodeRegion sys.state b)
  apart_live : ∀ a ∈ nodes, ∀ b ∈ sys.live, (nodeRegion sys.state a).Disjoint b.region
  unwritten : ∀ b ∈ sys.live, ∀ offset < blockSize b.layout, ∀ byte,
    FreeNodes (writeByte sys.state (b.ptr + offset) byte) nodes ∧
    ∀ a ∈ nodes, (writeByte sys.state (b.ptr + offset) byte).size a = sys.state.size a

structure HeapSafe (heapStart heapEnd : ℕ) (sys : System) : Prop where
  disjoint : sys.live.Pairwise fun b b' => b.region.Disjoint b'.region
  inside : ∀ b ∈ sys.live, heapStart ≤ b.ptr ∧ b.ptr + blockSize b.layout ≤ heapEnd
  aligned : ∀ b ∈ sys.live, b.ptr % b.layout.align = 0
  list : ∃ nodes, ListSafe heapStart heapEnd sys nodes
  walk_ends : ∀ layout, (sys.state.walk layout).isSome

/-- The invariant with its free list. -/
structure RunInv (heapStart heapEnd : ℕ) (sys : System) (free : List Region) : Prop where
  heap : HeapInv sys.state (sys.live.map Block.region) free
  aligned : ∀ b ∈ sys.live, b.ptr % blockAlign b.layout = 0
  start_eq : sys.state.heapStart = heapStart
  end_eq : sys.state.heapEnd = heapEnd

variable {profile : Profile} {heapStart heapEnd : ℕ} {sys sys' : System} {free : List Region}
  {s s' : State} {layout : Layout} {p : ℕ}

theorem align_dvd_blockAlign (layout : Layout) : layout.align ∣ blockAlign layout := by
  obtain ⟨k, hk⟩ := layout.align_pow
  unfold blockAlign headerAlign
  rcases le_total layout.align 8 with hle | hle
  · have hk3 : 2 ^ k ≤ 2 ^ 3 := hk ▸ hle
    rw [max_eq_right hle, hk]
    exact Nat.pow_dvd_pow 2 ((Nat.pow_le_pow_iff_right (by omega)).mp hk3)
  · rw [max_eq_left hle]

theorem alloc_bounds (h : s.alloc profile layout = some (p, s')) :
    s'.heapStart = s.heapStart ∧ s'.heapEnd = s.heapEnd := by
  obtain ⟨⟨prev, curr⟩, -, h⟩ := Option.bind_eq_some_iff.mp h
  simp only at h
  split_ifs at h
  · obtain ⟨range, -, hout⟩ := Option.map_eq_some_iff.mp h
    cases range <;> cases hout <;> exact ⟨rfl, rfl⟩
  · cases h
    exact ⟨writeLink_heapStart, writeLink_heapEnd⟩

namespace RunInv

theorem new (memory : Memory) (hpos : 0 < heapStart) (hle : heapStart ≤ heapEnd)
    (hlt : heapEnd < 2 ^ 64) :
    RunInv heapStart heapEnd (System.new heapStart heapEnd memory) [] where
  heap := HeapInv.new memory hpos hle hlt
  aligned := fun _ hb => nomatch hb
  start_eq := rfl
  end_eq := rfl

theorem grant (h : RunInv heapStart heapEnd sys free) {free' : List Region}
    (halloc : sys.state.alloc profile layout = some (p, s'))
    (hheap : HeapInv s' (⟨p, blockSize layout⟩ :: sys.live.map Block.region) free')
    (hmod : p % blockAlign layout = 0) :
    RunInv heapStart heapEnd ⟨s', ⟨p, layout⟩ :: sys.live⟩ free' := by
  have hbounds := alloc_bounds halloc
  refine { heap := hheap, aligned := ?_, start_eq := hbounds.1.trans h.start_eq,
           end_eq := hbounds.2.trans h.end_eq }
  intro b hb
  rcases List.mem_cons.mp hb with heq | hmem
  · rw [heq]
    exact hmod
  · exact h.aligned b hmem

theorem alloc (h : RunInv heapStart heapEnd sys free) (hfit : NoWrap sys.state layout)
    (halloc : sys.state.alloc profile layout = some (p, s')) :
    ∃ free', RunInv heapStart heapEnd
      ⟨s', if p = 0 then sys.live else ⟨p, layout⟩ :: sys.live⟩ free' := by
  cases alloc_spec h.heap hfit halloc with
  | reuse l₁ r l₂ s' hfree hskip hfits hheap =>
    rw [if_neg (hheap.mem_inside List.mem_cons_self).1.ne']
    exact ⟨l₁ ++ l₂, h.grant halloc hheap hfits.1⟩
  | cut p s' hskip hmod hheap =>
    rw [if_neg (hheap.mem_inside List.mem_cons_self).1.ne']
    exact ⟨free, h.grant halloc hheap hmod⟩
  | null hskip =>
    rw [if_pos rfl]
    exact ⟨free, h⟩

theorem noWrap (h : RunInv heapStart heapEnd sys free)
    (hfit : heapEnd + blockAlign layout ≤ 2 ^ 64) : NoWrap sys.state layout := by
  have hnext := h.heap.next_le
  have hend := h.end_eq
  intro prev _
  omega

theorem dealloc (h : RunInv heapStart heapEnd sys free) {block : Block}
    (hblock : block ∈ sys.live) :
    RunInv heapStart heapEnd ⟨sys.state.dealloc block.ptr block.layout, sys.live.erase block⟩
      (block.region :: free) := by
  have hperm := (List.perm_cons_erase hblock).map Block.region
  have hheap := h.heap.perm hperm
  have hne : block.ptr ≠ 0 := (hheap.mem_inside List.mem_cons_self).1.ne'
  refine { heap := dealloc_spec hheap, aligned := ?_, start_eq := ?_, end_eq := ?_ }
  · intro b hb
    exact h.aligned b (List.mem_of_mem_erase hb)
  · rw [State.dealloc, if_neg hne]
    exact h.start_eq
  · rw [State.dealloc, if_neg hne]
    exact h.end_eq

theorem write (h : RunInv heapStart heapEnd sys free) {block : Block} (hblock : block ∈ sys.live)
    {offset : ℕ} (hoffset : offset < blockSize block.layout) (byte : BitVec 8) :
    RunInv heapStart heapEnd ⟨writeByte sys.state (block.ptr + offset) byte, sys.live⟩ free := by
  have hmem : block.region ∈ sys.live.map Block.region := List.mem_map_of_mem hblock
  refine { h with heap := h.heap.write hmem ?_ }
  intro x hx
  refine if_neg ?_
  unfold Region.stop Block.region at hx
  simp only at hx
  omega

theorem step (h : RunInv heapStart heapEnd sys free) {call : Call}
    (hok : AlignFits heapEnd sys call) (hs : FreeListRuns.step profile sys call = some sys') :
    ∃ free', RunInv heapStart heapEnd sys' free' := by
  cases call with
  | alloc layout =>
    obtain ⟨⟨p, s'⟩, halloc, hout⟩ := Option.map_eq_some_iff.mp hs
    cases hout
    exact h.alloc (h.noWrap (hok layout rfl)) halloc
  | dealloc block =>
    obtain ⟨hblock, hout⟩ := Option.ite_none_right_eq_some.mp hs
    cases hout
    exact ⟨_, h.dealloc hblock⟩
  | write block offset byte =>
    obtain ⟨hblock, hout⟩ := Option.ite_none_right_eq_some.mp hs
    cases hout
    exact ⟨free, h.write hblock.1 hblock.2 byte⟩

theorem reach {memory : Memory} (hpos : 0 < heapStart) (hle : heapStart ≤ heapEnd)
    (hlt : heapEnd < 2 ^ 64)
    (h : Reach (FreeListRuns.step profile) (AlignFits heapEnd)
      (System.new heapStart heapEnd memory) sys) :
    ∃ free, RunInv heapStart heapEnd sys free := by
  refine Reach.invariant (I := fun sys => ∃ free, RunInv heapStart heapEnd sys free)
    ⟨[], new memory hpos hle hlt⟩ ?_ h
  intro sys call sys' hi hok hs
  obtain ⟨free, hinv⟩ := hi
  exact hinv.step hok hs

theorem listSafe (h : RunInv heapStart heapEnd sys free) :
    ListSafe heapStart heapEnd sys (free.map Region.start) := by
  have hrep := h.heap.represents
  have hpacked := List.pairwise_append.mp h.heap.packed.disjoint
  have hnode : ∀ r ∈ free, nodeRegion sys.state r.start = r := by
    intro r hr
    unfold nodeRegion
    rw [hrep.sizes r hr]
  refine { linked := ⟨hrep.linked, hrep.nonnull⟩, nodup := hrep.linked.nodup hrep.nonnull,
           inside := ?_, below_end := ?_, apart := ?_, apart_live := ?_, unwritten := ?_ }
  · intro a ha
    obtain ⟨r, hr, hra⟩ := List.mem_map.mp ha
    have hin := h.heap.packed.inside r (List.mem_append_right _ hr)
    rw [← hra, hrep.sizes r hr, ← h.start_eq]
    exact hin
  · rw [← h.end_eq]
    exact h.heap.next_le
  · refine List.pairwise_map.mpr (hpacked.2.1.imp_of_mem ?_)
    intro r r' hr hr' hd
    rw [hnode r hr, hnode r' hr']
    exact hd
  · intro a ha b hb
    obtain ⟨r, hr, hra⟩ := List.mem_map.mp ha
    rw [← hra, hnode r hr]
    exact (hpacked.2.2 b.region (List.mem_map_of_mem hb) r hr).symm
  · intro b hb offset hoffset byte
    have hrep' := (h.write hb hoffset byte).heap.represents
    refine ⟨⟨hrep'.linked, hrep'.nonnull⟩, ?_⟩
    intro a ha
    obtain ⟨r, hr, hra⟩ := List.mem_map.mp ha
    rw [← hra, hrep.sizes r hr]
    exact hrep'.sizes r hr

theorem heapSafe (h : RunInv heapStart heapEnd sys free) : HeapSafe heapStart heapEnd sys := by
  have hpacked := h.heap.packed
  refine { disjoint := ?_, inside := ?_, aligned := ?_, list := ⟨_, h.listSafe⟩, walk_ends := ?_ }
  · exact List.pairwise_map.mp (List.pairwise_append.mp hpacked.disjoint).1
  · intro b hb
    have hin := hpacked.inside b.region (List.mem_append_left _ (List.mem_map_of_mem hb))
    have hnext := h.heap.next_le
    rw [h.start_eq] at hin
    rw [h.end_eq] at hnext
    exact ⟨hin.1, Nat.le_trans hin.2 hnext⟩
  · intro b hb
    exact Nat.mod_eq_zero_of_dvd
      ((align_dvd_blockAlign b.layout).trans (Nat.dvd_of_mod_eq_zero (h.aligned b hb)))
  · intro layout
    obtain ⟨out, hout, -⟩ := walk_spec h.heap layout
    rw [hout]
    rfl

end RunInv

/-- In every reachable state live blocks and free nodes are packed below the
bump pointer, client writes do not reach the list, and its walk ends. -/
theorem reachable_heapSafe (profile : Profile) {heapStart heapEnd : ℕ} (memory : Memory)
    (hpos : 0 < heapStart) (hle : heapStart ≤ heapEnd) (hlt : heapEnd < 2 ^ 64) {sys : System}
    (h : Reach (step profile) (AlignFits heapEnd) (System.new heapStart heapEnd memory) sys) :
    HeapSafe heapStart heapEnd sys := by
  obtain ⟨free, hinv⟩ := RunInv.reach hpos hle hlt h
  exact hinv.heapSafe

theorem reachable_heapSafe_reused_block :
    let large := Layout.align8 64 (by decide)
    let small := Layout.align8 24 (by decide)
    let calls : List Call := [.alloc large, .alloc small, .write ⟨4096, large⟩ 8 255,
      .dealloc ⟨4096, large⟩, .alloc small, .dealloc ⟨4160, small⟩]
    ∃ sys, run (step .debug) (System.new 4096 8192 fun _ => 0) calls = some sys ∧
      sys.live = [⟨4096, small⟩] ∧ HeapSafe 4096 8192 sys := by
  intro large small calls
  have hend : (run (step .debug) (System.new 4096 8192 fun _ => 0) calls).map System.live =
      some [⟨4096, small⟩] := by decide +kernel
  obtain ⟨sys, hrun, hlive⟩ := Option.map_eq_some_iff.mp hend
  have hok : ∀ call ∈ calls, ∀ sys, AlignFits 8192 sys call := by
    intro call hcall sys layout hlayout
    simp only [calls, List.mem_cons, List.not_mem_nil, or_false] at hcall
    rcases hcall with rfl | rfl | rfl | rfl | rfl | rfl <;> cases hlayout <;> decide
  exact ⟨sys, hrun, hlive, reachable_heapSafe .debug _ (by decide) (by decide) (by decide)
    (Reach.init.run_of_forall hok hrun)⟩

end OsCamp.FreeListRuns
