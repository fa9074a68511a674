import OsCamp.FreeListInterference
import OsCamp.Execution
import Mathlib.Data.Fintype.Basic

/-!
Runs of the shared allocator. As long as no thread takes away what another
thread relies on, the heap stays packed and no freed block is lost. Without
that, two threads that find the same node both get it.
-/

set_option autoImplicit false

namespace OsCamp.FreeListRace

open CoreAlloc ByteMemory Execution FreeListAllocator Packing FreeListHeap FreeListSpec
  FreeListThreads FreeListInterference
open FreeListRuns (Block FreeNodes writeByte)

variable {T : Type*}

/-- The step takes away nothing that another thread relies on, and its alignment
sum does not exceed 2^64. -/
def Undisturbed (m : Machine T) : Action T → Prop
  | .advance t => (∀ u, u ≠ t → ¬ Disturbs m.heap (m.pc t) (m.pc u)) ∧
    ∀ align ∈ addedAlign m.heap (m.pc t), m.heap.bumpNext + align ≤ 2 ^ 64
  | .beginAlloc _ _ => True
  | .beginDealloc _ _ => True
  | .write _ _ _ => True

instance [Fintype T] [DecidableEq T] (m : Machine T) : ∀ a, Decidable (Undisturbed m a)
  | .advance t => inferInstanceAs (Decidable ((∀ u, u ≠ t → ¬ Disturbs m.heap (m.pc t) (m.pc u)) ∧
      ∀ align ∈ addedAlign m.heap (m.pc t), m.heap.bumpNext + align ≤ 2 ^ 64))
  | .beginAlloc _ _ => isTrue trivial
  | .beginDealloc _ _ => isTrue trivial
  | .write _ _ _ => isTrue trivial

/-- No two live blocks overlap, and a block whose call of `dealloc` has returned is
on the free list, live again, or inside another call of `dealloc`. -/
structure Safe (m : Machine T) : Prop where
  disjoint : m.live.Pairwise fun b b' => b.region.Disjoint b'.region
  kept : ∀ p ∈ m.freed, (∃ nodes, FreeNodes m.heap nodes ∧ p ∈ nodes) ∨
    (∃ b ∈ m.live, b.ptr = p) ∨ ∃ e ∈ m.freeing, e.2.ptr = p

def freeingRegions (freeing : List (T × Block)) : List Region := freeing.map fun e => e.2.region

structure RaceInv (m : Machine T) (free : List Region) : Prop where
  heap : HeapInv m.heap (m.live.map Block.region ++ freeingRegions m.freeing) free
  pcs : ∀ t, PcInv m.heap free (m.pc t)
  freeing : ∀ t block, (t, block) ∈ m.freeing ↔ (m.pc t).block = some block
  nodup : m.freeing.Nodup
  freed : ∀ p ∈ m.freed, p ∈ free.map Region.start ∨ (∃ b ∈ m.live, b.ptr = p) ∨
    ∃ e ∈ m.freeing, e.2.ptr = p

variable {m m' : Machine T} {heap : State} {free free' : List Region} {layout : Layout}
  {profile : Profile} {pc : Pc} {p : ℕ} {t u : T} {block : Block}

theorem goto_pc [DecidableEq T] : (m.goto t pc).pc u = if u = t then pc else m.pc u :=
  Function.update_apply ..

/-- A thread that moves on and the threads that stay keep their views. -/
theorem pcInv_goto [DecidableEq T] (hpc : PcInv heap free pc)
    (hothers : ∀ u, u ≠ t → PcInv heap free (m.pc u)) (u : T) :
    PcInv heap free ((m.goto t pc).pc u) := by
  rw [goto_pc]
  split_ifs with hu
  · exact hpc
  · exact hothers u hu

namespace RaceInv

theorem freeing_region_mem (h : RaceInv m free) (hblock : (m.pc t).block = some block) :
    block.region ∈ m.live.map Block.region ++ freeingRegions m.freeing :=
  List.mem_append_right _ (List.mem_map.mpr ⟨(t, block), (h.freeing t block).mpr hblock, rfl⟩)

/-- Blocks inside two calls of `dealloc` are apart. -/
theorem freeing_disjoint (h : RaceInv m free) (hne : u ≠ t) {b b' : Block}
    (hb : (m.pc t).block = some b) (hb' : (m.pc u).block = some b') :
    b.region.Disjoint b'.region := by
  have hpair := (List.pairwise_append.mp (List.pairwise_append.mp h.heap.packed.disjoint).1).2.1
  have hentry : (t, b) ≠ (u, b') := fun heq => hne (congrArg Prod.fst heq).symm
  have hsymm : Std.Symm fun e e' : T × Block => e.2.region.Disjoint e'.2.region :=
    ⟨fun _ _ hd => hd.symm⟩
  have hmem := (h.freeing t b).mpr hb
  have hmem' := (h.freeing u b').mpr hb'
  exact (List.pairwise_map.mp hpair).forall hmem hmem' hentry

/-- A write inside the region of a block that no other thread is giving back. -/
theorem write_others (h : RaceInv m free) {r : Region}
    (hr : r ∈ m.live.map Block.region ++ freeingRegions m.freeing) {memory : Memory}
    (hmem : ∀ x, x < r.start ∨ r.stop ≤ x → memory x = m.heap.memory x)
    (hapart : ∀ b, (m.pc u).block = some b → r.Disjoint b.region) :
    PcInv { m.heap with memory := memory } free (m.pc u) := by
  refine (h.pcs u).frame rfl rfl ?_ ?_
  · intro f hf
    exact h.heap.header_same (List.mem_append_right _ hf) (h.heap.owned_disjoint_free hr hf) hmem
  · intro b hb
    have hbmem := List.mem_append_left free (h.freeing_region_mem hb)
    exact h.heap.header_same hbmem (hapart b hb) hmem

variable [DecidableEq T]

theorem freeing_goto (h : RaceInv m free) (hblock : pc.block = (m.pc t).block) (u : T) (b : Block) :
    (u, b) ∈ m.freeing ↔ ((m.goto t pc).pc u).block = some b := by
  rw [goto_pc, h.freeing u b]
  split_ifs with hu
  · rw [hu, hblock]
  · exact Iff.rfl

/-- An access of `t` that moves no block to another owner. -/
theorem move (h : RaceInv m free)
    (hheap : HeapInv heap (m.live.map Block.region ++ freeingRegions m.freeing) free)
    (hothers : ∀ u, u ≠ t → PcInv heap free (m.pc u)) (hpc : PcInv heap free pc)
    (hblock : pc.block = (m.pc t).block) :
    RaceInv { m.goto t pc with heap := heap } free where
  heap := hheap
  pcs := pcInv_goto hpc hothers
  freeing := h.freeing_goto hblock
  nodup := h.nodup
  freed := h.freed

theorem goto (h : RaceInv m free) (hpc : PcInv m.heap free pc)
    (hblock : pc.block = (m.pc t).block) : RaceInv (m.goto t pc) free :=
  h.move h.heap (fun u _ => h.pcs u) hpc hblock

/-- A call of `alloc` returns a block that was a free node or is new. -/
theorem grant (h : RaceInv m free) (hnone : (m.pc t).block = none)
    (hheap : HeapInv heap (⟨p, blockSize layout⟩ ::
      (m.live.map Block.region ++ freeingRegions m.freeing)) free')
    (hothers : ∀ u, u ≠ t → PcInv heap free' (m.pc u))
    (hleft : ∀ x ∈ free.map Region.start, x ∈ free'.map Region.start ∨ x = p) :
    RaceInv (m.grant t heap ⟨p, layout⟩) free' := by
  have hne : p ≠ 0 := (hheap.mem_inside List.mem_cons_self).1.ne'
  have hlive : (m.grant t heap ⟨p, layout⟩).live = ⟨p, layout⟩ :: m.live := if_neg hne
  refine { heap := ?_, pcs := pcInv_goto trivial hothers, freeing := h.freeing_goto hnone.symm,
           nodup := h.nodup, freed := ?_ }
  · rw [hlive]
    exact hheap
  · intro x hx
    rw [hlive]
    rcases h.freed x hx with hfree | hlast | hfreeing
    · rcases hleft x hfree with hstill | heq
      · exact Or.inl hstill
      · exact Or.inr (Or.inl ⟨⟨p, layout⟩, List.mem_cons_self, heq.symm⟩)
    · obtain ⟨b, hb, hbx⟩ := hlast
      exact Or.inr (Or.inl ⟨b, List.mem_cons_of_mem _ hb, hbx⟩)
    · exact Or.inr (Or.inr hfreeing)

theorem attempt (h : RaceInv m free) (hnone : (m.pc t).block = none)
    (hfit : m.heap.bumpNext + blockAlign layout ≤ 2 ^ 64)
    (hs : m.attempt profile t layout = some m') : RaceInv m' free := by
  obtain ⟨range, hrange, hout⟩ := Option.map_eq_some_iff.mp hs
  cases range with
  | none =>
    cases hout
    exact h.goto trivial hnone.symm
  | some range =>
    obtain ⟨allocStart, allocEnd⟩ := range
    cases hout
    obtain ⟨hround, hend, hle⟩ := bumpRange_spec (blockAlign_pow layout) hfit hrange
    have hstart := le_roundUp m.heap.bumpNext (blockAlign_pos layout)
    exact h.goto ⟨hround ▸ hstart, hend, hle⟩ hnone.symm

theorem exchange (h : RaceInv m free) {seen allocStart allocEnd : ℕ}
    (hpc : m.pc t = .exchange layout seen allocStart allocEnd)
    (hfit : m.heap.bumpNext ≠ seen → m.heap.bumpNext + blockAlign layout ≤ 2 ^ 64)
    (hs : m.exchange profile t layout seen allocStart allocEnd = some m') : RaceInv m' free := by
  have hnone : (m.pc t).block = none := by rw [hpc]; rfl
  have hlocal := h.pcs t
  rw [hpc] at hlocal
  obtain ⟨hstart, hend, hle⟩ := hlocal
  unfold Machine.exchange at hs
  split_ifs at hs with hseen
  · cases hs
    rw [← hseen] at hstart
    refine h.grant hnone (h.heap.bump hstart (headerSize_le_blockSize layout) hend hle) ?_ ?_
    · intro u _
      exact (h.pcs u).frame rfl rfl (fun _ _ _ _ _ => rfl) (fun _ _ _ _ _ => rfl)
    · exact fun x hx => Or.inl hx
  · exact h.attempt hnone (hfit hseen) hs

theorem readSize (h : RaceInv m free) {prev curr : ℕ} (hpc : m.pc t = .readSize layout prev curr) :
    RaceInv (m.readSize t layout prev curr) free := by
  have hlocal := h.pcs t
  rw [hpc] at hlocal
  unfold Machine.readSize
  split_ifs with hfit
  · exact h.goto ⟨hlocal.2 hfit, hfit⟩ (by rw [hpc]; rfl)
  · exact h.goto hlocal.1 (by rw [hpc]; rfl)

theorem visit (h : RaceInv m free) {prev : ℕ} (hprev : prev ∈ 0 :: free.map Region.start)
    (hnone : (m.pc t).block = none) :
    RaceInv (m.goto t (FreeListThreads.visit layout prev (link m.heap prev))) free := by
  refine h.goto (visit_inv h.heap.represents hprev) ?_
  rw [hnone]
  unfold FreeListThreads.visit
  split_ifs <;> rfl

theorem unlink (h : RaceInv m free) {prev curr next : ℕ}
    (hpc : m.pc t = .unlink layout prev curr next)
    (hquiet : ∀ u, u ≠ t → ¬ Disturbs m.heap (m.pc t) (m.pc u)) :
    ∃ free', RaceInv (m.unlink t layout prev curr next) free' := by
  have hlocal := h.pcs t
  rw [hpc] at hlocal hquiet
  obtain ⟨⟨hprev, hlink, hcurr⟩, hfit, hnext⟩ := hlocal
  obtain ⟨r, hr, hrc⟩ := List.mem_map.mp hcurr
  obtain ⟨l₁, l₂, hfree⟩ := List.append_of_mem hr
  subst hrc hfree
  have hrep := h.heap.represents
  have hne : r.start ≠ 0 := fun h0 => hrep.nonnull (h0 ▸ hcurr)
  rw [link_of_ne hne] at hnext
  rw [hrep.sizes r hr] at hfit
  have hheap := h.heap.unlink hprev hlink (headerSize_le_blockSize layout) hfit
  rw [hnext] at hheap
  refine ⟨l₁ ++ l₂, h.grant (by rw [hpc]; rfl) hheap ?_ ?_⟩
  · intro u hu
    exact (h.pcs u).unlink h.heap hprev hlink (hquiet u hu) fun b => h.freeing_region_mem
  · exact fun x hx => mem_removed_or_eq hx

theorem freeSize (h : RaceInv m free) {head : ℕ} (hpc : m.pc t = .freeSize block head) :
    RaceInv (m.freeSize t block head) free := by
  have hlocal := h.pcs t
  rw [hpc] at hlocal
  have hblock : (m.pc t).block = some block := by rw [hpc]; rfl
  have hmem := h.freeing_region_mem hblock
  refine h.move (h.heap.writeSize hmem _) ?_ ⟨hlocal, size_writeSize (blockSize_lt _)⟩ hblock.symm
  intro u hu
  refine h.write_others hmem ?_ fun b => h.freeing_disjoint hu hblock
  exact fun x hx => writeSize_outside (h.heap.header _ (List.mem_append_left _ hmem)) hx

theorem freeNext (h : RaceInv m free) {head : ℕ} (hpc : m.pc t = .freeNext block head) :
    RaceInv (m.freeNext t block head) free := by
  have hlocal := h.pcs t
  rw [hpc] at hlocal
  obtain ⟨hhead, hsize⟩ := hlocal
  have hblock : (m.pc t).block = some block := by rw [hpc]; rfl
  have hmem := h.freeing_region_mem hblock
  have hlt : head < 2 ^ 64 := hhead ▸ freeList_lt h.heap
  refine h.move (h.heap.writeNext hmem _) ?_ ⟨?_, ?_⟩ hblock.symm
  · intro u hu
    refine h.write_others hmem ?_ fun b => h.freeing_disjoint hu hblock
    exact fun x hx => writeNext_outside (h.heap.header _ (List.mem_append_left _ hmem)) hx
  · exact (size_writeNext m.heap block.ptr head).trans hsize
  · exact (next_writeNext hlt).trans hhead.symm

theorem freeSet (h : RaceInv m free) (hpc : m.pc t = .freeSet block)
    (hquiet : ∀ u, u ≠ t → ¬ Disturbs m.heap (m.pc t) (m.pc u)) :
    RaceInv (m.freeSet t block) (block.region :: free) := by
  have hlocal := h.pcs t
  rw [hpc] at hlocal hquiet
  obtain ⟨hsize, hnext⟩ := hlocal
  have hblock : (m.pc t).block = some block := by rw [hpc]; rfl
  have hentry := (h.freeing t block).mpr hblock
  have hperm : (m.live.map Block.region ++ freeingRegions m.freeing).Perm
      (block.region :: (m.live.map Block.region ++ freeingRegions (m.freeing.erase (t, block)))) :=
    (((List.perm_cons_erase hentry).map fun e => e.2.region).append_left _).trans List.perm_middle
  have hothers : ∀ u, u ≠ t → PcInv (m.heap.setFreeListHead block.region.start)
      (block.region :: free) (m.pc u) := fun u hu => (h.pcs u).push (hquiet u hu)
  refine { heap := (h.heap.perm hperm).push hsize hnext, pcs := pcInv_goto trivial hothers,
           freeing := ?_, nodup := h.nodup.erase _, freed := ?_ }
  · intro u b
    change (u, b) ∈ m.freeing.erase (t, block) ↔ ((m.goto t .idle).pc u).block = some b
    rw [goto_pc, h.nodup.mem_erase_iff, h.freeing u b]
    split_ifs with hu
    · rw [hu, hblock]
      constructor
      · intro hb
        exact absurd (congrArg (Prod.mk t) (Option.some.inj hb.2).symm) hb.1
      · intro hb
        cases hb
    · exact and_iff_right fun heq => hu (congrArg Prod.fst heq)
  · intro x hx
    rcases List.mem_cons.mp hx with heq | hx
    · exact Or.inl (heq ▸ List.mem_cons_self)
    · rcases h.freed x hx with hfree | hlast | ⟨e, he, hex⟩
      · exact Or.inl (List.mem_cons_of_mem _ hfree)
      · exact Or.inr (Or.inl hlast)
      · by_cases heq : e = (t, block)
        · rw [heq] at hex
          exact Or.inl (hex ▸ List.mem_cons_self)
        · exact Or.inr (Or.inr ⟨e, (List.mem_erase_of_ne heq).mpr he, hex⟩)

theorem beginDealloc (h : RaceInv m free) (hidle : m.pc t = .idle) (hlive : block ∈ m.live) :
    RaceInv (m.beginDealloc t block) free := by
  have hperm : (m.live.map Block.region ++ freeingRegions m.freeing).Perm
      ((m.live.erase block).map Block.region ++ freeingRegions ((t, block) :: m.freeing)) :=
    (((List.perm_cons_erase hlive).map Block.region).append_right _).trans List.perm_middle.symm
  have hnone : ∀ b, (t, b) ∉ m.freeing := by
    intro b hb
    have hblock := (h.freeing t b).mp hb
    rw [hidle] at hblock
    cases hblock
  refine { heap := h.heap.perm hperm, pcs := pcInv_goto trivial fun u _ => h.pcs u, freeing := ?_,
           nodup := List.nodup_cons.mpr ⟨hnone block, h.nodup⟩, freed := ?_ }
  · intro u b
    change (u, b) ∈ (t, block) :: m.freeing ↔ ((m.goto t (.freeHead block)).pc u).block = some b
    rw [goto_pc, List.mem_cons]
    split_ifs with hu
    · rw [hu]
      constructor
      · intro hb
        rcases hb with heq | hmem
        · exact congrArg some (Prod.mk.inj heq).2.symm
        · exact absurd hmem (hnone b)
      · intro hb
        exact Or.inl (Prod.ext rfl (Option.some.inj hb).symm)
    · rw [← h.freeing u b]
      exact or_iff_right fun heq => hu (Prod.mk.inj heq).1
  · intro x hx
    rcases h.freed x hx with hfree | ⟨b, hb, hbx⟩ | ⟨e, he, hex⟩
    · exact Or.inl hfree
    · by_cases heq : b = block
      · exact Or.inr (Or.inr ⟨(t, block), List.mem_cons_self, heq ▸ hbx⟩)
      · exact Or.inr (Or.inl ⟨b, (List.mem_erase_of_ne heq).mpr hb, hbx⟩)
    · exact Or.inr (Or.inr ⟨e, List.mem_cons_of_mem _ he, hex⟩)

omit [DecidableEq T] in
theorem write (h : RaceInv m free) (hlive : block ∈ m.live) {offset : ℕ}
    (hoffset : offset < blockSize block.layout) (byte : BitVec 8) :
    RaceInv { m with heap := writeByte m.heap (block.ptr + offset) byte } free := by
  have hmem : block.region ∈ m.live.map Block.region ++ freeingRegions m.freeing :=
    List.mem_append_left _ (List.mem_map_of_mem hlive)
  have houtside : ∀ x, x < block.region.start ∨ block.region.stop ≤ x →
      (writeByte m.heap (block.ptr + offset) byte).memory x = m.heap.memory x := by
    intro x hx
    refine if_neg ?_
    unfold Region.stop Block.region at hx
    simp only at hx
    omega
  refine { h with heap := h.heap.write hmem houtside, pcs := ?_ }
  intro u
  refine h.write_others hmem houtside ?_
  intro b hb
  have hpacked := List.pairwise_append.mp h.heap.packed.disjoint
  refine (List.pairwise_append.mp hpacked.1).2.2 _ (List.mem_map_of_mem hlive) _ ?_
  exact List.mem_map.mpr ⟨(u, b), (h.freeing u b).mpr hb, rfl⟩

theorem advance (h : RaceInv m free) (hquiet : Undisturbed m (.advance t))
    (hs : m.advance profile t = some m') : ∃ free', RaceInv m' free' := by
  obtain ⟨halone, hfit⟩ := hquiet
  have hlocal := h.pcs t
  unfold Machine.advance at hs
  cases hpc : m.pc t with
  | idle =>
    simp only [hpc] at hs
    cases hs
  | allocHead layout =>
    simp only [hpc] at hs
    cases hs
    exact ⟨free, h.visit List.mem_cons_self (by rw [hpc]; rfl)⟩
  | readSize layout prev curr =>
    simp only [hpc] at hs
    cases hs
    exact ⟨free, h.readSize hpc⟩
  | readNext layout curr =>
    rw [hpc] at hlocal
    simp only [hpc] at hs
    cases hs
    have hne : curr ≠ 0 := fun h0 => h.heap.represents.nonnull (h0 ▸ hlocal)
    rw [← link_of_ne hne]
    exact ⟨free, h.visit (List.mem_cons_of_mem _ hlocal) (by rw [hpc]; rfl)⟩
  | takeNext layout prev curr =>
    rw [hpc] at hlocal
    simp only [hpc] at hs
    cases hs
    have hne : curr ≠ 0 := fun h0 => h.heap.represents.nonnull (h0 ▸ hlocal.1.2.2)
    exact ⟨free, h.goto ⟨hlocal.1, hlocal.2, link_of_ne hne⟩ (by rw [hpc]; rfl)⟩
  | unlink layout prev curr next =>
    simp only [hpc] at hs
    cases hs
    exact h.unlink hpc halone
  | bumpLoad layout =>
    simp only [hpc] at hs
    rw [hpc] at hfit
    exact ⟨free, h.attempt (by rw [hpc]; rfl) (hfit _ rfl) hs⟩
  | exchange layout seen allocStart allocEnd =>
    simp only [hpc] at hs
    rw [hpc] at hfit
    exact ⟨free, h.exchange hpc (fun hne => hfit _ (if_neg hne)) hs⟩
  | freeHead block =>
    simp only [hpc] at hs
    cases hs
    exact ⟨free, h.goto rfl (by rw [hpc]; rfl)⟩
  | freeSize block head =>
    simp only [hpc] at hs
    cases hs
    exact ⟨free, h.freeSize hpc⟩
  | freeNext block head =>
    simp only [hpc] at hs
    cases hs
    exact ⟨free, h.freeNext hpc⟩
  | freeSet block =>
    simp only [hpc] at hs
    cases hs
    exact ⟨_, h.freeSet hpc halone⟩

theorem step (h : RaceInv m free) {a : Action T} (hquiet : Undisturbed m a)
    (hs : FreeListThreads.step profile m a = some m') : ∃ free', RaceInv m' free' := by
  cases a with
  | beginAlloc t layout =>
    obtain ⟨hidle, hout⟩ := Option.ite_none_right_eq_some.mp hs
    cases hout
    exact ⟨free, h.goto trivial (by rw [hidle]; rfl)⟩
  | beginDealloc t block =>
    obtain ⟨hbegin, hout⟩ := Option.ite_none_right_eq_some.mp hs
    cases hout
    exact ⟨free, h.beginDealloc hbegin.1 hbegin.2⟩
  | advance t => exact h.advance hquiet hs
  | write block offset byte =>
    obtain ⟨hwrite, hout⟩ := Option.ite_none_right_eq_some.mp hs
    cases hout
    exact ⟨free, h.write hwrite.1 hwrite.2 byte⟩

omit [DecidableEq T] in
theorem new {heapStart heapEnd : ℕ} (memory : Memory) (hpos : 0 < heapStart)
    (hle : heapStart ≤ heapEnd) (hlt : heapEnd < 2 ^ 64) :
    RaceInv (Machine.new heapStart heapEnd memory : Machine T) [] where
  heap := HeapInv.new memory hpos hle hlt
  pcs := fun _ => trivial
  freeing := fun _ _ => ⟨fun hb => (nomatch hb), fun hb => (nomatch hb)⟩
  nodup := List.nodup_nil
  freed := fun _ hp => nomatch hp

omit [DecidableEq T] in
theorem safe (h : RaceInv m free) : Safe m := by
  have howned := (List.pairwise_append.mp h.heap.packed.disjoint).1
  refine { disjoint := List.pairwise_map.mp (List.pairwise_append.mp howned).1, kept := ?_ }
  intro p hp
  rcases h.freed p hp with hfree | hrest
  · exact Or.inl ⟨_, ⟨h.heap.represents.linked, h.heap.represents.nonnull⟩, hfree⟩
  · exact Or.inr hrest

end RaceInv

/-- In every run in which no access takes away what another thread relies on and
no alignment sum exceeds 2^64, live blocks stay apart and no freed block is lost. -/
theorem undisturbed_safe (T : Type*) [DecidableEq T] (profile : Profile) {heapStart heapEnd : ℕ}
    (memory : Memory) (hpos : 0 < heapStart) (hle : heapStart ≤ heapEnd) (hlt : heapEnd < 2 ^ 64)
    {m : Machine T}
    (h : Reach (step profile) Undisturbed (Machine.new heapStart heapEnd memory) m) : Safe m := by
  have hinv : ∃ free, RaceInv m free := by
    refine Reach.invariant (I := fun m => ∃ free, RaceInv m free)
      ⟨[], RaceInv.new memory hpos hle hlt⟩ ?_ h
    intro m a m' hi hquiet hs
    obtain ⟨free, hinv⟩ := hi
    exact hinv.step hquiet hs
  obtain ⟨free, hinv⟩ := hinv
  exact hinv.safe

/-- One thread returns a block while the other takes it at another time; their
loads and exchanges of `bump_next` interleave. -/
theorem undisturbed_safe_two_threads :
    let layout := Layout.align8 64 (by decide)
    let start : Machine (Fin 2) := Machine.new 4096 8192 fun _ => 0
    let trace : List (Action (Fin 2)) :=
      [.beginAlloc 0 layout, .beginAlloc 1 layout, .advance 0, .advance 1, .advance 0, .advance 1,
        .advance 0, .advance 1, .advance 1, .beginDealloc 0 ⟨4096, layout⟩, .advance 0, .advance 0,
        .advance 0, .beginAlloc 1 layout, .advance 0, .advance 1, .advance 1, .advance 1,
        .advance 1]
    ∃ m, run (step .release) start trace = some m ∧
      m.live = [⟨4096, layout⟩, ⟨4160, layout⟩] ∧ m.freed = [4096] ∧ Safe m := by
  intro layout start trace
  have hend : (run (step .release) start trace).map (fun m => (m.live, m.freed)) =
      some ([⟨4096, layout⟩, ⟨4160, layout⟩], [4096]) := by decide +kernel
  have hok : Admitted (step .release) Undisturbed start trace := by decide +kernel
  obtain ⟨m, hrun, hm⟩ := Option.map_eq_some_iff.mp hend
  obtain ⟨hlive, hfreed⟩ := Prod.mk.inj hm
  exact ⟨m, hrun, hlive, hfreed, undisturbed_safe (Fin 2) .release _ (by decide) (by decide)
    (by decide) (Reach.init.run_of_admitted hok hrun)⟩

/-- Both threads read the same head before either writes it back, and both get its
block. -/
theorem block_handed_out_twice :
    let layout := Layout.align8 64 (by decide)
    let start : Machine (Fin 2) := Machine.new 4096 8192 fun _ => 0
    let trace : List (Action (Fin 2)) :=
      [.beginAlloc 0 layout, .advance 0, .advance 0, .advance 0, .beginDealloc 0 ⟨4096, layout⟩,
        .advance 0, .advance 0, .advance 0, .advance 0, .beginAlloc 0 layout, .beginAlloc 1 layout,
        .advance 0, .advance 1, .advance 0, .advance 1, .advance 0, .advance 1, .advance 0,
        .advance 1]
    ∃ m, run (step .debug) start trace = some m ∧ Reachable (step .debug) start m ∧
      m.live = [⟨4096, layout⟩, ⟨4096, layout⟩] ∧ ¬ Safe m := by
  intro layout start trace
  have hend : (run (step .debug) start trace).map Machine.live =
      some [⟨4096, layout⟩, ⟨4096, layout⟩] := by decide +kernel
  obtain ⟨m, hrun, hlive⟩ := Option.map_eq_some_iff.mp hend
  refine ⟨m, hrun, Reach.run Reach.init hrun, hlive, ?_⟩
  intro hsafe
  have hdisjoint := hsafe.disjoint
  rw [hlive] at hdisjoint
  have hd := (List.pairwise_cons.mp hdisjoint).1 _ List.mem_cons_self
  unfold Region.Disjoint at hd
  revert hd
  decide

end OsCamp.FreeListRace
