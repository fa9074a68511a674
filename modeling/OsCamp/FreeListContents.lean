import OsCamp.FreeListRuns

/-!
What clients keep in their blocks. A client sees a block as bytes of its own:
those it has written since the block was granted. The allocator writes list
headers, but only into free nodes and into the block that is given back, so
memory holds every byte that a client last wrote.
-/

set_option autoImplicit false

namespace OsCamp.FreeListContents

open ByteMemory CoreAlloc Execution FreeListAllocator LinkedChain Packing FreeListHeap
  FreeListSpec FreeListRuns

/-- A live block as its client sees it: the bytes written since the grant. -/
structure Object where
  block : Block
  bytes : ℕ → Option (BitVec 8)

def Object.fresh (block : Block) : Object := ⟨block, fun _ => none⟩

def Object.set (o : Object) (offset : ℕ) (byte : BitVec 8) : Object :=
  { o with bytes := Function.update o.bytes offset (some byte) }

/-- The clients' objects after a call that made `granted` live. -/
def client (objects : List Object) (granted : List Block) : Call → List Object
  | .alloc _ => granted.map Object.fresh ++ objects
  | .dealloc block => objects.eraseP fun o => o.block = block
  | .write block offset byte =>
    objects.map fun o => if o.block = block then o.set offset byte else o

structure Tracked where
  sys : System
  objects : List Object

def Tracked.new (heapStart heapEnd : ℕ) (memory : Memory) : Tracked :=
  ⟨System.new heapStart heapEnd memory, []⟩

def stepTracked (profile : Profile) (t : Tracked) (call : Call) : Option Tracked :=
  (step profile t.sys call).map fun sys' =>
    ⟨sys', client t.objects (sys'.live.take (sys'.live.length - t.sys.live.length)) call⟩

def Fits (heapEnd : ℕ) (t : Tracked) (call : Call) : Prop := AlignFits heapEnd t.sys call

/-- Every byte that the client wrote is in memory. -/
def Object.Stored (memory : Memory) (o : Object) : Prop :=
  ∀ offset < blockSize o.block.layout, ∀ byte, o.bytes offset = some byte →
    memory (o.block.ptr + offset) = byte

structure ContentsInv (heapStart heapEnd : ℕ) (t : Tracked) : Prop where
  run : ∃ free, RunInv heapStart heapEnd t.sys free
  blocks : t.objects.map Object.block = t.sys.live
  stored : ∀ o ∈ t.objects, o.Stored t.sys.state.memory

variable {profile : Profile} {heapStart heapEnd : ℕ} {sys sys' : System} {free : List Region}
  {s s' : State} {owned : List Region} {r : Region} {layout : Layout} {p offset : ℕ}
  {block : Block} {byte : BitVec 8} {o : Object} {objects : List Object} {t t' : Tracked}

/-- The write that unlinks a node reaches no owned byte. -/
theorem writeLink_keeps (h : HeapInv s owned free) (hr : r ∈ owned) {prev v : ℕ}
    (hprev : prev ∈ 0 :: free.map Region.start) :
    SameOn s.memory (s.writeLink prev v).memory r.start r.size := by
  intro x hlo hhi
  rcases List.mem_cons.mp hprev with hzero | hmem
  · rw [hzero]
    rfl
  · obtain ⟨q, hq, hqp⟩ := List.mem_map.mp hmem
    have hdisj := h.owned_disjoint_free hr hq
    have hsize := h.header q (List.mem_append_right _ hq)
    have hpos := (h.mem_inside (List.mem_append_right _ hq)).1
    rw [State.writeLink, if_neg (by omega), ← hqp]
    refine writeNext_outside hsize ?_
    unfold Region.Disjoint Region.stop at hdisj
    unfold Region.stop
    omega

theorem alloc_keeps (h : HeapInv s owned free) (hr : r ∈ owned)
    (halloc : s.alloc profile layout = some (p, s')) :
    SameOn s.memory s'.memory r.start r.size := by
  obtain ⟨⟨prev, curr⟩, hwalk, hprev, -⟩ := walk_spec h layout
  rw [State.alloc, hwalk, Option.bind_eq_bind, Option.bind_some] at halloc
  by_cases hend : curr = 0
  · simp only [hend, if_true] at halloc
    obtain ⟨range, -, hout⟩ := Option.map_eq_some_iff.mp halloc
    cases range <;> cases hout <;> exact fun _ _ _ => rfl
  · simp only [hend, if_false] at halloc
    cases halloc
    exact writeLink_keeps h hr hprev

/-- Giving a block back writes only its own header. -/
theorem dealloc_keeps (h : HeapInv s (⟨p, blockSize layout⟩ :: owned) free) (hr : r ∈ owned) :
    SameOn s.memory (s.dealloc p layout).memory r.start r.size := by
  intro x hlo hhi
  have hne : p ≠ 0 := (h.mem_inside List.mem_cons_self).1.ne'
  have hheader := headerSize_le_blockSize layout
  have hdisj : Region.Disjoint ⟨p, blockSize layout⟩ r := by
    have hpairwise := (List.pairwise_append.mp h.packed.disjoint).1
    exact (List.pairwise_cons.mp hpairwise).1 r hr
  have hout : x < p ∨ p + blockSize layout ≤ x := by
    unfold Region.Disjoint Region.stop at hdisj
    simp only at hdisj
    omega
  rw [State.dealloc, if_neg hne]
  have hnext := writeNext_outside (s := s.writeSize p (blockSize layout)) (v := s.freeList)
    (r := ⟨p, blockSize layout⟩) hheader hout
  have hsize := writeSize_outside (s := s) (v := blockSize layout)
    (r := ⟨p, blockSize layout⟩) hheader hout
  exact hnext.trans hsize

theorem Object.Stored.congr (h : o.Stored s.memory)
    (hsame : SameOn s.memory s'.memory o.block.ptr (blockSize o.block.layout)) :
    o.Stored s'.memory := by
  intro offset hoffset byte hbyte
  rw [hsame _ (Nat.le_add_right _ _) (by omega)]
  exact h offset hoffset byte hbyte

theorem Object.Stored.fresh (block : Block) (memory : Memory) :
    (Object.fresh block).Stored memory := by
  intro offset _ byte hbyte
  cases hbyte

theorem Object.Stored.set (h : o.Stored s.memory) :
    (o.set offset byte).Stored (writeByte s (o.block.ptr + offset) byte).memory := by
  intro k hk b hb
  show (if o.block.ptr + k = o.block.ptr + offset then byte else s.memory (o.block.ptr + k)) = b
  by_cases hko : k = offset
  · rw [if_pos (by rw [hko])]
    rw [Object.set, hko] at hb
    simpa using hb
  · rw [if_neg (by omega)]
    rw [Object.set] at hb
    simp only [Function.update_of_ne hko] at hb
    exact h k hk b hb

theorem Object.Stored.write_elsewhere (h : o.Stored s.memory)
    (hdisj : o.block.region.Disjoint block.region) (hoffset : offset < blockSize block.layout) :
    o.Stored (writeByte s (block.ptr + offset) byte).memory := by
  refine h.congr ?_
  intro x hlo hhi
  refine if_neg ?_
  unfold Region.Disjoint Region.stop Block.region at hdisj
  simp only at hdisj
  omega

/-- What `alloc` adds to the live blocks: its block, or nothing for null. -/
theorem take_grant (live : List Block) (b : Block) :
    (b :: live).take ((b :: live).length - live.length) = [b] := by
  rw [List.length_cons, Nat.add_sub_cancel_left]
  rfl

theorem map_block_erase (hblocks : objects.map Object.block = sys.live) :
    (objects.eraseP fun o => o.block = block).map Object.block = sys.live.erase block := by
  rw [← hblocks, List.erase_eq_eraseP', List.eraseP_map]
  rfl

namespace ContentsInv

theorem new (memory : Memory) (hpos : 0 < heapStart) (hle : heapStart ≤ heapEnd)
    (hlt : heapEnd < 2 ^ 64) : ContentsInv heapStart heapEnd (Tracked.new heapStart heapEnd memory)
    where
  run := ⟨[], RunInv.new memory hpos hle hlt⟩
  blocks := rfl
  stored := fun _ ho => nomatch ho

theorem mem_live (h : ContentsInv heapStart heapEnd t) (ho : o ∈ t.objects) :
    o.block ∈ t.sys.live := by
  rw [← h.blocks]
  exact List.mem_map_of_mem ho

/-- An object of another block lies apart from this one. -/
theorem disjoint (h : ContentsInv heapStart heapEnd t) (ho : o ∈ t.objects)
    (hblock : block ∈ t.sys.live) (hne : o.block ≠ block) :
    o.block.region.Disjoint block.region := by
  obtain ⟨free, hrun⟩ := h.run
  have hperm := (List.perm_cons_erase hblock).map Block.region
  have hpacked := (hrun.heap.perm hperm).packed.disjoint
  have hhead := (List.pairwise_cons.mp (List.pairwise_append.mp hpacked).1).1
  have hmem : o.block ∈ t.sys.live.erase block := (List.mem_erase_of_ne hne).mpr (h.mem_live ho)
  exact (hhead o.block.region (List.mem_map_of_mem hmem)).symm

theorem alloc (h : ContentsInv heapStart heapEnd t) (hfit : NoWrap t.sys.state layout)
    (halloc : t.sys.state.alloc profile layout = some (p, s')) {live : List Block}
    (hlive : live = if p = 0 then t.sys.live else ⟨p, layout⟩ :: t.sys.live) :
    ContentsInv heapStart heapEnd
      ⟨⟨s', live⟩,
        client t.objects (live.take (live.length - t.sys.live.length)) (.alloc layout)⟩ := by
  obtain ⟨free, hrun⟩ := h.run
  have hkeeps : ∀ o ∈ t.objects, o.Stored s'.memory := by
    intro o ho
    have hr : o.block.region ∈ t.sys.live.map Block.region := List.mem_map_of_mem (h.mem_live ho)
    exact (h.stored o ho).congr (alloc_keeps hrun.heap hr halloc)
  have hnext := hrun.alloc hfit halloc
  rw [← hlive] at hnext
  by_cases hnull : p = 0
  · rw [if_pos hnull] at hlive
    subst hlive
    refine { run := hnext, blocks := ?_, stored := ?_ }
    · simpa [client] using h.blocks
    · simpa [client] using hkeeps
  · rw [if_neg hnull] at hlive
    subst hlive
    rw [take_grant]
    refine { run := hnext, blocks := ?_, stored := ?_ }
    · simpa [client, Object.fresh] using h.blocks
    · intro o ho
      rcases List.mem_append.mp ho with hnew | hold
      · obtain ⟨b, hb, hob⟩ := List.mem_map.mp hnew
        rw [← hob]
        exact Object.Stored.fresh b _
      · exact hkeeps o hold

theorem dealloc (h : ContentsInv heapStart heapEnd t) (hblock : block ∈ t.sys.live) :
    ContentsInv heapStart heapEnd
      ⟨⟨t.sys.state.dealloc block.ptr block.layout, t.sys.live.erase block⟩,
        client t.objects [] (.dealloc block)⟩ := by
  obtain ⟨free, hrun⟩ := h.run
  have hperm := (List.perm_cons_erase hblock).map Block.region
  have hheap := hrun.heap.perm hperm
  have herase : (t.objects.eraseP fun o => o.block = block).map Object.block =
      t.sys.live.erase block := map_block_erase h.blocks
  refine { run := ⟨_, hrun.dealloc hblock⟩, blocks := herase, stored := ?_ }
  intro o ho
  have hlive : o.block ∈ t.sys.live.erase block := by
    rw [← herase]
    exact List.mem_map_of_mem ho
  exact (h.stored o (List.mem_of_mem_eraseP ho)).congr
    (dealloc_keeps hheap (List.mem_map_of_mem (f := Block.region) hlive))

theorem write (h : ContentsInv heapStart heapEnd t) (hblock : block ∈ t.sys.live)
    (hoffset : offset < blockSize block.layout) :
    ContentsInv heapStart heapEnd
      ⟨⟨writeByte t.sys.state (block.ptr + offset) byte, t.sys.live⟩,
        client t.objects [] (.write block offset byte)⟩ := by
  obtain ⟨free, hrun⟩ := h.run
  refine { run := ⟨free, hrun.write hblock hoffset byte⟩, blocks := ?_, stored := ?_ }
  · rw [← h.blocks]
    simp only [client, List.map_map]
    refine List.map_congr_left ?_
    intro o _
    simp only [Function.comp]
    split_ifs <;> rfl
  · intro o' ho'
    obtain ⟨o, ho, hoo⟩ := List.mem_map.mp ho'
    by_cases heq : o.block = block
    · rw [if_pos heq] at hoo
      rw [← hoo, ← heq]
      exact (h.stored o ho).set
    · rw [if_neg heq] at hoo
      rw [← hoo]
      exact (h.stored o ho).write_elsewhere (h.disjoint ho hblock heq) hoffset

theorem step (h : ContentsInv heapStart heapEnd t) {call : Call} (hok : Fits heapEnd t call)
    (hs : stepTracked profile t call = some t') : ContentsInv heapStart heapEnd t' := by
  obtain ⟨sys', hsys, hout⟩ := Option.map_eq_some_iff.mp hs
  obtain ⟨free, hrun⟩ := h.run
  cases call with
  | alloc layout =>
    obtain ⟨⟨p, s'⟩, halloc, hsys'⟩ := Option.map_eq_some_iff.mp hsys
    cases hsys'
    cases hout
    exact h.alloc (hrun.noWrap (hok layout rfl)) halloc rfl
  | dealloc block =>
    obtain ⟨hblock, hsys'⟩ := Option.ite_none_right_eq_some.mp hsys
    cases hsys'
    cases hout
    exact h.dealloc hblock
  | write block offset byte =>
    obtain ⟨⟨hblock, hoffset⟩, hsys'⟩ := Option.ite_none_right_eq_some.mp hsys
    cases hsys'
    cases hout
    exact h.write hblock hoffset

theorem reach {memory : Memory} (hpos : 0 < heapStart) (hle : heapStart ≤ heapEnd)
    (hlt : heapEnd < 2 ^ 64)
    (h : Reach (stepTracked profile) (Fits heapEnd) (Tracked.new heapStart heapEnd memory) t) :
    ContentsInv heapStart heapEnd t :=
  h.invariant (I := ContentsInv heapStart heapEnd) (new memory hpos hle hlt)
    fun _ _ _ hi hok hs => hi.step hok hs

end ContentsInv

/-- In every reachable state the clients' objects are the live blocks, and
every byte last written through an object is the byte in memory. -/
theorem reachable_contents_kept (profile : Profile) {heapStart heapEnd : ℕ} (memory : Memory)
    (hpos : 0 < heapStart) (hle : heapStart ≤ heapEnd) (hlt : heapEnd < 2 ^ 64) {t : Tracked}
    (h : Reach (stepTracked profile) (Fits heapEnd) (Tracked.new heapStart heapEnd memory) t) :
    t.objects.map Object.block = t.sys.live ∧
    ∀ o ∈ t.objects, ∀ offset < blockSize o.block.layout, ∀ byte,
      o.bytes offset = some byte → t.sys.state.memory (o.block.ptr + offset) = byte := by
  have hinv := ContentsInv.reach hpos hle hlt h
  exact ⟨hinv.blocks, fun o ho => hinv.stored o ho⟩

theorem reachable_contents_kept_around_list_updates :
    let large := Layout.align8 64 (by decide)
    let small := Layout.align8 24 (by decide)
    let calls : List Call := [.alloc large, .alloc small, .alloc small, .write ⟨4160, small⟩ 8 255,
      .dealloc ⟨4096, large⟩, .dealloc ⟨4184, small⟩, .alloc large]
    ∃ t, run (stepTracked .debug) (Tracked.new 4096 8192 fun _ => 0) calls = some t ∧
      t.sys.live = [⟨4096, large⟩, ⟨4160, small⟩] ∧ t.sys.state.memory 4168 = 255 := by
  intro large small calls
  have hend : (run (stepTracked .debug) (Tracked.new 4096 8192 fun _ => 0) calls).map
      (fun t => (t.sys.live, t.objects.map fun o => o.bytes 8)) =
      some ([⟨4096, large⟩, ⟨4160, small⟩], [none, some 255]) := by decide +kernel
  obtain ⟨t, hrun, hout⟩ := Option.map_eq_some_iff.mp hend
  obtain ⟨hlive, hbytes⟩ := Prod.mk.inj hout
  have hok : ∀ call ∈ calls, ∀ t, Fits 8192 t call := by
    intro call hcall t layout hlayout
    simp only [calls, List.mem_cons, List.not_mem_nil, or_false] at hcall
    rcases hcall with rfl | rfl | rfl | rfl | rfl | rfl | rfl <;> cases hlayout <;> decide
  have hkept := reachable_contents_kept .debug _ (by decide) (by decide) (by decide)
    (Reach.init.run_of_forall hok hrun)
  refine ⟨t, hrun, hlive, ?_⟩
  obtain ⟨hblocks, hstored⟩ := hkept
  obtain ⟨o₁, o₂, hobjects⟩ : ∃ o₁ o₂, t.objects = [o₁, o₂] := by
    refine List.length_eq_two.mp ?_
    have hlength := congrArg List.length (hblocks.trans hlive)
    rw [List.length_map] at hlength
    exact hlength
  rw [hlive, hobjects] at hblocks
  rw [hobjects] at hbytes hstored
  simp only [List.map_cons, List.map_nil, List.cons.injEq, and_true] at hblocks hbytes
  have hbyte := hstored o₂ (by simp) 8 (by rw [hblocks.2]; decide) 255 hbytes.2
  rw [hblocks.2] at hbyte
  exact hbyte

end OsCamp.FreeListContents
