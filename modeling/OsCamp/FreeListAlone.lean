import OsCamp.FreeListThreads
import OsCamp.Execution

/-!
A call that no other thread interrupts. The accesses of one thread in a row
compute what `alloc` and `dealloc` compute as functions on the heap.
-/

set_option autoImplicit false

namespace OsCamp.FreeListAlone

open CoreAlloc Execution FreeListAllocator FreeListThreads
open FreeListRuns (Block)

variable {T : Type*} [DecidableEq T] {profile : Profile} {m m' m'' : Machine T} {t : T}
  {layout : Layout} {block : Block}

/-- The thread gets from one machine to the other by its own accesses alone. -/
def Alone (profile : Profile) (t : T) (m m' : Machine T) : Prop :=
  ∃ n, run (step profile) m (List.replicate n (.advance t)) = some m'

theorem Alone.refl : Alone profile t m m := ⟨0, rfl⟩

theorem Alone.head (h : Alone profile t m' m'') (hs : m.advance profile t = some m') :
    Alone profile t m m'' := by
  obtain ⟨n, hn⟩ := h
  refine ⟨n + 1, ?_⟩
  rw [List.replicate_succ, run]
  change (m.advance profile t).bind _ = _
  rw [hs]
  exact hn

theorem Alone.trans (h : Alone profile t m m') (h' : Alone profile t m' m'') :
    Alone profile t m m'' := by
  obtain ⟨n, hn⟩ := h
  obtain ⟨n', hn'⟩ := h'
  refine ⟨n + n', ?_⟩
  rw [List.replicate_add, run_append, hn]
  exact hn'

theorem goto_goto (pc pc' : Pc) : (m.goto t pc).goto t pc' = m.goto t pc' := by
  unfold Machine.goto
  simp only [Function.update_idem]

theorem goto_pc_self (pc : Pc) : (m.goto t pc).pc t = pc := Function.update_self ..

theorem goto_heap (pc : Pc) : (m.goto t pc).heap = m.heap := rfl

theorem grant_goto (pc : Pc) (heap : State) (block : Block) :
    (m.goto t pc).grant t heap block = m.grant t heap block := by
  unfold Machine.grant
  rw [goto_goto]
  rfl

theorem readNext_goto (curr : ℕ) : (m.goto t (.readNext layout curr)).advance profile t =
    some (m.goto t (visit layout curr (m.heap.next curr))) := by
  simp only [Machine.advance, goto_pc_self, goto_goto, goto_heap]

theorem readSize_goto (prev curr : ℕ) : (m.goto t (.readSize layout prev curr)).advance profile t =
    some (if blockSize layout ≤ m.heap.size curr then m.goto t (.takeNext layout prev curr)
      else m.goto t (.readNext layout curr)) := by
  simp only [Machine.advance, goto_pc_self, Machine.readSize, goto_goto, goto_heap]

/-- The loop of one thread finds what the walk finds. -/
theorem search_alone {fuel prev curr : ℕ} {out : ℕ × ℕ}
    (h : m.heap.search (blockSize layout) (blockAlign layout) fuel prev curr = some out) :
    Alone profile t (m.goto t (visit layout prev curr))
      (m.goto t (if out.2 = 0 then .bumpLoad layout else .takeNext layout out.1 out.2)) := by
  induction fuel generalizing prev curr with
  | zero => cases h
  | succ fuel ih =>
    rw [State.search] at h
    split_ifs at h with hzero hfits
    · cases h
      rw [visit, if_pos hzero, if_pos rfl]
      exact Alone.refl
    · cases h
      rw [visit, if_neg hzero, if_pos hfits.1, if_neg hzero]
      refine Alone.refl.head ?_
      rw [readSize_goto, if_pos hfits.2]
    · have hnext : Alone profile t (m.goto t (.readNext layout curr))
          (m.goto t (if out.2 = 0 then .bumpLoad layout else .takeNext layout out.1 out.2)) :=
        (ih h).head (readNext_goto curr)
      by_cases halign : curr % blockAlign layout = 0
      · rw [visit, if_neg hzero, if_pos halign]
        refine hnext.head ?_
        rw [readSize_goto, if_neg fun hsize => hfits ⟨halign, hsize⟩]
      · rw [visit, if_neg hzero, if_neg halign]
        exact hnext

/-- The bump loop of one thread succeeds at its first exchange. -/
theorem bump_alone {p : ℕ} {heap : State} (h : m.heap.bump profile layout = some (p, heap)) :
    Alone profile t (m.goto t (.bumpLoad layout)) (m.grant t heap ⟨p, layout⟩) := by
  obtain ⟨range, hrange, hout⟩ := Option.map_eq_some_iff.mp h
  cases range with
  | none =>
    cases hout
    refine Alone.refl.head ?_
    simp only [Machine.advance, goto_pc_self, Machine.attempt, goto_heap, hrange, Option.map_some,
      goto_goto]
    rfl
  | some range =>
    obtain ⟨allocStart, allocEnd⟩ := range
    cases hout
    have hexchange : (m.goto t (.exchange layout m.heap.bumpNext p allocEnd)).advance
        profile t = some (m.grant t { m.heap with bumpNext := allocEnd } ⟨p, layout⟩) := by
      simp only [Machine.advance, goto_pc_self, Machine.exchange, goto_heap, if_true, grant_goto]
    refine (Alone.refl.head hexchange).head ?_
    simp only [Machine.advance, goto_pc_self, Machine.attempt, goto_heap, hrange, Option.map_some,
      goto_goto]

/-- A call of `alloc` that runs alone returns the pointer and leaves the heap of the
function `alloc`. -/
theorem alloc_alone {p : ℕ} {heap : State} (hpc : m.pc t = .allocHead layout)
    (h : m.heap.alloc profile layout = some (p, heap)) :
    Alone profile t m (m.grant t heap ⟨p, layout⟩) := by
  obtain ⟨⟨prev, curr⟩, hwalk, h⟩ := Option.bind_eq_some_iff.mp h
  have hhead : m.advance profile t = some (m.goto t (visit layout 0 m.heap.freeList)) := by
    simp only [Machine.advance, hpc]
  have hsearch := (search_alone hwalk).head hhead
  by_cases hzero : curr = 0
  · simp only [hzero, if_true] at h hsearch
    exact hsearch.trans (bump_alone h)
  · simp only [hzero, if_false] at h hsearch
    cases h
    have hunlink : (m.goto t (.unlink layout prev p (m.heap.next p))).advance profile t =
        some (m.grant t (m.heap.writeLink prev (m.heap.next p)) ⟨p, layout⟩) := by
      simp only [Machine.advance, goto_pc_self, Machine.unlink, goto_heap, grant_goto]
    refine hsearch.trans ((Alone.refl.head hunlink).head ?_)
    simp only [Machine.advance, goto_pc_self, goto_goto, goto_heap]

/-- A call of `dealloc` that runs alone leaves the heap of the function `dealloc`. -/
theorem dealloc_alone (hpc : m.pc t = .freeHead block) (hne : block.ptr ≠ 0) :
    Alone profile t m { m.goto t .idle with
      heap := m.heap.dealloc block.ptr block.layout
      freeing := m.freeing.erase (t, block)
      freed := block.ptr :: m.freed } := by
  have hread : m.advance profile t = some (m.goto t (.freeSize block m.heap.freeList)) := by
    simp only [Machine.advance, hpc]
  let m₁ := m.goto t (.freeSize block m.heap.freeList)
  let m₂ := m₁.freeSize t block m.heap.freeList
  let m₃ := m₂.freeNext t block m.heap.freeList
  have hsize : m₁.advance profile t = some m₂ := by
    simp only [m₁, m₂, Machine.advance, goto_pc_self]
  have hnext : m₂.advance profile t = some m₃ := by
    have hpc₂ : m₂.pc t = .freeNext block m.heap.freeList := goto_pc_self _
    simp only [m₃, Machine.advance, hpc₂]
  have hset : m₃.advance profile t = some (m₃.freeSet t block) := by
    have hpc₃ : m₃.pc t = .freeSet block := goto_pc_self _
    simp only [Machine.advance, hpc₃]
  have hend : m₃.freeSet t block = { m.goto t .idle with
      heap := m.heap.dealloc block.ptr block.layout
      freeing := m.freeing.erase (t, block)
      freed := block.ptr :: m.freed } := by
    rw [State.dealloc, if_neg hne]
    simp only [m₁, m₂, m₃, Machine.freeSet, Machine.freeNext, Machine.freeSize, Machine.goto,
      Function.update_idem]
  exact ((((Alone.refl.head (hset.trans (congrArg some hend))).head hnext).head hsize).head hread)

end OsCamp.FreeListAlone
