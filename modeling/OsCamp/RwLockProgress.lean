import OsCamp.RwLockPriority

/-!
The lock cannot wedge. The waiting bit is never stale, and a word that no guard
holds is 0 or the waiting bit alone: from either, a writer that runs alone
acquires within three of its own steps, and a reader does when nobody waits.
-/

set_option autoImplicit false

namespace OsCamp.RwLockProgress

open Execution RwLock RwLockWord RwLockInvariant RwLockPriority

/-- Inside a call of `write`. -/
def InWrite (pc : Pc) : Prop := pc = .writeAnnounce ∨ Waiting pc

/-- Inside a call of `read`. -/
def InRead (pc : Pc) : Prop := pc = .readLoad ∨ ∃ seen, pc = .readCas seen

variable {T : Type*} [DecidableEq T] {s s' : State T} {t : T}

/-- Running alone, `t` ends its call within `n` steps in a state that meets `P`. -/
def Within (P : State T → Prop) (s : State T) (t : T) (n : ℕ) : Prop :=
  ∃ k, k ≤ n ∧ ∃ s', run step s (List.replicate k (.advance t)) = some s' ∧
    P s' ∧ s'.pc t = .idle

theorem Within.step {P : State T → Prop} {n : ℕ} (hs : s.advance t = some s')
    (h : Within P s' t n) : Within P s t (n + 1) := by
  obtain ⟨k, hk, s'', hrun, hp, hpc⟩ := h
  refine ⟨k + 1, by omega, s'', ?_, hp, hpc⟩
  simp only [List.replicate_succ, run, RwLock.step, hs, Option.bind_some]
  exact hrun

theorem Within.last {P : State T → Prop} (hs : s.advance t = some s') (hp : P s')
    (hpc : s'.pc t = .idle) : Within P s t 1 := by
  refine ⟨1, Nat.le_refl 1, s', ?_, hp, hpc⟩
  simp only [List.replicate_one, run, RwLock.step, hs, Option.bind_some]

theorem Within.mono {P : State T → Prop} {m n : ℕ} (h : Within P s t m) (hmn : m ≤ n) :
    Within P s t n := by
  obtain ⟨k, hk, hrest⟩ := h
  exact ⟨k, by omega, hrest⟩

def HoldsWrite (s : State T) : Prop := s.writeGuards = 1

def HoldsRead (s : State T) : Prop := s.readGuards = 1

section Writer

theorem acquireWrite_within (hs : s.advance t = some (s.acquireWrite t))
    (hfree : s.writeGuards = 0) : Within HoldsWrite s t 1 := by
  refine Within.last hs ?_ ?_
  · change s.writeGuards + 1 = 1
    omega
  · change (s.goto t .idle).pc t = .idle
    rw [goto_pc, if_pos rfl]

/-- On the waiting bit alone the first exchange succeeds. -/
theorem casWaiting_success {seen : BitVec 32} (hpc : s.pc t = .writeCasWaiting seen)
    (hword : s.word = seen ||| writerWaiting) (hfree : s.writeGuards = 0) :
    Within HoldsWrite s t 1 := by
  apply acquireWrite_within _ hfree
  simp only [State.advance, hpc, State.writeCasWaiting, if_pos hword]

theorem casFree_success (hpc : s.pc t = .writeCasFree) (hword : s.word = 0)
    (hfree : s.writeGuards = 0) : Within HoldsWrite s t 1 := by
  apply acquireWrite_within _ hfree
  simp only [State.advance, hpc, State.writeCasFree, if_pos hword]

/-- From the first exchange on: it succeeds, or the word is 0 and the second does. -/
theorem casWaiting_within {seen : BitVec 32} (hpc : s.pc t = .writeCasWaiting seen)
    (hseen : seen ||| writerWaiting = writerWaiting) (hword : s.word = 0 ∨ s.word = writerWaiting)
    (hfree : s.writeGuards = 0) : Within HoldsWrite s t 2 := by
  rcases hword with hzero | hwait
  · have hne : ¬ s.word = seen ||| writerWaiting := by
      rw [hzero, hseen]
      decide
    have hs : s.advance t = some (s.goto t .writeCasFree) := by
      simp only [State.advance, hpc, State.writeCasWaiting, if_neg hne]
    refine Within.step hs (casFree_success ?_ hzero hfree)
    rw [goto_pc, if_pos rfl]
  · exact (casWaiting_success hpc (by rw [hwait, hseen]) hfree).mono (by omega)

/-- The load passes its test on a free word and remembers it. -/
theorem writeLoad_step (hpc : s.pc t = .writeLoad)
    (hword : s.word = 0 ∨ s.word = writerWaiting) :
    s.advance t = some (s.goto t (.writeCasWaiting s.word)) ∧
      s.word ||| writerWaiting = writerWaiting := by
  have hfree : s.word &&& (readerMask ||| writerHolding) = 0 ∧
      s.word ||| writerWaiting = writerWaiting := by
    rcases hword with hzero | hwait
    · rw [hzero]
      decide
    · rw [hwait]
      decide
  refine ⟨?_, hfree.2⟩
  simp only [State.advance, hpc, State.writeLoad, hfree.1, ne_eq, not_true_eq_false, if_false]

theorem writeLoad_within (hpc : s.pc t = .writeLoad)
    (hword : s.word = 0 ∨ s.word = writerWaiting) (hfree : s.writeGuards = 0) :
    Within HoldsWrite s t 3 := by
  obtain ⟨hs, hseen⟩ := writeLoad_step hpc hword
  refine Within.step hs (casWaiting_within ?_ hseen hword hfree)
  rw [goto_pc, if_pos rfl]

/-- With the waiting bit set the load is followed by a successful first exchange. -/
theorem writeLoad_waiting (hpc : s.pc t = .writeLoad) (hword : s.word = writerWaiting)
    (hfree : s.writeGuards = 0) : Within HoldsWrite s t 2 := by
  obtain ⟨hs, hseen⟩ := writeLoad_step hpc (Or.inr hword)
  have hpc' : (s.goto t (.writeCasWaiting s.word)).pc t = .writeCasWaiting s.word := by
    rw [goto_pc, if_pos rfl]
  refine Within.step hs (casWaiting_success hpc' ?_ hfree)
  change s.word = s.word ||| writerWaiting
  rw [hseen, hword]

theorem casFree_within (hpc : s.pc t = .writeCasFree)
    (hword : s.word = 0 ∨ s.word = writerWaiting) (hfree : s.writeGuards = 0) :
    Within HoldsWrite s t 3 := by
  rcases hword with hzero | hwait
  · exact (casFree_success hpc hzero hfree).mono (by omega)
  · have hne : ¬ s.word = 0 := by
      rw [hwait]
      decide
    have hs : s.advance t = some (s.goto t .writeLoad) := by
      simp only [State.advance, hpc, State.writeCasFree, if_neg hne]
    refine Within.step hs (writeLoad_waiting ?_ hwait hfree)
    rw [goto_pc, if_pos rfl]

theorem announce_within (hpc : s.pc t = .writeAnnounce)
    (hword : s.word = 0 ∨ s.word = writerWaiting) (hfree : s.writeGuards = 0) :
    Within HoldsWrite s t 3 := by
  have hs : s.advance t = some (s.writeAnnounce t) := by
    simp only [State.advance, hpc]
  refine Within.step hs (writeLoad_waiting ?_ ?_ hfree)
  · change (s.goto t .writeLoad).pc t = .writeLoad
    rw [goto_pc, if_pos rfl]
  · change s.word ||| writerWaiting = writerWaiting
    rcases hword with hzero | hwait
    · rw [hzero]
      decide
    · rw [hwait, BitVec.or_self]

/-- Every writer that runs alone on a free word acquires within three steps. -/
theorem write_within (hinv : Inv s) (hpc : InWrite (s.pc t))
    (hword : s.word = 0 ∨ s.word = writerWaiting) (hfree : s.writeGuards = 0) :
    Within HoldsWrite s t 3 := by
  cases h : s.pc t with
  | idle => simp [InWrite, h, Waiting] at hpc
  | readLoad => simp [InWrite, h, Waiting] at hpc
  | readCas seen => simp [InWrite, h, Waiting] at hpc
  | writeAnnounce => exact announce_within h hword hfree
  | writeLoad => exact writeLoad_within h hword hfree
  | writeCasWaiting seen =>
    obtain ⟨waiting, hseen⟩ := hinv.writeCas t seen h
    have hor : seen ||| writerWaiting = writerWaiting := by
      rw [hseen, encode_or_waiting (by omega)]
      decide
    exact (casWaiting_within h hor hword hfree).mono (by omega)
  | writeCasFree => exact casFree_within h hword hfree

end Writer

section Reader

theorem readCas_success (hpc : s.pc t = .readCas 0) (hword : s.word = 0)
    (hfree : s.readGuards = 0) : Within HoldsRead s t 1 := by
  have hs : s.advance t = some (s.acquireRead t (0 + 1)) := by
    simp only [State.advance, hpc, State.readCas, if_pos hword]
  refine Within.last hs ?_ ?_
  · change s.readGuards + 1 = 1
    omega
  · change (s.goto t .idle).pc t = .idle
    rw [goto_pc, if_pos rfl]

theorem readLoad_within (hpc : s.pc t = .readLoad) (hword : s.word = 0)
    (hfree : s.readGuards = 0) : Within HoldsRead s t 2 := by
  have hs : s.advance t = some (s.goto t (.readCas 0)) := by
    simp only [State.advance, hpc, State.readLoad, hword]
    rw [if_neg (by decide), if_neg (by decide)]
  refine Within.step hs (readCas_success ?_ hword hfree)
  rw [goto_pc, if_pos rfl]

/-- Every reader that runs alone on the word 0 acquires within three steps. -/
theorem read_within (hpc : InRead (s.pc t)) (hword : s.word = 0) (hfree : s.readGuards = 0) :
    Within HoldsRead s t 3 := by
  rcases hpc with hload | ⟨seen, hcas⟩
  · exact (readLoad_within hload hword hfree).mono (by omega)
  · by_cases hseen : seen = 0
    · rw [hseen] at hcas
      exact (readCas_success hcas hword hfree).mono (by omega)
    · have hne : ¬ s.word = seen := by
        rw [hword]
        exact Ne.symm hseen
      have hs : s.advance t = some (s.goto t .readLoad) := by
        simp only [State.advance, hcas, State.readCas, if_neg hne]
      refine Within.step hs (readLoad_within ?_ hword hfree)
      rw [goto_pc, if_pos rfl]

end Reader

/-- In every reachable state a set waiting bit belongs to a waiting thread; and
when no guard is live, every thread inside `write` acquires within three of its
own steps, as does every thread inside `read` when nobody waits. -/
theorem cannot_wedge (h : Reachable step State.new s) :
    (s.word &&& writerWaiting ≠ 0 → AnyWaiting s) ∧
    (s.readGuards = 0 → s.writeGuards = 0 →
      (∀ t, InWrite (s.pc t) → Within HoldsWrite s t 3) ∧
      (¬ AnyWaiting s → ∀ t, InRead (s.pc t) → Within HoldsRead s t 3)) := by
  have hinv := Inv.reachable h
  obtain ⟨waiting, hencoded, hwait⟩ := hinv.word
  have hstale : s.word &&& writerWaiting ≠ 0 → AnyWaiting s := by
    rw [hencoded, and_writerWaiting_ne_zero_iff hinv.readers_lt]
    exact hwait
  refine ⟨hstale, ?_⟩
  intro hr hw
  have hword : s.word = encode 0 false waiting := by
    rw [hencoded, hr, hw]
    rfl
  constructor
  · intro t ht
    refine write_within hinv ht ?_ hw
    cases waiting with
    | false => exact Or.inl hword
    | true => exact Or.inr hword
  · intro hnone t ht
    have hfalse : waiting = false := by
      cases waiting with
      | false => rfl
      | true => exact absurd (hwait rfl) hnone
    rw [hfalse] at hword
    exact read_within ht hword hr

theorem cannot_wedge_stale_exchange :
    ∃ s, run step (State.new : State (Fin 2)) [.beginWrite 0, .beginWrite 1, .advance 0,
        .advance 1, .advance 0, .advance 1, .advance 0, .dropWrite 0] = some s ∧
      s.pc 1 = .writeCasWaiting writerWaiting ∧ Within HoldsWrite s 1 3 := by
  let trace : List (Action (Fin 2)) := [.beginWrite 0, .beginWrite 1, .advance 0,
    .advance 1, .advance 0, .advance 1, .advance 0, .dropWrite 0]
  have hend : (run step (State.new : State (Fin 2)) trace).map
      (fun s => (s.readGuards, s.writeGuards, s.pc 1)) =
        some (0, 0, .writeCasWaiting writerWaiting) := by decide
  obtain ⟨s, hrun, hs⟩ := Option.map_eq_some_iff.mp hend
  simp only [Prod.mk.injEq] at hs
  obtain ⟨hr, hw, hpc⟩ := hs
  have hwrite : InWrite (s.pc 1) := Or.inr (by rw [hpc]; trivial)
  exact ⟨s, hrun, hpc, ((cannot_wedge (Reach.run Reach.init hrun)).2 hr hw).1 1 hwrite⟩

end OsCamp.RwLockProgress
