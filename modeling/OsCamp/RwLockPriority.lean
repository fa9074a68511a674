import OsCamp.RwLockInvariant

/-!
Writer priority. One waiting bit stands for all waiting writers, and dropping a
write guard clears it. As long as no write guard is dropped while a writer
waits, no reader is admitted past a waiting writer; each such drop lets the
next reader in.
-/

set_option autoImplicit false

namespace OsCamp.RwLockPriority

open Execution RwLock RwLockWord RwLockInvariant

variable {T : Type*}

/-- The next step of `t` is a successful exchange of `read`. -/
def ReadSucceeds (s : State T) (t : T) : Prop := ∃ seen, s.pc t = .readCas seen ∧ s.word = seen

/-- Some thread has announced itself as a writer and has not acquired yet. -/
def AnyWaiting (s : State T) : Prop := ∃ u, Waiting (s.pc u)

/-- The step does not drop a write guard past a waiting writer. -/
def NoDropPastWaiting (s : State T) (a : Action T) : Prop :=
  ∀ t, a = .dropWrite t → ¬ AnyWaiting s

/-- Some flag keeps readers out. -/
def Blocked (s : State T) : Prop := s.word &&& (writerHolding ||| writerWaiting) ≠ 0

variable {s s' : State T}

theorem readSucceeds_not_blocked (hinv : Inv s) {t : T} (h : ReadSucceeds s t) :
    ¬ Blocked s := by
  obtain ⟨seen, hpc, hword⟩ := h
  obtain ⟨hencoded, hlt, -⟩ := hinv.readCas_word hpc hword
  rw [Blocked, hencoded, not_not, and_flags_eq_zero_iff (by omega)]
  exact ⟨rfl, rfl⟩

variable [DecidableEq T]

/-- A move that takes no thread into the waiting state adds no waiting thread. -/
theorem anyWaiting_of_goto {t : T} {pc : Pc} (hpc : Waiting pc → Waiting (s.pc t))
    (h : AnyWaiting (s.goto t pc)) : AnyWaiting s := by
  obtain ⟨u, hu⟩ := h
  rw [goto_pc] at hu
  split_ifs at hu
  · exact ⟨t, hpc hu⟩
  · exact ⟨u, hu⟩

theorem effect_blocked (hinv : Inv s) (he : Effect s s') (hblock : AnyWaiting s → Blocked s)
    (hwait : AnyWaiting s') : Blocked s' := by
  cases he with
  | stay => exact hblock hwait
  | move t pc hm => exact hblock (anyWaiting_of_goto hm.waiting.mp hwait)
  | acquireRead t seen hpc hword =>
    have hidle : Waiting .idle → Waiting (s.pc t) := fun h => h.elim
    have hblocked := hblock (anyWaiting_of_goto hidle hwait)
    exact absurd hblocked (readSucceeds_not_blocked hinv ⟨seen, hpc, hword⟩)
  | announce t hpc =>
    obtain ⟨waiting, hencoded, -⟩ := hinv.word
    change (s.word ||| writerWaiting) &&& (writerHolding ||| writerWaiting) ≠ 0
    rw [hencoded, encode_or_waiting hinv.readers_lt, Ne, and_flags_eq_zero_iff hinv.readers_lt]
    simp
  | acquireWrite t hpc hword =>
    change writerHolding &&& (writerHolding ||| writerWaiting) ≠ 0
    decide
  | dropRead hpos =>
    obtain ⟨waiting, hencoded, -⟩ := hinv.word
    have hlt := hinv.readers_lt
    have hold := hblock hwait
    change (s.word - 1) &&& (writerHolding ||| writerWaiting) ≠ 0
    rw [Blocked, hencoded, and_flags_eq hlt] at hold
    rw [hencoded, encode_sub_one hpos hlt, and_flags_eq (by omega)]
    exact hold

/-- Along runs that drop no write guard past a waiting writer, waiting blocks readers. -/
theorem reach_blocked (h : Reach step NoDropPastWaiting State.new s) :
    Inv s ∧ (AnyWaiting s → Blocked s) := by
  refine Reach.invariant (I := fun s => Inv s ∧ (AnyWaiting s → Blocked s)) ⟨inv_new, ?_⟩ ?_ h
  · intro hwait
    obtain ⟨u, hu⟩ := hwait
    exact hu.elim
  · intro s a s' hi hok hs
    obtain ⟨hinv, hblock⟩ := hi
    refine ⟨hinv.step hs, ?_⟩
    rcases step_cases hs with he | ⟨t, hdrop, -, hs'⟩
    · exact effect_blocked hinv he hblock
    · intro hwait
      rw [hs'] at hwait
      exact absurd hwait (hok t hdrop)

/-- Right after a drop past a waiting writer the next reader is admitted. -/
theorem read_after_drop (hinv : Inv s) {t : T} (hidle : s.pc t = .idle)
    (hpos : 0 < s.writeGuards) (hwait : AnyWaiting s) :
    ∃ s₁ s₂, step s (.dropWrite t) = some s₁ ∧
      run step s₁ [.beginRead t, .advance t] = some s₂ ∧ ReadSucceeds s₂ t ∧ AnyWaiting s₂ := by
  obtain ⟨waiting, hencoded, -⟩ := hinv.word
  have hword : s.dropWrite.word = 0 := by
    change s.word &&& ~~~(writerHolding ||| writerWaiting) = 0
    rw [hencoded, encode_and_not_flags hinv.readers_lt, hinv.exclusive hpos, zero_eq_encode]
  have hload : (s.dropWrite.goto t .readLoad).readLoad t =
      (s.dropWrite.goto t .readLoad).goto t (.readCas 0) := by
    have hword' : (s.dropWrite.goto t .readLoad).word = 0 := hword
    unfold State.readLoad
    rw [hword', if_neg (by decide), if_neg (by decide)]
  refine ⟨s.dropWrite, (s.dropWrite.goto t .readLoad).goto t (.readCas 0), ?_, ?_, ?_, ?_⟩
  · simp [step, hidle, hpos]
  · have hpc : s.dropWrite.pc t = .idle := hidle
    simp only [run, step, hpc, if_true, Option.bind_some, State.advance, goto_pc, hload]
  · exact ⟨0, by rw [goto_pc, if_pos rfl], hword⟩
  · obtain ⟨u, hu⟩ := hwait
    have hut : u ≠ t := by
      intro heq
      rw [heq, hidle] at hu
      exact hu.elim
    refine ⟨u, ?_⟩
    rw [goto_pc, if_neg hut, goto_pc, if_neg hut]
    exact hu

/-- No reader passes a waiting writer in any run in which no write guard is
dropped while a writer waits; and from every reachable state in which one is
dropped so, the dropping thread itself can read past the waiting writer. -/
theorem writerPriority_without_drop (T : Type*) [DecidableEq T] :
    (∀ s : State T, Reach step NoDropPastWaiting State.new s →
      ∀ t, ReadSucceeds s t → ¬ AnyWaiting s) ∧
    (∀ s : State T, Reachable step State.new s → ∀ t, s.pc t = .idle → 0 < s.writeGuards →
      AnyWaiting s → ∃ s₁ s₂, step s (.dropWrite t) = some s₁ ∧
        run step s₁ [.beginRead t, .advance t] = some s₂ ∧ ReadSucceeds s₂ t ∧
        AnyWaiting s₂) := by
  constructor
  · intro s h t hread hwait
    obtain ⟨hinv, hblock⟩ := reach_blocked h
    exact readSucceeds_not_blocked hinv hread (hblock hwait)
  · intro s h t hidle hpos hwait
    exact read_after_drop (Inv.reachable h) hidle hpos hwait

/-- A writer announces itself, acquires and drops its guard with nobody waiting; then a
reader is admitted. -/
theorem writerPriority_two_threads :
    ∃ s, run step (State.new : State (Fin 2)) [.beginWrite 0, .advance 0, .advance 0,
        .advance 0, .dropWrite 0, .beginRead 1, .advance 1] = some s ∧
      ReadSucceeds s 1 ∧ ¬ AnyWaiting s := by
  let before : List (Action (Fin 2)) := [.beginWrite 0, .advance 0, .advance 0, .advance 0]
  let after : List (Action (Fin 2)) := [.beginRead 1, .advance 1]
  obtain ⟨held, hbefore, hidle⟩ : ∃ held, run step State.new before = some held ∧
      ∀ u, held.pc u = .idle := ⟨_, rfl, by decide⟩
  have hheld : Reach step NoDropPastWaiting State.new held :=
    Reach.init.run_of_forall (by simp [before, NoDropPastWaiting]) hbefore
  have hnone : ¬ AnyWaiting held := by
    rintro ⟨u, hu⟩
    rw [hidle u] at hu
    exact hu
  have hend : (run step (State.new : State (Fin 2)) (before ++ .dropWrite 0 :: after)).map
      (fun s => (s.word, s.pc 1)) = some (0, .readCas 0) := by decide
  obtain ⟨s, hrun, hs⟩ := Option.map_eq_some_iff.mp hend
  simp only [Prod.mk.injEq] at hs
  have hread : ReadSucceeds s 1 := ⟨0, hs.2, hs.1⟩
  have hrest : run step held (.dropWrite 0 :: after) = some s := by
    rw [run_append, hbefore] at hrun
    exact hrun
  obtain ⟨dropped, hdrop, hafter⟩ := Option.bind_eq_some_iff.mp hrest
  have hdropped : Reach step NoDropPastWaiting State.new dropped :=
    Reach.step _ hheld (fun _ _ => hnone) hdrop
  have hreach : Reach step NoDropPastWaiting State.new s :=
    hdropped.run_of_forall (by simp [after, NoDropPastWaiting]) hafter
  exact ⟨s, hrun, hread, (writerPriority_without_drop (Fin 2)).1 s hreach 1 hread⟩

/-- Two writers announce themselves; the first acquires, drops its guard and so
clears the bit of the second, and a reader is admitted while the second waits. -/
theorem reader_passes_waiting_writer :
    ∃ s, run step (State.new : State (Fin 3)) [.beginWrite 0, .beginWrite 1, .advance 0,
        .advance 1, .advance 0, .advance 0, .dropWrite 0, .beginRead 2, .advance 2] = some s ∧
      Reachable step State.new s ∧ ReadSucceeds s 2 ∧ AnyWaiting s := by
  let trace : List (Action (Fin 3)) := [.beginWrite 0, .beginWrite 1, .advance 0,
    .advance 1, .advance 0, .advance 0, .dropWrite 0, .beginRead 2, .advance 2]
  have hend : (run step (State.new : State (Fin 3)) trace).map
      (fun s => (s.word, s.pc 2, s.pc 1)) = some (0, .readCas 0, .writeLoad) := by decide
  obtain ⟨s, hrun, hs⟩ := Option.map_eq_some_iff.mp hend
  simp only [Prod.mk.injEq] at hs
  obtain ⟨hword, hread, hwrite⟩ := hs
  refine ⟨s, hrun, Reach.run Reach.init hrun, ⟨0, hread, hword⟩, 1, ?_⟩
  rw [hwrite]
  trivial

end OsCamp.RwLockPriority
