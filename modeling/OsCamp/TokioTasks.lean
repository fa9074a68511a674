import OsCamp.AtomicCounter
import OsCamp.ForkJoin

/-!
Tasks that are all spawned before the first of them is awaited, so that their
sleeps overlap, and awaited in the order of their numbers: whatever the order in
which they complete, the results come in that order. Of tokio this is assumed:
each spawned task runs once, in any order with the others, and its handle gives
its result, or an error where it has panicked.
-/

set_option autoImplicit false

namespace OsCamp.TokioTasks

open AtomicCounter (mul)
open CoreAlloc Execution ForkJoin

/-- The tasks of `concurrent_squares`. -/
def concurrentSquares (profile : Profile) (n : ℕ) : Program ℕ where
  threads := n
  job i := mul profile i i
  unwraps := true
  inScope := false

/-- The tasks of `parallel_sleep_tasks`. -/
def parallelSleepTasks (n : ℕ) : Program ℕ where
  threads := n
  job i := some i
  unwraps := true
  inScope := false

/-- The last lines of `parallel_sleep_tasks`: the unwrapped results, sorted. -/
def sortResults : Main ℕ → Option (List ℕ)
  | .returned results => some (results.filterMap id).mergeSort
  | _ => none

variable {profile : Profile} {n i : ℕ} {l : List Action} {s : State ℕ}

theorem mul_eq_none (profile : Profile) (x y : ℕ) :
    mul profile x y = none ↔ profile = .debug ∧ 2 ^ 64 ≤ x * y := by
  unfold mul
  by_cases hfit : x * y < 2 ^ 64
  · rw [if_pos hfit]
    exact iff_of_false (Option.some_ne_none _) fun h => absurd hfit (Nat.not_lt.mpr h.2)
  · rw [if_neg hfit]
    cases profile with
    | debug => exact iff_of_true rfl ⟨rfl, Nat.le_of_not_lt hfit⟩
    | release => exact iff_of_false (Option.some_ne_none _) fun h => Profile.noConfusion h.1

theorem mul_eq_some {x y : ℕ} (h : mul profile x y ≠ none) :
    mul profile x y = some (x * y % 2 ^ 64) := by
  by_cases hfit : x * y < 2 ^ 64
  · rw [Nat.mod_eq_of_lt hfit]
    exact if_pos hfit
  · cases profile with
    | debug => exact absurd (if_neg hfit) h
    | release => exact if_neg hfit

theorem square_lt_iff (i : ℕ) : i * i < 2 ^ 64 ↔ i < 2 ^ 32 := by
  have hsquare : (2 : ℕ) ^ 64 = 2 ^ 32 * 2 ^ 32 := by norm_num
  rw [hsquare]
  exact Nat.mul_self_lt_mul_self_iff

/-- In a debug build the first square that overflows is that of 2^32. -/
theorem concurrentSquares_fails (profile : Profile) (n : ℕ) :
    (concurrentSquares profile n).Fails ↔ profile = .debug ∧ 2 ^ 32 < n := by
  constructor
  · intro h
    obtain ⟨-, i, hi, hnone⟩ := h
    obtain ⟨hdebug, hlarge⟩ := (mul_eq_none profile i i).mp hnone
    have hnot := (square_lt_iff i).not.mp (Nat.not_lt.mpr hlarge)
    exact ⟨hdebug, Nat.lt_of_le_of_lt (Nat.le_of_not_lt hnot) hi⟩
  · intro h
    obtain ⟨hdebug, hn⟩ := h
    have hlarge := Nat.le_of_not_lt ((square_lt_iff (2 ^ 32)).not.mpr (Nat.lt_irrefl _))
    have hnone := (mul_eq_none profile (2 ^ 32) (2 ^ 32)).mpr ⟨hdebug, hlarge⟩
    exact ⟨rfl, 2 ^ 32, hn, hnone⟩

/-- Where the main task awaits, every task has been spawned. -/
theorem spawned_of_joining {P : Program ℕ} (h : Inv P s) {results : List (Option ℕ)}
    (hmain : s.main = .joining i results) {j : ℕ} (hj : j < P.threads) : s.thread j ≠ .unborn := by
  intro hunborn
  have hplaced := h.placed j
  rw [hunborn, hmain] at hplaced
  cases hplaced with
  | unborn le => exact absurd hj (Nat.not_lt.mpr le)

/-- In every interleaving of `concurrent_squares` the squares come in order. -/
theorem concurrentSquares_run
    (hrun : run (step (concurrentSquares profile n)) (initial (concurrentSquares profile n)) l =
      some s) :
    (s.main.Final ∨ ∃ a s', step (concurrentSquares profile n) s a = some s') ∧
      l.length ≤ 3 * n + 2 ∧
      (∀ i results, s.main = .joining i results → ∀ j < n, s.thread j ≠ .unborn) ∧
      (s.main.Final → s.main = if profile = .debug ∧ 2 ^ 32 < n then .panicked
        else .returned ((List.range n).map fun i => some (i * i % 2 ^ 64))) := by
  have h := run_settles hrun
  refine ⟨h.progress, h.bounded, ?_, ?_⟩
  · intro i results hmain j hj
    exact spawned_of_joining (Inv.run hrun) hmain hj
  · intro hfinal
    have hmain := h.final hfinal
    have hfails := concurrentSquares_fails profile n
    unfold outcome at hmain
    rw [hmain]
    by_cases hf : (concurrentSquares profile n).Fails
    · rw [if_pos hf, if_pos (hfails.mp hf)]
    · rw [if_neg hf, if_neg fun hbig => hf (hfails.mpr hbig)]
      congr 1
      apply List.map_congr_left
      intro i hi
      apply mul_eq_some
      intro hnone
      exact hf ⟨rfl, i, List.mem_range.mp hi, hnone⟩

/-- Three tasks that complete in the order 2, 0, 1. -/
theorem concurrentSquares_run_last_first : ∃ l s,
    run (step (concurrentSquares .debug 3)) (initial (concurrentSquares .debug 3)) l = some s ∧
      s.main = .returned [some 0, some 1, some 4] ∧
      (s.main.Final → s.main = if Profile.debug = .debug ∧ 2 ^ 32 < 3 then .panicked
        else .returned ((List.range 3).map fun i => some (i * i % 2 ^ 64))) := by
  have hmain : (run (step (concurrentSquares .debug 3)) (initial (concurrentSquares .debug 3))
      [.spawn, .spawn, .spawn, .finish 2, .finish 0, .join, .finish 1, .join, .join]).map (·.main) =
        some (.returned [some 0, some 1, some 4]) := by
    decide +kernel
  obtain ⟨s, hrun, hs⟩ := Option.map_eq_some_iff.mp hmain
  exact ⟨_, s, hrun, hs, (concurrentSquares_run hrun).2.2.2⟩

/-- The sort at the end of `parallel_sleep_tasks` finds the results in order. -/
theorem parallelSleepTasks_final
    (hrun : run (step (parallelSleepTasks n)) (initial (parallelSleepTasks n)) l = some s)
    (hfinal : s.main.Final) : sortResults s.main = some (List.range n) := by
  have hmain := (run_settles hrun).final hfinal
  have hsound : ¬ (parallelSleepTasks n).Fails := by
    intro hfails
    obtain ⟨-, i, -, hnone⟩ := hfails
    exact Option.some_ne_none i hnone
  unfold outcome at hmain
  rw [if_neg hsound] at hmain
  have hresults : s.main = .returned ((List.range n).map some) := hmain
  have hunwrapped : ((List.range n).map some).filterMap id = List.range n := by
    rw [List.filterMap_map]
    exact List.filterMap_some
  rw [hresults, sortResults, hunwrapped, List.mergeSort_of_pairwise]
  exact List.pairwise_le_range.imp fun hle => decide_eq_true hle

end OsCamp.TokioTasks
