import Mathlib.Algebra.Order.BigOperators.Group.Finset
import Mathlib.Data.List.Sort
import OsCamp.CoreAlloc
import OsCamp.LockedWorkers

/-!
The two programs of the mutex exercise. The counter ends at the same number in
every interleaving, and panics in every interleaving where the number does not
fit its word in a debug build. The vector has each thread once, and sorted it
does not show the order in which the threads have come.
-/

set_option autoImplicit false

namespace OsCamp.MutexCounter

open CoreAlloc Execution LockedWorkers

/-- The threads of `concurrent_counter`. -/
def concurrentCounter (profile : Profile) (nThreads countPerThread : ℕ) : Program ℕ where
  threads := nThreads
  sections _ := countPerThread
  update _ num := profile.add num 1
  init := 0

/-- The threads of `concurrent_collect`. -/
def concurrentCollect (nThreads : ℕ) : Program (List ℕ) where
  threads := nThreads
  sections _ := 1
  update i vec := some (vec ++ [i])
  init := []

/-- The last lines of `concurrent_collect`: the clone behind the mutex, sorted. -/
def sortResult : Main (List ℕ) → Main (List ℕ)
  | .returned vec => .returned vec.mergeSort
  | main => main

/-- What the counter comes to with `total` increments. -/
def counterResult (profile : Profile) (total : ℕ) : Main ℕ :=
  if profile = .debug ∧ 2 ^ 64 ≤ total then .panicked else .returned (total % 2 ^ 64)

variable {profile : Profile} {nThreads countPerThread v : ℕ} {log : List ℕ}

theorem profile_add_eq_none (profile : Profile) (x y : ℕ) :
    profile.add x y = none ↔ profile = .debug ∧ 2 ^ 64 ≤ x + y := by
  unfold Profile.add
  by_cases hfit : x + y < 2 ^ 64
  · rw [if_pos hfit]
    exact iff_of_false (Option.some_ne_none _) fun h => absurd hfit (Nat.not_lt.mpr h.2)
  · rw [if_neg hfit]
    cases profile with
    | debug => exact iff_of_true rfl ⟨rfl, Nat.le_of_not_lt hfit⟩
    | release => exact iff_of_false (Option.some_ne_none _) fun h => Profile.noConfusion h.1

theorem profile_add_one (hv : v < 2 ^ 64) {w : ℕ} (h : profile.add v 1 = some w) :
    w = (v + 1) % 2 ^ 64 ∧ (profile = .debug → w = v + 1) := by
  by_cases hfit : v + 1 < 2 ^ 64
  · cases (if_pos hfit).symm.trans h
    exact ⟨(Nat.mod_eq_of_lt hfit).symm, fun _ => rfl⟩
  · have hbig := Nat.le_of_not_lt hfit
    cases profile with
    | debug =>
      have hnone := (profile_add_eq_none .debug v 1).mpr ⟨rfl, hbig⟩
      cases hnone.symm.trans h
    | release =>
      have hwrap : Profile.add .release v 1 = some (v + 1 - 2 ^ 64) := if_neg hfit
      have hw := Option.some.inj (hwrap.symm.trans h)
      refine ⟨by omega, ?_⟩
      intro hdebug
      cases hdebug

/-- The increments one after another count the entries of the log. -/
theorem increments (h : log.foldlM (fun num _ => profile.add num 1) 0 = some v) :
    v = log.length % 2 ^ 64 ∧ (profile = .debug → v = log.length) := by
  induction log using List.reverseRecOn generalizing v with
  | nil =>
    cases h
    exact ⟨rfl, fun _ => rfl⟩
  | append_singleton log i ih =>
    rw [List.foldlM_append] at h
    obtain ⟨u, hu, hlast⟩ := Option.bind_eq_some_iff.mp h
    obtain ⟨hmod, hexact⟩ := ih hu
    have hadd : profile.add u 1 = some v := by simpa using hlast
    obtain ⟨hv, hdebug⟩ := profile_add_one (by omega) hadd
    rw [List.length_append, List.length_singleton]
    refine ⟨by omega, ?_⟩
    intro hprofile
    rw [hdebug hprofile, hexact hprofile]

theorem pushes (log : List ℕ) :
    log.foldlM (fun vec i => some (vec ++ [i])) ([] : List ℕ) = some log := by
  induction log using List.reverseRecOn with
  | nil => rfl
  | append_singleton log i ih =>
    rw [List.foldlM_append, ih]
    rfl

/-- One update that is still to come leaves the log short of all the increments. -/
theorem counter_length_lt {s : State ℕ} {i : ℕ}
    (h : Inv (concurrentCounter profile nThreads countPerThread) s log) (hi : i < nThreads)
    (hcount : log.count i < countPerThread) : log.length < nThreads * countPerThread := by
  have hlt : ∑ i ∈ Finset.range nThreads, log.count i <
      ∑ _i ∈ Finset.range nThreads, countPerThread :=
    Finset.sum_lt_sum (fun i _ => h.count_le i) ⟨i, Finset.mem_range.mpr hi, hcount⟩
  rw [Finset.sum_const, Finset.card_range, Nat.nsmul_eq_mul] at hlt
  rw [h.length_eq]
  exact hlt

theorem counter_length_eq {s : State ℕ}
    (h : Inv (concurrentCounter profile nThreads countPerThread) s log)
    (hmain : s.main = .returned v) : log.length = nThreads * countPerThread := by
  have heq : ∑ i ∈ Finset.range nThreads, log.count i =
      ∑ _i ∈ Finset.range nThreads, countPerThread :=
    Finset.sum_congr rfl fun i hi => h.returned_count hmain (Finset.mem_range.mp hi)
  rw [Finset.sum_const, Finset.card_range, Nat.nsmul_eq_mul] at heq
  rw [h.length_eq]
  exact heq

/-- The result does not depend on the interleaving. -/
theorem counter_final {s : State ℕ}
    (h : Inv (concurrentCounter profile nThreads countPerThread) s log) (hfinal : s.main.Final) :
    s.main = counterResult profile (nThreads * countPerThread) := by
  unfold counterResult
  cases hmain : s.main with
  | spawning i => rw [hmain] at hfinal; exact hfinal.elim
  | joining i => rw [hmain] at hfinal; exact hfinal.elim
  | returned v =>
    have hlength := counter_length_eq h hmain
    obtain ⟨hmod, hexact⟩ := increments (h.returned_applied hmain)
    rw [hlength] at hmod hexact
    have hfits : ¬ (profile = .debug ∧ 2 ^ 64 ≤ nThreads * countPerThread) := by
      intro hbig
      have hv := hexact hbig.1
      omega
    rw [if_neg hfits, hmod]
  | panicked =>
    obtain ⟨i, hi, hcount, hnone⟩ := h.panicked_cause hmain
    have hlength := counter_length_lt h hi hcount
    obtain ⟨hdebug, hlarge⟩ := (profile_add_eq_none profile s.value 1).mp hnone
    have hvalue := (increments h.applied).2 hdebug
    rw [if_pos ⟨hdebug, by omega⟩]

/-- Every thread has pushed its number once. -/
theorem collect_perm {s : State (List ℕ)} {vec : List ℕ}
    (h : Inv (concurrentCollect nThreads) s log) (hmain : s.main = .returned vec) :
    vec.Perm (List.range nThreads) := by
  have happlied := (pushes log).symm.trans (h.returned_applied hmain)
  cases Option.some.inj happlied
  apply List.perm_iff_count.mpr
  intro i
  rw [List.count_range]
  by_cases hi : i < nThreads
  · rw [if_pos hi]
    exact h.returned_count hmain hi
  · rw [if_neg hi]
    exact List.count_eq_zero_of_not_mem fun hmem => hi (h.lt_threads hmem)

theorem mergeSort_of_perm_range {vec : List ℕ} {n : ℕ} (h : vec.Perm (List.range n)) :
    vec.mergeSort = List.range n := by
  have hsorted : (vec.mergeSort).Pairwise (· ≤ ·) := List.pairwise_mergeSort' (· ≤ ·) vec
  apply List.Perm.eq_of_pairwise (fun a b _ _ => Nat.le_antisymm) hsorted
    List.pairwise_le_range
  exact (List.mergeSort_perm vec _).trans h

theorem collect_final {s : State (List ℕ)} (h : Inv (concurrentCollect nThreads) s log)
    (hfinal : s.main.Final) : sortResult s.main = .returned (List.range nThreads) := by
  cases hmain : s.main with
  | spawning i => rw [hmain] at hfinal; exact hfinal.elim
  | joining i => rw [hmain] at hfinal; exact hfinal.elim
  | returned vec =>
    rw [sortResult, mergeSort_of_perm_range (collect_perm h hmain)]
  | panicked =>
    obtain ⟨i, hi, hcount, hnone⟩ := h.panicked_cause hmain
    exact absurd hnone (Option.some_ne_none _)

/-- In every interleaving of `concurrent_counter`: at most one thread is in the
critical section, some thread can go on until the main thread is at its end, the
end comes, and it is the same one. A panic of the main thread is that of the join
of a panicked thread, which has poisoned the mutex. -/
theorem concurrentCounter_run {l : List Action} {s : State ℕ}
    (hrun : run (step (concurrentCounter profile nThreads countPerThread))
      (initial (concurrentCounter profile nThreads countPerThread)) l = some s) :
    (∀ i j, (s.thread i).holds → (s.thread j).holds → i = j) ∧
      (s.main.Final ∨
        ∃ a s', step (concurrentCounter profile nThreads countPerThread) s a = some s') ∧
      l.length ≤ nThreads + 2 + nThreads * (3 * countPerThread + 2) ∧
      (s.main.Final → s.main = counterResult profile (nThreads * countPerThread)) ∧
      (s.main = .panicked → s.poisoned = true ∧ ∃ i < nThreads, s.thread i = .panicked) ∧
      ∀ s', step (concurrentCounter profile nThreads countPerThread) s .read = some s' →
        s'.main = .returned s.value := by
  obtain ⟨log, h⟩ := Inv.reach (Reach.init.run hrun)
  refine ⟨?_, progress h, ?_, counter_final h, h.joined.panicked, fun s' => h.read_returns⟩
  · intro i j hi hj
    by_contra hij
    exact h.alone hj hij hi
  · have hlength := run_length_le_measure hrun
    have hsum : ∑ _i ∈ Finset.range nThreads, (3 * countPerThread + 2) =
        nThreads * (3 * countPerThread + 2) := by
      rw [Finset.sum_const, Finset.card_range, Nat.nsmul_eq_mul]
    rw [← hsum]
    exact hlength

/-- Two threads that increment once each, the second inside while the first one ends. -/
theorem concurrentCounter_run_two_threads : ∃ l s,
    run (step (concurrentCounter .debug 2 1)) (initial (concurrentCounter .debug 2 1)) l =
      some s ∧ s.main = .returned 2 ∧
      (s.main.Final → s.main = counterResult .debug (2 * 1)) := by
  have hmain : (run (step (concurrentCounter .debug 2 1))
      (initial (concurrentCounter .debug 2 1))
      [.spawn, .lock 0, .spawn, .update 0, .unlock 0, .lock 1, .finish 0, .join, .update 1,
        .unlock 1, .finish 1, .join, .read]).map (·.main) = some (.returned 2) := by
    decide +kernel
  obtain ⟨s, hrun, hs⟩ := Option.map_eq_some_iff.mp hmain
  exact ⟨_, s, hrun, hs, (concurrentCounter_run hrun).2.2.2.1⟩

/-- In every interleaving of `concurrent_collect` no thread panics, and the sorted vector
is the same. -/
theorem concurrentCollect_run {l : List Action} {s : State (List ℕ)}
    (hrun : run (step (concurrentCollect nThreads)) (initial (concurrentCollect nThreads)) l =
      some s) :
    (s.main.Final ∨ ∃ a s', step (concurrentCollect nThreads) s a = some s') ∧
      l.length ≤ nThreads + 2 + nThreads * 5 ∧
      (s.main ≠ .panicked ∧ ∀ i, s.thread i ≠ .panicked) ∧
      (s.main.Final → sortResult s.main = .returned (List.range nThreads)) := by
  obtain ⟨log, h⟩ := Inv.reach (Reach.init.run hrun)
  have hthreads := h.not_panicked fun _ _ => Option.some_ne_none _
  have hmain : s.main ≠ .panicked := by
    intro hpanicked
    obtain ⟨-, i, -, hthread⟩ := h.joined.panicked hpanicked
    exact hthreads i hthread
  refine ⟨progress h, ?_, ⟨hmain, hthreads⟩, collect_final h⟩
  have hlength := run_length_le_measure hrun
  have hsum : ∑ _i ∈ Finset.range nThreads, (3 * 1 + 2) = nThreads * 5 := by
    rw [Finset.sum_const, Finset.card_range, Nat.nsmul_eq_mul]
  rw [← hsum]
  exact hlength

theorem concurrentCollect_run_second_first : ∃ l s,
    run (step (concurrentCollect 2)) (initial (concurrentCollect 2)) l = some s ∧
      s.main = .returned [1, 0] ∧
      (s.main.Final → sortResult s.main = .returned (List.range 2)) := by
  have hmain : (run (step (concurrentCollect 2)) (initial (concurrentCollect 2))
      [.spawn, .spawn, .lock 1, .update 1, .unlock 1, .lock 0, .update 0, .finish 1, .unlock 0,
        .finish 0, .join, .join, .read]).map (·.main) = some (.returned [1, 0]) := by
    decide +kernel
  obtain ⟨s, hrun, hs⟩ := Option.map_eq_some_iff.mp hmain
  exact ⟨_, s, hrun, hs, (concurrentCollect_run hrun).2.2.2⟩

end OsCamp.MutexCounter
