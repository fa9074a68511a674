import OsCamp.WatchProgress

/-!
The choice of the next exercise in `watch_mode`. The search goes once around the list and
ends at the exercise it starts from. A passing test marks its exercise and jumps, so that
every further jump of the same chain leaves one exercise less to do.
-/

set_option autoImplicit false

namespace OsCamp.WatchJumps

open Execution WatchMode WatchProgress

/-- The first place behind `current`, going around and up to `current` itself, whose
exercise is not done. -/
def NextIncomplete (done : List Bool) (current next : ℕ) : Prop :=
  ∃ k, 1 ≤ k ∧ k ≤ done.length ∧ next = (current + k) % done.length ∧
    done[next]? = some false ∧
    ∀ j, 1 ≤ j → j < k → done[(current + j) % done.length]? = some true

/-- The exercise that the action jumps to by itself, if it does. -/
def jump (s : State) : Action → Option ℕ
  | .test true => findNextIncomplete s.markDone.done s.current
  | _ => none

/-- How often the actions jump by themselves. -/
def autoJumps (s : State) : List Action → ℕ
  | [] => 0
  | a :: rest =>
    (if (jump s a).isSome then 1 else 0) + (step s a).elim 0 fun s' => autoJumps s' rest

theorem findSome?_range' {α : Type*} {f : ℕ → Option α} {b : α} {start n : ℕ} :
    (List.range' start n).findSome? f = some b ↔
      ∃ k, start ≤ k ∧ k < start + n ∧ f k = some b ∧ ∀ j, start ≤ j → j < k → f j = none := by
  induction n generalizing start with
  | zero =>
    refine iff_of_false (fun h => nomatch h) ?_
    intro hfound
    obtain ⟨k, hlo, hhi, -⟩ := hfound
    omega
  | succ n ih =>
    rw [List.range'_succ]
    cases hfirst : f start with
    | some a =>
      rw [List.findSome?_cons_of_isSome (by rw [hfirst]; rfl), hfirst]
      constructor
      · intro h
        exact ⟨start, Nat.le_refl _, by omega, hfirst.trans h, fun j hj hlt => by omega⟩
      · intro hfound
        obtain ⟨k, hlo, -, hk, hbefore⟩ := hfound
        by_cases heq : k = start
        · rw [← hfirst, ← heq, hk]
        · have hnone := hbefore start (Nat.le_refl _) (by omega)
          rw [hfirst] at hnone
          cases hnone
    | none =>
      rw [List.findSome?_cons_of_isNone (by rw [hfirst]; rfl), ih]
      constructor
      · intro hfound
        obtain ⟨k, hlo, hhi, hk, hbefore⟩ := hfound
        refine ⟨k, by omega, by omega, hk, fun j hj hlt => ?_⟩
        by_cases heq : j = start
        · rw [heq, hfirst]
        · exact hbefore j (by omega) hlt
      · intro hfound
        obtain ⟨k, hlo, hhi, hk, hbefore⟩ := hfound
        have hne : k ≠ start := by
          rintro rfl
          rw [hfirst] at hk
          cases hk
        exact ⟨k, by omega, by omega, hk, fun j hj hlt => hbefore j (by omega) hlt⟩

variable {done : List Bool} {current next : ℕ}

theorem findNextIncomplete_eq_some_iff (hcurrent : current < done.length) :
    findNextIncomplete done current = some next ↔ NextIncomplete done current next := by
  unfold findNextIncomplete NextIncomplete
  rw [findSome?_range']
  have hplace : ∀ j, (current + j) % done.length < done.length :=
    fun j => Nat.mod_lt _ (by omega)
  have hdone : ∀ j, done[(current + j) % done.length]? = some true ↔
      ¬ done[(current + j) % done.length]? = some false := by
    intro j
    obtain ⟨passed, hpassed⟩ : ∃ passed, done[(current + j) % done.length]? = some passed :=
      ⟨_, List.getElem?_eq_getElem (hplace j)⟩
    rw [hpassed]
    cases passed <;> simp
  constructor
  · intro hfound
    obtain ⟨k, hlo, hhi, hk, hbefore⟩ := hfound
    split_ifs at hk with hopen
    cases hk
    refine ⟨k, hlo, by omega, rfl, hopen, fun j hj hlt => (hdone j).mpr fun hfalse => ?_⟩
    have hnone := hbefore j hj hlt
    rw [if_pos hfalse] at hnone
    cases hnone
  · intro hfound
    obtain ⟨k, hlo, hhi, rfl, hopen, hbefore⟩ := hfound
    refine ⟨k, hlo, by omega, if_pos hopen, fun j hj hlt => ?_⟩
    exact if_neg ((hdone j).mp (hbefore j hj hlt))

theorem findNextIncomplete_eq_none_iff (hcurrent : current < done.length) :
    findNextIncomplete done current = none ↔ ∀ passed ∈ done, passed = true := by
  refine ⟨findNextIncomplete_none hcurrent, fun hall => ?_⟩
  cases hfind : findNextIncomplete done current with
  | none => rfl
  | some next =>
    have hopen := findNextIncomplete_some hfind
    have hmem := List.mem_of_getElem? hopen
    cases hall false hmem

variable {s s' : State}

theorem count_false_set {i : ℕ} (h : done[i]? = some false) :
    (done.set i true).count false + 1 = done.count false := by
  obtain ⟨hlt, hi⟩ := List.getElem?_eq_some_iff.mp h
  have hpos : 0 < done.count false := List.count_pos_iff.mpr (hi ▸ List.getElem_mem hlt)
  have hadded : (if (true == false) = true then 1 else 0) = 0 := rfl
  have htaken : (if (false == false) = true then 1 else 0) = 1 := rfl
  rw [List.count_set hlt, hi, hadded, htaken]
  omega

theorem count_false_set_le (done : List Bool) (i : ℕ) :
    (done.set i true).count false ≤ done.count false := by
  by_cases hlt : i < done.length
  · cases hi : done[i] with
    | false =>
      have hset := count_false_set ((List.getElem?_eq_getElem hlt).trans (congrArg some hi))
      omega
    | true =>
      have hsame : done.set i true = done := by
        rw [← hi]
        exact List.set_getElem_self hlt
      rw [hsame]
  · rw [List.set_eq_of_length_le (by omega)]

/-- The exercises left to do once the current one has passed. -/
def left (s : State) : ℕ := s.markDone.done.count false

theorem runTest_jumps (h : jump s (.test true) = some next) :
    (s.runTest true).current = next ∧ (s.runTest true).done = s.markDone.done ∧
      (s.runTest true).phase = s.phase := by
  have hfind : findNextIncomplete (s.renderHeader.observe true).markDone.renderHeader.done
      (s.renderHeader.observe true).markDone.renderHeader.current = some next := h
  simp only [State.runTest, if_true, hfind]
  exact ⟨trivial, rfl, rfl⟩

theorem runTest_ends (h : jump s (.test true) = none) :
    (s.runTest true).current = s.current ∧ (s.runTest true).done = s.markDone.done ∧
      (s.runTest true).phase = .congratulated := by
  have hfind : findNextIncomplete (s.renderHeader.observe true).markDone.renderHeader.done
      (s.renderHeader.observe true).markDone.renderHeader.current = none := h
  simp only [State.runTest, if_true, hfind]
  exact ⟨rfl, rfl, rfl⟩

/-- A jump leads to an exercise that is not done, and one less will be left behind it. -/
theorem jump_lands (h : jump s (.test true) = some next) :
    (s.runTest true).done[(s.runTest true).current]? = some false ∧
      left (s.runTest true) + 1 = left s := by
  obtain ⟨hcurrent, hdone, -⟩ := runTest_jumps h
  have hopen : (s.runTest true).done[(s.runTest true).current]? = some false := by
    rw [hcurrent, hdone]
    exact findNextIncomplete_some h
  refine ⟨hopen, ?_⟩
  have hcount : (s.runTest true).markDone.done.count false + 1 =
      (s.runTest true).done.count false := count_false_set hopen
  unfold left
  rw [hcount, hdone]

theorem autoJumps_cons {a : Action} (hs : step s a = some s') (rest : List Action) :
    autoJumps s (a :: rest) = (if (jump s a).isSome then 1 else 0) + autoJumps s' rest := by
  rw [autoJumps, hs]
  rfl

theorem no_test_after_end {n : ℕ} (hphase : s.phase ≠ .running)
    (hrun : run step s (List.replicate n (.test true)) = some s') : n = 0 := by
  cases n with
  | zero => rfl
  | succ n =>
    rw [List.replicate_succ] at hrun
    obtain ⟨t, hs, -⟩ := Option.bind_eq_some_iff.mp hrun
    exact absurd (test_enabled hs).1 hphase

/-- Every jump of a chain of passing tests uses up one of the exercises left. -/
theorem autoJumps_le_left {n : ℕ} (hrun : run step s (List.replicate n (.test true)) = some s') :
    autoJumps s (List.replicate n (.test true)) ≤ left s := by
  induction n generalizing s with
  | zero => exact Nat.zero_le _
  | succ n ih =>
    rw [List.replicate_succ] at hrun ⊢
    obtain ⟨t, hs, hrest⟩ := Option.bind_eq_some_iff.mp hrun
    obtain ⟨-, ht⟩ := test_enabled hs
    rw [autoJumps_cons hs]
    cases hjump : jump s (.test true) with
    | none =>
      have hended : t.phase ≠ .running := by
        rw [ht, (runTest_ends hjump).2.2]
        exact fun h => nomatch h
      rw [no_test_after_end hended hrest]
      exact Nat.zero_le _
    | some next =>
      have hlater := ih hrest
      have hleft := (jump_lands hjump).2
      rw [ht] at hlater ⊢
      rw [Option.isSome_some, if_pos rfl]
      omega

theorem step_below {a : Action} (h : s.current < s.total) (hs : step s a = some s') :
    s'.current < s'.total := by
  cases a with
  | poll key changed =>
    have hp := poll_polled hs
    have hlt := hp.current_lt h
    unfold State.total
    rw [hp.done_eq]
    exact hlt
  | test passed =>
    obtain ⟨-, rfl⟩ := test_enabled hs
    cases passed with
    | false => exact h
    | true =>
      cases hjump : jump s (.test true) with
      | none =>
        obtain ⟨hcurrent, hdone, -⟩ := runTest_ends hjump
        unfold State.total
        rw [hcurrent, hdone]
        exact Nat.lt_of_lt_of_eq h (List.length_set).symm
      | some next => exact (List.getElem?_eq_some_iff.mp (jump_lands hjump).1).choose

theorem run_below {l : List Action} (h : s.current < s.total) (hrun : run step s l = some s') :
    s'.current < s'.total := by
  have hreach : Reachable step s s' := Reach.init.run hrun
  exact hreach.invariant (I := fun s => s.current < s.total) h
    fun _ _ _ hlt _ hs => step_below hlt hs

/-- A session is over after the scan, or stands at an exercise. -/
theorem start_below (outcomes : List Bool) :
    (start outcomes).phase = .ended ∨ (start outcomes).current < (start outcomes).total := by
  have hinv := (start_honest outcomes).1
  by_cases hended : (start outcomes).phase = .ended
  · exact Or.inl hended
  · refine Or.inr (hinv.current_lt ?_)
    unfold start at hended ⊢
    simp only at hended ⊢
    split_ifs at hended ⊢
    · exact absurd rfl hended
    · rfl

theorem run_of_ended {l : List Action} (hphase : s.phase = .ended)
    (hrun : run step s l = some s') : l = [] := by
  cases l with
  | nil => rfl
  | cons a rest =>
    obtain ⟨t, hs, -⟩ := Option.bind_eq_some_iff.mp hrun
    cases a <;> simp [step, hphase] at hs

/-- The search answers with the first exercise to do, going around behind the current one;
in every session the loop stands at an exercise, an automatic jump leads to one that is not
done, and passing tests in a row jump at most as often as there are exercises to do. -/
theorem watch_mode_jumps {outcomes : List Bool} {l : List Action}
    (hrun : run step (start outcomes) l = some s) :
    (∀ (done : List Bool) (current : ℕ), current < done.length →
      (findNextIncomplete done current = none ↔ ∀ passed ∈ done, passed = true) ∧
      ∀ next, findNextIncomplete done current = some next ↔ NextIncomplete done current next) ∧
    (s.current < s.total ∨ l = [] ∧ s.phase = .ended) ∧
    (∀ next s', step s (.test true) = some s' → jump s (.test true) = some next →
      s'.current = next ∧ s'.done[next]? = some false) ∧
    ∀ n s', run step s (List.replicate n (.test true)) = some s' →
      autoJumps s (List.replicate n (.test true)) ≤ s.done.count false := by
  refine ⟨fun done current hcurrent => ⟨findNextIncomplete_eq_none_iff hcurrent, fun next =>
    findNextIncomplete_eq_some_iff hcurrent⟩, ?_, ?_, ?_⟩
  · rcases start_below outcomes with hended | hbelow
    · have hnil := run_of_ended hended hrun
      subst hnil
      cases hrun
      exact Or.inr ⟨rfl, hended⟩
    · exact Or.inl (run_below hbelow hrun)
  · intro next s' hs hjump
    obtain ⟨-, rfl⟩ := test_enabled hs
    have hcurrent := (runTest_jumps hjump).1
    have hopen := (jump_lands hjump).1
    rw [hcurrent] at hopen
    exact ⟨hcurrent, hopen⟩
  · intro n s' hchain
    exact Nat.le_trans (autoJumps_le_left hchain) (count_false_set_le s.done s.current)

/-- Three exercises fail in the scan, the first fails again and `n` leads to the second.
From there three passes jump twice, first to the last exercise. -/
theorem watch_mode_jumps_three :
    ∃ s next ended : State,
      run step (start [false, false, false]) [.test false, .poll (some ⟨.char 'n', false⟩) false] =
        some s ∧
      step s (.test true) = some next ∧ next.current = 2 ∧ next.done[2]? = some false ∧
      run step s (List.replicate 3 (.test true)) = some ended ∧
      autoJumps s (List.replicate 3 (.test true)) = 2 ∧
      autoJumps s (List.replicate 3 (.test true)) ≤ s.done.count false := by
  obtain ⟨s, hrun, ⟨next, hnext⟩, hjump, ⟨ended, hended⟩, htwo⟩ : ∃ s : State,
      run step (start [false, false, false])
        [.test false, .poll (some ⟨.char 'n', false⟩) false] = some s ∧
      (∃ next, step s (.test true) = some next) ∧ jump s (.test true) = some 2 ∧
      (∃ ended, run step s (List.replicate 3 (.test true)) = some ended) ∧
      autoJumps s (List.replicate 3 (.test true)) = 2 :=
    ⟨_, rfl, ⟨_, rfl⟩, by decide, ⟨_, rfl⟩, by decide⟩
  obtain ⟨-, -, hlands, hchain⟩ := watch_mode_jumps hrun
  obtain ⟨hcurrent, hopen⟩ := hlands 2 next hnext hjump
  exact ⟨s, next, ended, hrun, hnext, hcurrent, hopen, hended, htwo, hchain 3 ended hended⟩

end OsCamp.WatchJumps
