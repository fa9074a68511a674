import Mathlib.Data.List.Forall2
import OsCamp.Execution
import OsCamp.WatchMode

/-!
What the screen of `watch_mode` says against the tests it has seen. A flag in `done` is set
by a pass and never taken back. So the progress is right as long as no exercise that has
passed fails later, and wrong from the first header after such a failure.
-/

set_option autoImplicit false

namespace OsCamp.WatchProgress

open Execution WatchMode

/-- The count is the number of exercises whose last outcome is a pass, and all of them
have passed where the screen says so. -/
def Truthful : Shown → Prop
  | .header _ done _ observed => done = observed.count true
  | .allPassed _ observed => ∀ passed ∈ observed, passed = true

/-- No test of an exercise that is marked as done fails. -/
def NoRelapse (s : State) : Action → Prop
  | .test passed => passed = false → s.done[s.current]? ≠ some true
  | .poll _ _ => True

instance (s : State) : ∀ a, Decidable (NoRelapse s a)
  | .test passed => inferInstanceAs (Decidable (passed = false → s.done[s.current]? ≠ some true))
  | .poll _ _ => isTrue trivial

/-- Every flag of the first list is set in the second. -/
abbrev Within : List Bool → List Bool → Prop := List.Forall₂ fun a b => a = true → b = true

variable {flags flags' : List Bool} {i : ℕ}

theorem countDone_eq (flags : List Bool) : countDone flags = flags.count true := by
  rw [countDone, ← List.countP_eq_length_filter, List.count]
  congr
  funext b
  cases b <;> rfl

theorem within_set {b b' : Bool} (h : Within flags flags') (i : ℕ) (hb : b = true → b' = true) :
    Within (flags.set i b) (flags'.set i b') := by
  induction h generalizing i with
  | nil => exact List.Forall₂.nil
  | cons hhead htail ih =>
    cases i with
    | zero => exact List.Forall₂.cons hb htail
    | succ i => exact List.Forall₂.cons hhead (ih i)

theorem within_clear (h : Within flags flags') (i : ℕ) : Within (flags.set i false) flags' := by
  induction h generalizing i with
  | nil => exact List.Forall₂.nil
  | cons hhead htail ih =>
    cases i with
    | zero => exact List.Forall₂.cons (fun h => nomatch h) htail
    | succ i => exact List.Forall₂.cons hhead (ih i)

theorem count_le_of_within (h : Within flags flags') : flags.count true ≤ flags'.count true := by
  induction h with
  | nil => exact Nat.le_refl _
  | @cons a b l l' hhead htail ih =>
    cases a with
    | false =>
      have htail' : l'.count true ≤ (b :: l').count true := List.count_le_count_cons
      rw [List.count_cons_of_ne (by decide)]
      omega
    | true =>
      rw [hhead rfl, List.count_cons_self, List.count_cons_self]
      omega

/-- A flag that is set in the second list only makes its count larger. -/
theorem count_lt_of_clear (h : Within flags flags') (hset : flags'[i]? = some true) :
    (flags.set i false).count true < flags'.count true := by
  induction h generalizing i with
  | nil => cases hset
  | @cons a b l l' hhead htail ih =>
    cases i with
    | zero =>
      have hle := count_le_of_within htail
      rw [List.getElem?_cons_zero, Option.some.injEq] at hset
      rw [hset, List.set_cons_zero, List.count_cons_of_ne (by decide), List.count_cons_self]
      omega
    | succ i =>
      have hlt := ih (i := i) hset
      rw [List.set_cons_succ]
      cases a with
      | false =>
        have htail' : l'.count true ≤ (b :: l').count true := List.count_le_count_cons
        rw [List.count_cons_of_ne (by decide)]
        omega
      | true =>
        rw [hhead rfl, List.count_cons_self, List.count_cons_self]
        omega

structure Inv (s : State) : Prop where
  within : Within s.observed s.done
  current_lt : s.phase = .running → s.current < s.done.length

variable {s s' : State} {a : Action}

theorem test_enabled {passed : Bool} (hs : step s (.test passed) = some s') :
    s.phase = .running ∧ s' = s.runTest passed := by
  cases hphase : s.phase <;> simp only [step, hphase] at hs
  case running =>
    obtain ⟨-, hres⟩ := Option.ite_none_right_eq_some.mp hs
    exact ⟨rfl, (Option.some.inj hres).symm⟩
  all_goals cases hs

/-- An event leaves the flags and the outcomes, and draws at most a header. -/
structure Polled (s s' : State) : Prop where
  done_eq : s'.done = s.done
  observed_eq : s'.observed = s.observed
  phase : s'.phase = .running → s.phase = .running
  current_lt : s.current < s.done.length → s'.current < s.done.length
  shown : s'.shown = s.shown ∨ s'.shown = s.renderHeader.shown

theorem polled_press (s : State) (key : KeyEvent) : Polled s (s.press key) := by
  have hself : Polled s s := ⟨rfl, rfl, id, id, Or.inl rfl⟩
  have hheader : Polled s s.renderHeader := ⟨rfl, rfl, id, id, Or.inr rfl⟩
  have hretest : Polled s { s with needsRetest := true } := ⟨rfl, rfl, id, id, Or.inl rfl⟩
  unfold State.press
  split
  · exact hheader
  · exact hheader
  · refine ⟨rfl, rfl, id, fun hlt => ?_, Or.inl rfl⟩
    have hpos : 0 < s.done.length := by omega
    exact Nat.mod_lt _ hpos
  · refine ⟨rfl, rfl, id, fun hlt => ?_, Or.inl rfl⟩
    show (if s.current > 0 then s.current - 1 else s.done.length - 1) < s.done.length
    split_ifs <;> omega
  · exact hretest
  · exact hretest
  · exact hself

theorem polled_fileChanged {t : State} (h : Polled s t) (changed : Bool) :
    Polled s (t.fileChanged changed) := by
  unfold State.fileChanged
  split_ifs
  · exact ⟨h.done_eq, h.observed_eq, h.phase, h.current_lt, h.shown⟩
  · exact h

theorem poll_polled {key : Option KeyEvent} {changed : Bool}
    (hs : step s (.poll key changed) = some s') : Polled s s' := by
  have hself : Polled s s := ⟨rfl, rfl, id, id, Or.inl rfl⟩
  have hended : Polled s { s with phase := .ended } :=
    ⟨rfl, rfl, (fun h => nomatch h), id, Or.inl rfl⟩
  cases hphase : s.phase <;> simp only [step, hphase] at hs
  case running =>
    obtain ⟨-, hres⟩ := Option.ite_none_left_eq_some.mp hs
    cases hres
    cases key with
    | none => exact polled_fileChanged hself changed
    | some key =>
      simp only [State.handle]
      split_ifs
      · exact hended
      · exact polled_fileChanged (polled_press s key) changed
  case congratulated =>
    cases hs
    split_ifs
    · exact hended
    · exact hself
  case ended => cases hs

theorem Inv.poll (h : Inv s) (hp : Polled s s') : Inv s' where
  within := by
    rw [hp.done_eq, hp.observed_eq]
    exact h.within
  current_lt hphase := by
    rw [hp.done_eq]
    exact hp.current_lt (h.current_lt (hp.phase hphase))

theorem Inv.runTest (h : Inv s) (hphase : s.phase = .running) (passed : Bool) :
    Inv (s.runTest passed) := by
  have hlt := h.current_lt hphase
  cases passed with
  | false => exact ⟨within_clear h.within s.current, fun _ => hlt⟩
  | true =>
    have hwithin : Within (s.observed.set s.current true) (s.done.set s.current true) :=
      within_set h.within s.current id
    simp only [State.runTest, if_true]
    split
    · rename_i next hnext
      refine ⟨hwithin, fun _ => ?_⟩
      exact (List.getElem?_eq_some_iff.mp (findNextIncomplete_some hnext)).choose
    · exact ⟨hwithin, fun hrunning => nomatch hrunning⟩

theorem Inv.step (h : Inv s) (hs : WatchMode.step s a = some s') : Inv s' := by
  cases a with
  | test passed =>
    obtain ⟨hphase, rfl⟩ := test_enabled hs
    exact h.runTest hphase passed
  | poll key changed => exact h.poll (poll_polled hs)

/-- The flags are the last outcomes, and everything shown was right. -/
structure Honest (s : State) : Prop where
  done_eq : s.done = s.observed
  truthful : ∀ d ∈ s.shown, Truthful d

theorem Honest.renderHeader (h : Honest s) : Honest s.renderHeader where
  done_eq := h.done_eq
  truthful := by
    intro d hd
    rcases List.mem_append.mp hd with hd | hd
    · exact h.truthful d hd
    · rw [List.mem_singleton.mp hd, h.done_eq]
      exact countDone_eq s.observed

theorem Honest.poll (h : Honest s) (hp : Polled s s') : Honest s' := by
  refine ⟨?_, ?_⟩
  · rw [hp.done_eq, hp.observed_eq, h.done_eq]
  · rcases hp.shown with hshown | hshown
    · rw [hshown]
      exact h.truthful
    · rw [hshown]
      exact h.renderHeader.truthful

theorem Honest.congratulate (h : Honest s) (hall : ∀ passed ∈ s.done, passed = true) :
    Honest s.congratulate where
  done_eq := h.done_eq
  truthful := by
    intro d hd
    rcases List.mem_append.mp hd with hd | hd
    · exact h.truthful d hd
    · rw [List.mem_singleton.mp hd]
      rwa [h.done_eq] at hall

/-- A failed test of an exercise that is not marked as done. -/
theorem Honest.failed (h : Honest s) (hlt : s.current < s.done.length)
    (hok : s.done[s.current]? ≠ some true) : Honest (s.runTest false) := by
  have hopen : s.done[s.current] = false := by
    rw [List.getElem?_eq_getElem hlt] at hok
    exact Bool.eq_false_iff.mpr fun htrue => hok (congrArg some htrue)
  have hsame : s.observed.set s.current false = s.done := by
    rw [← h.done_eq, ← hopen]
    exact List.set_getElem_self hlt
  have hobserved : Honest (s.renderHeader.observe false) :=
    ⟨hsame.symm, h.renderHeader.truthful⟩
  exact ⟨hsame.symm, hobserved.renderHeader.truthful⟩

theorem Honest.passed (h : Honest s) (hlt : s.current < s.done.length) :
    Honest (s.runTest true) := by
  have hmarked : Honest (s.renderHeader.observe true).markDone.renderHeader := by
    apply Honest.renderHeader
    refine ⟨?_, h.renderHeader.truthful⟩
    show s.done.set s.current true = s.observed.set s.current true
    rw [h.done_eq]
  simp only [State.runTest, if_true]
  split
  · exact ⟨hmarked.done_eq, hmarked.truthful⟩
  · rename_i hnone
    have hlt' : s.current < (s.done.set s.current true).length := by rwa [List.length_set]
    exact hmarked.congratulate (findNextIncomplete_none hlt' hnone)

theorem Honest.step (h : Honest s) (hinv : Inv s) (hok : NoRelapse s a)
    (hs : WatchMode.step s a = some s') : Honest s' := by
  cases a with
  | test passed =>
    obtain ⟨hphase, rfl⟩ := test_enabled hs
    have hlt := hinv.current_lt hphase
    cases passed with
    | false => exact h.failed hlt (hok rfl)
    | true => exact h.passed hlt
  | poll key changed => exact h.poll (poll_polled hs)

theorem start_honest (outcomes : List Bool) :
    Inv (start outcomes) ∧ Honest (start outcomes) := by
  obtain ⟨hdone, hfound⟩ := scan_spec outcomes
  have hwithin : Within outcomes outcomes := List.forall₂_same.mpr fun _ _ => id
  unfold start
  simp only [hdone]
  split_ifs with hcurrent
  · have hall : ∀ passed ∈ outcomes, passed = true := by
      rcases hfound with ⟨-, hall⟩ | hfailed
      · exact hall
      · have hlt := (List.getElem?_eq_some_iff.mp hfailed).choose
        omega
    refine ⟨⟨hwithin, fun h => nomatch h⟩, rfl, fun d hd => ?_⟩
    rw [List.mem_singleton.mp hd]
    exact hall
  · have hlt : (scan outcomes).2 < outcomes.length := by
      rcases hfound with ⟨hend, -⟩ | hfailed
      · exact absurd hend hcurrent
      · exact (List.getElem?_eq_some_iff.mp hfailed).choose
    exact ⟨⟨hwithin, fun _ => hlt⟩, rfl, fun d hd => nomatch hd⟩

theorem mem_renderHeader {d : Shown} (h : d ∈ s.shown) : d ∈ s.renderHeader.shown :=
  List.mem_append_left _ h

theorem shown_runTest (s : State) (passed : Bool) : s.shown ⊆ (s.runTest passed).shown := by
  intro d hd
  have htested : d ∈ (s.renderHeader.observe passed).shown := mem_renderHeader hd
  cases passed with
  | false => exact List.mem_append_left _ htested
  | true =>
    have hmarked : d ∈ (s.renderHeader.observe true).markDone.renderHeader.shown :=
      List.mem_append_left _ htested
    simp only [State.runTest, if_true]
    split
    · exact hmarked
    · exact List.mem_append_left _ hmarked

theorem shown_subset (hs : step s a = some s') : s.shown ⊆ s'.shown := by
  cases a with
  | test passed =>
    obtain ⟨-, rfl⟩ := test_enabled hs
    exact shown_runTest s passed
  | poll key changed =>
    rcases (poll_polled hs).shown with hshown | hshown
    · rw [hshown]
      exact fun _ => id
    · rw [hshown]
      exact fun _ => mem_renderHeader

theorem shown_subset_run {l : List Action} (hrun : run step s l = some s') :
    s.shown ⊆ s'.shown := by
  induction l generalizing s with
  | nil =>
    cases hrun
    exact fun _ => id
  | cons a rest ih =>
    obtain ⟨t, hs, hrest⟩ := Option.bind_eq_some_iff.mp hrun
    exact fun d hd => ih hrest (shown_subset hs hd)

/-- The header after a relapse still counts the exercise. -/
theorem relapse_shown (h : Inv s) (hrelapse : s.done[s.current]? = some true) :
    ∃ d ∈ (s.runTest false).shown, ¬ Truthful d := by
  refine ⟨_, List.mem_append_right _ (List.mem_singleton.mpr rfl), fun htruthful => ?_⟩
  have hcount : countDone s.done = (s.observed.set s.current false).count true := htruthful
  have hlt := count_lt_of_clear h.within hrelapse
  rw [countDone_eq] at hcount
  omega

theorem admitted_of_truthful (h : Inv s) {l : List Action} (hrun : run step s l = some s')
    (htruthful : ∀ d ∈ s'.shown, Truthful d) : Admitted step NoRelapse s l := by
  induction l generalizing s with
  | nil => trivial
  | cons a rest ih =>
    obtain ⟨t, hs, hrest⟩ := Option.bind_eq_some_iff.mp hrun
    refine ⟨?_, fun t' ht' => ?_⟩
    · cases a with
      | poll key changed => trivial
      | test passed =>
        rintro rfl hrelapse
        obtain ⟨-, rfl⟩ := test_enabled hs
        obtain ⟨d, hd, hfalse⟩ := relapse_shown h hrelapse
        exact hfalse (htruthful d (shown_subset_run hrest hd))
    · have htt : t = t' := Option.some.inj (hs.symm.trans ht')
      exact htt ▸ ih (h.step hs) hrest

/-- In every session, all that the screen says about the progress is right exactly where
no exercise that is marked as done fails a later test. -/
theorem progress_truthful_iff (outcomes : List Bool) (l : List Action)
    (hrun : run step (start outcomes) l = some s) :
    (∀ d ∈ s.shown, Truthful d) ↔ Admitted step NoRelapse (start outcomes) l := by
  obtain ⟨hinv, hhonest⟩ := start_honest outcomes
  constructor
  · exact admitted_of_truthful hinv hrun
  · intro hok
    have hreach : Reach step NoRelapse (start outcomes) s :=
      Reach.init.run_of_admitted hok hrun
    have hkept : Inv s ∧ Honest s :=
      Reach.invariant (I := fun s => Inv s ∧ Honest s) ⟨hinv, hhonest⟩
        (fun _ _ _ h hok hs => ⟨h.1.step hs, h.2.step h.1 hok hs⟩) hreach
    exact hkept.2.truthful

/-- Exercise 0 passes in the scan and fails later; then exercise 1 passes, and the screen
says that both have passed. -/
theorem progress_false_after_relapse :
    ∃ s, run step (start [true, false]) [.test false, .poll (some ⟨.char 'p', false⟩) false,
        .test false, .poll (some ⟨.char 'n', false⟩) false, .test true] = some s ∧
      .header 0 1 2 [false, false] ∈ s.shown ∧ .allPassed 2 [false, true] ∈ s.shown ∧
      ¬ ∀ d ∈ s.shown, Truthful d := by
  have hend : (run step (start [true, false]) [.test false,
      .poll (some ⟨.char 'p', false⟩) false, .test false,
      .poll (some ⟨.char 'n', false⟩) false, .test true]).map
        (fun s => (decide (.header 0 1 2 [false, false] ∈ s.shown),
          decide (.allPassed 2 [false, true] ∈ s.shown))) = some (true, true) := by decide
  obtain ⟨s, hrun, hs⟩ := Option.map_eq_some_iff.mp hend
  rw [Prod.mk.injEq, decide_eq_true_iff, decide_eq_true_iff] at hs
  refine ⟨s, hrun, hs.1, hs.2, fun htruthful => ?_⟩
  have hpassed : false = true := htruthful _ hs.2 false (List.mem_cons_self ..)
  cases hpassed

/-- Exercise 0 is tested again and passes again, then the others pass. -/
theorem progress_truthful_iff_no_relapse :
    ∃ s, run step (start [true, false]) [.test false, .poll (some ⟨.char 'p', false⟩) true,
        .test true, .test true] = some s ∧
      .allPassed 2 [true, true] ∈ s.shown ∧ ∀ d ∈ s.shown, Truthful d := by
  have hend : (run step (start [true, false]) [.test false,
      .poll (some ⟨.char 'p', false⟩) true, .test true, .test true]).map
        (fun s => decide (.allPassed 2 [true, true] ∈ s.shown)) = some true := by decide
  obtain ⟨s, hrun, hs⟩ := Option.map_eq_some_iff.mp hend
  refine ⟨s, hrun, of_decide_eq_true hs, ?_⟩
  exact (progress_truthful_iff [true, false] _ hrun).mpr (by decide)

end OsCamp.WatchProgress
