import OsCamp.WatchScreen

/-!
The session with its screen refines the session without: every run of the former
is one of the latter with the output of the tests forgotten. The screens drawn
start with the headers that the latter shows, in their order.
-/

set_option autoImplicit false

namespace OsCamp.WatchRefinement

open CliRender Execution WatchScreen
open WatchMode (countDone findNextIncomplete Shown)

/-- The action without the output of the test. -/
def erase : Action → WatchMode.Action
  | .test result => .test result.passed
  | .poll key changed => .poll key changed

/-- The exercise and the progress of a header. -/
def headerOf : Shown → Option (ℕ × ℕ)
  | .header current done _ _ => some (current, done)
  | .allPassed _ _ => none

def headers (shown : List Shown) : List (ℕ × ℕ) := shown.filterMap headerOf

def phaseOf : WatchScreen.Phase → Option WatchMode.Phase
  | .running => some .running
  | .congratulated => some .congratulated
  | .ended => some .ended
  | .panicked => none

structure Refines (exercises : List Exercise) (s : Session) (w : WatchMode.State) : Prop where
  done : w.done = s.done
  current : w.current = s.current
  needsRetest : w.needsRetest = s.needsRetest
  phase : phaseOf s.phase = some w.phase
  screens : List.Forall₂ (fun screen h => Drawn exercises h.1 h.2 screen)
    s.terminal.screens (headers w.shown).reverse

variable {exercises : List Exercise} {s s' : Session} {w : WatchMode.State} {a : Action}
  {quiet : ℕ → Bool} {l : List Action} {screen : List Char}

theorem headers_renderHeader (w : WatchMode.State) :
    (headers w.renderHeader.shown).reverse =
      (w.current, countDone w.done) :: (headers w.shown).reverse := by
  simp [headers, WatchMode.State.renderHeader, headerOf]

theorem headers_congratulate (w : WatchMode.State) :
    headers w.congratulate.shown = headers w.shown := by
  simp [headers, WatchMode.State.congratulate, headerOf]

namespace Refines

theorem header (h : Refines exercises s w)
    (hdrawn : Drawn exercises s.current (countDone s.done) screen) :
    Refines exercises (s.draw screen) w.renderHeader where
  done := h.done
  current := h.current
  needsRetest := h.needsRetest
  phase := h.phase
  screens := by
    rw [headers_renderHeader, h.current, h.done]
    exact .cons hdrawn h.screens

theorem observe (h : Refines exercises s w) (passed : Bool) :
    Refines exercises s (w.observe passed) :=
  { h with }

theorem markDone (h : Refines exercises s w) :
    Refines exercises { s with done := s.done.set s.current true } w.markDone where
  done := by
    show w.done.set w.current true = s.done.set s.current true
    rw [h.done, h.current]
  current := h.current
  needsRetest := h.needsRetest
  phase := h.phase
  screens := h.screens

theorem phase_eq (h : Refines exercises s w) {p : WatchMode.Phase} (hp : phaseOf s.phase = some p) :
    w.phase = p := Option.some.inj (h.phase.symm.trans hp)

/-- The two tests draw the same headers and agree on where to go on. -/
theorem runTest (h : Refines exercises s w) {result : TestResult}
    (ht : Tested exercises s result s') : Refines exercises s' (w.runTest result.passed) := by
  unfold WatchMode.State.runTest
  simp only
  cases ht with
  | failed testing report hfailed htesting hreport hredraw =>
    have htested := ((h.header htesting).observe result.passed).header hreport
    rw [hfailed] at htested ⊢
    exact { htested with needsRetest := rfl }
  | jumped testing passed next hpassed htesting hdrawn hnext =>
    have hmarked := ((h.header htesting).observe result.passed).markDone.header hdrawn
    rw [hpassed] at hmarked ⊢
    have hsearch : findNextIncomplete (w.renderHeader.observe true).markDone.renderHeader.done
        (w.renderHeader.observe true).markDone.renderHeader.current = some next := by
      rw [hmarked.done, hmarked.current]
      exact hnext
    simp only [if_true, hsearch]
    exact ⟨hmarked.done, rfl, rfl, hmarked.phase, hmarked.screens⟩
  | finished testing passed hpassed htesting hdrawn hnext =>
    have hmarked := ((h.header htesting).observe result.passed).markDone.header hdrawn
    rw [hpassed] at hmarked ⊢
    have hsearch : findNextIncomplete (w.renderHeader.observe true).markDone.renderHeader.done
        (w.renderHeader.observe true).markDone.renderHeader.current = none := by
      rw [hmarked.done, hmarked.current]
      exact hnext
    simp only [if_true, hsearch]
    refine ⟨hmarked.done, hmarked.current, hmarked.needsRetest, rfl, ?_⟩
    rw [headers_congratulate]
    exact hmarked.screens

theorem fileChanged (h : Refines exercises s w) (changed : Bool) :
    Refines exercises (s.fileChanged changed) (w.fileChanged changed) := by
  unfold Session.fileChanged WatchMode.State.fileChanged
  split_ifs
  · exact ⟨h.done, h.current, rfl, h.phase, h.screens⟩
  · exact h

theorem leave (h : Refines exercises s w) :
    Refines exercises s.leave { w with phase := .ended } :=
  ⟨h.done, h.current, h.needsRetest, rfl, h.screens⟩

end Refines

/-- A redraw starts with the header of the current exercise. -/
theorem redraw_refines (h : Refines exercises s w) (hinv : Inv exercises s)
    (hlt : s.current < exercises.length) {showHint showList : Bool}
    (hs : s.redraw exercises showHint showList = some s') :
    Refines exercises s' w.renderHeader := by
  obtain ⟨screen, hscreen, hdrawn⟩ := redraw_spec hinv hlt s.lastResult showHint showList
  rw [Session.redraw, hscreen] at hs
  cases hs
  exact h.header hdrawn

/-- The keys that the loop acts on. -/
def Bound (key : WatchMode.KeyEvent) : Prop :=
  key.code = .char 'h' ∨ key.code = .char 'l' ∨ key.code = .char 'n' ∨ key.code = .char 'p' ∨
    key.code = .char 'r' ∨ key.code = .enter

theorem press_unbound {key : WatchMode.KeyEvent} (hkey : ¬ Bound key) (s : Session)
    (w : WatchMode.State) : s.press exercises key = some s ∧ w.press key = w := by
  simp only [Bound, not_or] at hkey
  obtain ⟨hh, hl, hn, hp, hr, henter⟩ := hkey
  constructor
  · unfold Session.press
    split
    · exact absurd ‹_› hh
    · exact absurd ‹_› hl
    · exact absurd ‹_› hn
    · exact absurd ‹_› hp
    · exact absurd ‹_› hr
    · exact absurd ‹_› henter
    · rfl
  · unfold WatchMode.State.press
    split
    · exact absurd ‹_› hh
    · exact absurd ‹_› hl
    · exact absurd ‹_› hn
    · exact absurd ‹_› hp
    · exact absurd ‹_› hr
    · exact absurd ‹_› henter
    · rfl

/-- A key does the same to both, and draws a header in both or in neither. -/
theorem press_refines (h : Refines exercises s w) (hinv : Inv exercises s)
    (hlt : s.current < exercises.length) {key : WatchMode.KeyEvent}
    (hs : s.press exercises key = some s') : Refines exercises s' (w.press key) := by
  have htotal : w.total = exercises.length := by
    rw [WatchMode.State.total, h.done, hinv.length_done]
  by_cases hkey : Bound key
  · rcases hkey with hcode | hcode | hcode | hcode | hcode | hcode <;>
      simp only [Session.press, WatchMode.State.press, hcode] at hs ⊢
    · exact redraw_refines (s := { s with showHint := !s.showHint }) { h with } { hinv with } hlt hs
    · exact redraw_refines (s := { s with showList := !s.showList }) { h with } { hinv with } hlt hs
    · obtain ⟨-, hres⟩ := Option.ite_none_left_eq_some.mp hs
      cases hres
      refine ⟨h.done, ?_, rfl, h.phase, h.screens⟩
      simp only [h.current, htotal]
    · split_ifs at hs with hcurrent hzero
      · cases hs
        refine ⟨h.done, ?_, rfl, h.phase, h.screens⟩
        simp only [h.current, if_pos hcurrent]
      · cases hs
        refine ⟨h.done, ?_, rfl, h.phase, h.screens⟩
        simp only [h.current, if_neg hcurrent, htotal]
    · cases hs
      exact ⟨h.done, h.current, rfl, h.phase, h.screens⟩
    · cases hs
      exact ⟨h.done, h.current, rfl, h.phase, h.screens⟩
  · obtain ⟨hpress, hkept⟩ := press_unbound hkey s w
    rw [hpress] at hs
    cases hs
    rw [hkept]
    exact h

theorem step_refines (h : Refines exercises s w) (hinv : Inv exercises s)
    (hs : step exercises s a = some s') :
    ∃ w', WatchMode.step w (erase a) = some w' ∧ Refines exercises s' w' := by
  cases step_stepped hinv hs with
  | @test result _ hrunning hretest htested =>
    have hphase := h.phase_eq (p := .running) (by rw [hrunning]; rfl)
    refine ⟨_, ?_, h.runTest htested⟩
    simp only [erase, WatchMode.step, hphase, h.needsRetest, hretest, if_true]
  | idle hrunning hretest =>
    have hphase := h.phase_eq (p := .running) (by rw [hrunning]; rfl)
    refine ⟨_, ?_, h.fileChanged _⟩
    simp only [erase, WatchMode.step, hphase, h.needsRetest, hretest]
    rfl
  | @press key changed mid hrunning hretest hquit hpress hpressed =>
    have hphase := h.phase_eq (p := .running) (by rw [hrunning]; rfl)
    have hnext := (press_refines h hinv (hinv.live hrunning) hpress).fileChanged changed
    refine ⟨_, ?_, hnext⟩
    simp only [erase, WatchMode.step, hphase, h.needsRetest, hretest, WatchMode.State.handle, hquit]
    rfl
  | @quit key changed hphase hquit =>
    refine ⟨_, ?_, h.leave⟩
    rcases hphase with ⟨hrunning, hretest⟩ | hcongratulated
    · have hphase := h.phase_eq (p := .running) (by rw [hrunning]; rfl)
      simp only [erase, WatchMode.step, hphase, h.needsRetest, hretest, WatchMode.State.handle,
        hquit, if_true]
      rfl
    · have hphase := h.phase_eq (p := .congratulated) (by rw [hcongratulated]; rfl)
      simp only [erase, WatchMode.step, hphase, Option.any_some, hquit, if_true]
  | wait hcongratulated hquit =>
    have hphase := h.phase_eq (p := .congratulated) (by rw [hcongratulated]; rfl)
    refine ⟨w, ?_, h⟩
    simp only [erase, WatchMode.step, hphase, hquit]
    rfl

theorem start_refines (exercises : List Exercise) (quiet : ℕ → Bool) :
    Refines exercises (start exercises quiet)
      (WatchMode.start ((List.range exercises.length).map quiet)) := by
  have hlength : ((List.range exercises.length).map quiet).length = exercises.length := by
    rw [List.length_map, List.length_range]
  unfold start WatchMode.start
  simp only [hlength]
  split_ifs
  · exact ⟨rfl, rfl, rfl, rfl, .nil⟩
  · exact ⟨rfl, rfl, rfl, rfl, .nil⟩

/-- Every run of the session with its screen is, with the output of the tests
forgotten, a run of the session without; the two end in the same exercise with the
same progress, and the screens start with the headers shown, in their order. -/
theorem run_refines (exercises : List Exercise) (quiet : ℕ → Bool) {l : List Action} {s : Session}
    (hrun : run (step exercises) (start exercises quiet) l = some s) :
    ∃ w, run WatchMode.step (WatchMode.start ((List.range exercises.length).map quiet))
        (l.map erase) = some w ∧ Refines exercises s w := by
  induction l using List.reverseRecOn generalizing s with
  | nil =>
    cases hrun
    exact ⟨_, rfl, start_refines exercises quiet⟩
  | append_singleton l a ih =>
    rw [run_append] at hrun
    obtain ⟨t, ht, hlast⟩ := Option.bind_eq_some_iff.mp hrun
    obtain ⟨s', hs, hend⟩ := Option.bind_eq_some_iff.mp hlast
    cases hend
    obtain ⟨w, hw, hrefines⟩ := ih ht
    obtain ⟨w', hw', hrefines'⟩ := step_refines hrefines (Inv.run ht) hs
    refine ⟨w', ?_, hrefines'⟩
    rw [List.map_append, run_append, hw, Option.bind_some, List.map_singleton, run, hw']
    rfl

theorem run_refines_redraw :
    let ex : Exercise := ⟨['a'], ['a'], ['a'], ['m'], ['d'], ['t']⟩
    let l : List Action := [.test ⟨false, ['x']⟩, .poll (some ⟨.char 'h', false⟩) false]
    ∃ s w, run (step [ex]) (start [ex] fun _ => false) l = some s ∧
      run WatchMode.step (WatchMode.start [false]) (l.map erase) = some w ∧
      headers w.shown = [(0, 0), (0, 0), (0, 0)] ∧ s.terminal.screens.length = 3 := by
  intro ex l
  have hend : (run (step [ex]) (start [ex] fun _ => false) l).isSome = true := by decide +kernel
  obtain ⟨s, hrun⟩ := Option.isSome_iff_exists.mp hend
  obtain ⟨w, hw, hrefines⟩ := run_refines [ex] (fun _ => false) hrun
  have hshown : (run WatchMode.step (WatchMode.start [false]) (l.map erase)).map
      (fun w => headers w.shown) = some [(0, 0), (0, 0), (0, 0)] := by decide
  have hheaders : headers w.shown = [(0, 0), (0, 0), (0, 0)] := by
    have hw' : run WatchMode.step (WatchMode.start [false]) (l.map erase) = some w := hw
    rw [hw'] at hshown
    exact Option.some.inj hshown
  refine ⟨s, w, hrun, hw, hheaders, ?_⟩
  have hlength := hrefines.screens.length_eq
  rw [hheaders] at hlength
  exact hlength

end OsCamp.WatchRefinement
