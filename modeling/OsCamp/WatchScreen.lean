import OsCamp.CliRender
import OsCamp.Execution
import OsCamp.WatchMode

/-!
`watch_mode` with its screen: the flags of hint and list, the last test result,
and every text drawn while the terminal is in raw mode. A panic is a phase of
its own, and leaves the terminal as it is.
-/

set_option autoImplicit false

namespace OsCamp.WatchScreen

open CliRender Execution LineEndings TextLines
open WatchMode (countDone findNextIncomplete scan KeyCode KeyEvent)

inductive Phase
  | running
  | congratulated
  | ended
  | panicked
  deriving DecidableEq

/-- The screens drawn in raw mode, the latest first; a clear starts a new one. -/
structure Terminal where
  raw : Bool
  screens : List (List Char)
  cooked : List Char

structure Session where
  done : List Bool
  current : ℕ
  needsRetest : Bool
  lastResult : Option TestResult
  showHint : Bool
  showList : Bool
  terminal : Terminal
  phase : Phase

inductive Action
  | test (result : TestResult)
  | poll (key : Option KeyEvent) (changed : Bool)

def allPassed (total : ℕ) : List Char :=
  "  ".toList ++ bold ++ green ++ "🎉 Congratulations! All ".toList ++ number total ++
    " exercises passed!".toList ++ reset

/-- What the scan prints before raw mode. -/
def scanText (exercises : List Exercise) : List Char :=
  bold ++ blue ++ "OS Camp".toList ++ reset ++ " - Scanning exercise progress...\n\n".toList ++
    exercises.zipIdx.flatMap fun p =>
      "  [".toList ++ padStart 2 (number (p.2 + 1)) ++ "/".toList ++ number exercises.length ++
        "] Checking ".toList ++ padEnd 25 p.1.package ++ "\r".toList

def goodbye : List Char := "Goodbye! Keep up the good work 💪\n".toList

namespace Session

def draw (s : Session) (screen : List Char) : Session :=
  { s with terminal := { s.terminal with screens := screen :: s.terminal.screens } }

/-- The screen while the test runs. -/
def testing (exercises : List Exercise) (s : Session) : Option (List Char) := do
  let out ← renderHeader [] exercises s.current (countDone s.done)
  let out := rprintln out []
  let ex ← exercises[s.current]?
  return rprintln out ("  ".toList ++ yellow ++ "⏳ Testing ".toList ++ ex.package ++
    "...".toList ++ reset)

def runTest (exercises : List Exercise) (s : Session) (result : TestResult) : Option Session := do
  let s := { s with showHint := false, showList := false }
  let screen ← s.testing exercises
  let s := s.draw screen
  if result.passed then do
    let _ ← s.done[s.current]?
    let s := { s with done := s.done.set s.current true }
    let out ← renderHeader [] exercises s.current (countDone s.done)
    let ex ← exercises[s.current]?
    let out := rprintln out ("\n  ".toList ++ bold ++ green ++ "✅ Exercise '".toList ++ ex.name ++
      "' passed!".toList ++ reset)
    match findNextIncomplete s.done s.current with
    | some next => do
      let ex ← exercises[next]?
      let out := rprintln out ("\n  ➡  Auto-jump: ".toList ++ cyan ++ ex.name ++ reset)
      return { s.draw out with current := next, lastResult := some result, needsRetest := true }
    | none => do
      let out := rprintln out []
      let out := rprintln out (allPassed exercises.length)
      let out := rprintln out ("\n  Press ".toList ++ bold ++ "q".toList ++ reset ++
        " to quit".toList)
      return { s.draw out with phase := .congratulated }
  else do
    let out ← renderHeader [] exercises s.current (countDone s.done)
    let out := renderFailure out result
    let out := renderControls out
    return { s.draw out with lastResult := some result, needsRetest := false }

def redraw (exercises : List Exercise) (s : Session) (showHint showList : Bool) :
    Option Session :=
  (fullRedraw exercises s.current (countDone s.done) s.lastResult showHint showList s.done).map
    s.draw

/-- The keys that do not leave the loop. -/
def press (exercises : List Exercise) (s : Session) (key : KeyEvent) : Option Session :=
  match key.code with
  | .char 'h' =>
    let s := { s with showHint := !s.showHint }
    s.redraw exercises s.showHint false
  | .char 'l' =>
    let s := { s with showList := !s.showList }
    s.redraw exercises s.showHint s.showList
  | .char 'n' =>
    if exercises.length = 0 then none
    else some { s with current := (s.current + 1) % exercises.length, needsRetest := true }
  | .char 'p' =>
    if s.current > 0 then some { s with current := s.current - 1, needsRetest := true }
    else if exercises.length = 0 then none
    else some { s with current := exercises.length - 1, needsRetest := true }
  | .char 'r' => some { s with needsRetest := true }
  | .enter => some { s with needsRetest := true }
  | _ => some s

def fileChanged (s : Session) (changed : Bool) : Session :=
  if changed then { s with needsRetest := true } else s

/-- Behind the loop: raw mode is left, the screen cleared, and a farewell printed. -/
def leave (s : Session) : Session :=
  { s with
    phase := .ended
    terminal := { s.terminal with raw := false, cooked := s.terminal.cooked ++ goodbye } }

def handle (exercises : List Exercise) (s : Session) (key : Option KeyEvent) (changed : Bool) :
    Option Session :=
  match key with
  | none => some (s.fileChanged changed)
  | some key =>
    if WatchMode.State.quits key then some s.leave
    else (s.press exercises key).map fun s => s.fileChanged changed

def panic (s : Session) : Session := { s with phase := .panicked }

end Session

/-- The session after the scan, in which the test of exercise `i` ends with `quiet i`. -/
def start (exercises : List Exercise) (quiet : ℕ → Bool) : Session :=
  let found := scan ((List.range exercises.length).map quiet)
  if found.2 = exercises.length then
    { done := found.1
      current := found.2
      needsRetest := false
      lastResult := none
      showHint := false
      showList := false
      terminal :=
        ⟨false, [],
          scanText exercises ++ "\n\n".toList ++ allPassed exercises.length ++ "\n".toList⟩
      phase := .ended }
  else
    { done := found.1
      current := found.2
      needsRetest := true
      lastResult := none
      showHint := false
      showList := false
      terminal := ⟨true, [], scanText exercises⟩
      phase := .running }

/-- After the congratulation only the keys that quit have an effect. -/
def step (exercises : List Exercise) (s : Session) : Action → Option Session
  | .test result =>
    match s.phase with
    | .running => if s.needsRetest then some ((s.runTest exercises result).getD s.panic) else none
    | _ => none
  | .poll key changed =>
    match s.phase with
    | .running =>
      if s.needsRetest then none else some ((s.handle exercises key changed).getD s.panic)
    | .congratulated => some (if key.any WatchMode.State.quits then s.leave else s)
    | _ => none

/-- The session is in its loop at an exercise, or over; all that it drew is lines. -/
structure Inv (exercises : List Exercise) (s : Session) : Prop where
  length_done : s.done.length = exercises.length
  live : s.phase = .running → s.current < exercises.length
  sound : s.phase ≠ .panicked
  raw : s.terminal.raw = true ↔ s.phase = .running ∨ s.phase = .congratulated
  lines : ∀ screen ∈ s.terminal.screens, ∃ ls, screen = written ls

variable {exercises : List Exercise} {s s' : Session} {result r : TestResult}
  {key : KeyEvent} {changed : Bool} {quiet : ℕ → Bool} {a : Action} {l : List Action}
  {ex : Exercise} {bar : List Char} {current n : ℕ}

theorem countDone_le (done : List Bool) : countDone done ≤ done.length :=
  List.length_filter_le _ _

/-- A screen of lines that starts with the header of the exercise. -/
def Drawn (exercises : List Exercise) (current n : ℕ) (screen : List Char) : Prop :=
  ∃ header rest, renderHeader [] exercises current n = some (written header) ∧
    screen = written (header ++ rest)

theorem Drawn.intro (hex : exercises[current]? = some ex)
    (hbar : progressBar n exercises.length 20 = some bar) (rest : List (List Char)) :
    Drawn exercises current n
      (written (headerLines exercises.length bar current ex ++ rest)) := by
  refine ⟨_, rest, ?_, rfl⟩
  rw [renderHeader_eq, hex, hbar]
  rfl

theorem Drawn.rprintln {screen : List Char} (h : Drawn exercises current n screen)
    (text : List Char) : Drawn exercises current n (LineEndings.rprintln screen text) := by
  obtain ⟨header, rest, hheader, hscreen⟩ := h
  refine ⟨header, rest ++ [text], hheader, ?_⟩
  rw [hscreen, rprintln_start, ← written_append, List.append_assoc]

/-- The header of an exercise that exists can be drawn. -/
theorem exists_header (hcurrent : current < exercises.length) (hn : n ≤ exercises.length) :
    ∃ out, renderHeader [] exercises current n = some out ∧ Drawn exercises current n out := by
  have hex := List.getElem?_eq_getElem hcurrent
  obtain ⟨bar, hbar⟩ := progressBar_isSome hn 20
  refine ⟨_, ?_, Drawn.intro hex hbar []⟩
  rw [renderHeader_eq, hex, hbar, List.append_nil]
  rfl

/-- What a test leads to: a report below the header, a jump, or the congratulation. -/
inductive Tested (exercises : List Exercise) (s : Session) (result : TestResult) :
    Session → Prop
  | failed (testing report : List Char) : result.passed = false →
      Drawn exercises s.current (countDone s.done) testing →
      Drawn exercises s.current (countDone s.done) report →
      fullRedraw exercises s.current (countDone s.done) (some result) false false s.done =
        some report →
      Tested exercises s result
        { (s.draw testing).draw report with
          showHint := false, showList := false, lastResult := some result, needsRetest := false }
  | jumped (testing passed : List Char) (next : ℕ) : result.passed = true →
      Drawn exercises s.current (countDone s.done) testing →
      Drawn exercises s.current (countDone (s.done.set s.current true)) passed →
      findNextIncomplete (s.done.set s.current true) s.current = some next →
      Tested exercises s result
        { (s.draw testing).draw passed with
          showHint := false, showList := false, done := s.done.set s.current true,
          current := next, lastResult := some result, needsRetest := true }
  | finished (testing passed : List Char) : result.passed = true →
      Drawn exercises s.current (countDone s.done) testing →
      Drawn exercises s.current (countDone (s.done.set s.current true)) passed →
      findNextIncomplete (s.done.set s.current true) s.current = none →
      Tested exercises s result
        { (s.draw testing).draw passed with
          showHint := false, showList := false, done := s.done.set s.current true,
          phase := .congratulated }

theorem Inv.countDone_le (h : Inv exercises s) : countDone s.done ≤ exercises.length := by
  rw [← h.length_done]
  exact List.length_filter_le _ _

theorem redraw_spec (h : Inv exercises s) (hlt : s.current < exercises.length)
    (r : Option TestResult) (showHint showList : Bool) :
    ∃ screen, fullRedraw exercises s.current (countDone s.done) r showHint showList
      s.done = some screen ∧ Drawn exercises s.current (countDone s.done) screen := by
  have hex := List.getElem?_eq_getElem hlt
  obtain ⟨bar, hbar⟩ := progressBar_isSome h.countDone_le 20
  exact ⟨_, fullRedraw_eq hex hbar h.length_done.ge r showHint showList, Drawn.intro hex hbar _⟩

/-- The screen that the test itself leaves is that of a redraw without hint and list. -/
theorem report_eq {out : List Char}
    (hheader : renderHeader [] exercises s.current (countDone s.done) = some out)
    (hfailed : result.passed = false) :
    fullRedraw exercises s.current (countDone s.done) (some result) false false s.done =
      some (renderControls (renderFailure out result)) := by
  rw [fullRedraw, hheader]
  simp only [Bool.false_eq_true, if_false, Option.bind_eq_bind, Option.bind_some, renderResult,
    hfailed]
  rfl

theorem runTest_spec (h : Inv exercises s) (hlt : s.current < exercises.length)
    (result : TestResult) :
    ∃ s', s.runTest exercises result = some s' ∧ Tested exercises s result s' := by
  have hlength := h.length_done
  have hex : exercises[s.current]? = some exercises[s.current] := List.getElem?_eq_getElem hlt
  have hdone : s.done[s.current]? = some s.done[s.current] :=
    List.getElem?_eq_getElem (by omega)
  obtain ⟨out, hheader, hdrawn⟩ := exists_header hlt h.countDone_le
  unfold Session.runTest
  simp only [Session.testing, Session.draw, hheader, hex, hdone, Option.bind_eq_bind,
    Option.bind_some]
  cases hpassed : result.passed with
  | false =>
    obtain ⟨report, hreport, hshown⟩ := redraw_spec h hlt (some result) false false
    refine ⟨_, rfl, .failed _ _ hpassed ((hdrawn.rprintln _).rprintln _) ?_ ?_⟩
    · rw [report_eq hheader hpassed] at hreport
      cases hreport
      exact hshown
    · exact report_eq hheader hpassed
  | true =>
    have hlength' : (s.done.set s.current true).length = exercises.length := by
      rw [List.length_set, hlength]
    obtain ⟨out', hheader', hdrawn'⟩ :=
      exists_header hlt (hlength' ▸ countDone_le (s.done.set s.current true))
    simp only [if_true, hheader', Option.bind_some]
    cases hnext : findNextIncomplete (s.done.set s.current true) s.current with
    | some next =>
      have hopen := WatchMode.findNextIncomplete_some hnext
      have hnextlt := (List.getElem?_eq_some_iff.mp hopen).choose
      rw [hlength'] at hnextlt
      simp only [List.getElem?_eq_getElem hnextlt, Option.bind_some]
      exact ⟨_, rfl, .jumped _ _ next hpassed ((hdrawn.rprintln _).rprintln _)
        ((hdrawn'.rprintln _).rprintln _) hnext⟩
    | none =>
      exact ⟨_, rfl, .finished _ _ hpassed ((hdrawn.rprintln _).rprintln _)
        ((((hdrawn'.rprintln _).rprintln _).rprintln _).rprintln _) hnext⟩

/-- What a key leads to: a redraw with the flags of the key, a retest, or nothing. -/
inductive Pressed (exercises : List Exercise) (s : Session) (key : KeyEvent) : Session → Prop
  | hint (screen : List Char) : key.code = .char 'h' →
      Drawn exercises s.current (countDone s.done) screen →
      fullRedraw exercises s.current (countDone s.done) s.lastResult (!s.showHint) false s.done =
        some screen →
      Pressed exercises s key ({ s with showHint := !s.showHint }.draw screen)
  | list (screen : List Char) : key.code = .char 'l' →
      Drawn exercises s.current (countDone s.done) screen →
      fullRedraw exercises s.current (countDone s.done) s.lastResult s.showHint (!s.showList)
        s.done = some screen →
      Pressed exercises s key ({ s with showList := !s.showList }.draw screen)
  | retest (current : ℕ) : key.code ≠ .char 'h' → key.code ≠ .char 'l' →
      current < exercises.length →
      Pressed exercises s key { s with current := current, needsRetest := true }
  | ignored : key.code ≠ .char 'h' → key.code ≠ .char 'l' → Pressed exercises s key s

theorem press_spec (h : Inv exercises s) (hlt : s.current < exercises.length) (key : KeyEvent) :
    ∃ s', s.press exercises key = some s' ∧ Pressed exercises s key s' := by
  have hpos : exercises.length ≠ 0 := by omega
  unfold Session.press
  split
  · rename_i hcode
    obtain ⟨screen, hscreen, hdrawn⟩ := redraw_spec h hlt s.lastResult (!s.showHint) false
    refine ⟨_, ?_, .hint screen hcode hdrawn hscreen⟩
    simp only [Session.redraw, hscreen, Option.map_some]
  · rename_i hcode
    obtain ⟨screen, hscreen, hdrawn⟩ := redraw_spec h hlt s.lastResult s.showHint (!s.showList)
    refine ⟨_, ?_, .list screen hcode hdrawn hscreen⟩
    simp only [Session.redraw, hscreen, Option.map_some]
  · rename_i hcode
    have hh : key.code ≠ .char 'h' := by rw [hcode]; decide
    have hl : key.code ≠ .char 'l' := by rw [hcode]; decide
    exact ⟨_, if_neg hpos, .retest _ hh hl (Nat.mod_lt _ (by omega))⟩
  · rename_i hcode
    have hh : key.code ≠ .char 'h' := by rw [hcode]; decide
    have hl : key.code ≠ .char 'l' := by rw [hcode]; decide
    split_ifs
    · exact ⟨_, rfl, .retest _ hh hl (by omega)⟩
    · exact ⟨_, rfl, .retest _ hh hl (by omega)⟩
  · rename_i hcode
    have hh : key.code ≠ .char 'h' := by rw [hcode]; decide
    have hl : key.code ≠ .char 'l' := by rw [hcode]; decide
    exact ⟨_, rfl, .retest s.current hh hl hlt⟩
  · rename_i hcode
    have hh : key.code ≠ .char 'h' := by rw [hcode]; decide
    have hl : key.code ≠ .char 'l' := by rw [hcode]; decide
    exact ⟨_, rfl, .retest s.current hh hl hlt⟩
  · rename_i hh hl _ _ _ _
    exact ⟨s, rfl, .ignored hh hl⟩

/-- What a step leads to, from a session that keeps the invariant. -/
inductive Stepped (exercises : List Exercise) (s : Session) : Action → Session → Prop
  | test {result : TestResult} {s' : Session} : s.phase = .running → s.needsRetest = true →
      Tested exercises s result s' → Stepped exercises s (.test result) s'
  | idle {changed : Bool} : s.phase = .running → s.needsRetest = false →
      Stepped exercises s (.poll none changed) (s.fileChanged changed)
  | press {key : KeyEvent} {changed : Bool} {s' : Session} : s.phase = .running →
      s.needsRetest = false → WatchMode.State.quits key = false →
      s.press exercises key = some s' → Pressed exercises s key s' →
      Stepped exercises s (.poll (some key) changed) (s'.fileChanged changed)
  | quit {key : KeyEvent} {changed : Bool} :
      (s.phase = .running ∧ s.needsRetest = false) ∨ s.phase = .congratulated →
      WatchMode.State.quits key = true → Stepped exercises s (.poll (some key) changed) s.leave
  | wait {key : Option KeyEvent} {changed : Bool} : s.phase = .congratulated →
      key.any WatchMode.State.quits = false → Stepped exercises s (.poll key changed) s

theorem step_stepped (h : Inv exercises s) (hs : step exercises s a = some s') :
    Stepped exercises s a s' := by
  cases a with
  | test result =>
    cases hphase : s.phase <;> simp only [step, hphase] at hs
    case running =>
      obtain ⟨hretest, hres⟩ := Option.ite_none_right_eq_some.mp hs
      obtain ⟨t, ht, htested⟩ := runTest_spec h (h.live hphase) result
      rw [ht] at hres
      cases hres
      exact .test hphase hretest htested
    all_goals cases hs
  | poll key changed =>
    cases hphase : s.phase <;> simp only [step, hphase] at hs
    case running =>
      obtain ⟨hretest, hres⟩ := Option.ite_none_left_eq_some.mp hs
      rw [Bool.not_eq_true] at hretest
      cases key with
      | none =>
        cases hres
        exact .idle hphase hretest
      | some key =>
        rw [Session.handle] at hres
        cases hquit : WatchMode.State.quits key with
        | true =>
          rw [hquit] at hres
          cases hres
          exact .quit (Or.inl ⟨hphase, hretest⟩) hquit
        | false =>
          obtain ⟨t, ht, hpressed⟩ := press_spec h (h.live hphase) key
          simp only [hquit, ht, Bool.false_eq_true, if_false] at hres
          cases hres
          exact .press hphase hretest hquit ht hpressed
    case congratulated =>
      cases hquit : key.any WatchMode.State.quits with
      | true =>
        rw [hquit] at hs
        cases hs
        obtain ⟨key, rfl, hkey⟩ := (Option.any_eq_true _ _).mp hquit
        exact .quit (Or.inr hphase) hkey
      | false =>
        rw [hquit] at hs
        cases hs
        exact .wait hphase hquit
    all_goals cases hs

theorem Drawn.lines {screen : List Char} (h : Drawn exercises current n screen) :
    ∃ ls, screen = written ls := by
  obtain ⟨header, rest, -, hscreen⟩ := h
  exact ⟨_, hscreen⟩

namespace Inv

/-- One more screen of lines is drawn. -/
theorem draw (h : Inv exercises s) {screen : List Char}
    (hscreen : ∃ ls, screen = written ls) : Inv exercises (s.draw screen) where
  length_done := h.length_done
  live := h.live
  sound := h.sound
  raw := h.raw
  lines t ht := by
    rcases List.mem_cons.mp ht with heq | hmem
    · exact heq ▸ hscreen
    · exact h.lines t hmem

theorem tested (h : Inv exercises s) (hphase : s.phase = .running)
    (ht : Tested exercises s result s') : Inv exercises s' := by
  have hlive := h.live hphase
  have hraw : s.terminal.raw = true := h.raw.mpr (Or.inl hphase)
  have hset : (s.done.set s.current true).length = exercises.length := by
    rw [List.length_set, h.length_done]
  cases ht with
  | failed testing report hfailed htesting hreport hredraw =>
    have hdrawn := (h.draw htesting.lines).draw hreport.lines
    exact { hdrawn with }
  | jumped testing passed next hpassed htesting hdrawn hnext =>
    have hshown := (h.draw htesting.lines).draw hdrawn.lines
    have hopen := WatchMode.findNextIncomplete_some hnext
    have hnextlt := (List.getElem?_eq_some_iff.mp hopen).choose
    exact { hshown with length_done := hset, live := fun _ => hset ▸ hnextlt }
  | finished testing passed hpassed htesting hdrawn hnext =>
    have hshown := (h.draw htesting.lines).draw hdrawn.lines
    exact
      { hshown with
        length_done := hset
        live := fun hrunning => nomatch hrunning
        sound := fun hpanicked => nomatch hpanicked
        raw := iff_of_true hraw (Or.inr rfl) }

theorem pressed (h : Inv exercises s) (hp : Pressed exercises s key s') : Inv exercises s' := by
  cases hp with
  | hint screen hcode hdrawn hredraw => exact { h.draw hdrawn.lines with }
  | list screen hcode hdrawn hredraw => exact { h.draw hdrawn.lines with }
  | retest current hh hl hlt => exact { h with live := fun _ => hlt }
  | ignored hh hl => exact h

theorem fileChanged (h : Inv exercises s) (changed : Bool) :
    Inv exercises (s.fileChanged changed) := by
  unfold Session.fileChanged
  split_ifs
  · exact { h with }
  · exact h

theorem leave (h : Inv exercises s) : Inv exercises s.leave where
  length_done := h.length_done
  live hrunning := nomatch hrunning
  sound hpanicked := nomatch hpanicked
  raw := iff_of_false Bool.false_ne_true fun hphase => by rcases hphase with hp | hp <;> cases hp
  lines := h.lines

theorem step (h : Inv exercises s) (hs : WatchScreen.step exercises s a = some s') :
    Inv exercises s' := by
  cases step_stepped h hs with
  | test hphase hretest htested => exact h.tested hphase htested
  | idle hphase hretest => exact h.fileChanged _
  | press hphase hretest hquit hpress hpressed => exact (h.pressed hpressed).fileChanged _
  | quit hphase hquit => exact h.leave
  | wait hphase hquit => exact h

theorem start (exercises : List Exercise) (quiet : ℕ → Bool) :
    Inv exercises (WatchScreen.start exercises quiet) := by
  have hscan := WatchMode.scan_spec ((List.range exercises.length).map quiet)
  have hlength : (scan ((List.range exercises.length).map quiet)).1.length = exercises.length := by
    rw [hscan.1, List.length_map, List.length_range]
  unfold WatchScreen.start
  simp only
  split_ifs with hall
  · exact
      { length_done := hlength
        live := fun hrunning => nomatch hrunning
        sound := fun hpanicked => nomatch hpanicked
        raw := iff_of_false Bool.false_ne_true fun hphase => by
          rcases hphase with hp | hp <;> cases hp
        lines := fun _ hscreen => nomatch hscreen }
  · refine
      { length_done := hlength
        live := fun _ => ?_
        sound := fun hpanicked => nomatch hpanicked
        raw := iff_of_true rfl (Or.inl rfl)
        lines := fun _ hscreen => nomatch hscreen }
    rcases hscan.2 with hpassed | hfailed
    · rw [List.length_map, List.length_range] at hpassed
      exact absurd hpassed.1 hall
    · have hlt := (List.getElem?_eq_some_iff.mp hfailed).choose
      rw [List.length_map, List.length_range] at hlt
      exact hlt

theorem reach (h : Reachable (WatchScreen.step exercises) (WatchScreen.start exercises quiet) s) :
    Inv exercises s :=
  Reach.invariant (I := Inv exercises) (start exercises quiet) (fun _ _ _ hi _ hs => hi.step hs) h

theorem run (hrun : Execution.run (WatchScreen.step exercises)
    (WatchScreen.start exercises quiet) l = some s) : Inv exercises s :=
  reach (Reach.init.run hrun)

end Inv

def keyOf : Action → Option KeyEvent
  | .test _ => none
  | .poll key _ => key

/-- The keys of a list of polls. -/
def keysOf (polls : List Action) : List KeyEvent := polls.filterMap keyOf

def presses (c : Char) (keys : List KeyEvent) : ℕ :=
  (keys.filter fun key => key.code = .char c).length

/-- Pressed an odd number of times. -/
def toggled (c : Char) (keys : List KeyEvent) : Bool := presses c keys % 2 = 1

/-- The last of the keys for hint and list. -/
def lastToggle (keys : List KeyEvent) : Option KeyCode :=
  ((keys.map KeyEvent.code).filter fun code => code = .char 'h' ∨ code = .char 'l').getLast?

/-- The list is on the screen if its key was the last of the two to be pressed
and was pressed an odd number of times. -/
def listShown (keys : List KeyEvent) : Bool :=
  toggled 'l' keys && lastToggle keys = some (.char 'l')

/-- The screen stands as a redraw with the flags of the keys pressed since the test. -/
structure View (exercises : List Exercise) (s : Session) (r : TestResult) (keys : List KeyEvent) :
    Prop where
  failed : r.passed = false
  result : s.lastResult = some r
  hint : s.showHint = toggled 'h' keys
  list : s.showList = toggled 'l' keys
  screen : s.terminal.screens.head? = fullRedraw exercises s.current (countDone s.done) (some r)
    (toggled 'h' keys) (listShown keys) s.done

variable {keys : List KeyEvent} {c : Char} {polls : List Action}

theorem toggled_concat (c : Char) (keys : List KeyEvent) (key : KeyEvent) :
    toggled c (keys ++ [key]) = if key.code = .char c then !toggled c keys else toggled c keys := by
  unfold toggled presses
  rw [List.filter_append, List.length_append, List.filter_singleton]
  by_cases h : key.code = .char c
  · rw [decide_eq_true h, if_pos h, Bool.cond_true, List.length_singleton]
    generalize (keys.filter fun key => key.code = .char c).length = n
    rcases Nat.mod_two_eq_zero_or_one n with hn | hn
    · have hsucc : (n + 1) % 2 = 1 := by omega
      simp [hn, hsucc]
    · have hsucc : (n + 1) % 2 = 0 := by omega
      simp [hn, hsucc]
  · rw [decide_eq_false h, if_neg h]
    rfl

theorem lastToggle_concat (keys : List KeyEvent) (key : KeyEvent) :
    lastToggle (keys ++ [key]) =
      if key.code = .char 'h' ∨ key.code = .char 'l' then some key.code else lastToggle keys := by
  unfold lastToggle
  rw [List.map_append, List.filter_append, List.map_singleton, List.filter_singleton]
  by_cases h : key.code = .char 'h' ∨ key.code = .char 'l'
  · rw [decide_eq_true h, if_pos h, Bool.cond_true, List.getLast?_concat]
  · rw [decide_eq_false h, if_neg h, Bool.cond_false, List.append_nil]

/-- A test after which keys are awaited has failed, and its report is on the screen. -/
theorem Tested.view (ht : Tested exercises s result s') (hphase : s'.phase = .running)
    (hwait : s'.needsRetest = false) : View exercises s' result [] ∧ s'.current = s.current := by
  cases ht with
  | failed testing report hfailed htesting hreport hredraw =>
    refine ⟨⟨hfailed, rfl, rfl, rfl, ?_⟩, rfl⟩
    exact hredraw.symm
  | jumped testing passed next hpassed htesting hdrawn hnext => cases hwait
  | finished testing passed hpassed htesting hdrawn hnext => cases hphase

/-- A key that asks for no retest changes the view by its own toggle. -/
theorem View.press (h : View exercises s r keys) (hp : Pressed exercises s key s')
    (hwait : s'.needsRetest = false) :
    View exercises s' r (keys ++ [key]) ∧ s'.current = s.current := by
  cases hp with
  | hint screen hcode hdrawn hredraw =>
    have hh := (toggled_concat 'h' keys key).trans (if_pos hcode)
    have hl := (toggled_concat 'l' keys key).trans (if_neg (by rw [hcode]; decide))
    have hlist : listShown (keys ++ [key]) = false := by
      rw [listShown, lastToggle_concat, if_pos (Or.inl hcode), hcode]
      exact Bool.and_false _
    refine ⟨⟨h.failed, h.result, ?_, ?_, ?_⟩, rfl⟩
    · rw [hh, ← h.hint]
      rfl
    · rw [hl]
      exact h.list
    · rw [hh, hlist, ← h.hint, ← h.result]
      exact hredraw.symm
  | list screen hcode hdrawn hredraw =>
    have hh := (toggled_concat 'h' keys key).trans (if_neg (by rw [hcode]; decide))
    have hl := (toggled_concat 'l' keys key).trans (if_pos hcode)
    have hlist : listShown (keys ++ [key]) = !toggled 'l' keys := by
      rw [listShown, lastToggle_concat, if_pos (Or.inr hcode), hcode, hl]
      exact Bool.and_true _
    refine ⟨⟨h.failed, h.result, ?_, ?_, ?_⟩, rfl⟩
    · rw [hh]
      exact h.hint
    · rw [hl, ← h.list]
      rfl
    · rw [hh, hlist, ← h.hint, ← h.list, ← h.result]
      exact hredraw.symm
  | retest current hh hl hlt => cases hwait
  | ignored hh hl =>
    have hhint := (toggled_concat 'h' keys key).trans (if_neg hh)
    have hkept := (toggled_concat 'l' keys key).trans (if_neg hl)
    have hlist : listShown (keys ++ [key]) = listShown keys := by
      rw [listShown, lastToggle_concat, if_neg (not_or.mpr ⟨hh, hl⟩), hkept]
      rfl
    refine ⟨⟨h.failed, h.result, ?_, ?_, ?_⟩, rfl⟩
    · rw [hhint]
      exact h.hint
    · rw [hkept]
      exact h.list
    · rw [hhint, hlist]
      exact h.screen

theorem fileChanged_awaits (h : (s.fileChanged changed).needsRetest = false) :
    s.fileChanged changed = s := by
  unfold Session.fileChanged at h ⊢
  split_ifs at h ⊢
  rfl

theorem not_test_concat (h : ∀ a ∈ polls, ∀ r, a ≠ .test r) (key : Option KeyEvent)
    (changed : Bool) : ∀ a ∈ polls ++ [.poll key changed], ∀ r, a ≠ .test r := by
  intro a ha r
  rcases List.mem_append.mp ha with hold | hnew
  · exact h a hold r
  · rw [List.mem_singleton.mp hnew]
    exact fun heq => nomatch heq

theorem keysOf_concat (polls : List Action) (key : Option KeyEvent) (changed : Bool) :
    keysOf (polls ++ [.poll key changed]) = keysOf polls ++ key.toList := by
  rw [keysOf, List.filterMap_append]
  cases key <;> rfl

/-- Whenever keys are awaited, the last test has failed; it was of the exercise that
still is the current one, and the screen is a redraw of its result, with the hint if
its key was pressed an odd number of times since, and the list if its key was the last
of the two and pressed an odd number of times. -/
theorem run_screen_shows (exercises : List Exercise) (quiet : ℕ → Bool) {l : List Action}
    {s : Session} (hrun : run (step exercises) (start exercises quiet) l = some s)
    (hphase : s.phase = .running) (hwait : s.needsRetest = false) :
    ∃ before r polls s₀, l = before ++ .test r :: polls ∧ (∀ a ∈ polls, ∀ r, a ≠ .test r) ∧
      run (step exercises) (start exercises quiet) before = some s₀ ∧
      s.current = s₀.current ∧ View exercises s r (keysOf polls) := by
  induction l using List.reverseRecOn generalizing s with
  | nil =>
    cases hrun
    unfold start at hwait hphase
    simp only at hwait hphase
    split_ifs at hwait hphase
  | append_singleton l a ih =>
    rw [run_append] at hrun
    obtain ⟨t, ht, hlast⟩ := Option.bind_eq_some_iff.mp hrun
    obtain ⟨s', hs, hend⟩ := Option.bind_eq_some_iff.mp hlast
    cases hend
    cases step_stepped (Inv.run ht) hs with
    | @test result _ hrunning hretest htested =>
      obtain ⟨hview, hcurrent⟩ := htested.view hphase hwait
      exact ⟨l, result, [], t, rfl, fun _ ha => (List.not_mem_nil ha).elim, ht, hcurrent, hview⟩
    | @idle changed hrunning hretest =>
      rw [fileChanged_awaits hwait]
      obtain ⟨before, r, polls, s₀, hl, hpolls, hbefore, hcurrent, hview⟩ := ih ht hrunning hretest
      refine ⟨before, r, polls ++ [.poll none changed], s₀, ?_, not_test_concat hpolls none changed,
        hbefore, hcurrent, ?_⟩
      · rw [hl, List.append_assoc]
        rfl
      · rw [keysOf_concat, Option.toList_none, List.append_nil]
        exact hview
    | @press key changed mid hrunning hretest hquit hpress hpressed =>
      have hkept := fileChanged_awaits hwait
      rw [hkept] at hwait ⊢
      obtain ⟨before, r, polls, s₀, hl, hpolls, hbefore, hcurrent, hview⟩ := ih ht hrunning hretest
      obtain ⟨hview', hcurrent'⟩ := hview.press hpressed hwait
      refine ⟨before, r, polls ++ [.poll (some key) changed], s₀, ?_,
        not_test_concat hpolls (some key) changed, hbefore, hcurrent'.trans hcurrent, ?_⟩
      · rw [hl, List.append_assoc]
        rfl
      · rw [keysOf_concat]
        exact hview'
    | quit hrunning hquit => cases hphase
    | wait hrunning hquit => cases hrunning.symm.trans hphase

/-- The key for the list, pressed again behind that for the hint, takes its flag back:
the hint stays on the screen. -/
theorem run_screen_shows_list_key_without_list :
    let ex : Exercise := ⟨['a'], ['a'], ['a'], ['m'], ['d'], ['t']⟩
    let press : Char → Action := fun c => .poll (some ⟨.char c, false⟩) false
    let l : List Action := [.test ⟨false, ['x']⟩, press 'l', press 'h', press 'l']
    ∃ s, run (step [ex]) (start [ex] fun _ => false) l = some s ∧
      s.terminal.screens.head? =
        fullRedraw [ex] s.current (countDone s.done) (some ⟨false, ['x']⟩) true false s.done := by
  intro ex press l
  have hend : (run (step [ex]) (start [ex] fun _ => false) l).map
      (fun s => (s.phase, s.needsRetest)) = some (.running, false) := by decide +kernel
  obtain ⟨s, hrun, hout⟩ := Option.map_eq_some_iff.mp hend
  obtain ⟨hphase, hwait⟩ := Prod.mk.inj hout
  refine ⟨s, hrun, ?_⟩
  obtain ⟨before, r, polls, s₀, hl, hpolls, -, -, hview⟩ :=
    run_screen_shows [ex] (fun _ => false) hrun hphase hwait
  have hbefore : before = [] := by
    cases before with
    | nil => rfl
    | cons a before =>
      obtain ⟨-, hrest⟩ := List.cons.inj hl
      have hmem : Action.test r ∈ [press 'l', press 'h', press 'l'] := by
        rw [hrest]
        exact List.mem_append_right _ List.mem_cons_self
      simp [press] at hmem
  rw [hbefore] at hl
  obtain ⟨hr, hkeys⟩ := List.cons.inj hl
  cases hr
  have hscreen := hview.screen
  have hhint : toggled 'h' (keysOf polls) = true := by rw [← hkeys]; decide
  have hlist : listShown (keysOf polls) = false := by rw [← hkeys]; decide
  rw [hhint, hlist] at hscreen
  exact hscreen

end OsCamp.WatchScreen
