import Mathlib.Data.List.Basic
import OsCamp.RoundRobin

/-!
`watch_mode` of the command line tool. An exercise is its index, a test is its outcome.
The scan fills `done` and finds the first exercise to work on; then a round of the loop
tests the current exercise if that is due, and otherwise handles at most one key and the
file changes reported since. Of the screen, the headers with the progress and the
congratulation are kept, each with the outcomes observed so far; hint, list and test output
below a header are left out, and so are the flags that choose among them.
-/

set_option autoImplicit false

namespace OsCamp.WatchMode

def countDone (done : List Bool) : ℕ := (done.filter id).length

/-- The loop over the exercises: `done` and `current`, which is `total` until a test fails. -/
def scanFrom (total : ℕ) : ℕ → List Bool → List Bool × ℕ → List Bool × ℕ
  | _, [], found => found
  | i, passed :: rest, (done, current) =>
    if passed then scanFrom total (i + 1) rest (done.set i true, current)
    else if current = total then scanFrom total (i + 1) rest (done, i)
    else scanFrom total (i + 1) rest (done, current)

def scan (outcomes : List Bool) : List Bool × ℕ :=
  scanFrom outcomes.length 0 outcomes (List.replicate outcomes.length false, outcomes.length)

def findNextIncomplete (done : List Bool) (current : ℕ) : Option ℕ :=
  (List.range' 1 done.length).findSome? fun i =>
    if done[(current + i) % done.length]? = some false then some ((current + i) % done.length)
    else none

inductive KeyCode
  | char (c : Char)
  | enter
  | esc
  | other
  deriving DecidableEq

structure KeyEvent where
  code : KeyCode
  control : Bool

/-- What the screen says, with the outcomes known when it was drawn. -/
inductive Shown
  | header (current done total : ℕ) (observed : List Bool)
  | allPassed (total : ℕ) (observed : List Bool)
  deriving DecidableEq

inductive Phase
  | running
  | congratulated
  | ended
  deriving DecidableEq

/-- `observed` holds the last outcome of every exercise; the code has no such variable. -/
structure State where
  done : List Bool
  current : ℕ
  needsRetest : Bool
  phase : Phase
  observed : List Bool
  shown : List Shown

inductive Action
  | test (passed : Bool)
  | poll (key : Option KeyEvent) (changed : Bool)

namespace State

def total (s : State) : ℕ := s.done.length

def renderHeader (s : State) : State :=
  { s with shown := s.shown ++ [.header s.current (countDone s.done) s.total s.observed] }

def congratulate (s : State) : State :=
  { s with shown := s.shown ++ [.allPassed s.total s.observed], phase := .congratulated }

/-- The outcome of the current exercise becomes known. -/
def observe (s : State) (passed : Bool) : State :=
  { s with observed := s.observed.set s.current passed }

def markDone (s : State) : State := { s with done := s.done.set s.current true }

def runTest (s : State) (passed : Bool) : State :=
  let tested := s.renderHeader.observe passed
  if passed then
    let marked := tested.markDone.renderHeader
    match findNextIncomplete marked.done marked.current with
    | some next => { marked with current := next, needsRetest := true }
    | none => marked.congratulate
  else { tested.renderHeader with needsRetest := false }

def quits (key : KeyEvent) : Bool :=
  match key.code with
  | .esc => true
  | .char c => c = 'q' || (c = 'c' && key.control)
  | _ => false

/-- The keys that do not leave the loop. -/
def press (s : State) (key : KeyEvent) : State :=
  match key.code with
  | .char 'h' => s.renderHeader
  | .char 'l' => s.renderHeader
  | .char 'n' => { s with current := (s.current + 1) % s.total, needsRetest := true }
  | .char 'p' =>
    { s with
      current := if s.current > 0 then s.current - 1 else s.total - 1
      needsRetest := true }
  | .char 'r' => { s with needsRetest := true }
  | .enter => { s with needsRetest := true }
  | _ => s

def fileChanged (s : State) (changed : Bool) : State :=
  if changed then { s with needsRetest := true } else s

def handle (s : State) (key : Option KeyEvent) (changed : Bool) : State :=
  match key with
  | none => s.fileChanged changed
  | some key =>
    if quits key then { s with phase := .ended } else (s.press key).fileChanged changed

end State

/-- The session after the scan; a congratulation here ends it at once. -/
def start (outcomes : List Bool) : State :=
  let found := scan outcomes
  if found.2 = outcomes.length then
    { done := found.1
      current := found.2
      needsRetest := false
      phase := .ended
      observed := outcomes
      shown := [.allPassed outcomes.length outcomes] }
  else
    { done := found.1
      current := found.2
      needsRetest := true
      phase := .running
      observed := outcomes
      shown := [] }

/-- After the congratulation only the keys that quit have an effect. -/
def step (s : State) : Action → Option State
  | .test passed =>
    match s.phase with
    | .running => if s.needsRetest then some (s.runTest passed) else none
    | _ => none
  | .poll key changed =>
    match s.phase with
    | .running => if s.needsRetest then none else some (s.handle key changed)
    | .congratulated => some (if key.any State.quits then { s with phase := .ended } else s)
    | .ended => none

/-- The scan has seen only passes, or stands at one that failed. -/
def Found (total : ℕ) (seen : List Bool) (current : ℕ) : Prop :=
  (current = total ∧ ∀ passed ∈ seen, passed = true) ∨ seen[current]? = some false

theorem scanFrom_spec (rest : List Bool) {total current : ℕ} {seen : List Bool}
    (htotal : total = seen.length + rest.length) (hfound : Found total seen current) :
    (scanFrom total seen.length rest (seen ++ List.replicate rest.length false, current)).1 =
        seen ++ rest ∧
      Found total (seen ++ rest)
        (scanFrom total seen.length rest
          (seen ++ List.replicate rest.length false, current)).2 := by
  induction rest generalizing seen current with
  | nil =>
    rw [List.append_nil]
    exact ⟨List.append_nil seen, hfound⟩
  | cons passed rest ih =>
    have hlen : (seen ++ [passed]).length = seen.length + 1 := by simp
    rw [List.length_cons] at htotal
    have hnext : ∀ {next}, Found total (seen ++ [passed]) next →
        (scanFrom total (seen.length + 1) rest
            (seen ++ [passed] ++ List.replicate rest.length false, next)).1 =
          seen ++ passed :: rest ∧
        Found total (seen ++ passed :: rest) (scanFrom total (seen.length + 1) rest
            (seen ++ [passed] ++ List.replicate rest.length false, next)).2 := by
      intro next hnext
      have htotal' : total = (seen ++ [passed]).length + rest.length := by omega
      have h := ih htotal' hnext
      rw [hlen, List.append_assoc seen [passed] rest] at h
      exact h
    have hdone : seen ++ List.replicate (rest.length + 1) false =
        seen ++ [false] ++ List.replicate rest.length false := by
      rw [List.replicate_succ, List.append_assoc]
      rfl
    rw [List.length_cons, hdone]
    cases passed with
    | true =>
      have hset : (seen ++ [false] ++ List.replicate rest.length false).set seen.length true =
          seen ++ [true] ++ List.replicate rest.length false := by simp
      rw [scanFrom, if_pos rfl, hset]
      apply hnext
      rcases hfound with ⟨hcurrent, hseen⟩ | hfailed
      · exact Or.inl ⟨hcurrent, by simpa using hseen⟩
      · have hlt := (List.getElem?_eq_some_iff.mp hfailed).choose
        exact Or.inr ((List.getElem?_append_left hlt).trans hfailed)
    | false =>
      rw [scanFrom, if_neg Bool.false_ne_true]
      split_ifs with hcurrent
      · exact hnext (Or.inr List.getElem?_concat_length)
      · apply hnext
        rcases hfound with ⟨hcurrent', -⟩ | hfailed
        · exact absurd hcurrent' hcurrent
        · have hlt := (List.getElem?_eq_some_iff.mp hfailed).choose
          exact Or.inr ((List.getElem?_append_left hlt).trans hfailed)

theorem scan_spec (outcomes : List Bool) :
    (scan outcomes).1 = outcomes ∧ Found outcomes.length outcomes (scan outcomes).2 :=
  @scanFrom_spec outcomes outcomes.length outcomes.length [] (by simp)
    (Or.inl ⟨rfl, fun _ h => nomatch h⟩)

theorem findNextIncomplete_some {done : List Bool} {current next : ℕ}
    (h : findNextIncomplete done current = some next) : done[next]? = some false := by
  obtain ⟨i, -, hi⟩ := List.exists_of_findSome?_eq_some h
  split_ifs at hi with hopen
  · cases hi
    exact hopen

/-- The search looks at every exercise. -/
theorem findNextIncomplete_none {done : List Bool} {current : ℕ} (hcurrent : current < done.length)
    (h : findNextIncomplete done current = none) : ∀ passed ∈ done, passed = true := by
  intro passed hmem
  obtain ⟨i, hi, rfl⟩ := List.mem_iff_getElem.mp hmem
  obtain ⟨k, hpos, hk, hplace⟩ :
      ∃ k, 1 ≤ k ∧ k ≤ done.length ∧ (current + k) % done.length = i := by
    by_cases hself : i = current
    · refine ⟨done.length, by omega, Nat.le_refl _, ?_⟩
      rw [Nat.add_mod_right, Nat.mod_eq_of_lt hcurrent, hself]
    · obtain ⟨k, hpos, hk, hplace⟩ := RoundRobin.exists_place hcurrent hi hself
      exact ⟨k, hpos, Nat.le_of_lt hk, hplace⟩
  have hlooked := List.findSome?_eq_none_iff.mp h k (by simp; omega)
  rw [hplace, List.getElem?_eq_getElem hi] at hlooked
  by_contra hopen
  rw [Bool.not_eq_true] at hopen
  rw [hopen] at hlooked
  cases hlooked

end OsCamp.WatchMode
