import Mathlib.Tactic.Ring
import OsCamp.ErrExit

/-!
`check.sh`: the loop over the exercise list, and the summary. An entry is given by its three
fields. Each entry comes with the result that `cargo test` has for it; the rest of the
environment is what the script asks of the machine. Output is left out, but for the names
printed in front of a result and the summary. A variable in an arithmetic expression is a
64-bit number.
-/

set_option autoImplicit false

namespace OsCamp.CheckScript

open ErrExit

structure Entry where
  module : String
  package : String
  desc : String
  deriving DecidableEq

/-- An entry and whether its tests succeed. -/
structure Trial where
  entry : Entry
  cargo : Bool

structure Env where
  /-- `uname -s` -/
  system : String
  /-- `uname -m` -/
  machine : String
  scriptsDir : Bool
  setupSucceeds : Bool
  qemuFound : Bool
  sysrootFound : Bool

structure Summary where
  pass : ℤ
  fail : ℤ
  skip : ℤ
  total : ℤ
  deriving DecidableEq

/-- The variables of the script, the entries it has named and the summary it has printed. -/
structure Vars where
  pass : ℤ
  fail : ℤ
  skip : ℤ
  currentModule : String
  riscv64Ready : ℤ
  visited : List Entry
  summary : Option Summary

def initial : Vars := ⟨0, 0, 0, "", 0, [], none⟩

inductive Outcome
  | pass
  | fail
  | skip
  deriving DecidableEq

def wrap (n : ℤ) : ℤ := n.bmod (2 ^ 64)

namespace Vars

/-- `PASS`, `FAIL` or `SKIP` -/
def counter (v : Vars) : Outcome → ℤ
  | .pass => v.pass
  | .fail => v.fail
  | .skip => v.skip

def setCounter (v : Vars) (o : Outcome) (n : ℤ) : Vars :=
  match o with
  | .pass => { v with pass := n }
  | .fail => { v with fail := n }
  | .skip => { v with skip := n }

end Vars

/-- `((X++))`: the value is that of `X` before. -/
def postIncrement (o : Outcome) : Script Vars :=
  checked (arith fun v => (v.counter o, v.setCounter o (wrap (v.counter o + 1))))

/-- `X=$((X + 1))`, as the scoring workflow counts. -/
def assignIncrement (o : Outcome) : Script Vars :=
  effect fun v => v.setCounter o (wrap (v.counter o + 1))

def ifFails (holds : Bool) (els : Script Vars) : Script Vars :=
  ifThenElse (test fun _ => holds) (effect id) els

/-- `return 0` of the function ends in the same way as its last command. -/
def ensureRiscv64Ready (env : Env) : Script Vars :=
  ifFails (env.machine = "riscv64") <|
    ifFails (env.system = "Darwin") <|
      seq (ifThenElse (test fun _ => env.scriptsDir) (ifFails env.setupSucceeds (exit 1))
          (effect id)) <|
        seq (ifFails env.qemuFound (exit 1)) (ifFails env.sysrootFound (exit 1))

/-- Entering a module; the environment of the fourth is prepared once. -/
def enterModule (env : Env) (entry : Entry) : Script Vars :=
  ifThenElse (test fun v => entry.module ≠ v.currentModule)
    (seq (effect fun v => { v with currentModule := entry.module })
      (ifThenElse (test fun v => entry.module = "04_context_switch" ∧ v.riscv64Ready = 0)
        (seq (ensureRiscv64Ready env) (effect fun v => { v with riscv64Ready := 1 }))
        (effect id)))
    (effect id)

def name (entry : Entry) : Script Vars :=
  effect fun v => { v with visited := v.visited ++ [entry] }

/-- The tests of an entry, counted with `increment`. -/
def testEntry (env : Env) (increment : Outcome → Script Vars) (trial : Trial) : Script Vars :=
  ifThenElse (test fun _ => trial.entry.module = "04_context_switch")
    (ifThenElse (test fun _ => env.system = "Darwin") (increment .skip)
      (ifThenElse (test fun _ => trial.cargo) (increment .pass) (increment .fail)))
    (ifThenElse (test fun _ => trial.cargo) (increment .pass) (increment .fail))

def round (env : Env) (increment : Outcome → Script Vars) (trial : Trial) : Script Vars :=
  seq (enterModule env trial.entry)
    (seq (name trial.entry) (testEntry env increment trial))

def summarize : Script Vars :=
  seq (effect fun v =>
      { v with summary := some ⟨v.pass, v.fail, v.skip, wrap (v.pass + v.fail + v.skip)⟩ })
    (ifThenElse (test fun v => v.fail = 0) (exit 0) (exit 1))

def script (env : Env) (increment : Outcome → Script Vars) (trials : List Trial) : Script Vars :=
  seq (forEach trials (round env increment)) summarize

/-- `check.sh` -/
def check (env : Env) (trials : List Trial) : Result Vars :=
  script env postIncrement trials initial

/-- What the script is to find for an entry. -/
def outcome (env : Env) (trial : Trial) : Outcome :=
  if trial.entry.module = "04_context_switch" ∧ env.system = "Darwin" then .skip
  else if trial.cargo then .pass
  else .fail

def number (env : Env) (o : Outcome) (trials : List Trial) : ℕ :=
  trials.countP fun trial => outcome env trial = o

/-- The script ends after a summary with the right numbers, having visited every entry,
and its code tells whether an entry failed. -/
def Reports (env : Env) (trials : List Trial) (result : Result Vars) : Prop :=
  ∃ code v, result = .exited code v ∧ v.visited = trials.map Trial.entry ∧
    v.summary = some ⟨number env .pass trials, number env .fail trials, number env .skip trials,
      trials.length⟩ ∧
    (code = 0 ↔ number env .fail trials = 0)

theorem counter_congr {v v' : Vars}
    (h : v'.pass = v.pass ∧ v'.fail = v.fail ∧ v'.skip = v.skip) (o : Outcome) :
    v'.counter o = v.counter o := by
  cases o with
  | pass => exact h.1
  | fail => exact h.2.1
  | skip => exact h.2.2

variable {env : Env} {E : ℕ → Vars → Prop} {P : Vars → Prop}

/-- No counter has been incremented and no summary printed. -/
def Unused (v : Vars) : Prop := (∀ o, v.counter o = 0) ∧ v.summary = none

def EndedEarly (code : ℕ) (v : Vars) : Prop := code = 1 ∧ v.summary = none

/-- The first increment ends the script. -/
theorem postIncrement_ends (o : Outcome) :
    Triple Unused (postIncrement o) (fun _ => False) EndedEarly := by
  apply Triple.arith_zero
  · exact fun v hv => hv.1 o
  · intro v hv
    refine ⟨rfl, ?_⟩
    cases o <;> exact hv.2

/-- The riscv64 environment is complete, or not needed. -/
def Ready (env : Env) : Prop :=
  env.machine = "riscv64" ∨ env.system = "Darwin" ∨
    ((env.scriptsDir = true → env.setupSucceeds = true) ∧ env.qemuFound = true ∧
      env.sysrootFound = true)

/-- A test of the environment keeps what holds, whichever way it goes. -/
theorem ifFails_keeps {holds : Bool} {els : Script Vars}
    (h : holds = false → Triple P els P E) : Triple P (ifFails holds els) P E :=
  Triple.ifTest (Triple.effect fun _ hv => hv.1) fun v hv => h hv.2 v hv.1

theorem ensureRiscv64Ready_keeps (env : Env) (h : ¬ Ready env → ∀ v, P v → E 1 v) :
    Triple P (ensureRiscv64Ready env) P E := by
  apply ifFails_keeps
  intro hmachine
  rw [decide_eq_false_iff_not] at hmachine
  apply ifFails_keeps
  intro hsystem
  rw [decide_eq_false_iff_not] at hsystem
  -- Past both tests the tools decide.
  have hexit : (¬ ((env.scriptsDir = true → env.setupSucceeds = true) ∧ env.qemuFound = true ∧
      env.sysrootFound = true)) → Triple P (exit 1) P E := by
    intro htools
    apply Triple.exit
    apply h
    rintro (hready | hready | hready)
    · exact hmachine hready
    · exact hsystem hready
    · exact htools hready
  apply Triple.seq (Q := P)
  · apply Triple.ifTest
    · rintro v ⟨hv, hscripts⟩
      refine ifFails_keeps (fun hsetup => hexit fun htools => ?_) v hv
      have hsucceeds := htools.1 hscripts
      rw [hsetup] at hsucceeds
      cases hsucceeds
    · exact Triple.effect fun _ hv => hv.1
  · apply Triple.seq (Q := P)
    · refine ifFails_keeps fun hqemu => hexit fun htools => ?_
      rw [htools.2.1] at hqemu
      cases hqemu
    · refine ifFails_keeps fun hsysroot => hexit fun htools => ?_
      rw [htools.2.2] at hsysroot
      cases hsysroot

/-- Entering a module keeps what does not depend on the two variables it sets. -/
theorem enterModule_keeps (env : Env) (entry : Entry) (hend : ¬ Ready env → ∀ v, P v → E 1 v)
    (hmodule : ∀ v, P v → P { v with currentModule := entry.module })
    (hready : ∀ v, P v → P { v with riscv64Ready := 1 }) :
    Triple P (enterModule env entry) P E := by
  have hskip : Triple P (effect id) P E := Triple.effect fun _ => id
  have hprepare : Triple P
      (seq (ensureRiscv64Ready env) (effect fun v => { v with riscv64Ready := 1 })) P E :=
    (ensureRiscv64Ready_keeps env hend).seq (Triple.effect hready)
  apply Triple.ifTest
  · refine (Triple.effect fun v hv => hmodule v hv.1).seq (Triple.ifTest ?_ ?_)
    · exact hprepare.weaken (fun _ hv => hv.1) fun _ => id
    · exact hskip.weaken (fun _ hv => hv.1) fun _ => id
  · exact hskip.weaken (fun _ hv => hv.1) fun _ => id

/-- Of the three increments, the one for the entry's outcome runs. -/
theorem testEntry_counts {increment : Outcome → Script Vars} {trial : Trial} {Q : Vars → Prop}
    (h : Triple P (increment (outcome env trial)) Q E) :
    Triple P (testEntry env increment trial) Q E := by
  have hcargo : (outcome env trial = if trial.cargo then .pass else .fail) →
      Triple P (ifThenElse (test fun _ => trial.cargo) (increment .pass) (increment .fail))
        Q E := by
    intro houtcome
    rw [houtcome] at h
    apply Triple.ifTest
    · rintro v ⟨hv, hpassed⟩
      rw [hpassed] at h
      exact h v hv
    · rintro v ⟨hv, hfailed⟩
      rw [hfailed] at h
      exact h v hv
  apply Triple.ifTest
  · rintro v ⟨hv, hmodule⟩
    rw [decide_eq_true_iff] at hmodule
    refine Triple.ifTest ?_ ?_ v hv
    · rintro v ⟨hv, hsystem⟩
      rw [decide_eq_true_iff] at hsystem
      rw [outcome, if_pos ⟨hmodule, hsystem⟩] at h
      exact h v hv
    · rintro v ⟨hv, hsystem⟩
      rw [decide_eq_false_iff_not] at hsystem
      exact hcargo (if_neg fun hskip => hsystem hskip.2) v hv
  · rintro v ⟨hv, hmodule⟩
    rw [decide_eq_false_iff_not] at hmodule
    exact hcargo (if_neg fun hskip => hmodule hskip.1) v hv

theorem Unused.congr {v v' : Vars} (hv : Unused v) (hsummary : v'.summary = v.summary)
    (h : v'.pass = v.pass ∧ v'.fail = v.fail ∧ v'.skip = v.skip) : Unused v' :=
  ⟨fun o => (counter_congr h o).trans (hv.1 o), hsummary.trans hv.2⟩

theorem round_ends (env : Env) (trial : Trial) :
    Triple Unused (round env postIncrement trial) (fun _ => False) EndedEarly := by
  have hname : Triple Unused (name trial.entry) Unused EndedEarly :=
    Triple.effect fun v hv => hv.congr rfl ⟨rfl, rfl, rfl⟩
  have henter : Triple Unused (enterModule env trial.entry) Unused EndedEarly := by
    apply enterModule_keeps
    · exact fun _ v hv => ⟨rfl, hv.2⟩
    · exact fun v hv => hv.congr rfl ⟨rfl, rfl, rfl⟩
    · exact fun v hv => hv.congr rfl ⟨rfl, rfl, rfl⟩
  exact henter.seq (hname.seq (testEntry_counts (postIncrement_ends _)))

theorem check_ends_early (env : Env) (trial : Trial) (rest : List Trial) :
    ∃ v, check env (trial :: rest) = .exited 1 v ∧ v.summary = none := by
  have hunused : Unused initial := ⟨fun o => by cases o <;> rfl, rfl⟩
  have hround := round_ends env trial initial hunused
  cases hresult : round env postIncrement trial initial with
  | status n v =>
    rw [hresult] at hround
    exact hround.elim
  | exited code v =>
    rw [hresult] at hround
    obtain ⟨rfl, hsummary⟩ : code = 1 ∧ v.summary = none := hround
    refine ⟨v, ?_, hsummary⟩
    simp only [check, script, forEach, seq, hresult]

/-- `check.sh` does what it is for only on the empty list. -/
theorem check_reports_iff (env : Env) (trials : List Trial) :
    Reports env trials (check env trials) ↔ trials = [] := by
  constructor
  · rintro ⟨code, v, hresult, -, hsummary, -⟩
    cases trials with
    | nil => rfl
    | cons trial rest =>
      obtain ⟨v', hearly, hnone⟩ := check_ends_early env trial rest
      rw [hearly] at hresult
      cases hresult
      rw [hnone] at hsummary
      cases hsummary
  · rintro rfl
    exact ⟨0, _, rfl, rfl, rfl, iff_of_true rfl rfl⟩

/-- The first entry passes, and the script ends with code 1 and without a summary. -/
theorem check_stops_at_first_pass :
    let env : Env := ⟨"Linux", "x86_64", true, true, true, true⟩
    let trials : List Trial :=
      [⟨⟨"01_concurrency_sync", "thread_spawn", "Thread Creation"⟩, true⟩,
        ⟨⟨"01_concurrency_sync", "mutex_counter", "Mutex Shared State"⟩, true⟩]
    check env trials = .exited 1
        { initial with
          pass := 1
          currentModule := "01_concurrency_sync"
          visited := [⟨"01_concurrency_sync", "thread_spawn", "Thread Creation"⟩] } ∧
      ¬ Reports env trials (check env trials) := by
  intro env trials
  have hresult : check env trials = .exited 1
      { initial with
        pass := 1
        currentModule := "01_concurrency_sync"
        visited := [⟨"01_concurrency_sync", "thread_spawn", "Thread Creation"⟩] } := by rfl
  refine ⟨hresult, ?_⟩
  rintro ⟨code, v, hexited, -, hsummary, -⟩
  rw [hresult] at hexited
  cases hexited
  cases hsummary

/-- Which entries have been named, and which of them are counted. -/
structure Counted (env : Env) (named counted : List Trial) (v : Vars) : Prop where
  visited : v.visited = named.map Trial.entry
  counter : ∀ o, v.counter o = (number env o counted : ℤ)

theorem number_append (env : Env) (o : Outcome) (seen : List Trial) (trial : Trial) :
    number env o (seen ++ [trial]) =
      number env o seen + if outcome env trial = o then 1 else 0 := by
  simp [number, List.countP_append, List.countP_singleton]

theorem number_sum (env : Env) (trials : List Trial) :
    number env .pass trials + number env .fail trials + number env .skip trials =
      trials.length := by
  induction trials with
  | nil => rfl
  | cons trial rest ih =>
    have hcons : ∀ o, number env o (trial :: rest) =
        number env o rest + if outcome env trial = o then 1 else 0 := by
      intro o
      simp [number, List.countP_cons]
    rw [hcons, hcons, hcons, List.length_cons, ← ih]
    cases outcome env trial <;> simp <;> omega

theorem wrap_natCast {n : ℕ} (h : n < 2 ^ 63) : wrap n = n := by
  unfold wrap
  rw [Int.bmod_eq_of_le] <;> omega

theorem counter_setCounter (v : Vars) (o o' : Outcome) (n : ℤ) :
    (v.setCounter o n).counter o' = if o = o' then n else v.counter o' := by
  cases o <;> cases o' <;> rfl

theorem assignIncrement_counts {named seen : List Trial} {trial : Trial}
    (hlen : seen.length + 1 < 2 ^ 63) :
    Triple (Counted env named seen) (assignIncrement (outcome env trial))
      (Counted env named (seen ++ [trial])) E := by
  refine Triple.effect fun v hv => ⟨?_, fun o => ?_⟩
  · have hvisited := hv.visited
    cases outcome env trial <;> exact hvisited
  · have hle : number env (outcome env trial) seen ≤ seen.length := List.countP_le_length
    have hlt : number env (outcome env trial) seen + 1 < 2 ^ 63 := by omega
    have hnext := wrap_natCast hlt
    rw [Int.natCast_add, Int.natCast_one] at hnext
    rw [counter_setCounter, number_append, hv.counter, hv.counter, hnext]
    split_ifs with ho
    · rw [ho, Int.natCast_add, Int.natCast_one]
    · rfl

theorem Counted.congr {named named' counted : List Trial} {v v' : Vars}
    (hv : Counted env named counted v) (hvisited : v'.visited = named'.map Trial.entry)
    (h : v'.pass = v.pass ∧ v'.fail = v.fail ∧ v'.skip = v.skip) :
    Counted env named' counted v' :=
  ⟨hvisited, fun o => (counter_congr h o).trans (hv.counter o)⟩

theorem round_counts (hready : Ready env) {seen : List Trial} {trial : Trial}
    (hlen : seen.length + 1 < 2 ^ 63) :
    Triple (Counted env seen seen) (round env assignIncrement trial)
      (Counted env (seen ++ [trial]) (seen ++ [trial])) E := by
  have henter : Triple (Counted env seen seen) (enterModule env trial.entry)
      (Counted env seen seen) E := by
    refine enterModule_keeps env _ (fun hnot => absurd hready hnot) ?_ ?_
    · exact fun v hv => hv.congr hv.visited ⟨rfl, rfl, rfl⟩
    · exact fun v hv => hv.congr hv.visited ⟨rfl, rfl, rfl⟩
  have hname : Triple (Counted env seen seen) (name trial.entry)
      (Counted env (seen ++ [trial]) seen) E := by
    refine Triple.effect fun v hv => hv.congr ?_ ⟨rfl, rfl, rfl⟩
    show v.visited ++ [trial.entry] = _
    rw [hv.visited, List.map_append]
    rfl
  exact henter.seq (hname.seq (testEntry_counts (assignIncrement_counts hlen)))

theorem summarize_exits (v : Vars) :
    summarize v = .exited (if v.fail = 0 then 0 else 1)
      { v with summary := some ⟨v.pass, v.fail, v.skip, wrap (v.pass + v.fail + v.skip)⟩ } := by
  by_cases hfail : v.fail = 0
  · simp only [summarize, seq, effect, ifThenElse, test, hfail, decide_true, if_true]
    rfl
  · simp only [summarize, seq, effect, ifThenElse, test, hfail, decide_false, if_false]
    rfl

/-- With increments by assignment the same loop reports every list. -/
theorem script_assignIncrement_reports (hready : Ready env) {trials : List Trial}
    (hlen : trials.length < 2 ^ 63) :
    Reports env trials (script env assignIncrement trials initial) := by
  have hloop : Triple (Counted env [] []) (forEach trials (round env assignIncrement))
      (Counted env trials trials) fun _ _ => False := by
    refine Triple.forEach (I := fun seen => Counted env seen seen) trials ?_
    intro seen trial rest htrials
    apply round_counts hready
    rw [htrials, List.length_append, List.length_cons] at hlen
    omega
  have hinitial : Counted env [] [] initial := ⟨rfl, fun o => by cases o <;> rfl⟩
  have hend := hloop initial hinitial
  cases hresult : forEach trials (round env assignIncrement) initial with
  | exited code v =>
    rw [hresult] at hend
    exact hend.elim
  | status n v =>
    rw [hresult] at hend
    obtain ⟨hvisited, hcounter⟩ := hend
    have hpass : v.pass = number env .pass trials := hcounter .pass
    have hfail : v.fail = number env .fail trials := hcounter .fail
    have hskip : v.skip = number env .skip trials := hcounter .skip
    have htotal : wrap (v.pass + v.fail + v.skip) = trials.length := by
      rw [hpass, hfail, hskip, ← wrap_natCast hlen, ← number_sum env trials]
      push_cast
      rfl
    refine ⟨if v.fail = 0 then 0 else 1,
      { v with summary := some ⟨v.pass, v.fail, v.skip, wrap (v.pass + v.fail + v.skip)⟩ },
      ?_, hvisited, ?_, ?_⟩
    · rw [script, seq, hresult]
      exact summarize_exits v
    · show some _ = _
      rw [hpass, hfail, hskip, ← htotal, hpass, hfail, hskip]
    · split_ifs with hnone
      · exact iff_of_true rfl (by omega)
      · have hfailed : number env .fail trials ≠ 0 := by omega
        exact iff_of_false id hfailed

end OsCamp.CheckScript
