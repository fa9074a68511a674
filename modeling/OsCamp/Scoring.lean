import Mathlib.Data.List.Induction
import OsCamp.CheckScript

/-!
The scoring step of the workflow: `run_test`, `check`, the list of checks, and the report that
the step leaves. Cargo is given by the arguments that it succeeds on.
-/

set_option autoImplicit false

namespace OsCamp.Scoring

open ErrExit
open CheckScript (wrap wrap_natCast)

/-- A line `check pkg score target`. -/
structure Check where
  pkg : String
  score : ℕ
  target : String := "default"

/-- An element of `RESULTS`. -/
structure ResultEntry where
  package : String
  score : ℤ
  max : ℤ
  status : String
  deriving DecidableEq

structure Statistics where
  totalExercations : ℤ
  totalSucceeds : ℤ
  totalFailures : ℤ
  totalScore : ℤ
  totalPossible : ℤ
  deriving DecidableEq

/-- What is written to `check_result.json`. -/
structure Report where
  exercises : List (String × Bool)
  statistics : Statistics
  deriving DecidableEq

structure Vars where
  totalScore : ℤ
  pass : ℤ
  fail : ℤ
  results : List ResultEntry
  output : Option Report

def initial : Vars := ⟨0, 0, 0, [], none⟩

def riscv64Target : String := "riscv64gc-unknown-linux-gnu"

variable (cargo : List String → Bool)

def runTest (pkg target : String) : Script Vars :=
  ifThenElse (test fun _ => target = "riscv64")
    (test fun _ => cargo ["test", "-p", pkg, "--target", riscv64Target, "--quiet"])
    (test fun _ => cargo ["test", "-p", pkg, "--quiet"])

def check (c : Check) : Script Vars :=
  ifThenElse (runTest cargo c.pkg c.target)
    (seq (effect fun v => { v with totalScore := wrap (v.totalScore + c.score) }) <|
      seq (effect fun v => { v with pass := wrap (v.pass + 1) }) <|
        effect fun v =>
          { v with results := v.results ++ [⟨c.pkg, c.score, c.score, "pass"⟩] })
    (seq (effect fun v => { v with fail := wrap (v.fail + 1) }) <|
      effect fun v => { v with results := v.results ++ [⟨c.pkg, 0, c.score, "fail"⟩] })

def writeReport : Script Vars :=
  effect fun v =>
    { v with
      output := some
        { exercises := v.results.map fun r => (r.package, r.status = "pass"),
          statistics := ⟨wrap (v.pass + v.fail), v.pass, v.fail, v.totalScore, 100⟩ } }

/-- The step, for a list of checks. -/
def scoring (checks : List Check) : Result Vars :=
  seq (forEach checks (check cargo)) writeReport initial

/-- The checks of the workflow. -/
def checks : List Check :=
  [{ pkg := "thread_spawn", score := 3 },
   { pkg := "mutex_counter", score := 4 },
   { pkg := "channel", score := 4 },
   { pkg := "process_pipe", score := 4 },
   { pkg := "mem_primitives", score := 4 },
   { pkg := "bump_allocator", score := 5 },
   { pkg := "free_list_allocator", score := 5 },
   { pkg := "syscall_wrapper", score := 5 },
   { pkg := "fd_table", score := 5 },
   { pkg := "atomic_counter", score := 4 },
   { pkg := "atomic_ordering", score := 4 },
   { pkg := "spinlock", score := 4 },
   { pkg := "spinlock_guard", score := 4 },
   { pkg := "rwlock", score := 5 },
   { pkg := "stack_coroutine", score := 6, target := "riscv64" },
   { pkg := "green_threads", score := 6, target := "riscv64" },
   { pkg := "basic_future", score := 4 },
   { pkg := "tokio_tasks", score := 3 },
   { pkg := "async_channel_ex", score := 3 },
   { pkg := "select_timeout", score := 4 },
   { pkg := "pte_flags", score := 3 },
   { pkg := "page_table_walk", score := 4 },
   { pkg := "multi_level_pt", score := 4 },
   { pkg := "tlb_sim", score := 3 }]

/-- The arguments that `run_test` hands to cargo. -/
def Check.args (c : Check) : List String :=
  if c.target = "riscv64" then ["test", "-p", c.pkg, "--target", riscv64Target, "--quiet"]
  else ["test", "-p", c.pkg, "--quiet"]

def passes (c : Check) : Bool := cargo c.args

/-- The scores of the checks that pass. -/
def earned (checks : List Check) : ℕ := ((checks.filter (passes cargo)).map Check.score).sum

def possible (checks : List Check) : ℕ := (checks.map Check.score).sum

def resultEntry (c : Check) : ResultEntry :=
  if passes cargo c then ⟨c.pkg, c.score, c.score, "pass"⟩ else ⟨c.pkg, 0, c.score, "fail"⟩

/-- The report for a list of checks. -/
def report (checks : List Check) : Report where
  exercises := checks.map fun c => (c.pkg, passes cargo c)
  statistics :=
    { totalExercations := checks.length
      totalSucceeds := checks.countP (passes cargo)
      totalFailures := checks.countP fun c => ¬ passes cargo c
      totalScore := earned cargo checks
      totalPossible := 100 }

theorem runTest_eq (c : Check) :
    runTest cargo c.pkg c.target = test fun _ => passes cargo c := by
  funext v
  unfold runTest passes Check.args ifThenElse test
  by_cases htarget : c.target = "riscv64" <;> simp [htarget]

theorem resultEntry_shown (c : Check) :
    ((resultEntry cargo c).package, decide ((resultEntry cargo c).status = "pass")) =
      (c.pkg, passes cargo c) := by
  unfold resultEntry
  split_ifs with hpasses <;> simp [hpasses]

theorem check_eq (c : Check) (v : Vars) :
    check cargo c v = .status 0
      (if passes cargo c then
        { v with
          totalScore := wrap (v.totalScore + c.score)
          pass := wrap (v.pass + 1)
          results := v.results ++ [resultEntry cargo c] }
      else
        { v with
          fail := wrap (v.fail + 1)
          results := v.results ++ [resultEntry cargo c] }) := by
  unfold check resultEntry
  rw [runTest_eq]
  cases hpasses : passes cargo c with
  | true => simp only [ifThenElse, test, if_true, seq, effect]
  | false => simp only [ifThenElse, test, Bool.false_eq_true, if_false, seq, effect]

/-- The variables after the checks that the step has behind it. -/
structure Graded (seen : List Check) (v : Vars) : Prop where
  totalScore : v.totalScore = earned cargo seen
  pass : v.pass = seen.countP (passes cargo)
  fail : v.fail = seen.countP fun c => ¬ passes cargo c
  results : v.results = seen.map (resultEntry cargo)

variable {cargo}

theorem earned_concat (seen : List Check) (c : Check) :
    earned cargo (seen ++ [c]) = earned cargo seen + if passes cargo c then c.score else 0 := by
  unfold earned
  rw [List.filter_append, List.map_append, List.sum_append]
  split_ifs with hpasses <;> simp [hpasses]

theorem possible_concat (seen : List Check) (c : Check) :
    possible (seen ++ [c]) = possible seen + c.score := by
  simp [possible]

theorem earned_le_possible (cargo : List String → Bool) (checks : List Check) :
    earned cargo checks ≤ possible checks := by
  induction checks using List.reverseRecOn with
  | nil => exact Nat.le_refl 0
  | append_singleton seen c ih =>
    rw [earned_concat, possible_concat]
    split_ifs <;> omega

/-- Where every check is worth something, only a run without a failure earns all. -/
theorem earned_eq_possible_iff (cargo : List String → Bool) {checks : List Check}
    (hpos : ∀ c ∈ checks, 0 < c.score) :
    earned cargo checks = possible checks ↔ ∀ c ∈ checks, passes cargo c = true := by
  induction checks using List.reverseRecOn with
  | nil => exact iff_of_true rfl fun c hc => nomatch hc
  | append_singleton seen c ih =>
    have hseen : ∀ c' ∈ seen, 0 < c'.score :=
      fun c' hc' => hpos c' (List.mem_append_left _ hc')
    have hscore : 0 < c.score := hpos c (List.mem_append_right _ (List.mem_singleton_self c))
    have hle : earned cargo seen ≤ possible seen := earned_le_possible cargo seen
    have ih' := ih hseen
    rw [earned_concat, possible_concat, List.forall_mem_append, ← ih']
    simp only [List.mem_singleton, forall_eq]
    split_ifs with hpasses
    · rw [and_iff_left hpasses]
      omega
    · exact iff_of_false (by omega) fun h => hpasses h.2

/-- A counter of the checks with a property takes one more of them into account. -/
theorem wrap_countP {p : Check → Bool} {seen : List Check} {c : Check} (hp : p c = true)
    (hlength : seen.length + 1 < 2 ^ 63) :
    wrap (seen.countP p + 1) = (seen ++ [c]).countP p := by
  have hle : seen.countP p ≤ seen.length := List.countP_le_length
  rw [List.countP_append, List.countP_singleton, if_pos hp, ← Int.natCast_one,
    ← Int.natCast_add]
  exact wrap_natCast (by omega)

theorem countP_concat_of_not {p : Check → Bool} (seen : List Check) {c : Check}
    (hp : ¬ p c = true) : (seen ++ [c]).countP p = seen.countP p := by
  rw [List.countP_append, List.countP_singleton, if_neg hp]
  rfl

theorem check_grades {seen : List Check} {c : Check} {E : ℕ → Vars → Prop}
    (hscore : possible (seen ++ [c]) < 2 ^ 63) (hlength : seen.length + 1 < 2 ^ 63) :
    Triple (Graded cargo seen) (check cargo c) (Graded cargo (seen ++ [c])) E := by
  intro v hv
  have hearned : earned cargo (seen ++ [c]) < 2 ^ 63 :=
    Nat.lt_of_le_of_lt (earned_le_possible cargo _) hscore
  have hresults : v.results ++ [resultEntry cargo c] =
      (seen ++ [c]).map (resultEntry cargo) := by
    rw [hv.results, List.map_append]
    rfl
  rw [check_eq]
  show Graded cargo (seen ++ [c]) (if _ then _ else _)
  rw [earned_concat] at hearned
  split_ifs with hpasses
  · rw [if_pos hpasses] at hearned
    refine ⟨?_, ?_, ?_, hresults⟩
    · show wrap (v.totalScore + c.score) = _
      rw [hv.totalScore, earned_concat, if_pos hpasses, ← Int.natCast_add]
      exact wrap_natCast hearned
    · show wrap (v.pass + 1) = _
      rw [hv.pass]
      exact wrap_countP hpasses hlength
    · show v.fail = _
      rw [hv.fail, countP_concat_of_not seen (by simp [hpasses])]
  · refine ⟨?_, ?_, ?_, hresults⟩
    · show v.totalScore = _
      rw [hv.totalScore, earned_concat, if_neg hpasses]
      rfl
    · show v.pass = _
      rw [hv.pass, countP_concat_of_not seen hpasses]
    · show wrap (v.fail + 1) = _
      rw [hv.fail]
      exact wrap_countP (by simpa using hpasses) hlength

theorem length_le_possible {checks : List Check} (hpos : ∀ c ∈ checks, 0 < c.score) :
    checks.length ≤ possible checks := by
  induction checks with
  | nil => exact Nat.le_refl 0
  | cons c rest ih =>
    have hrest := ih fun c' hc' => hpos c' (List.mem_cons_of_mem c hc')
    have hscore := hpos c List.mem_cons_self
    have hcons : possible (c :: rest) = c.score + possible rest := List.sum_cons
    rw [hcons, List.length_cons]
    omega

/-- The report of a list of checks says for each of them, in order, whether it passes. -/
theorem Graded.report_eq {seen : List Check} {v : Vars} (hv : Graded cargo seen v)
    (hlength : seen.length < 2 ^ 63) :
    ∃ v', writeReport v = .status 0 v' ∧ v'.output = some (report cargo seen) := by
  refine ⟨_, rfl, ?_⟩
  have hexercises : (seen.map (resultEntry cargo)).map
      (fun r => (r.package, decide (r.status = "pass"))) =
      seen.map fun c => (c.pkg, passes cargo c) := by
    rw [List.map_map]
    apply List.map_congr_left
    intro c _
    exact resultEntry_shown cargo c
  have hcount : seen.countP (passes cargo) + (seen.countP fun c => ¬ passes cargo c) =
      seen.length := (List.length_eq_countP_add_countP (passes cargo)).symm
  have htotal : wrap (v.pass + v.fail) = seen.length := by
    rw [hv.pass, hv.fail, ← Int.natCast_add, hcount]
    exact wrap_natCast hlength
  show some _ = some _
  rw [hv.results, hexercises, htotal, hv.pass, hv.fail, hv.totalScore]
  rfl

/-- Scores that are positive and not too many in sum are added up as they are. -/
theorem scoring_reports (cargo : List String → Bool) {checks : List Check}
    (hpos : ∀ c ∈ checks, 0 < c.score) (hpossible : possible checks < 2 ^ 63) :
    ∃ v, scoring cargo checks = .status 0 v ∧ v.output = some (report cargo checks) := by
  have hlength : checks.length < 2 ^ 63 :=
    Nat.lt_of_le_of_lt (length_le_possible hpos) hpossible
  have hloop : Triple (Graded cargo []) (forEach checks (check cargo)) (Graded cargo checks)
      fun _ _ => False := by
    refine Triple.forEach (I := fun seen => Graded cargo seen) checks ?_
    intro seen c rest hchecks
    have hseen : possible checks = possible (seen ++ [c]) + possible rest := by
      rw [hchecks, possible_concat]
      simp only [possible, List.map_append, List.map_cons, List.sum_append, List.sum_cons]
      omega
    rw [hchecks, List.length_append, List.length_cons] at hlength
    exact check_grades (by omega) (by omega)
  have hend := hloop initial ⟨rfl, rfl, rfl, rfl⟩
  unfold scoring seq
  cases hresult : forEach checks (check cargo) initial with
  | exited code v =>
    rw [hresult] at hend
    exact hend.elim
  | status n v =>
    rw [hresult] at hend
    exact Graded.report_eq hend hlength

theorem checks_scores : (∀ c ∈ checks, 0 < c.score) ∧ possible checks = 100 := by decide

/-- Whatever the tests do, the report names each package with its result in order, the two
counts make up all of them, and 100 points are for a run without a failure only. -/
theorem workflow_report (cargo : List String → Bool) :
    ∃ v, scoring cargo checks = .status 0 v ∧ v.output = some (report cargo checks) ∧
      (report cargo checks).statistics.totalSucceeds +
        (report cargo checks).statistics.totalFailures = 24 ∧
      (report cargo checks).statistics.totalScore ≤
        (report cargo checks).statistics.totalPossible ∧
      ((report cargo checks).statistics.totalScore =
          (report cargo checks).statistics.totalPossible ↔
        ∀ c ∈ checks, passes cargo c = true) := by
  obtain ⟨hpos, hpossible⟩ := checks_scores
  obtain ⟨v, hscoring, hreport⟩ := scoring_reports cargo hpos (by omega)
  have hcount : checks.countP (passes cargo) + (checks.countP fun c => ¬ passes cargo c) = 24 :=
    (List.length_eq_countP_add_countP (passes cargo)).symm
  have hle := earned_le_possible cargo checks
  have hall := earned_eq_possible_iff cargo hpos
  rw [hpossible] at hle hall
  refine ⟨v, hscoring, hreport, ?_, ?_, ?_⟩
  · show (checks.countP (passes cargo) : ℤ) + (checks.countP fun c => ¬ passes cargo c : ℕ) = 24
    omega
  · show (earned cargo checks : ℤ) ≤ 100
    omega
  · rw [← hall]
    show (earned cargo checks : ℤ) = 100 ↔ _
    omega

end OsCamp.Scoring
