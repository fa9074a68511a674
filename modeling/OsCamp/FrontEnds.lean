import OsCamp.CliModes
import OsCamp.Scoring

/-!
The three ways to test the exercises: `check.sh`, the tool and the scoring step of the
workflow. Each has its own list, and its own rule for the exercises that are built for
riscv64: the module, the package, or a word in the list. With the same cargo the tool and
the workflow come to the same results. `check.sh` ends at its first increment; the same
script that counts as the workflow does comes to them as well.
-/

set_option autoImplicit false

namespace OsCamp.FrontEnds

open CheckScript (Entry Trial outcome number)
open CliRender (Exercise)
open ErrExit (Result)
open Scoring (Check checks passes report riscv64Target scoring)

/-- The list of `check.sh`. -/
def exercises : List Entry :=
  [⟨"01_concurrency_sync", "thread_spawn", "Thread Creation"⟩,
   ⟨"01_concurrency_sync", "mutex_counter", "Mutex Shared State"⟩,
   ⟨"01_concurrency_sync", "channel", "Channel Communication"⟩,
   ⟨"01_concurrency_sync", "process_pipe", "Process Pipes"⟩,
   ⟨"02_no_std_dev", "mem_primitives", "Memory Primitives"⟩,
   ⟨"02_no_std_dev", "bump_allocator", "Bump Allocator"⟩,
   ⟨"02_no_std_dev", "free_list_allocator", "Free-List Allocator"⟩,
   ⟨"02_no_std_dev", "syscall_wrapper", "Syscall Wrapper"⟩,
   ⟨"02_no_std_dev", "fd_table", "File Descriptor Table"⟩,
   ⟨"03_os_concurrency", "atomic_counter", "Atomic Counter"⟩,
   ⟨"03_os_concurrency", "atomic_ordering", "Memory Ordering"⟩,
   ⟨"03_os_concurrency", "spinlock", "Spinlock"⟩,
   ⟨"03_os_concurrency", "spinlock_guard", "RAII Spinlock Guard"⟩,
   ⟨"03_os_concurrency", "rwlock", "Read-Write Lock"⟩,
   ⟨"04_context_switch", "stack_coroutine", "Stackful Coroutine"⟩,
   ⟨"04_context_switch", "green_threads", "Green Threads"⟩,
   ⟨"05_async_programming", "basic_future", "Manual Future"⟩,
   ⟨"05_async_programming", "tokio_tasks", "Tokio Tasks"⟩,
   ⟨"05_async_programming", "async_channel_ex", "Async Channel"⟩,
   ⟨"05_async_programming", "select_timeout", "Select/Timeout"⟩,
   ⟨"06_page_table", "pte_flags", "PTE Flags"⟩,
   ⟨"06_page_table", "page_table_walk", "Page Table Walk"⟩,
   ⟨"06_page_table", "multi_level_pt", "SV39 Multi-Level PT"⟩,
   ⟨"06_page_table", "tlb_sim", "TLB Simulation"⟩]

/-- The arguments that `check.sh` hands to cargo for an entry. -/
def entryArgs (entry : Entry) : List String :=
  if entry.module = "04_context_switch" then
    ["test", "-p", entry.package, "--target", riscv64Target, "--quiet", "--", "--nocapture"]
  else ["test", "-p", entry.package, "--quiet"]

variable (cargo : List String → Bool)

/-- The list of `check.sh` with the results of cargo. -/
def trials : List Trial := exercises.map fun entry => ⟨entry, cargo (entryArgs entry)⟩

/-- The result of `test_quiet` for exercise `i` of the tool. -/
def quiet (exs : List Exercise) (i : ℕ) : Bool :=
  exs[i]?.any fun ex => cargo ((CliModes.testQuietArgs ex).map String.ofList)

/-- The result for a package, built for riscv64 or not. -/
def tested (p : String × Bool) : Bool :=
  cargo (if p.2 then ["test", "-p", p.1, "--target", riscv64Target, "--quiet"]
    else ["test", "-p", p.1, "--quiet"])

/-- Cargo comes to the same result where it is told not to capture the output of a test. -/
def IgnoresCapture : Prop :=
  ∀ pkg, cargo ["test", "-p", pkg, "--target", riscv64Target, "--quiet", "--", "--nocapture"] =
    cargo ["test", "-p", pkg, "--target", riscv64Target, "--quiet"]

/-- The packages, and which of them are built for riscv64, as the workflow has them. -/
def targets : List (String × Bool) := checks.map fun c => (c.pkg, c.target = "riscv64")

theorem targets_of_exercises :
    (exercises.map fun entry => (entry.package, decide (entry.module = "04_context_switch"))) =
      targets := by
  rfl

theorem targets_of_packages :
    ((checks.map fun c => c.pkg.toList).map fun package =>
      (String.ofList package, CliModes.needRiscv64Target package)) = targets := by
  decide

variable {cargo}

theorem passes_eq_tested (c : Check) :
    passes cargo c = tested cargo (c.pkg, c.target = "riscv64") := by
  unfold passes Check.args tested
  by_cases htarget : c.target = "riscv64" <;> simp [htarget]

theorem report_exercises (cargo : List String → Bool) :
    (report cargo checks).exercises = targets.map fun p => (p.1, tested cargo p) := by
  unfold report targets
  rw [List.map_map]
  apply List.map_congr_left
  intro c _
  rw [passes_eq_tested]
  rfl

theorem map_trials (hcapture : IgnoresCapture cargo) :
    (trials cargo).map (fun trial => (trial.entry.package, trial.cargo)) =
      targets.map fun p => (p.1, tested cargo p) := by
  unfold trials
  rw [← targets_of_exercises, List.map_map, List.map_map]
  apply List.map_congr_left
  intro entry _
  have hsame := hcapture entry.package
  have hargs : cargo (entryArgs entry) =
      tested cargo (entry.package, entry.module = "04_context_switch") := by
    unfold entryArgs tested
    by_cases hmodule : entry.module = "04_context_switch" <;> simp [hmodule, hsame]
  exact congrArg (Prod.mk entry.package) hargs

theorem testQuietArgs_ofList (ex : Exercise) :
    (CliModes.testQuietArgs ex).map String.ofList =
      if CliModes.needRiscv64Target ex.package then
        ["test", "-p", String.ofList ex.package, "--target", riscv64Target, "--quiet", "--",
          "--nocapture"]
      else ["test", "-p", String.ofList ex.package, "--quiet"] := by
  unfold CliModes.testQuietArgs CliModes.riscv64Target riscv64Target
  split_ifs <;> simp only [List.map_cons, List.map_nil, String.ofList_toList, List.cons_append,
    List.nil_append]

theorem quiet_eq_tested (hcapture : IgnoresCapture cargo) (ex : Exercise) :
    cargo ((CliModes.testQuietArgs ex).map String.ofList) =
      tested cargo (String.ofList ex.package, CliModes.needRiscv64Target ex.package) := by
  rw [testQuietArgs_ofList]
  unfold tested
  cases CliModes.needRiscv64Target ex.package with
  | true => exact hcapture (String.ofList ex.package)
  | false => rfl

/-- The tool has the packages of the workflow in its file. -/
theorem map_quiet (hcapture : IgnoresCapture cargo) {exs : List Exercise}
    (hpackages : exs.map Exercise.package = checks.map fun c => c.pkg.toList) :
    (List.range exs.length).map (quiet cargo exs) = targets.map (tested cargo) := by
  have hall : (List.range exs.length).map (quiet cargo exs) =
      exs.map fun ex => tested cargo
        (String.ofList ex.package, CliModes.needRiscv64Target ex.package) := by
    apply List.ext_getElem
    · simp
    · intro i hi _
      have hlt : i < exs.length := by simpa using hi
      simp only [List.getElem_map, List.getElem_range, quiet, List.getElem?_eq_getElem hlt,
        Option.any_some]
      exact quiet_eq_tested hcapture exs[i]
  rw [hall, ← targets_of_packages, ← hpackages, List.map_map, List.map_map]
  rfl

theorem outcome_eq {env : CheckScript.Env} (hsystem : env.system ≠ "Darwin") (trial : Trial) :
    outcome env trial = if trial.cargo then .pass else .fail :=
  if_neg fun h => hsystem h.2

theorem number_pass {env : CheckScript.Env} (hsystem : env.system ≠ "Darwin")
    (l : List Trial) : number env .pass l = (l.map Trial.cargo).countP id := by
  unfold number
  rw [List.countP_map]
  apply List.countP_congr
  intro trial _
  rw [outcome_eq hsystem]
  cases hcargo : trial.cargo <;> simp [hcargo]

theorem number_skip {env : CheckScript.Env} (hsystem : env.system ≠ "Darwin")
    (l : List Trial) : number env .skip l = 0 := by
  apply List.countP_eq_zero.mpr
  intro trial _
  rw [outcome_eq hsystem]
  cases trial.cargo <;> simp

/-- `check.sh` is over at its first entry. -/
theorem check_trials (env : CheckScript.Env) :
    ∃ v, CheckScript.check env (trials cargo) = .exited 1 v ∧ v.summary = none :=
  CheckScript.check_ends_early env _ _

/-- The script with the increments of the workflow, on the list of `check.sh`. -/
def countingScript (cargo : List String → Bool) (env : CheckScript.Env) :
    Result CheckScript.Vars :=
  CheckScript.script env CheckScript.assignIncrement (trials cargo) CheckScript.initial

section Agreement

variable (hcapture : IgnoresCapture cargo)

include hcapture

theorem trials_report :
    (trials cargo).map (fun trial => (trial.entry.package, trial.cargo)) =
      (report cargo checks).exercises := by
  rw [map_trials hcapture, report_exercises]

theorem trials_results : (trials cargo).map Trial.cargo = checks.map (passes cargo) := by
  have hsnd := congrArg (List.map Prod.snd) (trials_report hcapture)
  rw [List.map_map] at hsnd
  exact hsnd.trans (List.map_map ..)

theorem quiet_results {exs : List Exercise}
    (hpackages : exs.map Exercise.package = checks.map fun c => c.pkg.toList) :
    (List.range exs.length).map (quiet cargo exs) = checks.map (passes cargo) := by
  have hsnd := congrArg (List.map Prod.snd) (report_exercises cargo)
  rw [map_quiet hcapture hpackages]
  exact (List.map_map ..).symm.trans (hsnd.symm.trans (List.map_map ..))

variable {env : CheckScript.Env} (hsystem : env.system ≠ "Darwin")

include hsystem

theorem trials_pass : number env .pass (trials cargo) = checks.countP (passes cargo) := by
  rw [number_pass hsystem, trials_results hcapture, List.countP_map]
  rfl

theorem trials_fail :
    number env .fail (trials cargo) = checks.countP fun c => ¬ passes cargo c := by
  have hlength := congrArg List.length (trials_results hcapture)
  have hsum := CheckScript.number_sum env (trials cargo)
  have hcount := List.length_eq_countP_add_countP (passes cargo) (l := checks)
  rw [List.length_map, List.length_map] at hlength
  rw [number_skip hsystem, hlength, trials_pass hcapture hsystem] at hsum
  omega

theorem countingScript_report (hready : CheckScript.Ready env) :
    ∃ code v, countingScript cargo env = .exited code v ∧
      v.visited.map Entry.package = checks.map Check.pkg ∧
      v.summary = some ⟨checks.countP (passes cargo), checks.countP fun c => ¬ passes cargo c, 0,
        checks.length⟩ ∧
      (code = 0 ↔ ∀ c ∈ checks, passes cargo c) := by
  have hlen : (trials cargo).length = checks.length := by rfl
  have hsmall : (trials cargo).length < 2 ^ 63 := by
    rw [hlen]
    decide
  obtain ⟨code, v, hexited, hvisited, hsummary, hcode⟩ :=
    CheckScript.script_assignIncrement_reports hready hsmall
  refine ⟨code, v, hexited, ?_, ?_, ?_⟩
  · rw [hvisited]
    rfl
  · rw [hsummary, trials_pass hcapture hsystem, trials_fail hcapture hsystem,
      number_skip hsystem, hlen]
    rfl
  · rw [hcode, trials_fail hcapture hsystem, List.countP_eq_zero]
    simp

end Agreement

/-- A cargo for which the tests of one package fail. -/
def oneFails (args : List String) : Bool := !args.contains "green_threads"

theorem oneFails_ignoresCapture : IgnoresCapture oneFails := by
  intro pkg
  simp [oneFails, riscv64Target]

def linux : CheckScript.Env := ⟨"Linux", "x86_64", true, true, true, true⟩

/-- The packages of the workflow as a file of the tool. -/
def inFile : List Exercise := checks.map fun c => ⟨[], c.pkg.toList, [], [], [], []⟩

end OsCamp.FrontEnds
