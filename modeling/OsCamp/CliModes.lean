import OsCamp.WatchProgress
import OsCamp.WatchScreen

/-!
The command line tool outside watch mode: loading the exercises, the commands
`list`, `check`, `run` and `hint`, and the choice among them. What it prints, and
how it ends, with the outcomes of the tests given from outside.
-/

set_option autoImplicit false

namespace OsCamp.CliModes

open CliRender GroupedListing TextLines
open WatchMode (countDone scan)

/-- What the tool finds outside: the files, their parser, and the tests. `quiet i` is
the outcome of `test_quiet` for exercise `i`, and `cargo` that of `test_exercise`, `none`
where cargo cannot be run. -/
structure Env where
  read : List Char → Option (List Char)
  parse : List Char → Option (List Exercise)
  quiet : ℕ → Bool
  cargo : Exercise → Option TestResult

inductive Ending
  | returned
  | exited (code : ℕ)
  | panicked
  deriving DecidableEq

/-- The end of the tool with what it printed to stdout and stderr, or its way into watch mode. -/
inductive Result
  | ended (ending : Ending) (out err : List Char)
  | watch (exercises : List Exercise)

def configPaths : List (List Char) := ["exercises.toml".toList, "../exercises.toml".toList]

/-- The first of the files that can be read is parsed. -/
def loadFrom (env : Env) : List (List Char) → Except Result (List Exercise)
  | [] => .error (.ended (.exited 1) [] (red ++ "Error:".toList ++ reset ++
      " Could not find exercises.toml, please run in project root directory\n".toList))
  | path :: rest =>
    match env.read path with
    | some content =>
      match env.parse content with
      | some exercises => .ok exercises
      | none => .error (.ended .panicked [] [])
    | none => loadFrom env rest

def loadExercises (env : Env) : Except Result (List Exercise) := loadFrom env configPaths

def riscv64Target : List Char := "riscv64gc-unknown-linux-gnu".toList
def riscv64Packages : List (List Char) := ["stack_coroutine".toList, "green_threads".toList]

def needRiscv64Target (package : List Char) : Bool := package ∈ riscv64Packages

/-- The arguments of cargo in `test_quiet`. -/
def testQuietArgs (ex : Exercise) : List (List Char) :=
  let args := ["test".toList, "-p".toList, ex.package]
  let args :=
    if needRiscv64Target ex.package then args ++ ["--target".toList, riscv64Target] else args
  let args := args ++ ["--quiet".toList]
  if needRiscv64Target ex.package then args ++ ["--".toList, "--nocapture".toList] else args

def listHeading (moduleName : List Char) : List Char :=
  "\n  ".toList ++ yellow ++ "[".toList ++ moduleName ++ "]".toList ++ reset ++ "\n".toList

def listRow (passed : Bool) (i : ℕ) (ex : Exercise) : List Char :=
  let status := if passed then green ++ "✅".toList ++ reset else red ++ "❌".toList ++ reset
  "  ".toList ++ status ++ " ".toList ++ padStart 2 (number (i + 1)) ++ ". ".toList ++
    padEnd 22 ex.name ++ " (".toList ++ dim ++ "cargo test -p ".toList ++ ex.package ++ reset ++
    ")\n".toList

/-- The loop of `list_mode` from exercise `i` on: what is printed, and `done`. -/
def listRows (quiet : ℕ → Bool) (out curModule : List Char) (done i : ℕ) :
    List Exercise → List Char × ℕ
  | [] => (out, done)
  | ex :: rest =>
    let heading := if ex.moduleName ≠ curModule then listHeading ex.moduleName else []
    let curModule := if ex.moduleName ≠ curModule then ex.moduleName else curModule
    let passed := quiet i
    let done := if passed then done + 1 else done
    listRows quiet (out ++ heading ++ listRow passed i ex) curModule done (i + 1) rest

def listMode (quiet : ℕ → Bool) (exercises : List Exercise) : Result :=
  let out := bold ++ blue ++ "OS Camp - Exercise list".toList ++ reset ++ "\n\n".toList
  let (out, done) := listRows quiet out [] 0 0 exercises
  match progressBar done exercises.length 20 with
  | some bar => .ended .returned (out ++ "\n  Progress: ".toList ++ bar ++ "\n\n".toList) []
  | none => .ended .panicked out []

def checkRow (total : ℕ) (passed : Bool) (i : ℕ) (ex : Exercise) : List Char :=
  "  [".toList ++ padStart 2 (number (i + 1)) ++ "/".toList ++ number total ++ "] ".toList ++
    padEnd 22 ex.name ++ " ".toList ++
    (if passed then green ++ "✅ PASS".toList ++ reset else red ++ "❌ FAIL".toList ++ reset) ++
    "\n".toList

/-- The loop of `check_mode` from exercise `i` on. -/
def checkRows (quiet : ℕ → Bool) (total : ℕ) (out : List Char) (done i : ℕ) :
    List Exercise → List Char × ℕ
  | [] => (out, done)
  | ex :: rest =>
    let passed := quiet i
    let done := if passed then done + 1 else done
    checkRows quiet total (out ++ checkRow total passed i ex) done (i + 1) rest

def checkMode (quiet : ℕ → Bool) (exercises : List Exercise) : Result :=
  let total := exercises.length
  let out := bold ++ blue ++ "OS Camp - Check all exercises".toList ++ reset ++ "\n\n".toList
  let (out, done) := checkRows quiet total out 0 0 exercises
  let out := out ++ "\n  ".toList ++ bold ++ "Result: ".toList ++ number done ++ "/".toList ++
    number total ++ " passed".toList ++ reset ++ "\n".toList
  if done = total then
    .ended .returned (out ++ "  ".toList ++ green ++ "🎉 All passed!".toList ++ reset ++
      "\n".toList) []
  else .ended .returned out []

def findExercise (exercises : List Exercise) (name : List Char) : Except Result Exercise :=
  match exercises.find? fun ex => ex.package = name with
  | some ex => .ok ex
  | none => .error (.ended (.exited 1) [] ("Exercise not found: ".toList ++ name ++ "\n".toList ++
      "Use 'oscamp list' to see all exercises\n".toList))

def runMode (env : Env) (exercises : List Exercise) (name : Option (List Char)) : Result :=
  match name with
  | none => .ended (.exited 1) [] "Usage: oscamp run <package>\n".toList
  | some name =>
    match findExercise exercises name with
    | .error result => result
    | .ok ex =>
      let out := bold ++ "▶ ".toList ++ ex.name ++ " - ".toList ++ ex.description ++ reset ++
        "\n".toList ++ "  📄 ".toList ++ ex.path ++ "\n\n".toList
      match env.cargo ex with
      | none => .ended .panicked out []
      | some result =>
        let out := out ++ result.output
        if result.passed then
          .ended .returned (out ++ "\n".toList ++ bold ++ green ++ "✅ Test passed!".toList ++
            reset ++ "\n".toList) []
        else
          .ended .returned (out ++ "\n".toList ++ bold ++ red ++ "❌ Test failed".toList ++ reset ++
            "\n".toList ++ "  💡 Use 'oscamp hint ".toList ++ name ++ "' to view hint\n".toList) []

def hintMode (exercises : List Exercise) (name : Option (List Char)) : Result :=
  match name with
  | none => .ended (.exited 1) [] "Usage: oscamp hint <package>\n".toList
  | some name =>
    match findExercise exercises name with
    | .error result => result
    | .ok ex =>
      .ended .returned (bold ++ yellow ++ "💡 ".toList ++ ex.name ++ " - Hint:".toList ++ reset ++
        "\n\n".toList ++ ex.hint ++ "\n".toList) []

def usageCommand (name description : List Char) : List Char :=
  "  ".toList ++ bold ++ name ++ reset ++ description ++ "\n".toList

def usage : List Char :=
  bold ++ blue ++ "OS Camp".toList ++ reset ++ " - Rust & OS Advanced Experiments\n\n".toList ++
    "Usage: oscamp [command]\n\n".toList ++ "Commands:\n".toList ++
    usageCommand "watch".toList
      "    Interactive exercise mode (default) - real-time file monitoring".toList ++
    usageCommand "list".toList "     View completion status of all exercises".toList ++
    usageCommand "check".toList "    Check all exercises in batch".toList ++
    usageCommand "run".toList "      Run specified exercise  (oscamp run <package>)".toList ++
    usageCommand "hint".toList "     View exercise hint  (oscamp hint <package>)".toList ++
    usageCommand "help".toList "     Show this help message".toList

/-- `main` on its arguments, the first of which is the program itself. -/
def main (env : Env) (args : List (List Char)) : Result :=
  match loadExercises env with
  | .error result => result
  | .ok exercises =>
    match args[1]? with
    | none => .watch exercises
    | some command =>
      if command = "watch".toList then .watch exercises
      else if command = "list".toList then listMode env.quiet exercises
      else if command = "check".toList then checkMode env.quiet exercises
      else if command = "run".toList then runMode env exercises args[2]?
      else if command = "hint".toList then hintMode exercises args[2]?
      else if command = "help".toList ∨ command = "--help".toList ∨ command = "-h".toList then
        .ended .returned usage []
      else .ended (.exited 1) usage ("Unknown command: ".toList ++ command ++ "\n".toList)

/-- How many of the exercises from `i` on pass. -/
def passedFrom (quiet : ℕ → Bool) (i n : ℕ) : ℕ := (List.range' i n).countP quiet

def listText (quiet : ℕ → Bool) : Line (List Char) (Exercise × ℕ) → List Char
  | .heading moduleName => listHeading moduleName
  | .row (ex, i) => listRow (quiet i) i ex

variable {env : Env} {args : List (List Char)} {exercises : List Exercise} {quiet : ℕ → Bool}
  {out last : List Char} {done i n total : ℕ} {name : List Char}

theorem passedFrom_succ (quiet : ℕ → Bool) (i n : ℕ) :
    passedFrom quiet i (n + 1) = (if quiet i then 1 else 0) + passedFrom quiet (i + 1) n := by
  unfold passedFrom
  rw [List.range'_succ, List.countP_cons, Nat.add_comm]

theorem passedFrom_le (quiet : ℕ → Bool) (i n : ℕ) : passedFrom quiet i n ≤ n := by
  have hle := List.countP_le_length (p := quiet) (l := List.range' i n)
  rw [List.length_range'] at hle
  exact hle

/-- The loop prints the listing of the exercises and counts those that pass. -/
theorem listRows_eq (quiet : ℕ → Bool) (out last : List Char) (done i : ℕ) :
    listRows quiet out last done i exercises =
      (out ++ (exerciseListing exercises last i).flatMap (listText quiet),
        done + passedFrom quiet i exercises.length) := by
  induction exercises generalizing out last done i with
  | nil => simp [listRows, exerciseListing, listing, passedFrom]
  | cons ex rest ih =>
    rw [listRows, ih, exerciseListing_cons, List.length_cons, passedFrom_succ]
    by_cases hmodule : ex.moduleName ≠ last
    · simp only [if_pos hmodule, List.flatMap_cons, listText, List.append_assoc]
      split_ifs <;> simp only [Nat.add_assoc, Nat.zero_add]
    · simp only [if_neg hmodule, List.flatMap_cons, listText, List.append_assoc, List.nil_append]
      split_ifs <;> simp only [Nat.add_assoc, Nat.zero_add]

theorem checkRows_eq (quiet : ℕ → Bool) (total : ℕ) (out : List Char) (done i : ℕ) :
    checkRows quiet total out done i exercises =
      (out ++ (exercises.zipIdx i).flatMap (fun p => checkRow total (quiet p.2) p.2 p.1),
        done + passedFrom quiet i exercises.length) := by
  induction exercises generalizing out done i with
  | nil => simp [checkRows, passedFrom]
  | cons ex rest ih =>
    rw [checkRows, ih, List.zipIdx_cons, List.length_cons, passedFrom_succ]
    simp only [List.flatMap_cons, List.append_assoc]
    split_ifs <;> simp only [Nat.add_assoc, Nat.zero_add]

theorem passedFrom_eq_iff (quiet : ℕ → Bool) (n : ℕ) :
    passedFrom quiet 0 n = n ↔ ∀ i < n, quiet i = true := by
  have hlength := List.countP_eq_length (p := quiet) (l := List.range' 0 n)
  rw [List.length_range'] at hlength
  rw [passedFrom, hlength]
  simp

/-- The scan ends without an exercise to work on exactly if all pass. -/
theorem scan_end_iff (outcomes : List Bool) :
    (scan outcomes).2 = outcomes.length ↔ ∀ passed ∈ outcomes, passed = true := by
  obtain ⟨-, hfound⟩ := WatchMode.scan_spec outcomes
  constructor
  · intro hend
    rcases hfound with ⟨-, hall⟩ | hfailed
    · exact hall
    · have hlt := (List.getElem?_eq_some_iff.mp hfailed).choose
      omega
  · intro hall
    rcases hfound with ⟨hend, -⟩ | hfailed
    · exact hend
    · exact absurd (hall _ (List.mem_of_getElem? hfailed)) Bool.false_ne_true

theorem countDone_map (quiet : ℕ → Bool) (n : ℕ) :
    countDone ((List.range n).map quiet) = passedFrom quiet 0 n := by
  rw [countDone, passedFrom, List.filter_map, List.length_map, ← List.countP_eq_length_filter,
    List.range_eq_range']
  rfl

theorem start_done (exercises : List Exercise) (quiet : ℕ → Bool) :
    (WatchScreen.start exercises quiet).done = (List.range exercises.length).map quiet := by
  rw [← (WatchMode.scan_spec ((List.range exercises.length).map quiet)).1]
  unfold WatchScreen.start
  simp only
  split_ifs <;> rfl

theorem start_ended_iff (exercises : List Exercise) (quiet : ℕ → Bool) :
    (WatchScreen.start exercises quiet).phase = .ended ↔
      ∀ i < exercises.length, quiet i = true := by
  have hend := scan_end_iff ((List.range exercises.length).map quiet)
  rw [List.length_map, List.length_range] at hend
  have hall : (∀ passed ∈ (List.range exercises.length).map quiet, passed = true) ↔
      ∀ i < exercises.length, quiet i = true := by simp
  rw [← hall, ← hend]
  unfold WatchScreen.start
  simp only
  split_ifs with hscan
  · exact iff_of_true rfl hscan
  · exact iff_of_false (fun hphase => nomatch hphase) hscan

/-- The three commands that test all exercises report the same progress: the list in its
bar, the check in its tally, and the watch session in what it starts with. -/
theorem modes_agree (exercises : List Exercise) (quiet : ℕ → Bool) :
    (∃ rows bar, progressBar (passedFrom quiet 0 exercises.length) exercises.length 20 = some bar ∧
      listMode quiet exercises =
        .ended .returned (rows ++ "\n  Progress: ".toList ++ bar ++ "\n\n".toList) []) ∧
    (∃ rows, checkMode quiet exercises = .ended .returned
      (rows ++ "\n  ".toList ++ bold ++ "Result: ".toList ++
        number (passedFrom quiet 0 exercises.length) ++ "/".toList ++ number exercises.length ++
        " passed".toList ++ reset ++ "\n".toList ++
        if ∀ i < exercises.length, quiet i = true
        then "  ".toList ++ green ++ "🎉 All passed!".toList ++ reset ++ "\n".toList else []) []) ∧
    countDone (WatchScreen.start exercises quiet).done = passedFrom quiet 0 exercises.length ∧
    ((WatchScreen.start exercises quiet).phase = .ended ↔
      ∀ i < exercises.length, quiet i = true) := by
  refine ⟨?_, ?_, ?_, ?_⟩
  · obtain ⟨bar, hbar⟩ := progressBar_isSome (passedFrom_le quiet 0 exercises.length) 20
    refine ⟨bold ++ blue ++ "OS Camp - Exercise list".toList ++ reset ++ "\n\n".toList ++
      (exerciseListing exercises [] 0).flatMap (listText quiet), bar, hbar, ?_⟩
    unfold listMode
    simp only [listRows_eq, Nat.zero_add, hbar]
  · refine ⟨bold ++ blue ++ "OS Camp - Check all exercises".toList ++ reset ++ "\n\n".toList ++
      exercises.zipIdx.flatMap fun p => checkRow exercises.length (quiet p.2) p.2 p.1, ?_⟩
    unfold checkMode
    simp only [checkRows_eq, Nat.zero_add, passedFrom_eq_iff]
    split_ifs
    · simp only [List.append_assoc]
    · simp only [List.append_nil]
  · rw [start_done, countDone_map]
  · exact start_ended_iff exercises quiet

/-- The list of the command and the one drawn in watch mode are made of the same lines:
every exercise once and in order, under the heading of its module, and a heading only
where the module changes. -/
theorem lists_grouped (exercises : List Exercise) (quiet : ℕ → Bool) (current : ℕ)
    {done : List Bool} (hdone : exercises.length ≤ done.length) (out : List Char) :
    ∃ ls : List (Line (List Char) (Exercise × ℕ)),
      (listRows quiet out [] 0 0 exercises).1 = out ++ ls.flatMap (listText quiet) ∧
      (∃ title, renderList out exercises current done =
        some (out ++ written (title :: ls.map (listLine current done)))) ∧
      ls.filterMap Line.row? = exercises.zipIdx ∧
      [] :: ls.filterMap Line.heading? = (exercises.map Exercise.moduleName).destutter' (· ≠ ·) [] ∧
      ∀ pre ex i post, ls = pre ++ .row (ex, i) :: post → lastHeading [] pre = ex.moduleName := by
  refine ⟨exerciseListing exercises [] 0, ?_, ⟨_, renderList_eq hdone⟩, ?_, ?_, ?_⟩
  · rw [listRows_eq]
  · exact rows_listing _ _ _
  · have hheadings := headings_listing (fun p : Exercise × ℕ => p.1.moduleName) [] exercises.zipIdx
    have hmodules : exercises.zipIdx.map (fun p : Exercise × ℕ => p.1.moduleName) =
        exercises.map Exercise.moduleName := by
      rw [← List.zipIdx_map_fst 0 exercises, List.map_map, List.zipIdx_map_fst]
      rfl
    rw [← hmodules]
    exact hheadings
  · intro pre ex i post hls
    exact lastHeading_of_row hls

theorem lists_grouped_two_modules :
    let a : Exercise := ⟨['a'], ['a'], ['a'], ['m'], ['d'], ['t']⟩
    let b : Exercise := ⟨['b'], ['b'], ['b'], ['n'], ['d'], ['t']⟩
    ∃ ls : List (Line (List Char) (Exercise × ℕ)),
      ls.filterMap Line.row? = [(a, 0), (a, 1), (b, 2)] ∧
      ls.filterMap Line.heading? = [['m'], ['n']] := by
  intro a b
  obtain ⟨ls, -, -, hrows, hheadings, -⟩ := lists_grouped [a, a, b] (fun _ => true) 0
    (show [a, a, b].length ≤ [true, true, true].length from Nat.le_refl 3) []
  refine ⟨ls, hrows, ?_⟩
  have hdestutter : ([a, a, b].map Exercise.moduleName).destutter' (· ≠ ·) [] =
      [[], ['m'], ['n']] := by decide
  rw [hdestutter] at hheadings
  exact (List.cons.inj hheadings).2

def exitCode : Result → Option ℕ
  | .ended .returned _ _ => some 0
  | .ended (.exited code) _ _ => some code
  | .ended .panicked _ _ => some 101
  | .watch _ => none

def commands : List (List Char) :=
  ["watch".toList, "list".toList, "check".toList, "run".toList, "hint".toList, "help".toList,
    "--help".toList, "-h".toList]

/-- The package that the command names, if there is one. -/
def named (exercises : List Exercise) (name : Option (List Char)) : Option Exercise :=
  name.bind fun name => exercises.find? fun ex => ex.package = name

theorem exitCode_listMode (quiet : ℕ → Bool) (exercises : List Exercise) :
    exitCode (listMode quiet exercises) = some 0 := by
  obtain ⟨bar, hbar⟩ := progressBar_isSome (passedFrom_le quiet 0 exercises.length) 20
  unfold listMode
  simp only [listRows_eq, Nat.zero_add, hbar, exitCode]

theorem exitCode_checkMode (quiet : ℕ → Bool) (exercises : List Exercise) :
    exitCode (checkMode quiet exercises) = some 0 := by
  unfold checkMode
  simp only
  split_ifs <;> rfl

theorem exitCode_hintMode (exercises : List Exercise) (name : Option (List Char)) :
    exitCode (hintMode exercises name) =
      if (named exercises name).isSome then some 0 else some 1 := by
  cases name with
  | none => rfl
  | some name =>
    rw [hintMode, findExercise, named, Option.bind_some]
    cases exercises.find? fun ex => ex.package = name <;> rfl

/-- How `run` ends depends on whether cargo starts, not on the test. -/
theorem exitCode_runMode (env : Env) (exercises : List Exercise) (name : Option (List Char)) :
    exitCode (runMode env exercises name) =
      match named exercises name with
      | none => some 1
      | some ex => if (env.cargo ex).isSome then some 0 else some 101 := by
  cases name with
  | none => rfl
  | some name =>
    rw [runMode, findExercise, named, Option.bind_some]
    cases exercises.find? fun ex => ex.package = name with
    | none => rfl
    | some ex =>
      simp only
      cases env.cargo ex with
      | none => rfl
      | some result =>
        cases hpassed : result.passed <;> simp [hpassed, exitCode]

/-- The exercises are loaded, or no file can be read, or the first readable one is malformed. -/
theorem loadFrom_cases (env : Env) (paths : List (List Char)) :
    (∃ exercises path content, loadFrom env paths = .ok exercises ∧ path ∈ paths ∧
      env.read path = some content) ∨
    (∃ err, loadFrom env paths = .error (.ended (.exited 1) [] err) ∧
      ∀ path ∈ paths, env.read path = none) ∨
    (loadFrom env paths = .error (.ended .panicked [] []) ∧
      ∃ path ∈ paths, ∃ content, env.read path = some content ∧ env.parse content = none) := by
  induction paths with
  | nil => exact Or.inr (Or.inl ⟨_, rfl, fun _ hpath => nomatch hpath⟩)
  | cons path rest ih =>
    rw [loadFrom]
    cases hread : env.read path with
    | none =>
      rcases ih with ⟨exercises, found, content, hload, hfound, hcontent⟩ | ⟨err, hload, hall⟩ |
        ⟨hload, found, hfound, hcontent⟩
      · exact Or.inl ⟨exercises, found, content, hload, List.mem_cons_of_mem _ hfound, hcontent⟩
      · refine Or.inr (Or.inl ⟨err, hload, ?_⟩)
        intro other hother
        rcases List.mem_cons.mp hother with heq | hmem
        · rw [heq, hread]
        · exact hall other hmem
      · exact Or.inr (Or.inr ⟨hload, found, List.mem_cons_of_mem _ hfound, hcontent⟩)
    | some content =>
      simp only
      cases hparse : env.parse content with
      | none => exact Or.inr (Or.inr ⟨rfl, path, List.mem_cons_self, content, hread, hparse⟩)
      | some exercises =>
        exact Or.inl ⟨exercises, path, content, rfl, List.mem_cons_self, hread⟩

/-- The exit code once the exercises are loaded. -/
theorem exitCode_main (hload : loadExercises env = .ok exercises) (args : List (List Char)) :
    exitCode (main env args) =
      match args[1]? with
      | none => none
      | some command =>
        if command = "watch".toList then none
        else if command = "run".toList then exitCode (runMode env exercises args[2]?)
        else if command = "hint".toList then exitCode (hintMode exercises args[2]?)
        else if command ∈ commands then some 0 else some 1 := by
  rw [main, hload]
  simp only
  cases args[1]? with
  | none => rfl
  | some command =>
    simp only
    by_cases hmem : command ∈ commands
    · simp only [commands, List.mem_cons, List.not_mem_nil, or_false] at hmem
      rcases hmem with rfl | rfl | rfl | rfl | rfl | rfl | rfl | rfl
      · rfl
      · exact exitCode_listMode env.quiet exercises
      · exact exitCode_checkMode env.quiet exercises
      all_goals rfl
    · rw [if_neg hmem]
      simp only [commands, List.mem_cons, List.not_mem_nil, or_false, not_or] at hmem
      obtain ⟨hwatch, hlist, hcheck, hrunning, hhint, hhelp, hlong, hshort⟩ := hmem
      simp only [hwatch, hlist, hcheck, hrunning, hhint, hhelp, hlong, hshort, if_false, or_self]
      rfl

theorem loadFrom_congr {env' : Env} (hread : env'.read = env.read) (hparse : env'.parse = env.parse)
    (paths : List (List Char)) : loadFrom env' paths = loadFrom env paths := by
  induction paths with
  | nil => rfl
  | cons path rest ih => rw [loadFrom, loadFrom, hread, hparse, ih]

/-- A known command with nothing to look up, or with a package that is found, does not
end with code 1. -/
theorem exitCode_ne_one {command : List Char} (hload : loadExercises env = .ok exercises)
    (hcommand : args[1]? = some command) (hknown : command ∈ commands)
    (hnamed : command = "run".toList ∨ command = "hint".toList → named exercises args[2]? ≠ none) :
    exitCode (main env args) ≠ some 1 := by
  rw [exitCode_main hload, hcommand]
  simp only [hknown, if_true]
  split_ifs with hwatch hrunning hhint
  · exact fun h => nomatch h
  · obtain ⟨ex, hex⟩ := Option.ne_none_iff_exists'.mp (hnamed (Or.inl hrunning))
    rw [exitCode_runMode, hex]
    simp only
    split_ifs <;> simp
  · obtain ⟨ex, hex⟩ := Option.ne_none_iff_exists'.mp (hnamed (Or.inr hhint))
    rw [exitCode_hintMode, hex]
    simp
  · simp

end OsCamp.CliModes
