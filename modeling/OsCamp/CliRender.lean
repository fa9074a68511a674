import OsCamp.GroupedListing
import OsCamp.TextLines

/-!
What the command line tool draws in raw mode. Every function appends to the text
written so far, line by line through `rprintln`; indexing out of range and an
underflow of the progress bar are panics, written `none`.
-/

set_option autoImplicit false

namespace OsCamp.CliRender

open GroupedListing LineEndings TextLines

structure Exercise where
  name : List Char
  package : List Char
  path : List Char
  moduleName : List Char
  description : List Char
  hint : List Char

structure TestResult where
  passed : Bool
  output : List Char
  deriving DecidableEq

def green : List Char := "\x1b[32m".toList
def red : List Char := "\x1b[31m".toList
def yellow : List Char := "\x1b[33m".toList
def blue : List Char := "\x1b[34m".toList
def cyan : List Char := "\x1b[36m".toList
def bold : List Char := "\x1b[1m".toList
def dim : List Char := "\x1b[2m".toList
def reset : List Char := "\x1b[0m".toList

def number (n : ℕ) : List Char := (toString n).toList

def progressBar (done total width : ℕ) : Option (List Char) :=
  let filled := if total > 0 then done * width / total else 0
  let pct := if total > 0 then done * 100 / total else 0
  if width < filled then none
  else some (green ++ List.replicate filled '█' ++ List.replicate (width - filled) '░' ++
    "  ".toList ++ number done ++ "/".toList ++ number total ++ " (".toList ++ number pct ++
    "%)".toList ++ reset)

def renderHeader (out : List Char) (exercises : List Exercise) (current done : ℕ) :
    Option (List Char) := do
  let total := exercises.length
  let ex ← exercises[current]?
  let bar ← progressBar done total 20
  let out := rprintln out (bold ++ blue ++
    "─── OS Camp ─── Rust & OS Advanced Experiments ───".toList ++ reset)
  let out := rprintln out ("  Progress: ".toList ++ bar)
  let out := rprintln out []
  let out := rprintln out ("  ".toList ++ bold ++ "▶ Exercise ".toList ++ number (current + 1) ++
    "/".toList ++ number total ++ ": ".toList ++ ex.name ++ reset)
  let out := rprintln out ("    ".toList ++ dim ++ "Module:".toList ++ reset ++ " ".toList ++
    ex.moduleName)
  let out := rprintln out ("    ".toList ++ cyan ++ ex.description ++ reset)
  return rprintln out ("    ".toList ++ dim ++ "📄 ".toList ++ ex.path ++ reset)

def renderFailure (out : List Char) (result : TestResult) : List Char :=
  let out := rprintln out ("\n  ".toList ++ bold ++ red ++ "❌ Test failed".toList ++ reset ++
    "\n".toList)
  let all := lines result.output
  let maxLines := 30
  let start := all.length - maxLines
  let out :=
    if start > 0 then
      rprintln out ("  ".toList ++ dim ++ "... omitted ".toList ++ number start ++
        " lines ...".toList ++ reset)
    else out
  (all.drop start).foldl (fun out line => rprintln out ("  ".toList ++ line)) out

def renderControls (out : List Char) : List Char :=
  let out := rprintln out []
  let out := rprintln out (dim ++ "  ─────────────────────────────────────────".toList ++ reset)
  let out := rprintln out ("  ".toList ++ bold ++ "h".toList ++ reset ++ " hint  ".toList ++
    bold ++ "l".toList ++ reset ++ " list  ".toList ++ bold ++ "n".toList ++ reset ++
    "/".toList ++ bold ++ "p".toList ++ reset ++ " prev/next  ".toList ++ bold ++ "r".toList ++
    reset ++ " retest  ".toList ++ bold ++ "q".toList ++ reset ++ " quit".toList)
  rprintln out ("  ".toList ++ dim ++
    "📡 Watching for file changes, automatically retests after saving".toList ++ reset)

def renderHint (out : List Char) (ex : Exercise) : List Char :=
  let out := rprintln out ("\n  ".toList ++ bold ++ yellow ++ "💡 Hint:".toList ++ reset)
  (lines ex.hint).foldl
    (fun out line => rprintln out ("  ".toList ++ yellow ++ line ++ reset)) out

def moduleLine (curModule : List Char) : List Char :=
  "  ".toList ++ yellow ++ "[".toList ++ curModule ++ "]".toList ++ reset

/-- The row of exercise `i`, with its marker and status. -/
def exerciseLine (current i : ℕ) (passed : Bool) (ex : Exercise) : List Char :=
  let marker := if i = current then "▶".toList else " ".toList
  let status := if passed then green ++ "✅".toList ++ reset else red ++ "  ".toList ++ reset
  "  ".toList ++ marker ++ " ".toList ++ status ++ " ".toList ++ padStart 2 (number (i + 1)) ++
    ". ".toList ++ padEnd 22 ex.name ++ " (".toList ++ dim ++ ex.package ++ reset ++ ")".toList

/-- The loop of `render_list` from exercise `i` on. -/
def renderRows (current : ℕ) (done : List Bool) (out curModule : List Char) (i : ℕ) :
    List Exercise → Option (List Char)
  | [] => some out
  | ex :: rest =>
    if ex.moduleName ≠ curModule then do
      let out := rprintln out (moduleLine ex.moduleName)
      let passed ← done[i]?
      renderRows current done (rprintln out (exerciseLine current i passed ex)) ex.moduleName
        (i + 1) rest
    else do
      let passed ← done[i]?
      renderRows current done (rprintln out (exerciseLine current i passed ex)) curModule
        (i + 1) rest

def renderList (out : List Char) (exercises : List Exercise) (current : ℕ) (done : List Bool) :
    Option (List Char) :=
  let out := rprintln out ("\n  ".toList ++ bold ++ blue ++ "Exercise list:".toList ++ reset ++
    "\n".toList)
  renderRows current done out [] 0 exercises

/-- What `full_redraw` writes about the last result. -/
def renderResult (out : List Char) : Option TestResult → List Char
  | some r =>
    if r.passed then
      rprintln out ("\n  ".toList ++ bold ++ green ++ "✅ Test passed!".toList ++ reset)
    else renderFailure out r
  | none => out

/-- `full_redraw`; the screen has just been cleared. -/
def fullRedraw (exercises : List Exercise) (current doneN : ℕ) (result : Option TestResult)
    (showHint showList : Bool) (done : List Bool) : Option (List Char) := do
  let out ←
    if showList then do
      let out ← renderHeader [] exercises current doneN
      renderList out exercises current done
    else do
      let out ← renderHeader [] exercises current doneN
      let out := renderResult out result
      if showHint then do
        let ex ← exercises[current]?
        some (renderHint out ex)
      else some out
  return renderControls out

/-- The text that `rprintln` writes for the lines. -/
def written (ls : List (List Char)) : List Char := ls.flatMap (rprintln [])

/-- How many rows the lines fill. -/
def height : List (List Char) → ℕ
  | [] => 0
  | s :: rest => rows s + 1 + height rest

def headerLines (total : ℕ) (bar : List Char) (current : ℕ) (ex : Exercise) : List (List Char) :=
  [bold ++ blue ++ "─── OS Camp ─── Rust & OS Advanced Experiments ───".toList ++ reset,
    "  Progress: ".toList ++ bar, [],
    "  ".toList ++ bold ++ "▶ Exercise ".toList ++ number (current + 1) ++ "/".toList ++
      number total ++ ": ".toList ++ ex.name ++ reset,
    "    ".toList ++ dim ++ "Module:".toList ++ reset ++ " ".toList ++ ex.moduleName,
    "    ".toList ++ cyan ++ ex.description ++ reset,
    "    ".toList ++ dim ++ "📄 ".toList ++ ex.path ++ reset]

/-- The lines of the output that are shown: the last thirty. -/
def shownLines (output : List Char) : List (List Char) :=
  (lines output).drop ((lines output).length - 30)

def omissionLines (omitted : ℕ) : List (List Char) :=
  if omitted > 0 then
    ["  ".toList ++ dim ++ "... omitted ".toList ++ number omitted ++ " lines ...".toList ++ reset]
  else []

def failureHeading (output : List Char) : List (List Char) :=
  ["\n  ".toList ++ bold ++ red ++ "❌ Test failed".toList ++ reset ++ "\n".toList] ++
    omissionLines ((lines output).length - 30)

def failureLines (output : List Char) : List (List Char) :=
  failureHeading output ++ (shownLines output).map ("  ".toList ++ ·)

def controlLines : List (List Char) :=
  [[], dim ++ "  ─────────────────────────────────────────".toList ++ reset,
    "  ".toList ++ bold ++ "h".toList ++ reset ++ " hint  ".toList ++
      bold ++ "l".toList ++ reset ++ " list  ".toList ++ bold ++ "n".toList ++ reset ++
      "/".toList ++ bold ++ "p".toList ++ reset ++ " prev/next  ".toList ++ bold ++ "r".toList ++
      reset ++ " retest  ".toList ++ bold ++ "q".toList ++ reset ++ " quit".toList,
    "  ".toList ++ dim ++
      "📡 Watching for file changes, automatically retests after saving".toList ++ reset]

def hintLines (ex : Exercise) : List (List Char) :=
  ["\n  ".toList ++ bold ++ yellow ++ "💡 Hint:".toList ++ reset] ++
    (lines ex.hint).map fun line => "  ".toList ++ yellow ++ line ++ reset

/-- One line of the exercise list. -/
def listLine (current : ℕ) (done : List Bool) : Line (List Char) (Exercise × ℕ) → List Char
  | .heading moduleName => moduleLine moduleName
  | .row (ex, i) => exerciseLine current i ((done[i]?).getD false) ex

/-- The exercises with their indices under the headings of their modules. -/
def exerciseListing (exercises : List Exercise) (last : List Char) (i : ℕ) :
    List (Line (List Char) (Exercise × ℕ)) :=
  listing (fun p : Exercise × ℕ => p.1.moduleName) last (exercises.zipIdx i)

def listLines (exercises : List Exercise) (current : ℕ) (done : List Bool) : List (List Char) :=
  ["\n  ".toList ++ bold ++ blue ++ "Exercise list:".toList ++ reset ++ "\n".toList] ++
    (exerciseListing exercises [] 0).map (listLine current done)

def resultLines : Option TestResult → List (List Char)
  | some r =>
    if r.passed then ["\n  ".toList ++ bold ++ green ++ "✅ Test passed!".toList ++ reset]
    else failureLines r.output
  | none => []

/-- The lines of a redraw below the header. -/
def bodyLines (exercises : List Exercise) (current : ℕ) (ex : Exercise)
    (result : Option TestResult) (showHint showList : Bool) (done : List Bool) :
    List (List Char) :=
  (if showList then listLines exercises current done
    else resultLines result ++ if showHint then hintLines ex else []) ++ controlLines

variable {out s text last : List Char} {ls ls' : List (List Char)} {exercises : List Exercise}
  {current i n : ℕ} {done : List Bool} {ex : Exercise} {result : TestResult}

theorem rprintln_eq (out s : List Char) : rprintln out s = out ++ rprintln [] s := by
  simp [rprintln, rprint]

theorem written_append (ls ls' : List (List Char)) :
    written (ls ++ ls') = written ls ++ written ls' := List.flatMap_append

theorem rprintln_start (out s : List Char) : rprintln out s = out ++ written [s] := by
  rw [rprintln_eq]
  simp [written]

/-- One more line behind the lines written so far. -/
theorem rprintln_written (out s : List Char) (ls : List (List Char)) :
    rprintln (out ++ written ls) s = out ++ written (ls ++ [s]) := by
  rw [rprintln_start, written_append, List.append_assoc]

theorem foldl_rprintln {α : Type*} (f : α → List Char) (l : List α) (out : List Char) :
    l.foldl (fun out a => rprintln out (f a)) out = out ++ written (l.map f) := by
  induction l generalizing out with
  | nil => exact (List.append_nil out).symm
  | cons a rest ih =>
    rw [List.foldl_cons, ih, rprintln_eq, List.append_assoc]
    rfl

theorem ready_written (ls : List (List Char)) : Ready (written ls) := by
  induction ls with
  | nil => exact Ready.nil
  | cons s rest ih => exact (Ready.nil.rprintln s).append ih

theorem rows_written (ls : List (List Char)) : rows (written ls) = height ls := by
  induction ls with
  | nil => rfl
  | cons s rest ih =>
    show rows (rprintln [] s ++ written rest) = rows s + 1 + height rest
    rw [rows_append, rows_rprintln, ih]
    simp [rows]

theorem height_append (ls ls' : List (List Char)) :
    height (ls ++ ls') = height ls + height ls' := by
  induction ls with
  | nil => exact (Nat.zero_add _).symm
  | cons s rest ih =>
    show rows s + 1 + height (rest ++ ls') = rows s + 1 + height rest + height ls'
    rw [ih]
    omega

/-- Lines without line feeds fill one row each. -/
theorem height_of_no_lf (h : ∀ s ∈ ls, '\n' ∉ s) : height ls = ls.length := by
  induction ls with
  | nil => rfl
  | cons s rest ih =>
    have hs := rows_eq_zero (h s List.mem_cons_self)
    have hrest := ih fun t ht => h t (List.mem_cons_of_mem _ ht)
    rw [height, hs, hrest, List.length_cons]
    omega

/-- The bar is drawn for every progress up to the whole. -/
theorem progressBar_isSome {total : ℕ} (hle : n ≤ total) (width : ℕ) :
    ∃ bar, progressBar n total width = some bar := by
  have hfilled : (if total > 0 then n * width / total else 0) ≤ width := by
    split_ifs with hpos
    · rw [Nat.mul_comm]
      exact Nat.div_le_of_le_mul (by rw [Nat.mul_comm]; exact Nat.mul_le_mul_right _ hle)
    · exact Nat.zero_le _
  unfold progressBar
  simp only [Nat.not_lt.mpr hfilled, if_false]
  exact ⟨_, rfl⟩

theorem renderHeader_eq (out : List Char) (exercises : List Exercise) (current done : ℕ) :
    renderHeader out exercises current done =
      (exercises[current]?).bind fun ex => (progressBar done exercises.length 20).map fun bar =>
        out ++ written (headerLines exercises.length bar current ex) := by
  unfold renderHeader
  simp only [Option.bind_eq_bind]
  cases exercises[current]? with
  | none => rfl
  | some ex =>
    cases progressBar done exercises.length 20 with
    | none => rfl
    | some bar =>
      simp only [Option.bind_some, Option.map_some]
      rw [rprintln_start out, rprintln_written, rprintln_written, rprintln_written,
        rprintln_written, rprintln_written, rprintln_written]
      rfl

theorem renderFailure_eq (out : List Char) (result : TestResult) :
    renderFailure out result = out ++ written (failureLines result.output) := by
  unfold renderFailure failureLines failureHeading omissionLines
  simp only
  rw [foldl_rprintln, rprintln_start out]
  split_ifs with hstart
  · rw [rprintln_written, List.append_assoc, ← written_append]
    rfl
  · rw [List.append_assoc, ← written_append]
    rfl

theorem renderControls_eq (out : List Char) :
    renderControls out = out ++ written controlLines := by
  rw [renderControls, rprintln_start out, rprintln_written, rprintln_written, rprintln_written]
  rfl

theorem renderHint_eq (out : List Char) (ex : Exercise) :
    renderHint out ex = out ++ written (hintLines ex) := by
  rw [renderHint, foldl_rprintln, rprintln_start, List.append_assoc, ← written_append]
  rfl

theorem exerciseListing_cons (ex : Exercise) (rest : List Exercise) (last : List Char) (i : ℕ) :
    exerciseListing (ex :: rest) last i =
      if ex.moduleName ≠ last then
        .heading ex.moduleName :: .row (ex, i) :: exerciseListing rest ex.moduleName (i + 1)
      else .row (ex, i) :: exerciseListing rest last (i + 1) := by
  rw [exerciseListing, List.zipIdx_cons, listing]
  rfl

theorem renderRows_eq (hlen : i + exercises.length ≤ done.length) :
    renderRows current done out last i exercises =
      some (out ++ written ((exerciseListing exercises last i).map (listLine current done))) := by
  induction exercises generalizing out last i with
  | nil => simp [renderRows, exerciseListing, listing, written]
  | cons ex rest ih =>
    rw [List.length_cons] at hlen
    have hdone := List.getElem?_eq_getElem (l := done) (i := i) (by omega)
    have hrest : ∀ out last, renderRows current done out last (i + 1) rest =
        some (out ++ written ((exerciseListing rest last (i + 1)).map (listLine current done))) :=
      fun out last => ih (by omega)
    rw [renderRows, hdone, exerciseListing_cons]
    by_cases hmodule : ex.moduleName ≠ last
    · rw [if_pos hmodule, if_pos hmodule, Option.bind_eq_bind, Option.bind_some, hrest,
        rprintln_start out, rprintln_written, List.append_assoc, ← written_append]
      simp [listLine, hdone]
    · rw [if_neg hmodule, if_neg hmodule, Option.bind_eq_bind, Option.bind_some, hrest,
        rprintln_start out, List.append_assoc, ← written_append]
      simp [listLine, hdone]

theorem renderList_eq (hlen : exercises.length ≤ done.length) :
    renderList out exercises current done =
      some (out ++ written (listLines exercises current done)) := by
  rw [renderList, renderRows_eq (by omega), rprintln_start out, List.append_assoc,
    ← written_append]
  rfl

theorem renderResult_eq (out : List Char) (r : Option TestResult) :
    renderResult out r = out ++ written (resultLines r) := by
  cases r with
  | none => exact (List.append_nil out).symm
  | some r =>
    rw [renderResult, resultLines]
    split_ifs
    · exact rprintln_start out _
    · exact renderFailure_eq out r

/-- A redraw panics in no part where the current exercise exists, the progress is
at most the whole and no flag is missing. -/
theorem fullRedraw_eq (hex : exercises[current]? = some ex) {bar : List Char}
    (hbar : progressBar n exercises.length 20 = some bar)
    (hlen : exercises.length ≤ done.length) (r : Option TestResult) (showHint showList : Bool) :
    fullRedraw exercises current n r showHint showList done =
      some (written (headerLines exercises.length bar current ex ++
        bodyLines exercises current ex r showHint showList done)) := by
  have hheader : renderHeader [] exercises current n =
      some (written (headerLines exercises.length bar current ex)) := by
    rw [renderHeader_eq, hex, hbar]
    rfl
  rw [fullRedraw, hheader, hex, bodyLines]
  cases showList with
  | true =>
    simp only [if_true, Option.bind_eq_bind, Option.bind_some]
    rw [renderList_eq hlen, Option.bind_some, renderControls_eq, ← List.append_assoc,
      written_append, written_append]
    rfl
  | false =>
    simp only [Bool.false_eq_true, if_false, Option.bind_eq_bind, Option.bind_some]
    rw [renderResult_eq]
    cases showHint with
    | true =>
      simp only [if_true]
      rw [renderHint_eq, renderControls_eq, ← written_append, ← written_append, ← written_append]
      simp only [List.append_assoc]
      rfl
    | false =>
      simp only [Bool.false_eq_true, if_false]
      rw [renderControls_eq, ← written_append, ← written_append]
      simp only [List.append_assoc, List.nil_append]
      rfl

theorem length_shownLines (output : List Char) :
    (shownLines output).length = min (lines output).length 30 := by
  rw [shownLines, List.length_drop]
  omega

theorem lf_not_mem_number (n : ℕ) : '\n' ∉ number n := by
  intro h
  rw [number, Nat.toString_eq_repr, Nat.toList_repr] at h
  have hdigit : '\n'.isDigit = true := Nat.isDigit_of_mem_toDigits (by decide) (by decide) h
  exact absurd hdigit (by decide)

theorem height_omissionLines (omitted : ℕ) :
    height (omissionLines omitted) = if omitted > 0 then 1 else 0 := by
  unfold omissionLines
  split_ifs
  · have hnumber := rows_eq_zero (lf_not_mem_number omitted)
    rw [height, height, rows_append, rows_append, rows_append, rows_append, rows_append, hnumber]
    decide
  · rfl

theorem height_failureHeading (output : List Char) :
    height (failureHeading output) = 3 + if (lines output).length > 30 then 1 else 0 := by
  have hheading : height ["\n  ".toList ++ bold ++ red ++ "❌ Test failed".toList ++ reset ++
      "\n".toList] = 3 := by decide
  rw [failureHeading, height_append, height_omissionLines, hheading]
  split_ifs <;> omega

theorem written_of_no_lf (h : ∀ s ∈ ls, '\n' ∉ s) :
    written ls = ls.flatMap fun s => s ++ ['\r', '\n'] := by
  unfold written
  induction ls with
  | nil => rfl
  | cons s rest ih =>
    have hs : rprintln [] s = s ++ ['\r', '\n'] := rprintln_of_no_lf (h s List.mem_cons_self) []
    rw [List.flatMap_cons, List.flatMap_cons, hs, ih fun t ht => h t (List.mem_cons_of_mem _ ht)]

/-- The heading of a report: it names the number of lines left out where there are any. -/
theorem written_failureHeading (output : List Char) :
    written (failureHeading output) =
      "\r\n  ".toList ++ bold ++ red ++ "❌ Test failed".toList ++ reset ++ "\r\n\r\n".toList ++
        if (lines output).length > 30 then
          "  ".toList ++ dim ++ "... omitted ".toList ++ number ((lines output).length - 30) ++
            " lines ...".toList ++ reset ++ "\r\n".toList
        else [] := by
  have hfirst : written ["\n  ".toList ++ bold ++ red ++ "❌ Test failed".toList ++ reset ++
      "\n".toList] = "\r\n  ".toList ++ bold ++ red ++ "❌ Test failed".toList ++ reset ++
        "\r\n\r\n".toList := by decide
  rw [failureHeading, written_append, hfirst]
  unfold omissionLines
  by_cases hlong : (lines output).length > 30
  · rw [if_pos (Nat.sub_pos_of_lt hlong), if_pos hlong]
    congr 1
    have hnumber := lf_not_mem_number ((lines output).length - 30)
    have hline : ∀ s ∈ ["  ".toList ++ dim ++ "... omitted ".toList ++
        number ((lines output).length - 30) ++ " lines ...".toList ++ reset], '\n' ∉ s := by
      intro s hs
      rw [List.mem_singleton.mp hs]
      simp only [List.mem_append, not_or]
      exact ⟨⟨⟨⟨⟨by decide, by decide⟩, by decide⟩, hnumber⟩, by decide⟩, by decide⟩
    rw [written_of_no_lf hline, List.flatMap_singleton]
    rfl
  · rw [if_neg fun hpos => hlong (Nat.lt_of_sub_pos hpos), if_neg hlong]
    rfl

/-- Whatever a test has printed, its report ends with the last thirty lines of the output as
they stand, indented, under a heading that says how many lines are left out, if any. It fills
three rows of heading, one row if lines are left out, and one for each line. -/
theorem renderFailure_report (out : List Char) (result : TestResult) :
    ∃ heading shown, shown <:+ lines result.output ∧
      shown.length = min (lines result.output).length 30 ∧
      renderFailure out result = out ++ heading ++
        shown.flatMap (fun line => "  ".toList ++ line ++ ['\r', '\n']) ∧
      heading = "\r\n  ".toList ++ bold ++ red ++ "❌ Test failed".toList ++ reset ++
          "\r\n\r\n".toList ++
        (if (lines result.output).length > 30 then
          "  ".toList ++ dim ++ "... omitted ".toList ++
            number ((lines result.output).length - 30) ++ " lines ...".toList ++ reset ++
            "\r\n".toList
        else []) ∧
      rows heading = 3 + (if (lines result.output).length > 30 then 1 else 0) ∧
      rows (renderFailure out result) = rows out + rows heading + shown.length := by
  have hindented : ∀ s ∈ (shownLines result.output).map ("  ".toList ++ ·), '\n' ∉ s := by
    intro s hs
    obtain ⟨line, hline, hsl⟩ := List.mem_map.mp hs
    have hlf := lf_not_mem_lines result.output line (List.mem_of_mem_drop hline)
    rw [← hsl]
    simpa using hlf
  have htext := renderFailure_eq out result
  refine ⟨written (failureHeading result.output), shownLines result.output,
    List.drop_suffix _ _, length_shownLines result.output, ?_,
    written_failureHeading result.output, ?_, ?_⟩
  · rw [htext, failureLines, written_append, written_of_no_lf hindented, List.flatMap_map,
      ← List.append_assoc]
  · rw [rows_written, height_failureHeading]
  · rw [htext, failureLines, rows_append, rows_written, rows_written, height_append,
      height_of_no_lf hindented, List.length_map, Nat.add_assoc]

end OsCamp.CliRender
