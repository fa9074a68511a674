import Mathlib.Data.List.Basic
import OsCamp.LineEndings

/-!
Text taken apart into lines and padded to a width. A line ends at LF or CR LF,
or at the end of the text; a CR elsewhere belongs to its line.
-/

set_option autoImplicit false

namespace OsCamp.TextLines

open LineEndings

def stripCr (line : List Char) : List Char :=
  if line.getLast? = some '\r' then line.dropLast else line

def linesFrom (line : List Char) : List Char → List (List Char)
  | [] => if line = [] then [] else [line]
  | c :: rest =>
    if c = '\n' then stripCr line :: linesFrom [] rest else linesFrom (line ++ [c]) rest

/-- `text.lines()`. -/
def lines (text : List Char) : List (List Char) := linesFrom [] text

/-- `{:2}` of a number. -/
def padStart (width : ℕ) (text : List Char) : List Char :=
  List.replicate (width - text.length) ' ' ++ text

/-- `{:<22}` of a text. -/
def padEnd (width : ℕ) (text : List Char) : List Char :=
  text ++ List.replicate (width - text.length) ' '

/-- How many rows a text fills before the one the cursor is in. -/
def rows (text : List Char) : ℕ := text.count '\n'

variable {s t line text out : List Char} {c : Char}

theorem mem_stripCr (h : c ∈ stripCr line) : c ∈ line := by
  unfold stripCr at h
  split_ifs at h
  · exact (List.dropLast_sublist line).subset h
  · exact h

/-- No line holds a line feed. -/
theorem lf_not_mem_linesFrom (hline : '\n' ∉ line) (text : List Char) :
    ∀ l ∈ linesFrom line text, '\n' ∉ l := by
  induction text generalizing line with
  | nil =>
    intro l hl
    rw [linesFrom] at hl
    split_ifs at hl
    · cases hl
    · rw [List.mem_singleton.mp hl]
      exact hline
  | cons c rest ih =>
    intro l hl
    rw [linesFrom] at hl
    split_ifs at hl with hc
    · rcases List.mem_cons.mp hl with heq | hmem
      · rw [heq]
        exact fun hlf => hline (mem_stripCr hlf)
      · exact ih List.not_mem_nil l hmem
    · refine ih ?_ l hl
      intro hlf
      rcases List.mem_append.mp hlf with hold | hnew
      · exact hline hold
      · exact hc (List.mem_singleton.mp hnew).symm

theorem lf_not_mem_lines (text : List Char) : ∀ l ∈ lines text, '\n' ∉ l :=
  lf_not_mem_linesFrom List.not_mem_nil text

@[simp] theorem rows_append (s t : List Char) : rows (s ++ t) = rows s + rows t :=
  List.count_append

theorem rows_eq_zero (h : '\n' ∉ s) : rows s = 0 := List.count_eq_zero.mpr h

/-- A text without line feeds is written as it stands. -/
theorem rawText_of_no_lf (h : '\n' ∉ s) : rawText s = s := by
  refine rawText_of_ready ?_
  intro pre post heq
  exact absurd (by rw [heq]; exact List.mem_append_right _ List.mem_cons_self) h

theorem rprintln_of_no_lf (h : '\n' ∉ s) (out : List Char) :
    rprintln out s = out ++ s ++ ['\r', '\n'] := by
  rw [rprintln, rprint, rawText_of_no_lf h]

/-- Making every line ending a CR LF adds no row. -/
theorem rows_rawText (s : List Char) : rows (rawText s) = rows s := by
  have hcount : ∀ t : List Char, rows t = (tokens t).count .eol := by
    intro t
    induction t using tokens.induct with
    | case1 => rfl
    | case2 rest ih => simpa [rows, tokens] using ih
    | case3 rest ih => simpa [rows, tokens] using ih
    | case4 c rest hpair hlf ih =>
      rw [tokens]
      · have hc : c ≠ '\n' := hlf
        simpa [rows, hc] using ih
      · exact hpair
      · exact hlf
  rw [hcount, hcount, tokens_rawText]

theorem rows_rprintln (out s : List Char) : rows (rprintln out s) = rows out + rows s + 1 := by
  rw [rprintln, rprint, rows_append, rows_append, rows_rawText]
  rfl

end OsCamp.TextLines
