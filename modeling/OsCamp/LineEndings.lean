import OsCamp.TextReplace

/-!
Text for a terminal in raw mode, where a line feed alone does not return to the
first column. A string is a list of characters. `rprint` makes every line ending
a CR LF: it first makes all of them LF, so that a CR LF of the text is not
given a second CR. What the terminal has got is the text written to `out` so far.
-/

set_option autoImplicit false

namespace OsCamp.LineEndings

open TextReplace

/-- `s.replace("\r\n", "\n")`. -/
def lfText (s : List Char) : List Char := replace ['\r', '\n'] ['\n'] s

/-- `s.replace("\r\n", "\n").replace('\n', "\r\n")`. -/
def rawText (s : List Char) : List Char := replace ['\n'] ['\r', '\n'] (lfText s)

def rprint (out s : List Char) : List Char := out ++ rawText s

def rprintln (out s : List Char) : List Char := rprint out s ++ ['\r', '\n']

/-- What a text consists of where CR LF and LF are the same line ending. -/
inductive Token
  | eol
  | char (c : Char)
  deriving DecidableEq

def tokens : List Char → List Token
  | [] => []
  | '\r' :: '\n' :: rest => .eol :: tokens rest
  | '\n' :: rest => .eol :: tokens rest
  | c :: rest => .char c :: tokens rest

/-- Every LF is immediately preceded by a CR. -/
def Ready (text : List Char) : Prop :=
  ∀ pre post, text = pre ++ '\n' :: post → pre.getLast? = some '\r'

def ofChar (c : Char) : Token := if c = '\n' then .eol else .char c

variable {s text rest : List Char} {c : Char}

theorem lfText_eol (rest : List Char) : lfText ('\r' :: '\n' :: rest) = '\n' :: lfText rest :=
  replace_match (by simp) rest

/-- A character that starts no CR LF stays. -/
theorem lfText_char (hpair : ∀ tail, c = '\r' → rest = '\n' :: tail → False) :
    lfText (c :: rest) = c :: lfText rest := by
  apply replace_miss
  intro hprefix
  obtain ⟨hc, tail, htail⟩ := List.cons_prefix_cons.mp hprefix
  exact hpair tail hc.symm htail.symm

/-- The tokens are the characters of the text whose line endings are all LF. -/
theorem tokens_eq (s : List Char) : tokens s = (lfText s).map ofChar := by
  induction s using tokens.induct with
  | case1 => rfl
  | case2 rest ih =>
    rw [lfText_eol, tokens, ih]
    rfl
  | case3 rest ih =>
    have hlf : ∀ tail, '\n' = '\r' → rest = '\n' :: tail → False := by
      intro tail h
      exact absurd h (by decide)
    rw [lfText_char hlf, tokens, ih]
    rfl
  | case4 c rest hpair hlf ih =>
    have hchar : ofChar c = .char c := if_neg hlf
    rw [lfText_char hpair, tokens, ih, List.map_cons, hchar]
    · exact hpair
    · exact hlf

/-- The first replacement undoes the second. -/
theorem lfText_rawText (s : List Char) : lfText (rawText s) = lfText s :=
  replace_pair_replace (by decide) _

theorem tokens_rawText (s : List Char) : tokens (rawText s) = tokens s := by
  rw [tokens_eq, lfText_rawText, ← tokens_eq]

theorem rawText_rawText (s : List Char) : rawText (rawText s) = rawText s := by
  have hlf := lfText_rawText s
  calc rawText (rawText s) = replace ['\n'] ['\r', '\n'] (lfText (rawText s)) := rfl
    _ = rawText s := by rw [hlf]; rfl

namespace Ready

theorem nil : Ready [] := by
  intro pre post h
  simp at h

theorem eol : Ready ['\r', '\n'] := by
  intro pre post h
  cases pre with
  | nil =>
    have hcr : '\r' = '\n' := (List.cons.inj h).1
    exact absurd hcr (by decide)
  | cons c rest =>
    obtain ⟨rfl, htail⟩ := List.cons.inj h
    cases rest with
    | nil => rfl
    | cons d rest => simp at htail

theorem char (hc : c ≠ '\n') : Ready [c] := by
  intro pre post h
  cases pre with
  | nil => exact absurd (List.cons.inj h).1 hc
  | cons d rest => simp at h

theorem append (h : Ready s) (htext : Ready text) : Ready (s ++ text) := by
  intro pre post heq
  rcases List.append_eq_append_iff.mp heq with ⟨mid, rfl, htail⟩ | ⟨mid, hhead, htail⟩
  · have hlast := htext mid post htail
    rw [List.getLast?_append, hlast]
    rfl
  · cases mid with
    | nil =>
      have hlast := htext [] post (by simpa using htail.symm)
      cases hlast
    | cons c rest =>
      obtain ⟨rfl, -⟩ := List.cons.inj htail
      exact h pre rest hhead

/-- What follows the front of a ready text is ready, where its first LF does not
rely on a CR of the front. -/
theorem behind (front : List Char) (h : Ready (front ++ s))
    (hfront : s.head? = some '\n' → front.getLast? ≠ some '\r') : Ready s := by
  intro pre post heq
  have hlast := h (front ++ pre) post (by rw [heq, List.append_assoc])
  rw [List.getLast?_append] at hlast
  cases pre with
  | nil => exact absurd hlast (hfront (by rw [heq]; rfl))
  | cons c rest =>
    obtain ⟨d, hd⟩ : ∃ d, (c :: rest).getLast? = some d := ⟨_, List.getLast?_cons⟩
    rw [hd] at hlast ⊢
    exact hlast

/-- A text whose every LF has become CR LF is ready. -/
theorem replace_lf (s : List Char) : Ready (replace ['\n'] ['\r', '\n'] s) := by
  rw [replace_singleton]
  induction s with
  | nil => exact nil
  | cons c rest ih =>
    rw [List.flatMap_cons]
    refine append ?_ ih
    split_ifs with hc
    · exact eol
    · exact char hc

/-- The terminal never gets a bare LF. -/
theorem rprint (h : Ready s) (text : List Char) : Ready (rprint s text) :=
  h.append (replace_lf (lfText text))

theorem rprintln (h : Ready s) (text : List Char) : Ready (rprintln s text) :=
  (h.rprint text).append eol

end Ready

/-- A text that is ready is written as it stands. -/
theorem rawText_of_ready (h : Ready s) : rawText s = s := by
  unfold rawText
  induction s using tokens.induct with
  | case1 => rfl
  | case2 rest ih =>
    have hrest := ih (h.behind ['\r', '\n'] fun _ => by decide)
    have hmatch : replace ['\n'] ['\r', '\n'] ('\n' :: lfText rest) =
        ['\r', '\n'] ++ replace ['\n'] ['\r', '\n'] (lfText rest) :=
      replace_match (by simp) (lfText rest)
    rw [lfText_eol, hmatch, hrest]
    rfl
  | case3 rest ih => cases h [] rest rfl
  | case4 c rest hpair hlf ih =>
    have hrest : Ready rest := by
      apply h.behind [c]
      intro hhead hlast
      obtain ⟨tail, htail⟩ := List.head?_eq_some_iff.mp hhead
      exact hpair tail (Option.some.inj hlast) htail
    have hmiss : ¬ ['\n'] <+: c :: lfText rest := by
      intro hprefix
      exact hlf (List.cons_prefix_cons.mp hprefix).1.symm
    rw [lfText_char hpair, replace_miss hmiss, ih hrest]

/-- What `rprint` writes has the line endings of the string, all of them CR LF; a
text that has them already, such as the written one, is written as it stands. -/
theorem rprint_line_endings (s : List Char) :
    ∃ text, (∀ out, rprint out s = out ++ text) ∧
      (∀ pre post, text = pre ++ '\n' :: post → pre.getLast? = some '\r') ∧
      tokens text = tokens s ∧ (∀ out, rprint out text = out ++ text) ∧
      ((∀ pre post, s = pre ++ '\n' :: post → pre.getLast? = some '\r') → text = s) := by
  refine ⟨rawText s, fun _ => rfl, Ready.replace_lf (lfText s), tokens_rawText s, ?_, ?_⟩
  · intro out
    rw [rprint, rawText_rawText]
  · intro hready
    exact rawText_of_ready hready

example : rawText ['a', '\r', '\r', '\n', 'b', '\n'] =
    ['a', '\r', '\r', '\n', 'b', '\r', '\n'] := by decide

end OsCamp.LineEndings
