import Mathlib.Data.List.Basic

/-!
Replacing a pattern in a list: the matches are taken from left to right and do
not overlap, and the replacement is not searched again. The pattern is not empty.
-/

set_option autoImplicit false

namespace OsCamp.TextReplace

variable {α : Type*} [DecidableEq α] {pattern replacement text rest : List α} {a b : α}

/-- `skip` counts the elements of the last match that are still to be passed over. -/
def replaceFrom (pattern replacement : List α) : ℕ → List α → List α
  | _, [] => []
  | skip + 1, _ :: rest => replaceFrom pattern replacement skip rest
  | 0, a :: rest =>
    if pattern <+: a :: rest then
      replacement ++ replaceFrom pattern replacement (pattern.length - 1) rest
    else a :: replaceFrom pattern replacement 0 rest

def replace (pattern replacement text : List α) : List α :=
  replaceFrom pattern replacement 0 text

theorem replaceFrom_eq_drop (skip : ℕ) (text : List α) :
    replaceFrom pattern replacement skip text =
      replace pattern replacement (text.drop skip) := by
  induction text generalizing skip with
  | nil =>
    rw [List.drop_nil]
    cases skip <;> rfl
  | cons a rest ih =>
    cases skip with
    | zero => rfl
    | succ skip => exact ih skip

/-- A match is replaced, and the search goes on behind it. -/
theorem replace_match (hne : pattern ≠ []) (rest : List α) :
    replace pattern replacement (pattern ++ rest) =
      replacement ++ replace pattern replacement rest := by
  obtain ⟨a, tail, rfl⟩ := List.exists_cons_of_ne_nil hne
  have hprefix : a :: tail <+: a :: (tail ++ rest) := ⟨rest, rfl⟩
  have hhead : replace (a :: tail) replacement (a :: (tail ++ rest)) =
      replacement ++ replaceFrom (a :: tail) replacement tail.length (tail ++ rest) :=
    if_pos hprefix
  rw [List.cons_append, hhead, replaceFrom_eq_drop, List.drop_left]

theorem replace_miss (hmiss : ¬ pattern <+: a :: rest) :
    replace pattern replacement (a :: rest) = a :: replace pattern replacement rest :=
  if_neg hmiss

/-- A pattern of one element is replaced element by element. -/
theorem replace_singleton (b : α) (replacement text : List α) :
    replace [b] replacement text = text.flatMap fun c => if c = b then replacement else [c] := by
  induction text with
  | nil => rfl
  | cons a rest ih =>
    rw [List.flatMap_cons]
    by_cases hmatch : a = b
    · subst a
      rw [if_pos rfl, ← ih]
      exact replace_match (by simp) rest
    · have hmiss : ¬ [b] <+: a :: rest := by
        intro hprefix
        exact hmatch (List.cons_prefix_cons.mp hprefix).1.symm
      rw [if_neg hmatch, replace_miss hmiss, ih]
      rfl

/-- Where `b` has become `a b`, no `b` starts the text. -/
theorem not_prefix_replace (hne : a ≠ b) (text : List α) : ¬ [b] <+: replace [b] [a, b] text := by
  intro hprefix
  cases text with
  | nil => simp [replace, replaceFrom] at hprefix
  | cons c rest =>
    rw [replace_singleton, List.flatMap_cons] at hprefix
    split_ifs at hprefix with hc
    · exact hne (List.cons_prefix_cons.mp hprefix).1.symm
    · exact hc (List.cons_prefix_cons.mp hprefix).1.symm

/-- Replacing `a b` by `b` undoes replacing `b` by `a b`: an `a` of the text itself
stands before a `b` only where that `b` has got its own `a`. -/
theorem replace_pair_replace (hne : a ≠ b) (text : List α) :
    replace [a, b] [b] (replace [b] [a, b] text) = text := by
  induction text with
  | nil => rfl
  | cons c rest ih =>
    by_cases hc : c = b
    · subst c
      have hexpand : replace [b] [a, b] (b :: rest) = [a, b] ++ replace [b] [a, b] rest :=
        replace_match (by simp) rest
      rw [hexpand, replace_match (by simp), ih]
      rfl
    · have hsingle : ¬ [b] <+: c :: rest := by
        intro hprefix
        exact hc (List.cons_prefix_cons.mp hprefix).1.symm
      have hpair : ¬ [a, b] <+: c :: replace [b] [a, b] rest := by
        intro hprefix
        exact not_prefix_replace hne rest (List.cons_prefix_cons.mp hprefix).2
      rw [replace_miss hsingle, replace_miss hpair, ih]

end OsCamp.TextReplace
