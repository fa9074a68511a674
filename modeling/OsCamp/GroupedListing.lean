import Mathlib.Data.List.Destutter

/-!
Rows printed under headings: a heading is printed before a row whose key differs
from the last heading. Every row stands under the heading of its own key, and
the headings are the keys with repetitions of the same key in a row dropped.
-/

set_option autoImplicit false

namespace OsCamp.GroupedListing

variable {α κ : Type*}

inductive Line (κ α : Type*)
  | heading (key : κ)
  | row (a : α)

def Line.heading? : Line κ α → Option κ
  | .heading key => some key
  | .row _ => none

def Line.row? : Line κ α → Option α
  | .heading _ => none
  | .row a => some a

/-- The lines printed for the rows, where `last` is the heading printed before. -/
def listing [DecidableEq κ] (key : α → κ) (last : κ) : List α → List (Line κ α)
  | [] => []
  | a :: rest =>
    if key a ≠ last then .heading (key a) :: .row a :: listing key (key a) rest
    else .row a :: listing key last rest

/-- The heading that a reader finds above the end of the lines. -/
def lastHeading (last : κ) (lines : List (Line κ α)) : κ :=
  (lines.filterMap Line.heading?).getLastD last

variable {key : α → κ} {last : κ} {a : α} {pre post : List (Line κ α)}

theorem lastHeading_heading (k : κ) (pre : List (Line κ α)) :
    lastHeading last (.heading k :: pre) = lastHeading k pre := List.getLastD_cons ..

theorem lastHeading_row (b : α) (pre : List (Line κ α)) :
    lastHeading last (.row b :: pre) = lastHeading last pre := rfl

variable [DecidableEq κ]

theorem rows_listing (key : α → κ) (last : κ) (l : List α) :
    (listing key last l).filterMap Line.row? = l := by
  induction l generalizing last with
  | nil => rfl
  | cons a rest ih =>
    rw [listing]
    split_ifs with hkey
    · show a :: (listing key (key a) rest).filterMap Line.row? = a :: rest
      rw [ih]
    · show a :: (listing key last rest).filterMap Line.row? = a :: rest
      rw [ih]

theorem headings_listing (key : α → κ) (last : κ) (l : List α) :
    last :: (listing key last l).filterMap Line.heading? =
      (l.map key).destutter' (· ≠ ·) last := by
  induction l generalizing last with
  | nil => rfl
  | cons a rest ih =>
    rw [listing, List.map_cons, List.destutter'_cons]
    by_cases hkey : key a ≠ last
    · rw [if_pos hkey, if_pos (Ne.symm hkey), ← ih]
      rfl
    · rw [if_neg hkey, if_neg fun hne => hkey (Ne.symm hne), ← ih]
      rfl

/-- Every row stands under the heading of its key. -/
theorem lastHeading_of_row {l : List α} (h : listing key last l = pre ++ .row a :: post) :
    lastHeading last pre = key a := by
  induction l generalizing last pre with
  | nil => simp [listing] at h
  | cons b rest ih =>
    rw [listing] at h
    split_ifs at h with hkey
    · rcases pre with - | ⟨first, - | ⟨second, pre⟩⟩
      · cases h
      · simp only [List.cons_append, List.nil_append, List.cons.injEq] at h
        obtain ⟨rfl, hrow, -⟩ := h
        cases hrow
        rfl
      · simp only [List.cons_append, List.cons.injEq] at h
        obtain ⟨rfl, rfl, hrest⟩ := h
        rw [lastHeading_heading, lastHeading_row]
        exact ih hrest
    · rcases pre with - | ⟨first, pre⟩
      · simp only [List.nil_append, List.cons.injEq] at h
        cases h.1
        exact (not_not.mp hkey).symm
      · simp only [List.cons_append, List.cons.injEq] at h
        obtain ⟨rfl, hrest⟩ := h
        rw [lastHeading_row]
        exact ih hrest

end OsCamp.GroupedListing
