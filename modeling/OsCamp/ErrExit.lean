import Mathlib.Data.Int.Notation
import Mathlib.Data.List.Basic

/-!
Shell scripts under `set -e`. A command leaves a status or ends the script with a code. A
status that is not 0 ends the script, unless the command is the condition of an `if`. An
arithmetic command has status 1 where its expression evaluates to 0. Triples have two
postconditions: one for a script part that goes on, one for the end of the script.
-/

set_option autoImplicit false

namespace OsCamp.ErrExit

inductive Result (σ : Type*)
  | status (n : ℕ) (s : σ)
  | exited (code : ℕ) (s : σ)

abbrev Script (σ : Type*) := σ → Result σ

variable {σ α : Type*}

/-- A command that always succeeds. -/
def effect (f : σ → σ) : Script σ := fun s => .status 0 (f s)

/-- A command that only has a status. -/
def test (holds : σ → Bool) : Script σ := fun s => .status (if holds s then 0 else 1) s

/-- `((e))`, for an expression with its value and its side effect. -/
def arith (eval : σ → ℤ × σ) : Script σ := fun s =>
  .status (if (eval s).1 = 0 then 1 else 0) (eval s).2

def exit (code : ℕ) : Script σ := fun s => .exited code s

/-- A command that is not part of a condition. -/
def checked (c : Script σ) : Script σ := fun s =>
  match c s with
  | .status 0 s' => .status 0 s'
  | .status (n + 1) s' => .exited (n + 1) s'
  | .exited code s' => .exited code s'

def seq (c d : Script σ) : Script σ := fun s =>
  match c s with
  | .status _ s' => d s'
  | .exited code s' => .exited code s'

def ifThenElse (cond thn els : Script σ) : Script σ := fun s =>
  match cond s with
  | .status 0 s' => thn s'
  | .status (_ + 1) s' => els s'
  | .exited code s' => .exited code s'

def forEach (l : List α) (body : α → Script σ) : Script σ :=
  match l with
  | [] => effect id
  | a :: rest => seq (body a) (forEach rest body)

/-- From `P`, the part goes on in `Q`, or ends the script with a code and a state in `E`. -/
def Triple (P : σ → Prop) (c : Script σ) (Q : σ → Prop) (E : ℕ → σ → Prop) : Prop :=
  ∀ s, P s → match c s with
    | .status _ s' => Q s'
    | .exited code s' => E code s'

variable {P P' Q R : σ → Prop} {E : ℕ → σ → Prop} {c d cond thn els : Script σ}

theorem Triple.weaken (h : Triple P c Q E) (hP : ∀ s, P' s → P s) (hQ : ∀ s, Q s → R s) :
    Triple P' c R E := by
  intro s hs
  have hc := h s (hP s hs)
  revert hc
  cases c s with
  | status n s' => exact hQ s'
  | exited code s' => exact id

theorem Triple.effect {f : σ → σ} (h : ∀ s, P s → Q (f s)) : Triple P (ErrExit.effect f) Q E :=
  h

theorem Triple.exit {code : ℕ} (h : ∀ s, P s → E code s) : Triple P (ErrExit.exit code) Q E :=
  h

theorem Triple.seq (hc : Triple P c Q E) (hd : Triple Q d R E) : Triple P (seq c d) R E := by
  intro s hs
  have hmid := hc s hs
  unfold ErrExit.seq
  revert hmid
  cases c s with
  | status n s' => exact hd s'
  | exited code s' => exact id

/-- A condition that is a test decides the branch and changes nothing. -/
theorem Triple.ifTest {holds : σ → Bool}
    (hthn : Triple (fun s => P s ∧ holds s = true) thn Q E)
    (hels : Triple (fun s => P s ∧ holds s = false) els Q E) :
    Triple P (ifThenElse (test holds) thn els) Q E := by
  intro s hs
  unfold ifThenElse test
  cases hholds : holds s with
  | true => exact hthn s ⟨hs, hholds⟩
  | false => exact hels s ⟨hs, hholds⟩

/-- An arithmetic command with value 0 ends the script. -/
theorem Triple.arith_zero {eval : σ → ℤ × σ} (hzero : ∀ s, P s → (eval s).1 = 0)
    (h : ∀ s, P s → E 1 (eval s).2) : Triple P (checked (arith eval)) Q E := by
  intro s hs
  unfold checked arith
  rw [if_pos (hzero s hs)]
  exact h s hs

/-- The invariant speaks of the elements that the loop has behind it. -/
theorem Triple.forEach {body : α → Script σ} {I : List α → σ → Prop} (l : List α)
    (hbody : ∀ seen a rest, l = seen ++ a :: rest →
      Triple (I seen) (body a) (I (seen ++ [a])) E) :
    Triple (I []) (forEach l body) (I l) E := by
  have hrun : ∀ rest seen, l = seen ++ rest →
      Triple (I seen) (ErrExit.forEach rest body) (I l) E := by
    intro rest
    induction rest with
    | nil =>
      intro seen hl
      rw [hl, List.append_nil]
      exact Triple.effect fun _ => id
    | cons a rest ih =>
      intro seen hl
      apply (hbody seen a rest hl).seq
      apply ih
      rw [hl, List.append_assoc]
      rfl
  exact hrun l [] rfl

end OsCamp.ErrExit
