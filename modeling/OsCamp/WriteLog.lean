import Mathlib.Data.List.Induction
import OsCamp.Execution

/-!
Logs of writes that cover any part of a space each. What counts at a point is the last
write that covers it. A condition on a log relates every write to the writes before it.
-/

set_option autoImplicit false

namespace OsCamp.WriteLog

open Execution

variable {W X S : Type*}

/-- The last write that covers the point. -/
def last (covers : W → X → Bool) (log : List W) (x : X) : Option W :=
  log.reverse.find? fun w => covers w x

/-- Each write stands in the relation to those before it. -/
def Along (P : List W → W → Prop) (log : List W) : Prop :=
  ∀ earlier w later, log = earlier ++ w :: later → P earlier w

variable {covers : W → X → Bool} {P : List W → W → Prop} {log : List W} {w : W}

theorem last_concat (x : X) :
    last covers (log ++ [w]) x = if covers w x then some w else last covers log x := by
  unfold last
  rw [List.reverse_append, List.reverse_singleton, List.singleton_append, List.find?_cons]
  cases covers w x <;> rfl

theorem along_nil : Along P [] := by
  intro earlier w later h
  exact absurd h.symm (List.append_ne_nil_of_right_ne_nil _ (List.cons_ne_nil _ _))

theorem along_concat : Along P (log ++ [w]) ↔ Along P log ∧ P log w := by
  constructor
  · intro h
    refine ⟨?_, h log w [] rfl⟩
    intro earlier v later hlog
    apply h earlier v (later ++ [w])
    rw [hlog, List.append_assoc, List.cons_append]
  · intro h earlier v later hlog
    obtain ⟨hbefore, hlast⟩ := h
    rcases List.eq_nil_or_concat later with rfl | ⟨later', u, rfl⟩
    · obtain ⟨rfl, hv⟩ := List.append_inj' hlog rfl
      cases hv
      exact hlast
    · rw [List.concat_eq_append, ← List.cons_append, ← List.append_assoc] at hlog
      obtain ⟨hpre, -⟩ := List.append_inj' hlog rfl
      exact hbefore earlier v later' hpre

/-- Where every write that stands in the relation succeeds and keeps an invariant of the log
and the state, a log of such writes does. -/
theorem run_along {step : S → W → Option S} {I : List W → S → Prop} {s : S} (hinit : I [] s)
    (hstep : ∀ log w s, I log s → P log w → ∃ s', step s w = some s' ∧ I (log ++ [w]) s')
    (h : Along P log) : ∃ s', run step s log = some s' ∧ I log s' := by
  induction log using List.reverseRecOn with
  | nil => exact ⟨s, rfl, hinit⟩
  | append_singleton log w ih =>
    obtain ⟨hbefore, hlast⟩ := along_concat.mp h
    obtain ⟨s₁, hrun, hinv⟩ := ih hbefore
    obtain ⟨s', hs, hinv'⟩ := hstep log w s₁ hinv hlast
    refine ⟨s', ?_, hinv'⟩
    rw [run_append, hrun, Option.bind_some, run, hs]
    rfl

end OsCamp.WriteLog
