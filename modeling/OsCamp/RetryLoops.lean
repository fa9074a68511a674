import Mathlib.Algebra.Order.BigOperators.Group.Finset
import Mathlib.Data.Fintype.Card
import OsCamp.Execution

/-!
Loops that retry an exchange on a shared cell, and what a run of them costs. A party
expects the value that it read last; once another value is stored, its next exchange fails.
Costs are bounded by the potential method: a step may cost more than its credit where it
lowers the potential by the difference.
-/

set_option autoImplicit false

namespace OsCamp.RetryLoops

open Execution

section Cost

variable {S A : Type*}

/-- The prices of the steps that the listed actions take, added up. -/
def cost (step : S → A → Option S) (price : S → A → ℕ) : S → List A → ℕ
  | _, [] => 0
  | s, a :: rest => price s a + match step s a with
    | some s' => cost step price s' rest
    | none => 0

variable {step : S → A → Option S} {price credit : S → A → ℕ} {s s' : S} {l : List A}

theorem cost_cons {a : A} {t : S} (hs : step s a = some t) (rest : List A) :
    cost step price s (a :: rest) = price s a + cost step price t rest := by
  rw [cost, hs]

theorem cost_le_credit (potential : S → ℕ)
    (hstep : ∀ s a s', step s a = some s' → price s a + potential s' ≤ credit s a + potential s)
    (hrun : run step s l = some s') :
    cost step price s l + potential s' ≤ cost step credit s l + potential s := by
  induction l generalizing s with
  | nil =>
    cases hrun
    exact Nat.le_refl _
  | cons a rest ih =>
    obtain ⟨t, hs, hrest⟩ := Option.bind_eq_some_iff.mp hrun
    have hfirst := hstep s a t hs
    have hlater := ih hrest
    rw [cost_cons hs, cost_cons hs]
    omega

theorem cost_one (hrun : run step s l = some s') : cost step (fun _ _ => 1) s l = l.length := by
  induction l generalizing s with
  | nil => rfl
  | cons a rest ih =>
    obtain ⟨t, hs, hrest⟩ := Option.bind_eq_some_iff.mp hrun
    rw [cost_cons hs, ih hrest, List.length_cons, Nat.add_comm]

theorem cost_add : cost step (fun s a => price s a + credit s a) s l =
    cost step price s l + cost step credit s l := by
  induction l generalizing s with
  | nil => rfl
  | cons a rest ih =>
    unfold cost
    cases step s a with
    | none => exact Nat.add_add_add_comm _ _ 0 0
    | some t =>
      show _ + cost step _ t rest = _
      rw [ih]
      exact Nat.add_add_add_comm _ _ _ _

/-- One price for the actions of a kind, nothing for the others. -/
theorem cost_countP (p : A → Bool) (c : ℕ) (hrun : run step s l = some s') :
    cost step (fun _ a => if p a then c else 0) s l = c * l.countP p := by
  induction l generalizing s with
  | nil => rfl
  | cons a rest ih =>
    obtain ⟨t, hs, hrest⟩ := Option.bind_eq_some_iff.mp hrun
    rw [cost_cons hs, ih hrest, List.countP_cons]
    cases p a with
    | true => rw [if_pos rfl, if_pos rfl, Nat.mul_succ, Nat.add_comm]
    | false => rw [if_neg Bool.false_ne_true, if_neg Bool.false_ne_true, Nat.zero_add, Nat.add_zero]

end Cost

section Cell

variable {T P V : Type*} [DecidableEq V]

/-- One where the party expects a value that the cell does not hold. -/
def stale (cell : V) : Option V → ℕ
  | some v => if v = cell then 0 else 1
  | none => 0

variable {cell cell' : V} {expected : Option V}

theorem stale_le_one (cell : V) (expected : Option V) : stale cell expected ≤ 1 := by
  cases expected with
  | none => exact Nat.zero_le 1
  | some v =>
    by_cases hv : v = cell
    · rw [hv, stale, if_pos rfl]
      exact Nat.zero_le 1
    · rw [stale, if_neg hv]

@[simp] theorem stale_none : stale cell none = 0 := rfl

@[simp] theorem stale_self : stale cell (some cell) = 0 := if_pos rfl

theorem stale_of_ne {v : V} (h : v ≠ cell) : stale cell (some v) = 1 := if_neg h

variable (rank : P → ℕ) (held : P → Option V)

/-- The rounds a party at a position has before it: those of the position, and one more
where its next exchange fails. -/
def work (cell : V) (p : P) : ℕ := rank p + stale cell (held p)

variable [Fintype T]

def potential (cell : V) (pc : T → P) : ℕ := ∑ t, work rank held cell (pc t)

variable {rank held} {pc : T → P} {p : P} {t : T}

theorem work_le_succ (p : P) : work rank held cell' p ≤ work rank held cell p + 1 := by
  have hle := stale_le_one cell' (held p)
  unfold work
  omega

theorem potential_eq_zero (h : ∀ t, work rank held cell (pc t) = 0) :
    potential rank held cell pc = 0 :=
  Finset.sum_eq_zero fun t _ => h t

/-- Another value in the cell costs every party a round. -/
theorem potential_cell (rank : P → ℕ) (held : P → Option V) (cell cell' : V) (pc : T → P) :
    potential rank held cell' pc ≤ potential rank held cell pc + Fintype.card T := by
  have hsum : potential rank held cell' pc ≤ ∑ t, (work rank held cell (pc t) + 1) :=
    Finset.sum_le_sum fun t _ => work_le_succ (pc t)
  rw [Finset.sum_add_distrib, ← Finset.card_eq_sum_ones, Finset.card_univ] at hsum
  exact hsum

variable [DecidableEq T]

/-- A party moves and the cell keeps its value. -/
theorem potential_move (rank : P → ℕ) (held : P → Option V) (cell : V) (pc : T → P) (t : T)
    (p : P) :
    potential rank held cell (Function.update pc t p) + work rank held cell (pc t) =
      potential rank held cell pc + work rank held cell p := by
  have hrest : ∑ u ∈ Finset.univ.erase t, work rank held cell (Function.update pc t p u) =
      ∑ u ∈ Finset.univ.erase t, work rank held cell (pc u) := by
    apply Finset.sum_congr rfl
    intro u hu
    rw [Function.update_of_ne (Finset.ne_of_mem_erase hu)]
  unfold potential
  rw [← Finset.add_sum_erase _ _ (Finset.mem_univ t),
    ← Finset.add_sum_erase _ _ (Finset.mem_univ t), hrest, Function.update_self]
  omega

/-- A party stores another value and moves: the others pay a round each. -/
theorem potential_store (rank : P → ℕ) (held : P → Option V) (cell cell' : V) (pc : T → P)
    (t : T) (p : P) :
    potential rank held cell' (Function.update pc t p) + work rank held cell (pc t) + 1 ≤
      potential rank held cell pc + work rank held cell' p + Fintype.card T := by
  have hmem := Finset.mem_univ t
  have hrest : ∑ u ∈ Finset.univ.erase t, work rank held cell' (Function.update pc t p u) ≤
      ∑ u ∈ Finset.univ.erase t, (work rank held cell (pc u) + 1) := by
    apply Finset.sum_le_sum
    intro u hu
    rw [Function.update_of_ne (Finset.ne_of_mem_erase hu)]
    exact work_le_succ (pc u)
  rw [Finset.sum_add_distrib, ← Finset.card_eq_sum_ones, Finset.card_erase_of_mem hmem,
    Finset.card_univ] at hrest
  have hpos : 0 < Fintype.card T := Fintype.card_pos_iff.mpr ⟨t⟩
  unfold potential
  rw [← Finset.add_sum_erase _ _ hmem, ← Finset.add_sum_erase _ _ hmem, Function.update_self]
  omega

end Cell

end OsCamp.RetryLoops
