import Mathlib.Algebra.BigOperators.Group.Finset.Basic

/-!
The weights of the parties of a system, summed up. A step of one party changes
the sum by what it changes in the weight of that party.
-/

set_option autoImplicit false

namespace OsCamp.Weights

variable {T : Type*} {weight : ℕ → T → ℕ} {n i : ℕ} {party : ℕ → T} {t : T}

/-- The weights of the first `n` parties, party `i` weighed by `weight i`. -/
def total (weight : ℕ → T → ℕ) (n : ℕ) (party : ℕ → T) : ℕ :=
  ∑ i ∈ Finset.range n, weight i (party i)

theorem total_update (weight : ℕ → T → ℕ) (party : ℕ → T) (hi : i < n) (t : T) :
    total weight n (Function.update party i t) + weight i (party i) =
      total weight n party + weight i t := by
  have hmem : i ∈ Finset.range n := Finset.mem_range.mpr hi
  have hrest : ∑ j ∈ (Finset.range n).erase i, weight j (Function.update party i t j) =
      ∑ j ∈ (Finset.range n).erase i, weight j (party j) := by
    apply Finset.sum_congr rfl
    intro j hj
    rw [Function.update_of_ne (Finset.ne_of_mem_erase hj)]
  unfold total
  rw [← Finset.add_sum_erase _ _ hmem, ← Finset.add_sum_erase _ _ hmem, hrest,
    Function.update_self]
  omega

theorem total_update_lt (hi : i < n) (hlt : weight i t < weight i (party i)) :
    total weight n (Function.update party i t) < total weight n party := by
  have hsum := total_update weight party hi t
  omega

/-- Parties of one weight. -/
theorem total_of_forall {w : ℕ} (h : ∀ i < n, weight i (party i) = w) :
    total weight n party = n * w := by
  unfold total
  rw [Finset.sum_const_nat fun i hi => h i (Finset.mem_range.mp hi), Finset.card_range]

end OsCamp.Weights
