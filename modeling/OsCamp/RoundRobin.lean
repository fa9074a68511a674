import Mathlib.Data.Nat.Basic

/-!
Round-robin choice on a ring of `len` places: the first place after `start` that is
ready, or `start` again when no other place is. The places after `start` are
`(start + 1) % len`, `(start + 2) % len` and so on, back to `start` itself.
-/

set_option autoImplicit false

namespace OsCamp.RoundRobin

/-- The search standing at `next`; the fuel bounds how many places it may look at. -/
def scan (ready : ℕ → Bool) (len start : ℕ) : ℕ → ℕ → Option ℕ
  | 0, _ => none
  | fuel + 1, next =>
    if next = start then some start
    else if ready next then some next
    else scan ready len start fuel ((next + 1) % len)

/-- The choice from `start`. -/
def pick (ready : ℕ → Bool) (len start : ℕ) : Option ℕ :=
  scan ready len start len ((start + 1) % len)

variable {ready : ℕ → Bool} {len start : ℕ}

theorem place_eq (hstart : start < len) {k : ℕ} (hk : k ≤ len) :
    (start + k) % len = if start + k < len then start + k else start + k - len := by
  split
  · exact Nat.mod_eq_of_lt ‹_›
  · have hwrap : start + k - len < len := by omega
    rw [Nat.mod_eq_sub_mod (by omega), Nat.mod_eq_of_lt hwrap]

theorem place_eq_start_iff (hstart : start < len) {k : ℕ} (hpos : 1 ≤ k) (hk : k ≤ len) :
    (start + k) % len = start ↔ k = len := by
  rw [place_eq hstart hk]
  split <;> omega

/-- Every other place is some number of places after `start`. -/
theorem exists_place (hstart : start < len) {i : ℕ} (hi : i < len) (hne : i ≠ start) :
    ∃ k, 1 ≤ k ∧ k < len ∧ (start + k) % len = i := by
  by_cases hlater : start < i
  · refine ⟨i - start, by omega, by omega, ?_⟩
    rw [place_eq hstart (by omega)]
    split <;> omega
  · refine ⟨i + len - start, by omega, by omega, ?_⟩
    rw [place_eq hstart (by omega)]
    split <;> omega

theorem scan_spec (hstart : start < len) {fuel k : ℕ} (hpos : 1 ≤ k) (hk : k ≤ len)
    (hfuel : len < fuel + k) :
    ∃ m, k ≤ m ∧ m ≤ len ∧
      scan ready len start fuel ((start + k) % len) = some ((start + m) % len) ∧
      (∀ j, k ≤ j → j < m → ready ((start + j) % len) = false) ∧
      (m < len → ready ((start + m) % len) = true) := by
  induction fuel generalizing k with
  | zero => omega
  | succ fuel ih =>
    by_cases hend : k = len
    · have hback : (start + k) % len = start := (place_eq_start_iff hstart hpos hk).mpr hend
      refine ⟨k, Nat.le_refl k, hk, ?_, fun j hj hlt => by omega, fun hlt => by omega⟩
      rw [hback]
      exact if_pos rfl
    · have hne : (start + k) % len ≠ start := fun h =>
        hend ((place_eq_start_iff hstart hpos hk).mp h)
      by_cases hready : ready ((start + k) % len) = true
      · refine ⟨k, Nat.le_refl k, hk, ?_, fun j hj hlt => by omega, fun _ => hready⟩
        rw [scan, if_neg hne, if_pos hready]
      · obtain ⟨m, hm, hmlen, hscan, hbefore, hfound⟩ := ih (k := k + 1) (by omega) (by omega)
          (by omega)
        refine ⟨m, by omega, hmlen, ?_, ?_, hfound⟩
        · rw [scan, if_neg hne, if_neg hready, Nat.mod_add_mod, Nat.add_assoc]
          exact hscan
        · intro j hj hlt
          by_cases hfirst : j = k
          · rw [hfirst]
            exact Bool.eq_false_iff.mpr hready
          · exact hbefore j (by omega) hlt

/-- The choice is the first ready place after `start`, none of those skipped is ready. -/
theorem pick_spec (ready : ℕ → Bool) (hstart : start < len) :
    ∃ m, 1 ≤ m ∧ m ≤ len ∧ pick ready len start = some ((start + m) % len) ∧
      (∀ j, 1 ≤ j → j < m → ready ((start + j) % len) = false) ∧
      (m < len → ready ((start + m) % len) = true) :=
  scan_spec hstart (Nat.le_refl 1) (by omega) (by omega)

/-- Where another place is ready, the choice is one. -/
theorem pick_of_ready (hstart : start < len) {i : ℕ} (hi : i < len) (hne : i ≠ start)
    (hready : ready i = true) :
    ∃ next, pick ready len start = some next ∧ next ≠ start ∧ next < len ∧
      ready next = true := by
  obtain ⟨m, hpos, hmlen, hpick, hbefore, hfound⟩ := pick_spec ready hstart
  obtain ⟨k, hk, hklen, hplace⟩ := exists_place hstart hi hne
  have hlt : m < len := by
    by_contra hend
    have hskipped := hbefore k hk (by omega)
    rw [hplace, hready] at hskipped
    cases hskipped
  refine ⟨_, hpick, ?_, Nat.mod_lt _ (by omega), hfound hlt⟩
  intro heq
  have hend := (place_eq_start_iff hstart hpos hmlen).mp heq
  omega

end OsCamp.RoundRobin
