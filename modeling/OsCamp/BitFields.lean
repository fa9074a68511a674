import Mathlib.Data.Nat.Bitwise
import Mathlib.Tactic.Ring

/-!
Fields of fixed-width machine words. A word is read as a number: a shifted
mask selects a quotient and remainder, and an or of two words with disjoint
bits is their sum. The statements hold for every width and every field.
-/

set_option autoImplicit false

namespace OsCamp.BitFields

variable {w : ℕ}

/-- The mask of the lowest k bits, built as one shifted bit minus one. -/
theorem toNat_shiftLeft_sub_one (k : ℕ) (hk : k < w) :
    ((1#w <<< k) - 1#w).toNat = 2 ^ k - 1 := by
  have hpow : 2 ^ k < 2 ^ w := Nat.pow_lt_pow_right (by omega) hk
  have hpos : 0 < 2 ^ k := Nat.two_pow_pos k
  have hunit : (1#w).toNat = 1 := by
    rw [BitVec.toNat_ofNat, Nat.mod_eq_of_lt (Nat.one_lt_two_pow (by omega))]
  have hone : (1#w <<< k).toNat = 2 ^ k := by
    rw [BitVec.toNat_shiftLeft, Nat.shiftLeft_eq, hunit, one_mul, Nat.mod_eq_of_lt hpow]
  have hle : 1#w ≤ 1#w <<< k := by
    rw [BitVec.le_def, hone, hunit]
    exact hpos
  rw [BitVec.toNat_sub_of_le hle, hone, hunit]

theorem getLsbD_shiftLeft_sub_one (k : ℕ) (hk : k < w) (i : ℕ) :
    ((1#w <<< k) - 1#w).getLsbD i = decide (i < k) := by
  rw [BitVec.getLsbD, toNat_shiftLeft_sub_one k hk, Nat.testBit_two_pow_sub_one]

/-- Masking the low k bits is the remainder modulo 2^k. -/
theorem toNat_and_of_mask (x m : BitVec w) (k : ℕ) (hm : m.toNat = 2 ^ k - 1) :
    (x &&& m).toNat = x.toNat % 2 ^ k := by
  rw [BitVec.toNat_and, hm, Nat.and_two_pow_sub_one_eq_mod]

/-- The masked-out part and the masked part add up to the word. -/
theorem toNat_and_not_add_and (x m : BitVec w) :
    (x &&& ~~~m).toNat + (x &&& m).toNat = x.toNat := by
  have hdisj : (x &&& ~~~m) &&& (x &&& m) = 0#w := by
    ext i
    simp only [BitVec.getElem_and, BitVec.getElem_not, BitVec.getElem_zero]
    cases m[i] <;> simp
  have hjoin : (x &&& ~~~m) ||| (x &&& m) = x := by
    ext i
    simp only [BitVec.getElem_or, BitVec.getElem_and, BitVec.getElem_not]
    cases x[i] <;> cases m[i] <;> rfl
  have hsum := BitVec.add_eq_or_of_and_eq_zero _ _ hdisj
  rw [hjoin] at hsum
  rw [← BitVec.toNat_add_of_and_eq_zero hdisj, hsum]

/-- Clearing the low k bits with a complemented mask rounds down. -/
theorem toNat_and_not_mask (x m : BitVec w) (k : ℕ) (hm : m.toNat = 2 ^ k - 1) :
    (x &&& ~~~m).toNat = x.toNat / 2 ^ k * 2 ^ k := by
  have hsum := toNat_and_not_add_and x m
  have hdiv := Nat.div_add_mod' x.toNat (2 ^ k)
  rw [toNat_and_of_mask x m k hm] at hsum
  omega

/-- A right shift followed by a low mask reads one field. -/
theorem toNat_field (x m : BitVec w) (s k : ℕ) (hm : m.toNat = 2 ^ k - 1) :
    ((x >>> s) &&& m).toNat = x.toNat / 2 ^ s % 2 ^ k := by
  rw [toNat_and_of_mask _ m k hm, BitVec.toNat_ushiftRight, Nat.shiftRight_eq_div_pow]

theorem toNat_shiftLeft_of_lt (x : BitVec w) (k : ℕ) (hx : x.toNat * 2 ^ k < 2 ^ w) :
    (x <<< k).toNat = x.toNat * 2 ^ k := by
  rw [BitVec.toNat_shiftLeft, Nat.shiftLeft_eq, Nat.mod_eq_of_lt hx]

/-- Or-ing a word below 2^k onto a multiple of 2^k adds it. -/
theorem toNat_or_of_dvd (x y : BitVec w) (k : ℕ) (hx : 2 ^ k ∣ x.toNat)
    (hy : y.toNat < 2 ^ k) : (x ||| y).toNat = x.toNat + y.toNat := by
  obtain ⟨q, hq⟩ := hx
  rw [BitVec.toNat_or, hq, Nat.two_pow_add_eq_or_of_lt hy]

theorem toNat_or_lt (x y : BitVec w) (k : ℕ) (hx : x.toNat < 2 ^ k) (hy : y.toNat < 2 ^ k) :
    (x ||| y).toNat < 2 ^ k := by
  rw [BitVec.toNat_or]
  exact Nat.or_lt_two_pow hx hy

/-- A payload stored above k flag bits is read back by the right shift. -/
theorem shiftLeft_or_ushiftRight (x f : BitVec w) (k : ℕ)
    (hx : x.toNat * 2 ^ k < 2 ^ w) (hf : f.toNat < 2 ^ k) :
    ((x <<< k) ||| f) >>> k = x := by
  apply BitVec.eq_of_toNat_eq
  have hshift := toNat_shiftLeft_of_lt x k hx
  have hor : ((x <<< k) ||| f).toNat = x.toNat * 2 ^ k + f.toNat := by
    rw [toNat_or_of_dvd (x <<< k) f k (hshift ▸ Nat.dvd_mul_left _ _) hf, hshift]
  rw [BitVec.toNat_ushiftRight, hor, Nat.shiftRight_eq_div_pow, Nat.add_comm,
    Nat.add_mul_div_right _ _ (Nat.two_pow_pos k), Nat.div_eq_of_lt hf, Nat.zero_add]

/-- A test of the low k bits does not see the payload above them. -/
theorem shiftLeft_or_and (x f m : BitVec w) (k : ℕ) (hm : m.toNat < 2 ^ k) :
    ((x <<< k) ||| f) &&& m = f &&& m := by
  ext i hi
  by_cases hik : i < k
  · simp [hik]
  · have hmi : m[i] = false := by
      rw [BitVec.getElem_eq_testBit_toNat]
      exact Nat.testBit_lt_two_pow
        (Nat.lt_of_lt_of_le hm (Nat.pow_le_pow_right (by omega) (by omega)))
    simp [hmi]

/-- Clearing the low k bits rounds down to a multiple of 2^k. -/
theorem toNat_ushiftRight_shiftLeft (x : BitVec w) (k : ℕ) :
    ((x >>> k) <<< k).toNat = x.toNat / 2 ^ k * 2 ^ k := by
  have hle : x.toNat / 2 ^ k * 2 ^ k ≤ x.toNat := Nat.div_mul_le_self _ _
  have hdiv : (x >>> k).toNat = x.toNat / 2 ^ k := by
    rw [BitVec.toNat_ushiftRight, Nat.shiftRight_eq_div_pow]
  have hlt : (x >>> k).toNat * 2 ^ k < 2 ^ w := by
    rw [hdiv]
    exact Nat.lt_of_le_of_lt hle x.isLt
  rw [toNat_shiftLeft_of_lt _ k hlt, hdiv]

end OsCamp.BitFields
