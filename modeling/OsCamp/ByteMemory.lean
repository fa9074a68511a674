import Mathlib.Tactic.Ring

/-!
Byte-addressed memory with little-endian numbers of any width. A load reads
back what a store put there, and a store changes no byte outside its range.
-/

set_option autoImplicit false

namespace OsCamp.ByteMemory

abbrev Memory := ℕ → BitVec 8

def load (m : Memory) (a : ℕ) : ℕ → ℕ
  | 0 => 0
  | n + 1 => (m a).toNat + 256 * load m (a + 1) n

/-- Store the `n` low bytes of `v` at `a`. -/
def store (m : Memory) (a n v : ℕ) : Memory := fun x =>
  if a ≤ x ∧ x < a + n then BitVec.ofNat 8 (v / 256 ^ (x - a)) else m x

/-- The two memories hold the same bytes in [a, a + n). -/
def SameOn (m m' : Memory) (a n : ℕ) : Prop := ∀ x, a ≤ x → x < a + n → m' x = m x

variable {m m' : Memory} {a b n k v : ℕ}

theorem load_congr (h : SameOn m m' a n) : load m' a n = load m a n := by
  induction n generalizing a with
  | zero => rfl
  | succ n ih =>
    have hrest : SameOn m m' (a + 1) n := fun x hlo hhi => h x (by omega) (by omega)
    rw [load, load, h a (by omega) (by omega), ih hrest]

theorem SameOn.mono (h : SameOn m m' a n) (hlo : a ≤ b) (hhi : b + k ≤ a + n) :
    SameOn m m' b k := fun x hb hk => h x (by omega) (by omega)

/-- A store is invisible outside its own range. -/
theorem sameOn_store (hdisj : b + k ≤ a ∨ a + n ≤ b) : SameOn m (store m a n v) b k := by
  intro x hlo hhi
  unfold store
  rw [if_neg (by omega)]

private theorem load_store_within (i n : ℕ) (hin : i + n ≤ k) :
    load (store m a k v) (a + i) n = v / 256 ^ i % 256 ^ n := by
  induction n generalizing i with
  | zero => simp [load, Nat.mod_one]
  | succ n ih =>
    have hbyte : (store m a k v (a + i)).toNat = v / 256 ^ i % 256 := by
      unfold store
      rw [if_pos (by omega), BitVec.toNat_ofNat, Nat.add_sub_cancel_left]
    have hrest := ih (i + 1) (by omega)
    rw [← Nat.add_assoc] at hrest
    rw [load, hbyte, hrest, Nat.pow_succ, Nat.pow_succ, ← Nat.div_div_eq_div_mul,
      Nat.mul_comm (256 ^ n) 256, Nat.mod_mul]

/-- A load of the range just stored returns the value, if it fits. -/
theorem load_store (m : Memory) (a : ℕ) (hv : v < 256 ^ n) : load (store m a n v) a n = v := by
  have h := load_store_within (m := m) (a := a) (v := v) 0 n (Nat.zero_add n).le
  rw [Nat.add_zero, Nat.pow_zero, Nat.div_one, Nat.mod_eq_of_lt hv] at h
  exact h

theorem load_store_of_disjoint (hdisj : b + k ≤ a ∨ a + n ≤ b) :
    load (store m a n v) b k = load m b k :=
  load_congr (sameOn_store hdisj)

theorem load_lt (m : Memory) (a n : ℕ) : load m a n < 256 ^ n := by
  induction n generalizing a with
  | zero => exact Nat.one_pos
  | succ n ih =>
    have hbyte := (m a).isLt
    have hrest := ih (a + 1)
    rw [load, Nat.pow_succ]
    omega

end OsCamp.ByteMemory
