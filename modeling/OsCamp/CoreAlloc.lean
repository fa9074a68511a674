import OsCamp.BitFields

/-!
What the allocators use of 64-bit address arithmetic and of `Layout`. Numbers
below 2^64 stand for `usize`. An overflowing `+` or `-` panics in a debug build
and wraps around in a release build; the result `none` is the panic.
-/

set_option autoImplicit false

namespace OsCamp.CoreAlloc

open BitFields

inductive Profile
  | debug
  | release
  deriving DecidableEq

namespace Profile

def add (profile : Profile) (x y : ℕ) : Option ℕ :=
  if x + y < 2 ^ 64 then some (x + y)
  else match profile with
    | .debug => none
    | .release => some (x + y - 2 ^ 64)

def sub (profile : Profile) (x y : ℕ) : Option ℕ :=
  if y ≤ x then some (x - y)
  else match profile with
    | .debug => none
    | .release => some (x + 2 ^ 64 - y)

end Profile

def checkedAdd (x y : ℕ) : Option ℕ := if x + y < 2 ^ 64 then some (x + y) else none

/-- `!x`. -/
def complement (x : ℕ) : ℕ := 2 ^ 64 - 1 - x

/-- `(x + align - 1) & !(align - 1)`. -/
def alignUp (profile : Profile) (x align : ℕ) : Option ℕ := do
  let sum ← profile.add x align
  let last ← profile.sub sum 1
  return last &&& complement (align - 1)

/-- `Layout::from_size_align` admits a power of two as the alignment, and a size
that stays below 2^63 when rounded up to it. -/
structure Layout where
  size : ℕ
  align : ℕ
  align_pow : ∃ k, align = 2 ^ k
  size_le : size + align ≤ 2 ^ 63
  deriving DecidableEq

/-- A layout with the alignment of `u64`. -/
def Layout.align8 (size : ℕ) (h : size + 8 ≤ 2 ^ 63) : Layout := ⟨size, 8, ⟨3, rfl⟩, h⟩

/-- The next multiple of `align`, without machine arithmetic. -/
def roundUp (x align : ℕ) : ℕ := (x + align - 1) / align * align

theorem roundUp_mod (x align : ℕ) : roundUp x align % align = 0 :=
  Nat.mul_mod_left _ _

theorem le_roundUp (x : ℕ) {align : ℕ} (halign : 0 < align) : x ≤ roundUp x align := by
  have hdiv := Nat.div_add_mod' (x + align - 1) align
  have hmod := Nat.mod_lt (x + align - 1) halign
  unfold roundUp
  omega

theorem roundUp_lt (x : ℕ) {align : ℕ} (halign : 0 < align) : roundUp x align < x + align := by
  have hdiv := Nat.div_mul_le_self (x + align - 1) align
  unfold roundUp
  omega

/-- No smaller multiple of the alignment is at least `x`. -/
theorem roundUp_le {x align m : ℕ} (halign : 0 < align) (hdvd : align ∣ m) (hle : x ≤ m) :
    roundUp x align ≤ m := by
  obtain ⟨c, hc⟩ := hdvd
  have hlast : x + align - 1 < align * (c + 1) := by
    rw [Nat.mul_succ, ← hc]
    omega
  have hquot : (x + align - 1) / align ≤ c := Nat.lt_succ_iff.mp (Nat.div_lt_of_lt_mul hlast)
  have hmul := Nat.mul_le_mul_right align hquot
  rw [hc, Nat.mul_comm align c]
  exact hmul

/-- On a word, clearing the low bits of an alignment rounds down to a multiple of it. -/
theorem and_complement (x k : ℕ) (hx : x < 2 ^ 64) (hk : k ≤ 64) :
    x &&& complement (2 ^ k - 1) = x / 2 ^ k * 2 ^ k := by
  have hpow : 2 ^ k ≤ 2 ^ 64 := Nat.pow_le_pow_right (by omega) hk
  have hpos : 0 < 2 ^ k := Nat.two_pow_pos k
  have hmask : (BitVec.ofNat 64 (2 ^ k - 1)).toNat = 2 ^ k - 1 := by
    rw [BitVec.toNat_ofNat, Nat.mod_eq_of_lt (by omega)]
  have hword := toNat_and_not_mask (BitVec.ofNat 64 x) _ k hmask
  rw [BitVec.toNat_and, BitVec.toNat_not, hmask, BitVec.toNat_ofNat, Nat.mod_eq_of_lt hx] at hword
  exact hword

/-- Where the sum stays in range, or wraps exactly to zero, the expression rounds up. -/
theorem alignUp_eq_roundUp {profile : Profile} {x align start : ℕ} (halign : ∃ k, align = 2 ^ k)
    (hfit : x + align ≤ 2 ^ 64) (h : alignUp profile x align = some start) :
    start = roundUp x align := by
  obtain ⟨k, hk⟩ := halign
  have hpos : 0 < 2 ^ k := Nat.two_pow_pos k
  have hk64 : k ≤ 64 := by
    by_contra hlarge
    have hpow : 2 ^ 65 ≤ 2 ^ k := Nat.pow_le_pow_right (by omega) (by omega)
    omega
  have hlast : start = (x + 2 ^ k - 1) &&& complement (2 ^ k - 1) := by
    obtain ⟨sum, hsum, h⟩ := Option.bind_eq_some_iff.mp h
    obtain ⟨last, hlast, h⟩ := Option.bind_eq_some_iff.mp h
    have hval : last = x + 2 ^ k - 1 := by
      unfold Profile.add at hsum
      unfold Profile.sub at hlast
      cases profile <;> simp only [hk] at hsum hlast <;> split_ifs at hsum hlast <;>
        simp only [Option.some.injEq] at hsum hlast <;> omega
    rw [hk, hval] at h
    exact (Option.some.inj h).symm
  rw [hlast, and_complement _ k (by omega) hk64, roundUp, hk]

theorem align_pos {align : ℕ} (halign : ∃ k, align = 2 ^ k) : 0 < align := by
  obtain ⟨k, hk⟩ := halign
  have hpow : 0 < 2 ^ k := Nat.two_pow_pos k
  omega

theorem Layout.align_pos (layout : Layout) : 0 < layout.align :=
  CoreAlloc.align_pos layout.align_pow

/-- Where the sum fits, both builds compute the expression and round up. -/
theorem alignUp_of_lt (profile : Profile) {x align : ℕ} (halign : ∃ k, align = 2 ^ k)
    (hfit : x + align < 2 ^ 64) : alignUp profile x align = some (roundUp x align) := by
  have hsub : 1 ≤ x + align := by
    have hpos := align_pos halign
    omega
  have hsum : profile.add x align = some (x + align) := if_pos hfit
  have hlast : profile.sub (x + align) 1 = some (x + align - 1) := if_pos hsub
  have hstart : alignUp profile x align =
      some ((x + align - 1) &&& complement (align - 1)) := by
    unfold alignUp
    rw [hsum, Option.bind_eq_bind, Option.bind_some, hlast]
    rfl
  rw [hstart, alignUp_eq_roundUp halign (by omega) hstart]

/-- A debug build panics in the expression exactly where the sum does not fit. -/
theorem alignUp_debug_isSome_iff {x align : ℕ} (halign : ∃ k, align = 2 ^ k) :
    (alignUp .debug x align).isSome ↔ x + align < 2 ^ 64 := by
  constructor
  · intro hsome
    by_contra hlarge
    have hsum : Profile.debug.add x align = none := if_neg hlarge
    unfold alignUp at hsome
    rw [hsum] at hsome
    cases hsome
  · intro hfit
    rw [alignUp_of_lt .debug halign hfit]
    rfl

/-- A release build always has a result. -/
theorem alignUp_release_isSome (x align : ℕ) : (alignUp .release x align).isSome := by
  have hsum : ∃ sum, Profile.release.add x align = some sum := by
    unfold Profile.add
    split_ifs
    · exact ⟨_, rfl⟩
    · exact ⟨_, rfl⟩
  obtain ⟨sum, hsum⟩ := hsum
  have hlast : ∃ last, Profile.release.sub sum 1 = some last := by
    unfold Profile.sub
    split_ifs
    · exact ⟨_, rfl⟩
    · exact ⟨_, rfl⟩
  obtain ⟨last, hlast⟩ := hlast
  unfold alignUp
  rw [hsum, Option.bind_eq_bind, Option.bind_some, hlast]
  rfl

/-- A sum that wraps around past zero leaves less than `x`. -/
theorem alignUp_lt_of_wrap {profile : Profile} {x align start : ℕ} (halign : align < 2 ^ 64)
    (hwrap : 2 ^ 64 < x + align) (h : alignUp profile x align = some start) : start < x := by
  obtain ⟨sum, hsum, h⟩ := Option.bind_eq_some_iff.mp h
  obtain ⟨last, hlast, h⟩ := Option.bind_eq_some_iff.mp h
  have hval : last = x + align - 2 ^ 64 - 1 := by
    unfold Profile.add at hsum
    unfold Profile.sub at hlast
    cases profile <;> simp only at hsum hlast <;> split_ifs at hsum hlast <;>
      simp only [Option.some.injEq] at hsum hlast <;> omega
  have hstart : start = last &&& complement (align - 1) := (Option.some.inj h).symm
  have hle : last &&& complement (align - 1) ≤ last := Nat.and_le_left
  omega

end OsCamp.CoreAlloc
