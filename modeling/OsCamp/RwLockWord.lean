import OsCamp.RwLock

/-!
What the lock word says: a number of readers, whether a writer holds the lock,
and whether the waiting bit is set. Each test and each update of the source is
evaluated once on this reading, for fewer than 2^30 readers.
-/

set_option autoImplicit false

namespace OsCamp.RwLockWord

open BitFields RwLock

/-- The word for a reader count and the two flags. -/
def encode (readers : ℕ) (holding waiting : Bool) : BitVec 32 :=
  BitVec.ofNat 32 (readers + holding.toNat * 2 ^ 30 + waiting.toNat * 2 ^ 31)

variable {readers : ℕ} {holding waiting : Bool}

theorem toNat_encode (h : readers < 2 ^ 30) :
    (encode readers holding waiting).toNat =
      readers + holding.toNat * 2 ^ 30 + waiting.toNat * 2 ^ 31 := by
  have hh := Bool.toNat_le holding
  have hw := Bool.toNat_le waiting
  rw [encode, BitVec.toNat_ofNat, Nat.mod_eq_of_lt (by omega)]

theorem encode_inj {readers' : ℕ} {holding' waiting' : Bool} (h : readers < 2 ^ 30)
    (h' : readers' < 2 ^ 30)
    (heq : encode readers holding waiting = encode readers' holding' waiting') :
    readers = readers' ∧ holding = holding' ∧ waiting = waiting' := by
  have hnat := congrArg BitVec.toNat heq
  rw [toNat_encode h, toNat_encode h'] at hnat
  cases holding <;> cases holding' <;> cases waiting <;> cases waiting' <;>
    simp only [Bool.toNat_false, Bool.toNat_true] at hnat <;>
    simp only [and_true, and_false, reduceCtorEq] <;> omega

theorem zero_eq_encode : (0 : BitVec 32) = encode 0 false false := rfl

theorem writerHolding_eq_encode : writerHolding = encode 0 true false := rfl

theorem flags_eq_not_mask : writerHolding ||| writerWaiting = ~~~readerMask := by decide

/-- The low 31 bits: everything but the waiting flag. -/
def busyMask : BitVec 32 := readerMask ||| writerHolding

theorem toNat_and_readerMask (h : readers < 2 ^ 30) :
    (encode readers holding waiting &&& readerMask).toNat = readers := by
  rw [toNat_and_of_mask _ readerMask 30 rfl, toNat_encode h]
  omega

theorem and_readerMask_eq_iff (h : readers < 2 ^ 30) :
    encode readers holding waiting &&& readerMask = readerMask ↔ readers = 2 ^ 30 - 1 := by
  rw [← BitVec.toNat_inj, toNat_and_readerMask h]
  rfl

theorem and_flags_eq_zero_iff (h : readers < 2 ^ 30) :
    encode readers holding waiting &&& (writerHolding ||| writerWaiting) = 0 ↔
      holding = false ∧ waiting = false := by
  have hzero : (0 : BitVec 32).toNat = 0 := rfl
  rw [flags_eq_not_mask, ← BitVec.toNat_inj, toNat_and_not_mask _ readerMask 30 rfl,
    toNat_encode h, hzero, ← Bool.toNat_eq_zero, ← Bool.toNat_eq_zero]
  have hh := Bool.toNat_le holding
  have hw := Bool.toNat_le waiting
  omega

/-- The flags do not depend on the reader count. -/
theorem and_flags_eq (h : readers < 2 ^ 30) :
    encode readers holding waiting &&& (writerHolding ||| writerWaiting) =
      encode 0 holding waiting := by
  apply BitVec.eq_of_toNat_eq
  rw [flags_eq_not_mask, toNat_and_not_mask _ readerMask 30 rfl, toNat_encode h,
    toNat_encode (by omega)]
  omega

theorem and_busy_eq_zero_iff (h : readers < 2 ^ 30) :
    encode readers holding waiting &&& (readerMask ||| writerHolding) = 0 ↔
      readers = 0 ∧ holding = false := by
  have hzero : (0 : BitVec 32).toNat = 0 := rfl
  rw [← BitVec.toNat_inj, toNat_and_of_mask _ (readerMask ||| writerHolding) 31 rfl,
    toNat_encode h, hzero, ← Bool.toNat_eq_zero]
  have hh := Bool.toNat_le holding
  have hw := Bool.toNat_le waiting
  omega

theorem and_writerHolding_ne_zero_iff (h : readers < 2 ^ 30) :
    encode readers holding waiting &&& writerHolding ≠ 0 ↔ holding = true := by
  have hmask : writerHolding = busyMask &&& ~~~readerMask := by decide
  have hzero : (0 : BitVec 32).toNat = 0 := rfl
  rw [hmask, ← BitVec.and_assoc, Ne, ← BitVec.toNat_inj,
    toNat_and_not_mask _ readerMask 30 rfl, toNat_and_of_mask _ busyMask 31 rfl,
    toNat_encode h, hzero, ← Bool.toNat_eq_one]
  have hh := Bool.toNat_le holding
  have hw := Bool.toNat_le waiting
  omega

theorem and_writerWaiting_ne_zero_iff (h : readers < 2 ^ 30) :
    encode readers holding waiting &&& writerWaiting ≠ 0 ↔ waiting = true := by
  have hmask : writerWaiting = ~~~busyMask := by decide
  have hzero : (0 : BitVec 32).toNat = 0 := rfl
  rw [hmask, Ne, ← BitVec.toNat_inj, toNat_and_not_mask _ busyMask 31 rfl, toNat_encode h, hzero,
    ← Bool.toNat_eq_one]
  have hh := Bool.toNat_le holding
  have hw := Bool.toNat_le waiting
  omega

/-- A reader more, as long as the count stays inside its field. -/
theorem encode_add_one (h : readers + 1 < 2 ^ 30) :
    encode readers holding waiting + 1 = encode (readers + 1) holding waiting := by
  have hone : (1 : BitVec 32).toNat = 1 := rfl
  have hh := Bool.toNat_le holding
  have hw := Bool.toNat_le waiting
  apply BitVec.eq_of_toNat_eq
  rw [BitVec.toNat_add, toNat_encode (by omega), toNat_encode h, hone]
  omega

theorem encode_sub_one (hpos : 0 < readers) (h : readers < 2 ^ 30) :
    encode readers holding waiting - 1 = encode (readers - 1) holding waiting := by
  have hone : (1 : BitVec 32).toNat = 1 := rfl
  apply BitVec.eq_of_toNat_eq
  rw [BitVec.toNat_sub_of_le, toNat_encode h, toNat_encode (by omega), hone]
  · omega
  · rw [BitVec.le_def, toNat_encode h, hone]
    omega

theorem encode_or_waiting (h : readers < 2 ^ 30) :
    encode readers holding waiting ||| writerWaiting = encode readers holding true := by
  have hset : encode readers holding false ||| writerWaiting = encode readers holding true := by
    apply BitVec.eq_of_toNat_eq
    have hh := Bool.toNat_le holding
    have hlow : (encode readers holding false).toNat < 2 ^ 31 := by
      rw [toNat_encode h]
      simp only [Bool.toNat_false]
      omega
    have hbit : writerWaiting.toNat = 2 ^ 31 := rfl
    rw [BitVec.or_comm, toNat_or_of_dvd _ _ 31 (by rw [hbit]) hlow, hbit, toNat_encode h,
      toNat_encode h]
    simp only [Bool.toNat_false, Bool.toNat_true]
    omega
  cases waiting with
  | false => exact hset
  | true => rw [← hset, BitVec.or_assoc, BitVec.or_self]

theorem encode_and_not_flags (h : readers < 2 ^ 30) :
    encode readers holding waiting &&& ~~~(writerHolding ||| writerWaiting) =
      encode readers false false := by
  have hmask : ~~~(writerHolding ||| writerWaiting) = readerMask := by decide
  apply BitVec.eq_of_toNat_eq
  rw [hmask, toNat_and_readerMask h, toNat_encode h]
  simp only [Bool.toNat_false]
  omega

end OsCamp.RwLockWord
