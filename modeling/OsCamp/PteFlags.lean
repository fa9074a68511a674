import OsCamp.BitFields

/-!
Construction and parsing of SV39 page table entries in the `01_pte_flags` exercise. An
entry is specified bit by bit: eight flags, two reserved bits, 44 bits of the physical page
number and ten reserved bits. What is read from an entry follows from that.
-/

set_option autoImplicit false

namespace OsCamp.PteFlags

open BitFields

def pteV : BitVec 64 := 1#64 <<< 0
def pteR : BitVec 64 := 1#64 <<< 1
def pteW : BitVec 64 := 1#64 <<< 2
def pteX : BitVec 64 := 1#64 <<< 3

def ppnShift : ℕ := 10
def ppnMask : BitVec 64 := (1#64 <<< 44) - 1#64

def makePte (ppn flags : BitVec 64) : BitVec 64 :=
  ((ppn &&& ppnMask) <<< ppnShift) ||| (flags &&& 0xFF#64)

def extractPpn (pte : BitVec 64) : BitVec 64 := (pte >>> ppnShift) &&& ppnMask

def extractFlags (pte : BitVec 64) : BitVec 64 := pte &&& 0xFF#64

def isValid (pte : BitVec 64) : Bool := pte &&& pteV != 0

def isLeaf (pte : BitVec 64) : Bool := pte &&& (pteR ||| pteW ||| pteX) != 0

def checkPermission (pte : BitVec 64) (read write execute : Bool) : Bool :=
  if !isValid pte then false
  else if read && pte &&& pteR == 0 then false
  else if write && pte &&& pteW == 0 then false
  else if execute && pte &&& pteX == 0 then false
  else true

/-- Bits 8 and 9, left to the supervisor's software, and bits 54 to 63. -/
def Reserved (i : ℕ) : Prop := i = 8 ∨ i = 9 ∨ 54 ≤ i

instance (i : ℕ) : Decidable (Reserved i) := by
  unfold Reserved
  infer_instance

def ReservedClear (pte : BitVec 64) : Prop := ∀ i, Reserved i → pte.getLsbD i = false

variable {ppn flags pte : BitVec 64}

theorem getLsbD_ppnMask (i : ℕ) : ppnMask.getLsbD i = decide (i < 44) :=
  getLsbD_shiftLeft_sub_one 44 (by decide) i

theorem getLsbD_flagsMask (i : ℕ) : (0xFF#64).getLsbD i = decide (i < 8) :=
  getLsbD_shiftLeft_sub_one 8 (by decide) i

/-- Every bit of an entry is a bit of the flags, a bit of the page number, or zero. -/
theorem getLsbD_makePte (ppn flags : BitVec 64) (i : ℕ) :
    (makePte ppn flags).getLsbD i =
      if i < 8 then flags.getLsbD i else decide (10 ≤ i ∧ i < 54) && ppn.getLsbD (i - 10) := by
  have hi : i < 64 ∨ 64 ≤ i := Nat.lt_or_ge i 64
  unfold makePte ppnShift
  simp only [BitVec.getLsbD_or, BitVec.getLsbD_shiftLeft, BitVec.getLsbD_and, getLsbD_ppnMask,
    getLsbD_flagsMask]
  by_cases hflag : i < 8
  · have hlow : i < 10 := by omega
    simp [hflag, hlow]
  · by_cases hfield : 10 ≤ i ∧ i < 54
    · have hbit : i - 10 < 44 := by omega
      have hhigh : ¬ i < 10 := by omega
      have hword : i < 64 := by omega
      simp [hflag, hfield, hbit, hhigh, hword]
    · by_cases hlow : i < 10
      · simp [hflag, hfield, hlow]
      · have hbit : ¬ i - 10 < 44 := by omega
        simp [hflag, hfield, hbit]

theorem getLsbD_extractPpn (pte : BitVec 64) (i : ℕ) :
    (extractPpn pte).getLsbD i = (pte.getLsbD (10 + i) && decide (i < 44)) := by
  unfold extractPpn ppnShift
  rw [BitVec.getLsbD_and, BitVec.getLsbD_ushiftRight, getLsbD_ppnMask]

theorem getLsbD_extractFlags (pte : BitVec 64) (i : ℕ) :
    (extractFlags pte).getLsbD i = (pte.getLsbD i && decide (i < 8)) := by
  rw [extractFlags, BitVec.getLsbD_and, getLsbD_flagsMask]

theorem reservedClear_makePte (ppn flags : BitVec 64) : ReservedClear (makePte ppn flags) := by
  intro i hi
  have hflag : ¬ i < 8 := by
    unfold Reserved at hi
    omega
  have hfield : ¬ (10 ≤ i ∧ i < 54) := by
    unfold Reserved at hi
    omega
  rw [getLsbD_makePte, if_neg hflag, decide_eq_false hfield, Bool.false_and]

/-- Taking an entry apart and building it again clears the reserved bits. -/
theorem getLsbD_rebuilt (pte : BitVec 64) (i : ℕ) :
    (makePte (extractPpn pte) (extractFlags pte)).getLsbD i =
      (pte.getLsbD i && !decide (Reserved i)) := by
  rw [getLsbD_makePte, getLsbD_extractPpn, getLsbD_extractFlags]
  by_cases hflag : i < 8
  · have hused : ¬ Reserved i := by
      unfold Reserved
      omega
    simp [hflag, hused]
  · by_cases hfield : 10 ≤ i ∧ i < 54
    · have hused : ¬ Reserved i := by
        unfold Reserved
        omega
      have hbit : i - 10 < 44 := by omega
      have hplace : 10 + (i - 10) = i := by omega
      simp [hflag, hfield, hused, hbit, hplace]
    · have hreserved : Reserved i := by
        unfold Reserved
        omega
      simp [hflag, hfield, hreserved]

theorem rebuilt_of_clear (h : ReservedClear pte) :
    makePte (extractPpn pte) (extractFlags pte) = pte := by
  apply BitVec.eq_of_getLsbD_eq
  intro i _
  rw [getLsbD_rebuilt]
  by_cases hi : Reserved i
  · rw [h i hi, Bool.false_and]
  · rw [decide_eq_false hi, Bool.not_false, Bool.and_true]

/-- The page number comes back modulo 2^44, whatever the flags are. -/
theorem extractPpn_makePte (ppn flags : BitVec 64) :
    extractPpn (makePte ppn flags) = ppn &&& ppnMask := by
  apply BitVec.eq_of_getLsbD_eq
  intro i _
  rw [getLsbD_extractPpn, getLsbD_makePte, BitVec.getLsbD_and, getLsbD_ppnMask]
  by_cases hbit : i < 44
  · have hflag : ¬ 10 + i < 8 := by omega
    have hfield : 10 + i < 54 := by omega
    simp [hbit, hflag, hfield]
  · simp [hbit]

/-- The flags come back modulo 2^8, whatever the page number is. -/
theorem extractFlags_makePte (ppn flags : BitVec 64) :
    extractFlags (makePte ppn flags) = flags &&& 0xFF#64 := by
  apply BitVec.eq_of_getLsbD_eq
  intro i _
  rw [getLsbD_extractFlags, getLsbD_makePte, BitVec.getLsbD_and, getLsbD_flagsMask]
  by_cases hflag : i < 8 <;> simp [hflag]

/-- Where the top bits are clear, the shift alone reads the page number. -/
theorem ushiftRight_eq_extractPpn (h : ReservedClear pte) : pte >>> ppnShift = extractPpn pte := by
  apply BitVec.eq_of_getLsbD_eq
  intro i _
  rw [getLsbD_extractPpn, BitVec.getLsbD_ushiftRight]
  by_cases hbit : i < 44
  · simp [hbit, ppnShift]
  · have hzero := h (10 + i) (Or.inr (Or.inr (by omega)))
    simp [hbit, ppnShift, hzero]

theorem toNat_and_ppnMask (ppn : BitVec 64) : (ppn &&& ppnMask).toNat = ppn.toNat % 2 ^ 44 :=
  toNat_and_of_mask ppn ppnMask 44 (toNat_shiftLeft_sub_one 44 (by decide))

theorem toNat_and_flagsMask (flags : BitVec 64) :
    (flags &&& 0xFF#64).toNat = flags.toNat % 2 ^ 8 :=
  toNat_and_of_mask flags 0xFF#64 8 rfl

/-- A test of low bits sees the flags only. -/
theorem makePte_and_low (ppn flags : BitVec 64) {m : BitVec 64} (hm : m.toNat < 2 ^ 8) :
    makePte ppn flags &&& m = flags &&& m := by
  apply BitVec.eq_of_getLsbD_eq
  intro i _
  rw [BitVec.getLsbD_and, BitVec.getLsbD_and, getLsbD_makePte]
  by_cases hflag : i < 8
  · rw [if_pos hflag]
  · have hclear : m.getLsbD i = false :=
      Nat.testBit_lt_two_pow (Nat.lt_of_lt_of_le hm (Nat.pow_le_pow_right (by omega) (by omega)))
    rw [hclear, Bool.and_false, Bool.and_false]

theorem isValid_makePte (ppn flags : BitVec 64) : isValid (makePte ppn flags) = isValid flags := by
  rw [isValid, makePte_and_low ppn flags (by decide), isValid]

theorem checkPermission_makePte (ppn flags : BitVec 64) (read write execute : Bool) :
    checkPermission (makePte ppn flags) read write execute =
      checkPermission flags read write execute := by
  unfold checkPermission
  rw [isValid_makePte, makePte_and_low ppn flags (m := pteR) (by decide),
    makePte_and_low ppn flags (m := pteW) (by decide),
    makePte_and_low ppn flags (m := pteX) (by decide)]

/-- Encoding and decoding for all words: the fields come back truncated, the reserved bits
are zero, decoding and encoding again clears them and nothing else, no bit of one field
reaches the other, and the permissions of an entry are those of its flags. -/
theorem pte_fields_independent :
    (∀ ppn flags : BitVec 64,
      (extractPpn (makePte ppn flags)).toNat = ppn.toNat % 2 ^ 44 ∧
      (extractFlags (makePte ppn flags)).toNat = flags.toNat % 2 ^ 8 ∧
      ReservedClear (makePte ppn flags) ∧
      (∀ i < 8, (makePte ppn flags).getLsbD i = flags.getLsbD i) ∧
      (∀ i < 44, (makePte ppn flags).getLsbD (10 + i) = ppn.getLsbD i) ∧
      ∀ read write execute, checkPermission (makePte ppn flags) read write execute =
        checkPermission flags read write execute) ∧
    (∀ (pte : BitVec 64) (i : ℕ), (makePte (extractPpn pte) (extractFlags pte)).getLsbD i =
      (pte.getLsbD i && !decide (Reserved i))) ∧
    (∀ pte : BitVec 64, ReservedClear pte ↔ makePte (extractPpn pte) (extractFlags pte) = pte) ∧
    ∀ ppn flags : BitVec 64, ppn.toNat < 2 ^ 44 → flags.toNat < 2 ^ 8 →
      extractPpn (makePte ppn flags) = ppn ∧ extractFlags (makePte ppn flags) = flags := by
  refine ⟨?_, getLsbD_rebuilt, ?_, ?_⟩
  · intro ppn flags
    refine ⟨?_, ?_, reservedClear_makePte ppn flags, ?_, ?_, checkPermission_makePte ppn flags⟩
    · rw [extractPpn_makePte, toNat_and_ppnMask]
    · rw [extractFlags_makePte, toNat_and_flagsMask]
    · intro i hi
      rw [getLsbD_makePte, if_pos hi]
    · intro i hi
      have hflag : ¬ 10 + i < 8 := by omega
      have hfield : 10 ≤ 10 + i ∧ 10 + i < 54 := by omega
      rw [getLsbD_makePte, if_neg hflag, decide_eq_true hfield, Bool.true_and,
        Nat.add_sub_cancel_left]
  · intro pte
    refine ⟨rebuilt_of_clear, fun heq => ?_⟩
    have hclear := reservedClear_makePte (extractPpn pte) (extractFlags pte)
    rw [heq] at hclear
    exact hclear
  · intro ppn flags hppn hflags
    rw [extractPpn_makePte, extractFlags_makePte]
    constructor
    · apply BitVec.eq_of_toNat_eq
      rw [toNat_and_ppnMask, Nat.mod_eq_of_lt hppn]
    · apply BitVec.eq_of_toNat_eq
      rw [toNat_and_flagsMask, Nat.mod_eq_of_lt hflags]

end OsCamp.PteFlags
