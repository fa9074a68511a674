import OsCamp.ByteStrings

/-!
`my_strlen` and `my_strcmp`. A loop is given a bound on its rounds and returns
nothing when the bound is used up; a comparison also lists the addresses it has
read, in order. On strings both loops finish, and a comparison is the byte
difference of the two strings. The difference of two bytes fits in `i32`.
-/

set_option autoImplicit false

namespace OsCamp.StringCompare

open ByteMemory ByteStrings

/-- `while *s.add(len) != 0 { len += 1 }`. -/
def strlenFrom (m : Memory) (s : ℕ) : ℕ → ℕ → Option ℕ
  | 0, _ => none
  | rounds + 1, len => if m (s + len) ≠ 0 then strlenFrom m s rounds (len + 1) else some len

def my_strlen (m : Memory) (s rounds : ℕ) : Option ℕ := strlenFrom m s rounds 0

/-- The loop of `my_strcmp` from index `i` on. -/
def strcmpFrom (m : Memory) (s1 s2 : ℕ) : ℕ → ℕ → Option (ℤ × List ℕ)
  | 0, _ => none
  | rounds + 1, i =>
    let b1 := m (s1 + i)
    let b2 := m (s2 + i)
    if b1 ≠ b2 ∨ b1 = 0 then some ((b1.toNat : ℤ) - b2.toNat, [s1 + i, s2 + i])
    else (strcmpFrom m s1 s2 rounds (i + 1)).map fun (result, reads) =>
      (result, (s1 + i) :: (s2 + i) :: reads)

def my_strcmp (m : Memory) (s1 s2 rounds : ℕ) : Option (ℤ × List ℕ) :=
  strcmpFrom m s1 s2 rounds 0

/-- `my_strlen(s)` returns `len`. -/
def StrlenReturns (m : Memory) (s len : ℕ) : Prop := ∃ rounds, my_strlen m s rounds = some len

/-- `my_strcmp(s1, s2)` returns `result`. -/
def StrcmpReturns (m : Memory) (s1 s2 : ℕ) (result : ℤ) : Prop :=
  ∃ rounds reads, my_strcmp m s1 s2 rounds = some (result, reads)

/-- The addresses of `count` rounds, the first of them at index `i`. -/
def roundReads (s1 s2 i count : ℕ) : List ℕ :=
  (List.range' i count).flatMap fun j => [s1 + j, s2 + j]

variable {m : Memory} {s s1 s2 i rounds : ℕ} {l l1 l2 : List (BitVec 8)} {r : ℤ}

theorem strlenFrom_eq (h : IsString m (s + i) l) (rounds : ℕ) :
    strlenFrom m s rounds i = if l.length < rounds then some (i + l.length) else none := by
  induction rounds generalizing l i with
  | zero => rfl
  | succ rounds ih =>
    cases l with
    | nil =>
      have hend : ¬ m (s + i) ≠ 0 := fun hne => hne h
      have hlt : ([] : List (BitVec 8)).length < rounds + 1 := Nat.zero_lt_succ rounds
      rw [strlenFrom, if_neg hend, if_pos hlt]
      rfl
    | cons b rest =>
      obtain ⟨hbyte, hne, hrest⟩ := h
      have hcont : m (s + i) ≠ 0 := hbyte ▸ hne
      rw [strlenFrom, if_pos hcont, ih hrest]
      simp only [List.length_cons, Nat.add_lt_add_iff_right, Nat.add_assoc, Nat.add_comm 1]

theorem strlenReturns_iff (h : IsString m s l) {len : ℕ} :
    StrlenReturns m s len ↔ len = l.length := by
  have heq := fun rounds => strlenFrom_eq (i := 0) h rounds
  constructor
  · rintro ⟨rounds, hrun⟩
    have hrun' : strlenFrom m s rounds 0 = some len := hrun
    rw [heq] at hrun'
    split at hrun'
    · rw [Nat.zero_add] at hrun'
      exact (Option.some.inj hrun').symm
    · cases hrun'
  · intro hlen
    refine ⟨l.length + 1, (heq _).trans ?_⟩
    rw [if_pos (Nat.lt_succ_self _), Nat.zero_add, hlen]

/-- A comparison stops after the round at the first difference or at the common end. -/
theorem strcmpFrom_eq (h1 : IsString m (s1 + i) l1) (h2 : IsString m (s2 + i) l2)
    (rounds : ℕ) :
    strcmpFrom m s1 s2 rounds i =
      if shared l1 l2 < rounds
      then some (difference l1 l2, roundReads s1 s2 i (shared l1 l2 + 1)) else none := by
  induction rounds generalizing l1 l2 i with
  | zero => rfl
  | succ rounds ih =>
    rw [strcmpFrom]
    by_cases hstop : m (s1 + i) ≠ m (s2 + i) ∨ m (s1 + i) = 0
    · obtain ⟨hshared, hdiff⟩ := h1.stop h2 hstop
      rw [if_pos hstop, hshared, hdiff, if_pos (Nat.zero_lt_succ rounds)]
      rfl
    · obtain ⟨b, rest1, rest2, rfl, rfl, hrest1, hrest2⟩ := h1.agree h2 hstop
      rw [if_neg hstop, ih hrest1 hrest2, shared_cons_self, difference_cons_self]
      by_cases hlt : shared rest1 rest2 < rounds
      · rw [if_pos hlt, if_pos (Nat.succ_lt_succ hlt)]
        rfl
      · rw [if_neg hlt, if_neg (fun h => hlt (Nat.lt_of_succ_lt_succ h))]
        rfl

theorem my_strcmp_of_lt (h1 : IsString m s1 l1) (h2 : IsString m s2 l2)
    (hrounds : shared l1 l2 < rounds) :
    my_strcmp m s1 s2 rounds =
      some (difference l1 l2, roundReads s1 s2 0 (shared l1 l2 + 1)) := by
  have heq := strcmpFrom_eq (i := 0) h1 h2 rounds
  rw [if_pos hrounds] at heq
  exact heq

theorem StrcmpReturns.eq (h : StrcmpReturns m s1 s2 r) (h1 : IsString m s1 l1)
    (h2 : IsString m s2 l2) : r = difference l1 l2 := by
  obtain ⟨rounds, reads, hrun⟩ := h
  have heq : strcmpFrom m s1 s2 rounds 0 = some (r, reads) := hrun
  rw [strcmpFrom_eq (i := 0) h1 h2] at heq
  split at heq
  · exact (congrArg Prod.fst (Option.some.inj heq)).symm
  · cases heq

theorem difference_le_zero_iff (h1 : IsString m s1 l1) (h2 : IsString m s2 l2) :
    difference l1 l2 ≤ 0 ↔ l1 = l2 ∨ Precedes l1 l2 := by
  rw [← difference_eq_zero_iff h1.nulFree h2.nulFree, ← difference_neg_iff h2.nulFree]
  omega

/-- Equal results of `my_strlen` and equal bytes before the end make equal strings. -/
theorem eq_iff_strlen (h1 : IsString m s1 l1) (h2 : IsString m s2 l2) :
    l1 = l2 ↔ ∃ len, StrlenReturns m s1 len ∧ StrlenReturns m s2 len ∧
      ∀ i < len, m (s1 + i) = m (s2 + i) := by
  simp only [strlenReturns_iff h1, strlenReturns_iff h2]
  constructor
  · intro heq
    subst heq
    exact ⟨l1.length, rfl, rfl, fun i hi => (h1.byte hi).trans (h2.byte hi).symm⟩
  · rintro ⟨len, hlen1, hlen2, hbytes⟩
    apply List.ext_getElem (hlen1.symm.trans hlen2)
    intro i hi1 hi2
    rw [← h1.byte hi1, ← h2.byte hi2]
    exact hbytes i (hlen1 ▸ hi1)

/-- On strings `my_strcmp` finishes, reads nothing behind a terminator, and its sign is
the lexicographic order of the unsigned bytes. -/
theorem my_strcmp_lexicographic (h1 : IsString m s1 l1) (h2 : IsString m s2 l2) :
    (∃ (r : ℤ) (last : ℕ), last ≤ l1.length ∧ last ≤ l2.length ∧
      (∀ rounds, last < rounds →
        my_strcmp m s1 s2 rounds = some (r, roundReads s1 s2 0 (last + 1))) ∧
      (r = 0 ↔ l1 = l2) ∧ (r < 0 ↔ Precedes l1 l2) ∧ (0 < r ↔ Precedes l2 l1) ∧
      (r = 0 ↔ ∃ len, StrlenReturns m s1 len ∧ StrlenReturns m s2 len ∧
        ∀ i < len, m (s1 + i) = m (s2 + i))) ∧
    (∀ r r', StrcmpReturns m s1 s2 r → StrcmpReturns m s2 s1 r' → r'.sign = -r.sign) ∧
    (∀ s3 l3, IsString m s3 l3 → ∀ r r' r'', StrcmpReturns m s1 s2 r →
      StrcmpReturns m s2 s3 r' → StrcmpReturns m s1 s3 r'' →
      (r ≤ 0 → r' ≤ 0 → r'' ≤ 0) ∧ (r ≤ 0 → r' < 0 → r'' < 0) ∧ (r < 0 → r' ≤ 0 → r'' < 0)) := by
  have hzero := difference_eq_zero_iff h1.nulFree h2.nulFree
  have hpos : 0 < difference l1 l2 ↔ Precedes l2 l1 := by
    rw [← difference_neg_iff h1.nulFree, difference_swap l1 l2]
    omega
  refine ⟨⟨difference l1 l2, shared l1 l2, shared_le_left l1 l2, shared_le_right l1 l2, ?_, hzero,
    difference_neg_iff h2.nulFree, hpos, hzero.trans (eq_iff_strlen h1 h2)⟩, ?_, ?_⟩
  · intro rounds hrounds
    exact my_strcmp_of_lt h1 h2 hrounds
  · intro r r' hr hr'
    rw [hr.eq h1 h2, hr'.eq h2 h1, difference_swap l1 l2, Int.sign_neg]
  · intro s3 l3 h3 r r' r'' hr hr' hr''
    rw [hr.eq h1 h2, hr'.eq h2 h3, hr''.eq h1 h3, difference_le_zero_iff h1 h2,
      difference_le_zero_iff h2 h3, difference_le_zero_iff h1 h3,
      difference_neg_iff h2.nulFree, difference_neg_iff h3.nulFree, difference_neg_iff h3.nulFree]
    refine ⟨?_, ?_, ?_⟩
    · rintro (rfl | h12) h23
      · exact h23
      · rcases h23 with rfl | h23
        · exact Or.inr h12
        · exact Or.inr (h12.trans h23)
    · rintro (rfl | h12) h23
      · exact h23
      · exact h12.trans h23
    · rintro h12 (rfl | h23)
      · exact h12
      · exact h12.trans h23

/-- The strings `ab` and `a`, one behind the other. -/
def sample : Memory := fun x => ([97, 98, 0, 97, 0] : List (BitVec 8)).getD x 0

/-- A string comes after its proper prefix, and the comparison ends at the prefix's NUL. -/
theorem my_strcmp_sample :
    ∃ (r : ℤ) (last : ℕ), last ≤ 1 ∧
      (∀ rounds, last < rounds →
        my_strcmp sample 0 3 rounds = some (r, roundReads 0 3 0 (last + 1))) ∧
      0 < r := by
  have h1 : IsString sample 0 [97, 98] := ⟨rfl, by decide, rfl, by decide, rfl⟩
  have h2 : IsString sample 3 [97] := ⟨rfl, by decide, rfl⟩
  obtain ⟨⟨r, last, _, hle, hrun, _, _, hpos, _⟩, _, _⟩ := my_strcmp_lexicographic h1 h2
  have hlex : Precedes [97] [97, 98] := List.Lex.cons List.Lex.nil
  exact ⟨r, last, hle, hrun, hpos.mpr hlex⟩

end OsCamp.StringCompare
