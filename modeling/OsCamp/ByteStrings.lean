import OsCamp.ByteMemory
import Mathlib.Data.Int.Notation

/-!
NUL-terminated byte strings in memory, their lexicographic order by unsigned bytes,
and the byte difference that decides it: the difference at the first position where
two strings differ, the end of a string counting as a zero byte.
-/

set_option autoImplicit false

namespace OsCamp.ByteStrings

open ByteMemory

/-- The bytes at `s` up to the first NUL are those of the list. -/
def IsString (m : Memory) : ℕ → List (BitVec 8) → Prop
  | s, [] => m s = 0
  | s, b :: rest => m s = b ∧ b ≠ 0 ∧ IsString m (s + 1) rest

def NulFree (l : List (BitVec 8)) : Prop := ∀ b ∈ l, b ≠ 0

/-- The lexicographic order; a proper prefix comes first. -/
abbrev Precedes (l l' : List (BitVec 8)) : Prop :=
  List.Lex (fun a b : BitVec 8 => a.toNat < b.toNat) l l'

/-- How many leading bytes the two strings share. -/
def shared : List (BitVec 8) → List (BitVec 8) → ℕ
  | [], _ => 0
  | _ :: _, [] => 0
  | a :: l, b :: l' => if a = b then shared l l' + 1 else 0

def difference : List (BitVec 8) → List (BitVec 8) → ℤ
  | [], [] => 0
  | [], b :: _ => -(b.toNat : ℤ)
  | a :: _, [] => a.toNat
  | a :: l, b :: l' => if a = b then difference l l' else (a.toNat : ℤ) - b.toNat

variable {m : Memory} {s : ℕ} {l l' l'' : List (BitVec 8)}

theorem toNat_pos_of_ne_zero {b : BitVec 8} (h : b ≠ 0) : 0 < b.toNat := by
  have hne : b.toNat ≠ 0 := fun hzero => h (BitVec.eq_of_toNat_eq hzero)
  omega

theorem toNat_ne_of_ne {a b : BitVec 8} (h : a ≠ b) : a.toNat ≠ b.toNat :=
  fun heq => h (BitVec.eq_of_toNat_eq heq)

theorem NulFree.tail {b : BitVec 8} (h : NulFree (b :: l)) : NulFree l :=
  fun c hc => h c (List.mem_cons_of_mem _ hc)

theorem shared_cons_self (a : BitVec 8) (l l' : List (BitVec 8)) :
    shared (a :: l) (a :: l') = shared l l' + 1 :=
  if_pos rfl

theorem shared_cons_of_ne {a b : BitVec 8} (h : a ≠ b) (l l' : List (BitVec 8)) :
    shared (a :: l) (b :: l') = 0 :=
  if_neg h

theorem difference_cons_self (a : BitVec 8) (l l' : List (BitVec 8)) :
    difference (a :: l) (a :: l') = difference l l' :=
  if_pos rfl

theorem difference_cons_of_ne {a b : BitVec 8} (h : a ≠ b) (l l' : List (BitVec 8)) :
    difference (a :: l) (b :: l') = (a.toNat : ℤ) - b.toNat :=
  if_neg h

namespace IsString

theorem nulFree (h : IsString m s l) : NulFree l := by
  induction l generalizing s with
  | nil => exact fun b hb => absurd hb List.not_mem_nil
  | cons a rest ih =>
    obtain ⟨_, hne, hrest⟩ := h
    intro b hb
    rcases List.mem_cons.mp hb with rfl | hb
    · exact hne
    · exact ih hrest b hb

theorem byte (h : IsString m s l) {i : ℕ} (hi : i < l.length) : m (s + i) = l[i] := by
  induction l generalizing s i with
  | nil => exact absurd hi (Nat.not_lt_zero i)
  | cons a rest ih =>
    obtain ⟨hhead, _, hrest⟩ := h
    cases i with
    | zero => exact hhead
    | succ i =>
      have hnext := ih hrest (Nat.lt_of_succ_lt_succ hi)
      have haddr : s + 1 + i = s + (i + 1) := by omega
      rw [haddr] at hnext
      exact hnext

end IsString

/-- Where the first bytes differ or are both NUL, they decide the difference. -/
theorem IsString.stop {s' : ℕ} (h : IsString m s l) (h' : IsString m s' l')
    (hstop : m s ≠ m s' ∨ m s = 0) :
    shared l l' = 0 ∧ difference l l' = (m s).toNat - (m s').toNat := by
  cases l with
  | nil =>
    have hend : m s = 0 := h
    rw [hend]
    cases l' with
    | nil =>
      have hend' : m s' = 0 := h'
      rw [hend']
      exact ⟨rfl, rfl⟩
    | cons b rest' =>
      rw [h'.1]
      exact ⟨rfl, (zero_sub _).symm⟩
  | cons a rest =>
    obtain ⟨hbyte, hne, _⟩ := h
    rw [hbyte] at hstop ⊢
    cases l' with
    | nil =>
      have hend' : m s' = 0 := h'
      rw [hend']
      exact ⟨rfl, (sub_zero _).symm⟩
    | cons b rest' =>
      rw [h'.1] at hstop ⊢
      have hdiff : a ≠ b := hstop.resolve_right hne
      exact ⟨shared_cons_of_ne hdiff _ _, difference_cons_of_ne hdiff _ _⟩

/-- Where the first bytes agree and are not NUL, both strings start with that byte. -/
theorem IsString.agree {s' : ℕ} (h : IsString m s l) (h' : IsString m s' l')
    (hcont : ¬ (m s ≠ m s' ∨ m s = 0)) :
    ∃ b rest rest', l = b :: rest ∧ l' = b :: rest' ∧ IsString m (s + 1) rest ∧
      IsString m (s' + 1) rest' := by
  obtain ⟨hsame, hne⟩ := not_or.mp hcont
  have heq : m s = m s' := of_not_not hsame
  cases l with
  | nil => exact absurd h hne
  | cons a rest =>
    cases l' with
    | nil => exact absurd (heq.trans h') hne
    | cons b rest' =>
      have hab : a = b := h.1.symm.trans (heq.trans h'.1)
      subst hab
      exact ⟨a, rest, rest', rfl, rfl, h.2.2, h'.2.2⟩

theorem shared_le_left (l l' : List (BitVec 8)) : shared l l' ≤ l.length := by
  induction l generalizing l' with
  | nil => exact Nat.zero_le _
  | cons a l ih =>
    cases l' with
    | nil => exact Nat.zero_le _
    | cons b l' =>
      have hrest := ih l'
      rw [shared, List.length_cons]
      split <;> omega

theorem shared_comm (l l' : List (BitVec 8)) : shared l l' = shared l' l := by
  induction l generalizing l' with
  | nil => cases l' <;> rfl
  | cons a l ih =>
    cases l' with
    | nil => rfl
    | cons b l' =>
      by_cases heq : a = b
      · subst heq
        rw [shared_cons_self, shared_cons_self, ih l']
      · rw [shared_cons_of_ne heq, shared_cons_of_ne (Ne.symm heq)]

theorem shared_le_right (l l' : List (BitVec 8)) : shared l l' ≤ l'.length := by
  have h := shared_le_left l' l
  rw [shared_comm] at h
  exact h

/-- Exchanging the strings changes the sign. -/
theorem difference_swap (l l' : List (BitVec 8)) : difference l' l = -difference l l' := by
  induction l generalizing l' with
  | nil =>
    cases l' with
    | nil => rfl
    | cons b l' => simp only [difference, neg_neg]
  | cons a l ih =>
    cases l' with
    | nil => rfl
    | cons b l' =>
      by_cases heq : a = b
      · subst heq
        rw [difference_cons_self, difference_cons_self]
        exact ih l'
      · rw [difference_cons_of_ne heq, difference_cons_of_ne (Ne.symm heq)]
        omega

theorem difference_eq_zero_iff (hl : NulFree l) (hl' : NulFree l') :
    difference l l' = 0 ↔ l = l' := by
  induction l generalizing l' with
  | nil =>
    cases l' with
    | nil => exact iff_of_true rfl rfl
    | cons b l' =>
      have hpos := toNat_pos_of_ne_zero (hl' b (List.mem_cons_self ..))
      refine iff_of_false ?_ (List.cons_ne_nil b l').symm
      simp only [difference]
      omega
  | cons a l ih =>
    cases l' with
    | nil =>
      have hpos := toNat_pos_of_ne_zero (hl a (List.mem_cons_self ..))
      refine iff_of_false ?_ (List.cons_ne_nil a l)
      simp only [difference]
      omega
    | cons b l' =>
      by_cases heq : a = b
      · subst heq
        rw [difference_cons_self, ih hl.tail hl'.tail]
        simp only [List.cons.injEq, true_and]
      · have hne := toNat_ne_of_ne heq
        refine iff_of_false ?_ (fun h => heq (List.cons.inj h).1)
        rw [difference_cons_of_ne heq]
        omega

theorem difference_neg_iff (hl' : NulFree l') : difference l l' < 0 ↔ Precedes l l' := by
  induction l generalizing l' with
  | nil =>
    cases l' with
    | nil => exact iff_of_false (lt_irrefl 0) (fun h => by cases h)
    | cons b l' =>
      have hpos := toNat_pos_of_ne_zero (hl' b (List.mem_cons_self ..))
      refine iff_of_true ?_ List.Lex.nil
      simp only [difference]
      omega
  | cons a l ih =>
    cases l' with
    | nil =>
      refine iff_of_false ?_ (fun h => by cases h)
      simp only [difference]
      omega
    | cons b l' =>
      by_cases heq : a = b
      · subst heq
        have hsame : ¬ a.toNat < a.toNat := lt_irrefl _
        rw [difference_cons_self, ih hl'.tail]
        simp only [Precedes, List.cons_lex_cons_iff, hsame, false_or, true_and]
      · rw [difference_cons_of_ne heq]
        simp only [Precedes, List.cons_lex_cons_iff, heq, false_and, or_false]
        omega

theorem Precedes.trans (h : Precedes l l') (h' : Precedes l' l'') : Precedes l l'' :=
  List.lex_trans (fun hab hbc => Nat.lt_trans hab hbc) h h'

end OsCamp.ByteStrings
