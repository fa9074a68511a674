import OsCamp.MemPrimitives
import OsCamp.StringCompare

/-!
The five memory primitives together, on NUL-terminated strings. A string that is
moved with its terminator compares as it did before, also where it overlaps its old
place. A fill inside a string cuts it where the byte is NUL, and otherwise joins it
to what follows behind the fill.
-/

set_option autoImplicit false

namespace OsCamp.MemStrings

open ByteCopy ByteMemory ByteStrings CoreAlloc MemPrimitives StringCompare

/-- `for i in 0..n { *dst.add(i) = c }`. -/
def my_memset (m : Memory) (dst : ℕ) (c : BitVec 8) (n : ℕ) : Memory × ℕ :=
  ((List.range n).foldl (fun m i => Function.update m (dst + i) c) m, dst)

variable {m m' : Memory} {s s' dst src n k x : ℕ} {c : BitVec 8} {l l' : List (BitVec 8)}

theorem my_memset_byte (m : Memory) (dst : ℕ) (c : BitVec 8) (n x : ℕ) :
    (my_memset m dst c n).1 x = if dst ≤ x ∧ x < dst + n then c else m x := by
  induction n with
  | zero =>
    rw [if_neg (by omega)]
    rfl
  | succ n ih =>
    have hstep : (my_memset m dst c (n + 1)).1 =
        Function.update (my_memset m dst c n).1 (dst + n) c := by
      unfold my_memset
      rw [List.range_succ, List.foldl_append]
      rfl
    rw [hstep]
    by_cases hx : x = dst + n
    · rw [hx, Function.update_self, if_pos (by omega)]
    · rw [Function.update_of_ne hx, ih]
      by_cases hin : dst ≤ x ∧ x < dst + n
      · rw [if_pos hin, if_pos (by omega)]
      · rw [if_neg hin, if_neg (by omega)]

theorem isString_congr (h : IsString m s l) (hsame : ∀ i ≤ l.length, m' (s' + i) = m (s + i)) :
    IsString m' s' l := by
  induction l generalizing s s' with
  | nil => exact (hsame 0 (Nat.le_refl 0)).trans h
  | cons b rest ih =>
    obtain ⟨hbyte, hne, hrest⟩ := h
    refine ⟨(hsame 0 (Nat.zero_le _)).trans hbyte, hne, ih hrest ?_⟩
    intro i hi
    have hnext := hsame (i + 1) (Nat.succ_le_succ hi)
    rwa [← Nat.add_assoc, ← Nat.add_assoc, Nat.add_right_comm, Nat.add_right_comm s] at hnext

/-- A string in two parts. -/
theorem isString_append : IsString m s (l ++ l') ↔
    NulFree l ∧ (∀ i (hi : i < l.length), m (s + i) = l[i]) ∧ IsString m (s + l.length) l' := by
  induction l generalizing s with
  | nil =>
    refine ⟨fun h => ⟨?_, ?_, h⟩, fun h => h.2.2⟩
    · exact fun b hb => absurd hb List.not_mem_nil
    · exact fun i hi => absurd hi (Nat.not_lt_zero i)
  | cons b rest ih =>
    have haddr : s + 1 + rest.length = s + (b :: rest).length := by
      rw [List.length_cons]
      omega
    constructor
    · intro h
      refine ⟨?_, ?_, ?_⟩
      · have hall := IsString.nulFree (l := b :: rest ++ l') h
        exact fun a ha => hall a (List.mem_append_left _ ha)
      · intro i hi
        have hlt : i < (b :: rest ++ l').length := by
          rw [List.length_append]
          omega
        rw [IsString.byte h hlt, List.getElem_append_left hi]
      · have hrest := (ih.mp h.2.2).2.2
        rwa [haddr] at hrest
    · intro h
      obtain ⟨hfree, hbytes, hrest⟩ := h
      refine ⟨hbytes 0 (Nat.succ_pos _), hfree b List.mem_cons_self, ih.mpr ⟨hfree.tail, ?_, ?_⟩⟩
      · intro i hi
        have hnext := hbytes (i + 1) (Nat.succ_lt_succ hi)
        rwa [← Nat.add_assoc, Nat.add_right_comm] at hnext
      · rwa [haddr]

theorem strcmpReturns_iff (h : IsString m s l) (h' : IsString m s' l') {r : ℤ} :
    StrcmpReturns m s s' r ↔ r = difference l l' := by
  constructor
  · exact fun hreturns => hreturns.eq h h'
  · intro hr
    rw [hr]
    exact ⟨_, _, my_strcmp_of_lt h h' (Nat.lt_succ_self _)⟩

/-- `my_memmove(dst, s, my_strlen(s) + 1)` makes `dst` the string, wherever it overlaps;
a string that does not overlap `dst` stays, and compares with `dst` as with `s` before. -/
theorem move_string (profile : Profile) (h : IsString m s l) (hvalid : s + l.length + 1 < 2 ^ 64)
    (dst : ℕ) :
    ∃ len m', StrlenReturns m s len ∧ my_memmove profile m dst s (len + 1) = some (m', dst) ∧
      IsString m' dst l ∧ StrlenReturns m' dst len ∧
      ∀ s' l', IsString m s' l' → s' + l'.length < dst ∨ dst + len < s' →
        IsString m' s' l' ∧ ∀ r, StrcmpReturns m' dst s' r ↔ StrcmpReturns m s s' r := by
  have hmoved : ∃ m', my_memmove profile m dst s (l.length + 1) = some (m', dst) ∧
      Copied m m' dst s 0 (l.length + 1) := my_memmove_copied profile m dst hvalid
  obtain ⟨m', hmove, hcopied⟩ := hmoved
  have hdst : IsString m' dst l := by
    apply isString_congr h
    intro i hi
    exact hcopied.bytes i (Nat.zero_le i) (Nat.lt_succ_of_le hi)
  refine ⟨l.length, m', (strlenReturns_iff h).mpr rfl, hmove, hdst,
    (strlenReturns_iff hdst).mpr rfl, ?_⟩
  intro s' l' h' hapart
  have hkept : IsString m' s' l' := by
    apply isString_congr h'
    intro i hi
    exact hcopied.frame (s' + i) (by omega)
  refine ⟨hkept, ?_⟩
  intro r
  rw [strcmpReturns_iff hdst hkept, strcmpReturns_iff h h']

/-- `ab` moved up by one address, over its own second byte. -/
theorem move_string_overlapping :
    ∃ m', my_memmove .debug sample 1 0 3 = some (m', 1) ∧ IsString m' 1 [97, 98] ∧
      StrlenReturns m' 1 2 := by
  have h : IsString sample 0 [97, 98] := ⟨rfl, by decide, rfl, by decide, rfl⟩
  obtain ⟨len, m', hlen, hmove, hdst, hreturns, -⟩ := move_string .debug h (by decide) 1
  have htwo : len = 2 := (strlenReturns_iff h).mp hlen
  rw [htwo] at hmove hreturns
  exact ⟨m', hmove, hdst, hreturns⟩

/-- `my_memset(s + k, c, n)` with `k` inside the string: a NUL byte cuts the string there,
and any other byte stands before the string that starts behind the fill. -/
theorem fill_string (h : IsString m s l) (hk : k ≤ l.length) :
    (0 < n → IsString (my_memset m (s + k) 0 n).1 s (l.take k) ∧
      StrlenReturns (my_memset m (s + k) 0 n).1 s k) ∧
    (∀ c l', c ≠ 0 → IsString m (s + k + n) l' →
      IsString (my_memset m (s + k) c n).1 s (l.take k ++ (List.replicate n c ++ l')) ∧
      StrlenReturns (my_memset m (s + k) c n).1 s (k + n + l'.length)) := by
  have hsplit := h
  rw [← List.take_append_drop k l, isString_append] at hsplit
  obtain ⟨hfree, hbytes, -⟩ := hsplit
  have hlength : (l.take k).length = k := List.length_take_of_le hk
  have hbefore : ∀ c, ∀ i (hi : i < (l.take k).length),
      (my_memset m (s + k) c n).1 (s + i) = (l.take k)[i] := by
    intro c i hi
    rw [my_memset_byte, if_neg (by omega)]
    exact hbytes i hi
  constructor
  · intro hn
    have hcut : IsString (my_memset m (s + k) 0 n).1 s (l.take k ++ []) := by
      refine isString_append.mpr ⟨hfree, hbefore 0, ?_⟩
      rw [hlength]
      show (my_memset m (s + k) 0 n).1 (s + k) = 0
      rw [my_memset_byte, if_pos (by omega)]
    rw [List.append_nil] at hcut
    exact ⟨hcut, (strlenReturns_iff hcut).mpr hlength.symm⟩
  · intro c l' hc hl'
    have hjoined : IsString (my_memset m (s + k) c n).1 s
        (l.take k ++ (List.replicate n c ++ l')) := by
      refine isString_append.mpr ⟨hfree, hbefore c, isString_append.mpr ⟨?_, ?_, ?_⟩⟩
      · intro b hb
        rw [List.eq_of_mem_replicate hb]
        exact hc
      · intro i hi
        rw [List.length_replicate] at hi
        rw [hlength, my_memset_byte, if_pos (by omega), List.getElem_replicate]
      · rw [hlength, List.length_replicate]
        apply isString_congr hl'
        intro i _
        rw [my_memset_byte, if_neg (by omega)]
    refine ⟨hjoined, (strlenReturns_iff hjoined).mpr ?_⟩
    rw [List.length_append, List.length_append, hlength, List.length_replicate]
    omega

/-- `ab` with its terminator overwritten runs on into the string behind it. -/
theorem fill_string_terminator :
    IsString (my_memset sample 2 99 1).1 0 [97, 98, 99, 97] ∧
      StrlenReturns (my_memset sample 1 0 1).1 0 1 := by
  have h : IsString sample 0 [97, 98] := ⟨rfl, by decide, rfl, by decide, rfl⟩
  have hbehind : IsString sample 3 [97] := ⟨rfl, by decide, rfl⟩
  have hjoined := (fill_string (k := 2) (n := 1) h (by decide)).2 99 [97] (by decide) hbehind
  have hcut := (fill_string (k := 1) (n := 1) h (by decide)).1 (by decide)
  exact ⟨hjoined.1, hcut.2⟩

end OsCamp.MemStrings
