import OsCamp.ByteCopy
import OsCamp.CoreAlloc

/-!
`my_memcpy` and `my_memmove` on a byte memory. A call returns the memory it leaves
and its pointer result. Every pointer that is dereferenced lies in a valid range,
so the address of `ptr.add(i)` is a plain sum; only the comparison in `my_memmove`
does arithmetic on `usize`.
-/

set_option autoImplicit false

namespace OsCamp.MemPrimitives

open ByteMemory ByteCopy CoreAlloc

/-- `for i in 0..n { *dst.add(i) = *src.add(i) }`. -/
def my_memcpy (m : Memory) (dst src n : ℕ) : Memory × ℕ :=
  ((List.range n).foldl (fun m i => copyByte m dst src i) m, dst)

/-- `while i > 0 { i -= 1; *dst.add(i) = *src.add(i) }`. -/
def copyBackward (m : Memory) (dst src : ℕ) : ℕ → Memory
  | 0 => m
  | i + 1 => copyBackward (copyByte m dst src i) dst src i

def my_memmove (profile : Profile) (m : Memory) (dst src n : ℕ) : Option (Memory × ℕ) :=
  if n = 0 ∨ dst = src then some (m, dst)
  else if dst > src then do
    let srcEnd ← profile.add src n
    if dst < srcEnd then return (copyBackward m dst src n, dst)
    else return ((my_memcpy m dst src n).1, dst)
  else some ((my_memcpy m dst src n).1, dst)

variable {m : Memory} {dst src n : ℕ}

/-- The forward loop copies where the destination does not start inside the source. -/
theorem my_memcpy_copied (m : Memory) (hdir : dst ≤ src ∨ src + n ≤ dst) :
    Copied m (my_memcpy m dst src n).1 dst src 0 n := by
  show Copied m ((List.range n).foldl _ m) dst src 0 n
  induction n with
  | zero => exact Copied.refl m dst src 0
  | succ n ih =>
    have hbefore := ih (by omega)
    have hunread : src + n < dst + 0 ∨ dst + n ≤ src + n := by omega
    rw [List.range_succ, List.foldl_append]
    exact hbefore.up (Nat.zero_le n) hunread

/-- The backward loop copies where the destination starts behind the source. -/
theorem copyBackward_copied {m₀ : Memory} {i : ℕ} (h : Copied m₀ m dst src i n)
    (hle : i ≤ n) (hdir : src < dst) : Copied m₀ (copyBackward m dst src i) dst src 0 n := by
  induction i generalizing m with
  | zero => exact h
  | succ i ih =>
    have hunread : src + i < dst + (i + 1) ∨ dst + n ≤ src + i := by omega
    have hnext := h.down (by omega) hunread
    exact ih hnext (by omega)

theorem my_memmove_copied (profile : Profile) (m : Memory) (dst : ℕ) (hsrc : src + n < 2 ^ 64) :
    ∃ m', my_memmove profile m dst src n = some (m', dst) ∧ Copied m m' dst src 0 n := by
  have hadd : profile.add src n = some (src + n) := if_pos hsrc
  unfold my_memmove
  by_cases hnop : n = 0 ∨ dst = src
  · rw [if_pos hnop]
    refine ⟨m, rfl, ?_, fun _ _ => rfl⟩
    intro i _ hi
    rcases hnop with hzero | heq
    · omega
    · rw [heq]
  · rw [if_neg hnop]
    by_cases hgt : dst > src
    · rw [if_pos hgt, hadd]
      show ∃ m', (if dst < src + n then _ else _) = _ ∧ _
      by_cases hover : dst < src + n
      · rw [if_pos hover]
        exact ⟨_, rfl, copyBackward_copied (Copied.refl m dst src n) le_rfl hgt⟩
      · rw [if_neg hover]
        exact ⟨_, rfl, my_memcpy_copied m (by omega)⟩
    · rw [if_neg hgt]
      exact ⟨_, rfl, my_memcpy_copied m (by omega)⟩

/-- `my_memmove` puts the bytes the source held before the call into the destination,
however the two ranges lie, and touches no other byte. -/
theorem my_memmove_correct (profile : Profile) (m : Memory) (dst src n : ℕ)
    (hsrc : src + n < 2 ^ 64) :
    ∃ m', my_memmove profile m dst src n = some (m', dst) ∧
      (∀ i < n, m' (dst + i) = m (src + i)) ∧
      ∀ x, x < dst ∨ dst + n ≤ x → m' x = m x := by
  obtain ⟨m', hcall, hcopied⟩ := my_memmove_copied profile m dst hsrc
  refine ⟨m', hcall, fun i hi => hcopied.bytes i (Nat.zero_le i) hi, fun x hx => ?_⟩
  exact hcopied.frame x (by omega)

/-- The bytes 1, 2, 3, 4 moved up by one address, over three of themselves. -/
theorem my_memmove_shift_right :
    ∃ m', my_memmove .debug (fun x => BitVec.ofNat 8 (x + 1)) 1 0 4 = some (m', 1) ∧
      m' 0 = 1 ∧ m' 1 = 1 ∧ m' 4 = 4 ∧ m' 5 = 6 := by
  obtain ⟨m', hcall, hbytes, hframe⟩ :=
    my_memmove_correct .debug (fun x => BitVec.ofNat 8 (x + 1)) 1 0 4 (by omega)
  exact ⟨m', hcall, hframe 0 (by omega), hbytes 0 (by omega), hbytes 3 (by omega),
    hframe 5 (by omega)⟩

end OsCamp.MemPrimitives
