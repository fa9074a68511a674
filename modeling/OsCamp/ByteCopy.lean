import OsCamp.ByteMemory
import Mathlib.Logic.Function.Basic

/-!
Copying a range byte by byte. While a copy is under way exactly the destination
bytes of one index interval hold the original source bytes, and no other address
has changed. The interval may grow at either end, as long as the source byte read
next does not lie among the destination bytes already written.
-/

set_option autoImplicit false

namespace OsCamp.ByteCopy

open ByteMemory

/-- Copy the single byte with index `i`. -/
def copyByte (m : Memory) (dst src i : ℕ) : Memory :=
  Function.update m (dst + i) (m (src + i))

/-- Against the memory `m₀` before the copy, `m` has the indices [lo, hi) copied. -/
structure Copied (m₀ m : Memory) (dst src lo hi : ℕ) : Prop where
  bytes : ∀ i, lo ≤ i → i < hi → m (dst + i) = m₀ (src + i)
  frame : ∀ x, (x < dst + lo ∨ dst + hi ≤ x) → m x = m₀ x

variable {m₀ m : Memory} {dst src lo hi : ℕ}

theorem copyByte_self (m : Memory) (dst src i : ℕ) :
    copyByte m dst src i (dst + i) = m (src + i) :=
  Function.update_self ..

theorem copyByte_of_ne (m : Memory) {dst src i x : ℕ} (h : x ≠ dst + i) :
    copyByte m dst src i x = m x :=
  Function.update_of_ne h _ _

namespace Copied

theorem refl (m₀ : Memory) (dst src i : ℕ) : Copied m₀ m₀ dst src i i where
  bytes j hlo hhi := by omega
  frame _ _ := rfl

/-- Growing upwards is safe where no destination byte so far lies at `src + hi`. -/
theorem up (h : Copied m₀ m dst src lo hi) (hle : lo ≤ hi)
    (hunread : src + hi < dst + lo ∨ dst + hi ≤ src + hi) :
    Copied m₀ (copyByte m dst src hi) dst src lo (hi + 1) where
  bytes i hlo hhi := by
    have hsource := h.frame (src + hi) hunread
    by_cases hi' : i = hi
    · subst hi'
      rw [copyByte_self, hsource]
    · have hne : dst + i ≠ dst + hi := by omega
      rw [copyByte_of_ne m hne]
      exact h.bytes i hlo (by omega)
  frame x hx := by
    have hne : x ≠ dst + hi := by omega
    rw [copyByte_of_ne m hne]
    exact h.frame x (by omega)

/-- Growing downwards is safe where no destination byte so far lies at `src + lo`. -/
theorem down (h : Copied m₀ m dst src (lo + 1) hi) (hle : lo < hi)
    (hunread : src + lo < dst + (lo + 1) ∨ dst + hi ≤ src + lo) :
    Copied m₀ (copyByte m dst src lo) dst src lo hi where
  bytes i hlo hhi := by
    have hsource := h.frame (src + lo) hunread
    by_cases hi' : i = lo
    · subst hi'
      rw [copyByte_self, hsource]
    · have hne : dst + i ≠ dst + lo := by omega
      rw [copyByte_of_ne m hne]
      exact h.bytes i (by omega) hhi
  frame x hx := by
    have hne : x ≠ dst + lo := by omega
    rw [copyByte_of_ne m hne]
    exact h.frame x (by omega)

end Copied

end OsCamp.ByteCopy
