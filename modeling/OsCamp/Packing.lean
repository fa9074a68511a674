import Mathlib.Data.List.Perm.Basic
import Mathlib.Data.List.Pairwise

/-!
Memory regions packed without overlap into an address interval. The order of
the list does not matter, so regions may move between owners; a region may be
cut at its end, or added above the interval.
-/

set_option autoImplicit false

namespace OsCamp.Packing

structure Region where
  start : ℕ
  size : ℕ
  deriving DecidableEq

namespace Region

def stop (r : Region) : ℕ := r.start + r.size

def Disjoint (r r' : Region) : Prop := r.stop ≤ r'.start ∨ r'.stop ≤ r.start

theorem Disjoint.symm {r r' : Region} (h : Disjoint r r') : Disjoint r' r := Or.symm h

instance : Std.Symm Disjoint := ⟨fun _ _ h => h.symm⟩

end Region

structure Packed (lo hi : ℕ) (l : List Region) : Prop where
  inside : ∀ r ∈ l, lo ≤ r.start ∧ r.stop ≤ hi
  disjoint : l.Pairwise Region.Disjoint

variable {lo hi hi' : ℕ} {l l' : List Region} {r r' : Region}

namespace Packed

theorem nil : Packed lo hi [] := ⟨fun _ h => absurd h (List.not_mem_nil), List.Pairwise.nil⟩

theorem perm (h : Packed lo hi l) (hperm : l.Perm l') : Packed lo hi l' where
  inside := fun r hr => h.inside r (hperm.mem_iff.mpr hr)
  disjoint := (hperm.pairwise_iff Region.Disjoint.symm).mp h.disjoint

theorem disjoint_of_ne (h : Packed lo hi l) (hr : r ∈ l) (hr' : r' ∈ l) (hne : r ≠ r') :
    r.Disjoint r' :=
  h.disjoint.forall hr hr' hne

/-- A region may lose bytes at its end. -/
theorem shrink (h : Packed lo hi (r :: l)) (hstart : r'.start = r.start)
    (hsize : r'.size ≤ r.size) : Packed lo hi (r' :: l) := by
  have hstop : r'.stop ≤ r.stop := by
    unfold Region.stop
    omega
  obtain ⟨hhead, htail⟩ := List.pairwise_cons.mp h.disjoint
  refine { inside := ?_, disjoint := List.pairwise_cons.mpr ⟨?_, htail⟩ }
  · intro x hx
    rcases List.mem_cons.mp hx with heq | hmem
    · have hin := h.inside r List.mem_cons_self
      rw [heq, hstart]
      exact ⟨hin.1, Nat.le_trans hstop hin.2⟩
    · exact h.inside x (List.mem_cons_of_mem _ hmem)
  · intro x hx
    have hd := hhead x hx
    unfold Region.Disjoint at hd ⊢
    omega

/-- A region above the interval may be added when the interval is extended over it. -/
theorem cons_above (h : Packed lo hi l) (hlo : lo ≤ hi) (hstart : hi ≤ r.start)
    (hstop : r.stop = hi') : Packed lo hi' (r :: l) := by
  have hle : r.start ≤ r.stop := Nat.le_add_right _ _
  refine { inside := ?_, disjoint := List.pairwise_cons.mpr ⟨?_, h.disjoint⟩ }
  · intro x hx
    rcases List.mem_cons.mp hx with heq | hmem
    · rw [heq]
      omega
    · have hin := h.inside x hmem
      omega
  · intro x hx
    exact Or.inr (Nat.le_trans (h.inside x hx).2 hstart)

/-- Regions that are not empty have different starts. -/
theorem starts_nodup (h : Packed lo hi l) (hpos : ∀ r ∈ l, 0 < r.size) :
    (l.map Region.start).Nodup := by
  refine List.pairwise_map.mpr (h.disjoint.imp_of_mem ?_)
  intro r r' hr hr' hd heq
  have hsize := hpos r hr
  have hsize' := hpos r' hr'
  unfold Region.Disjoint Region.stop at hd
  omega

end Packed

end OsCamp.Packing
