import OsCamp.FdMap
import Mathlib.Order.Bounds.Basic

/-!
How long the descriptor table gets. A new slot is appended only where every slot is in
use, so the table is as long as the largest number of descriptors open at one time.
-/

set_option autoImplicit false

namespace OsCamp.FdLength

open FileDescriptors FdMap

variable {File : Type*}

/-- The table after the calls on a new one. -/
def after (calls : List (Call File)) : FdTable File := (serveAll serve FdTable.new calls).1

theorem serveAll_concat (t : FdTable File) (calls : List (Call File)) (call : Call File) :
    (serveAll serve t (calls ++ [call])).1 = (serve (serveAll serve t calls).1 call).1 := by
  induction calls generalizing t with
  | nil => rfl
  | cons first rest ih => exact ih (serve t first).1

theorem count_le_length (t : FdTable File) : t.count ≤ t.files.length := by
  rw [FdTable.count_eq]
  exact List.countP_le_length

/-- The slots before the first empty one are all counted. -/
theorem first_empty_le_count {t : FdTable File} {fd : ℕ}
    (hfind : t.files.findIdx? Option.isNone = some fd) : fd ≤ t.count := by
  obtain ⟨hlt, -, hbefore⟩ := List.findIdx?_eq_some_iff_getElem.mp hfind
  have hfull : (t.files.take fd).countP Option.isSome = (t.files.take fd).length := by
    apply List.countP_eq_length.mpr
    intro slot hslot
    obtain ⟨i, hi, rfl⟩ := List.mem_take_iff_getElem.mp hslot
    exact Option.isSome_iff_ne_none.mpr fun hnone =>
      hbefore i (by omega) (Option.isNone_iff_eq_none.mpr hnone)
  have hpart : (t.files.take fd).countP Option.isSome ≤ t.count := by
    rw [FdTable.count_eq]
    exact (List.take_sublist fd t.files).countP_le
  rw [hfull, List.length_take] at hpart
  omega

theorem count_eq_length_of_full {t : FdTable File}
    (hfind : t.files.findIdx? Option.isNone = none) : t.count = t.files.length := by
  rw [FdTable.count_eq]
  apply List.countP_eq_length.mpr
  intro slot hslot
  have hsome := List.findIdx?_eq_none_iff.mp hfind slot hslot
  exact Option.isSome_iff_ne_none.mpr fun hnone => by
    rw [hnone] at hsome
    cases hsome

/-- The table grows by an `alloc` only, and then the new length is the number of open
descriptors; a new descriptor is at most the number of those open before. -/
theorem alloc_length (t : FdTable File) (file : File) :
    (t.alloc file).1.files.length = max t.files.length (t.alloc file).1.count ∧
      (t.alloc file).2 ≤ t.count := by
  have hcount := (t.alloc_allocates file).count_eq
  have hle := count_le_length (t.alloc file).1
  cases hfind : t.files.findIdx? Option.isNone with
  | some fd =>
    have hfirst := first_empty_le_count hfind
    have hlength : (t.alloc file).1.files.length = t.files.length := by
      simp only [FdTable.alloc, hfind, List.length_set]
    have hfd : (t.alloc file).2 = fd := by
      simp only [FdTable.alloc, hfind]
    rw [hfd]
    constructor <;> omega
  | none =>
    have hfull := count_eq_length_of_full hfind
    have hlength : (t.alloc file).1.files.length = t.files.length + 1 := by
      simp only [FdTable.alloc, hfind, List.length_append, List.length_singleton]
    have hfd : (t.alloc file).2 = t.files.length := by
      simp only [FdTable.alloc, hfind]
    rw [hfd]
    constructor <;> omega

theorem close_length (t : FdTable File) (fd : ℕ) :
    (t.close fd).1.files.length = t.files.length := by
  unfold FdTable.close
  split
  · exact List.length_set
  · rfl

theorem serve_length (t : FdTable File) (call : Call File) :
    (serve t call).1.files.length = max t.files.length (serve t call).1.count := by
  cases call with
  | alloc file => exact (alloc_length t file).1
  | close fd =>
    have hlength := close_length t fd
    have hle := count_le_length (t.close fd).1
    show (t.close fd).1.files.length = max t.files.length (t.close fd).1.count
    omega
  | get fd => exact (Nat.max_eq_left (count_le_length t)).symm
  | count => exact (Nat.max_eq_left (count_le_length t)).symm

/-- After any calls the table is as long as the most descriptors that were open at one
time, and the next descriptor given out is at most the number of those open. -/
theorem length_eq_max_open (calls : List (Call File)) :
    IsGreatest {n | ∃ before, before <+: calls ∧ n = (after before).count}
        (after calls).files.length ∧
      ∀ file, ((after calls).alloc file).2 ≤ (after calls).count := by
  refine ⟨?_, fun file => (alloc_length _ file).2⟩
  induction calls using List.reverseRecOn with
  | nil =>
    refine ⟨⟨[], List.prefix_rfl, rfl⟩, ?_⟩
    rintro n ⟨before, hbefore, rfl⟩
    rw [List.prefix_nil.mp hbefore]
    exact Nat.le_refl 0
  | append_singleton calls call ih =>
    have hset : {n | ∃ before, before <+: calls ++ [call] ∧ n = (after before).count} =
        insert (after (calls ++ [call])).count
          {n | ∃ before, before <+: calls ∧ n = (after before).count} := by
      ext n
      constructor
      · rintro ⟨before, hbefore, rfl⟩
        rcases List.prefix_concat_iff.mp hbefore with rfl | hearlier
        · exact Or.inl rfl
        · exact Or.inr ⟨before, hearlier, rfl⟩
      · rintro (rfl | ⟨before, hearlier, rfl⟩)
        · exact ⟨_, List.prefix_rfl, rfl⟩
        · exact ⟨before, hearlier.trans (List.prefix_append _ _), rfl⟩
    have hlength : (after (calls ++ [call])).files.length =
        max (after (calls ++ [call])).count (after calls).files.length := by
      have hserve := serve_length (after calls) call
      unfold after at hserve ⊢
      rw [serveAll_concat, hserve, Nat.max_comm]
    rw [hset, hlength]
    exact ih.insert _

/-- The closed descriptor is given out again, and no third slot is needed. -/
example : (after [.alloc 10, .alloc 11, .close 0, .alloc 12]).files = [some 12, some 11] := by
  decide

end OsCamp.FdLength
