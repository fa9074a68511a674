import Mathlib.Data.List.Basic
import Mathlib.Logic.Function.Basic

/-!
`FdTable`: the index of a slot is the file descriptor, an empty slot is a descriptor that
is closed or was never given out. A file is an `Arc`, whose clone is the same file; its
type is left open.
-/

set_option autoImplicit false

namespace OsCamp.FileDescriptors

structure FdTable (File : Type*) where
  files : List (Option File)

variable {File : Type*}

namespace FdTable

def new : FdTable File := ⟨[]⟩

/-- The table after the call, and the new descriptor. -/
def alloc (self : FdTable File) (file : File) : FdTable File × ℕ :=
  match self.files.findIdx? Option.isNone with
  | some fd => (⟨self.files.set fd (some file)⟩, fd)
  | none => (⟨self.files ++ [some file]⟩, self.files.length)

def get (self : FdTable File) (fd : ℕ) : Option File := self.files[fd]?.join

def close (self : FdTable File) (fd : ℕ) : FdTable File × Bool :=
  if fd < self.files.length ∧ (self.files[fd]?.join).isSome then
    (⟨self.files.set fd none⟩, true)
  else (self, false)

def count (self : FdTable File) : ℕ := (self.files.filter Option.isSome).length

variable {t : FdTable File} {fd : ℕ} {file : File}

theorem get_of_length_le (h : t.files.length ≤ fd) : t.get fd = none := by
  rw [get, List.getElem?_eq_none_iff.mpr h]
  rfl

theorem get_of_lt (h : fd < t.files.length) : t.get fd = t.files[fd] := by
  rw [get, List.getElem?_eq_getElem h]
  rfl

theorem lt_length_of_get (h : t.get fd ≠ none) : fd < t.files.length := by
  by_contra hge
  exact h (get_of_length_le (Nat.le_of_not_lt hge))

theorem get_set (h : fd < t.files.length) (slot : Option File) :
    (⟨t.files.set fd slot⟩ : FdTable File).get = Function.update t.get fd slot := by
  funext other
  by_cases hfd : other = fd
  · subst hfd
    rw [Function.update_self, get, List.getElem?_set_self h]
    rfl
  · rw [Function.update_of_ne hfd, get, List.getElem?_set_ne (Ne.symm hfd)]
    rfl

theorem get_append (slot : Option File) :
    (⟨t.files ++ [slot]⟩ : FdTable File).get = Function.update t.get t.files.length slot := by
  funext fd
  rcases Nat.lt_trichotomy fd t.files.length with hlt | rfl | hgt
  · rw [Function.update_of_ne (Nat.ne_of_lt hlt), get, List.getElem?_append_left hlt]
    rfl
  · rw [Function.update_self, get, List.getElem?_concat_length]
    rfl
  · have hlen : (t.files ++ [slot]).length ≤ fd := by
      rw [List.length_append, List.length_singleton]
      omega
    rw [Function.update_of_ne (Nat.ne_of_gt hgt), get, List.getElem?_eq_none_iff.mpr hlen,
      get_of_length_le (Nat.le_of_lt hgt)]
    rfl

theorem count_eq (t : FdTable File) : t.count = t.files.countP Option.isSome :=
  (List.countP_eq_length_filter).symm

/-- What one call of `alloc` does. -/
structure Allocates (t : FdTable File) (file : File) (t' : FdTable File) (fd : ℕ) : Prop where
  free : t.get fd = none
  least : ∀ other < fd, t.get other ≠ none
  get_eq : t'.get = Function.update t.get fd (some file)
  count_eq : t'.count = t.count + 1

theorem alloc_allocates (t : FdTable File) (file : File) :
    Allocates t file (t.alloc file).1 (t.alloc file).2 := by
  cases hfind : t.files.findIdx? Option.isNone with
  | some fd =>
    obtain ⟨hlt, hnone, hbefore⟩ := List.findIdx?_eq_some_iff_getElem.mp hfind
    have hfree : t.files[fd] = none := Option.isNone_iff_eq_none.mp hnone
    simp only [alloc, hfind]
    refine { free := ?_, least := ?_, get_eq := get_set hlt _, count_eq := ?_ }
    · rw [get_of_lt hlt, hfree]
    · intro other hother hclosed
      rw [get_of_lt (Nat.lt_trans hother hlt)] at hclosed
      exact hbefore other hother (Option.isNone_iff_eq_none.mpr hclosed)
    · rw [FdTable.count_eq, FdTable.count_eq, List.countP_set hlt, hfree]
      simp
  | none =>
    have hfull := List.findIdx?_eq_none_iff.mp hfind
    simp only [alloc, hfind]
    refine { free := get_of_length_le (Nat.le_refl _), least := ?_, get_eq := get_append _,
             count_eq := ?_ }
    · intro other hother hclosed
      rw [get_of_lt hother] at hclosed
      have hsome := hfull _ (List.getElem_mem hother)
      rw [hclosed] at hsome
      cases hsome
    · rw [FdTable.count_eq, FdTable.count_eq, List.countP_append]
      rfl

/-- `close` succeeds exactly on an open descriptor. -/
theorem close_open (h : t.get fd ≠ none) :
    (t.close fd).2 = true ∧ (t.close fd).1.get = Function.update t.get fd none ∧
    (t.close fd).1.count + 1 = t.count := by
  have hlt := lt_length_of_get h
  have hopen : t.files[fd].isSome = true := by
    rw [← get_of_lt hlt]
    exact Option.isSome_iff_ne_none.mpr h
  have hcond : fd < t.files.length ∧ (t.files[fd]?.join).isSome :=
    ⟨hlt, Option.isSome_iff_ne_none.mpr h⟩
  have hpos : 0 < t.files.countP Option.isSome :=
    List.countP_pos_iff.mpr ⟨t.files[fd], List.getElem_mem hlt, hopen⟩
  rw [close, if_pos hcond]
  refine ⟨rfl, get_set hlt none, ?_⟩
  rw [FdTable.count_eq, FdTable.count_eq, List.countP_set hlt, hopen]
  simp only [if_true, Option.isSome_none, Bool.false_eq_true, if_false]
  omega

theorem close_closed (h : t.get fd = none) : t.close fd = (t, false) := by
  apply if_neg
  rintro ⟨-, hopen⟩
  exact Option.isSome_iff_ne_none.mp hopen h

end FdTable

end OsCamp.FileDescriptors
