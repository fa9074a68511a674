import OsCamp.PageTableEntries
import Mathlib.Data.List.Induction

/-!
What a page table is for: a partial map from 27-bit page numbers to mappings.
The walk of the table is later shown to answer as this map does.
-/

set_option autoImplicit false

namespace OsCamp.FlatPageMap

open MultiLevelPt PageTableEntries

structure Mapping where
  pa : BitVec 64
  flags : BitVec 64

abbrev PageMap := BitVec 27 → Option Mapping

def leafEntry : Option Mapping → BitVec 64
  | none => 0
  | some m => leafPte m.pa m.flags

/-- Translation by the flat map: the mapped page with the offset inside it. -/
def translate (pages : PageMap) (va : BitVec 64) : TranslateResult :=
  match pages (pageNumber va) with
  | some m =>
    if IsLeaf m.flags then .ok ((m.pa &&& ~~~0xFFF#64) ||| (va &&& 0xFFF#64)) else .pageFault
  | none => .pageFault

def empty : PageMap := fun _ => none

def insert (pages : PageMap) (va : BitVec 64) (m : Mapping) : PageMap :=
  Function.update pages (pageNumber va) (some m)

theorem insert_self (pages : PageMap) (va : BitVec 64) (m : Mapping) {x : BitVec 64}
    (hx : pageNumber x = pageNumber va) : insert pages va m (pageNumber x) = some m := by
  rw [insert, hx, Function.update_self]

theorem insert_of_ne (pages : PageMap) (va : BitVec 64) (m : Mapping) {x : BitVec 64}
    (hx : pageNumber x ≠ pageNumber va) :
    insert pages va m (pageNumber x) = pages (pageNumber x) :=
  Function.update_of_ne hx _ _

/-- A bound on the flags of every mapping is kept by an insertion within it. -/
theorem insert_flags_lt {pages : PageMap} {b : ℕ}
    (hold : ∀ n m, pages n = some m → m.flags.toNat < b) (va : BitVec 64) {m : Mapping}
    (hm : m.flags.toNat < b) (n : BitVec 27) (x : Mapping) (hx : insert pages va m n = some x) :
    x.flags.toNat < b := by
  by_cases hn : n = pageNumber va
  · rw [hn, insert, Function.update_self, Option.some.injEq] at hx
    rw [← hx]
    exact hm
  · rw [insert, Function.update_of_ne hn] at hx
    exact hold n x hx

/-- The arguments of a `map_page` call; the flags fit the ten bits below the PPN. -/
structure MapCall where
  va : BitVec 64
  pa : BitVec 64
  flags : BitVec 64
  flags_lt : flags.toNat < 2 ^ 10

/-- The last call for the page of `va`. -/
def lastCall (calls : List MapCall) (va : BitVec 64) : Option MapCall :=
  calls.reverse.find? fun c => pageNumber c.va = pageNumber va

def insertAll (pages : PageMap) (calls : List MapCall) : PageMap :=
  calls.foldl (fun pages c => insert pages c.va ⟨c.pa, c.flags⟩) pages

/-- After a run of insertions each page holds the last call made for it. -/
theorem insertAll_apply (pages : PageMap) (calls : List MapCall) (va : BitVec 64) :
    insertAll pages calls (pageNumber va) =
      match lastCall calls va with
      | some c => some ⟨c.pa, c.flags⟩
      | none => pages (pageNumber va) := by
  induction calls using List.reverseRecOn with
  | nil => rfl
  | append_singleton calls c ih =>
    simp only [insertAll, List.foldl_append, List.foldl_cons, List.foldl_nil]
    by_cases hpage : pageNumber c.va = pageNumber va
    · rw [insert_self _ _ _ hpage.symm]
      simp [lastCall, hpage]
    · rw [insert_of_ne _ _ _ (Ne.symm hpage)]
      simpa [lastCall, hpage, insertAll] using ih

/-- A page that no call touches keeps its mapping. -/
theorem insertAll_of_notMem (pages : PageMap) (calls : List MapCall) (va : BitVec 64)
    (h : ∀ c ∈ calls, pageNumber c.va ≠ pageNumber va) :
    insertAll pages calls (pageNumber va) = pages (pageNumber va) := by
  have hnone : lastCall calls va = none := by
    rw [lastCall, List.find?_eq_none]
    intro c hc
    simpa using h c (List.mem_reverse.mp hc)
  rw [insertAll_apply, hnone]

theorem insertAll_ne_none (pages : PageMap) {calls : List MapCall} {c : MapCall}
    (hc : c ∈ calls) : insertAll pages calls (pageNumber c.va) ≠ none := by
  cases hlast : lastCall calls c.va with
  | none =>
    have hnone := List.find?_eq_none.mp hlast c (List.mem_reverse.mpr hc)
    simp at hnone
  | some d => simp [insertAll_apply, hlast]

/-- When all calls for a page agree, it holds the mapping they agree on. -/
theorem insertAll_of_unique (pages : PageMap) (calls : List MapCall) (va : BitVec 64)
    (m : Mapping) (hex : ∃ c ∈ calls, pageNumber c.va = pageNumber va)
    (h : ∀ c ∈ calls, pageNumber c.va = pageNumber va → c.pa = m.pa ∧ c.flags = m.flags) :
    insertAll pages calls (pageNumber va) = some m := by
  obtain ⟨d, hd, hpage⟩ := hex
  cases hlast : lastCall calls va with
  | none =>
    have hnone := List.find?_eq_none.mp hlast d (List.mem_reverse.mpr hd)
    simp [hpage] at hnone
  | some c =>
    have hmem : c ∈ calls := List.mem_reverse.mp (List.mem_of_find?_eq_some hlast)
    have hc : pageNumber c.va = pageNumber va := by simpa using List.find?_some hlast
    obtain ⟨hpa, hflags⟩ := h c hmem hc
    rw [insertAll_apply, hlast]
    simp only [hpa, hflags]

end OsCamp.FlatPageMap
