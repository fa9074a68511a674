import Mathlib.Data.List.Basic

/-!
Tables of slots, each empty or holding one key with its value. Where no key sits
in two slots, the table is a partial map with at most as many keys as slots. The
module says what writing one slot and emptying slots do to that map; which slot
is written is left to the user of the table.
-/

set_option autoImplicit false

namespace OsCamp.SlotTable

variable {K V : Type*}

def HoldsAt (slots : List (Option (K × V))) (i : ℕ) (k : K) (v : V) : Prop :=
  slots[i]? = some (some (k, v))

/-- No key is held twice. -/
def Unique (slots : List (Option (K × V))) : Prop :=
  ∀ i j k v w, HoldsAt slots i k v → HoldsAt slots j k w → i = j

/-- What one slot says about a key. -/
def valueOf [DecidableEq K] (k : K) : Option (K × V) → Option V
  | some (k', v) => if k' = k then some v else none
  | none => none

/-- The map that the table stands for. -/
def toMap [DecidableEq K] (slots : List (Option (K × V))) (k : K) : Option V :=
  slots.findSome? (valueOf k)

def keys (slots : List (Option (K × V))) : List K := slots.filterMap (Option.map Prod.fst)

/-- A bounded map takes in a key: at most one other key goes, and none if the key was there. -/
structure Inserted (m : K → Option V) (k : K) (v : V) (m' : K → Option V) : Prop where
  self : m' k = some v
  present : m k ≠ none → ∀ k', k' ≠ k → m' k' = m k'
  others : ∃ victim, ∀ k', k' ≠ k → k' ≠ victim → m' k' = m k'
  dropped : ∀ k', k' ≠ k → m' k' = m k' ∨ m' k' = none

variable {slots : List (Option (K × V))} {i : ℕ} {k k' : K} {v w : V}

theorem HoldsAt.lt_length (h : HoldsAt slots i k v) : i < slots.length :=
  (List.getElem?_eq_some_iff.mp h).choose

theorem HoldsAt.value_eq (h : HoldsAt slots i k v) (h' : HoldsAt slots i k w) : v = w := by
  have heq := h.symm.trans h'
  simpa using heq

theorem HoldsAt.key_eq (h : HoldsAt slots i k v) (h' : HoldsAt slots i k' w) : k = k' := by
  have hkeys := h.symm.trans h'
  simp only [Option.some.injEq, Prod.mk.injEq] at hkeys
  exact hkeys.1

theorem Unique.value_eq (hu : Unique slots) {j : ℕ} (h : HoldsAt slots i k v)
    (h' : HoldsAt slots j k w) : v = w := by
  have hij := hu i j k v w h h'
  subst j
  exact h.value_eq h'

theorem holdsAt_set (hi : i < slots.length) (j : ℕ) :
    HoldsAt (slots.set i (some (k, v))) j k' w ↔
      (j = i ∧ k = k' ∧ v = w) ∨ (j ≠ i ∧ HoldsAt slots j k' w) := by
  unfold HoldsAt
  by_cases hj : j = i
  · subst j
    simp [hi]
  · simp [hj, Ne.symm hj]

theorem length_keys_le : (keys slots).length ≤ slots.length := List.length_filterMap_le _ _

theorem unique_replicate (n : ℕ) : Unique (List.replicate n (none : Option (K × V))) := by
  intro i j k v w h
  simp [HoldsAt, List.getElem?_replicate] at h

/-- Writing a slot keeps the keys apart if no other slot holds the written key. -/
theorem Unique.set (hu : Unique slots) (hi : i < slots.length)
    (helse : ∀ j u, HoldsAt slots j k u → j = i) : Unique (slots.set i (some (k, v))) := by
  intro a b k' x y ha hb
  rcases (holdsAt_set hi a).mp ha with ⟨hai, hk, -⟩ | ⟨hai, ha⟩
  · rcases (holdsAt_set hi b).mp hb with ⟨hbi, -, -⟩ | ⟨hbi, hb⟩
    · omega
    · subst k'
      exact absurd (helse b y hb) hbi
  · rcases (holdsAt_set hi b).mp hb with ⟨hbi, hk, -⟩ | ⟨-, hb⟩
    · subst k'
      exact absurd (helse a x ha) hai
    · exact hu a b k' x y ha hb

/-- Empty the slots whose key is not kept. -/
def keepOnly (keep : K → Bool) (slots : List (Option (K × V))) : List (Option (K × V)) :=
  slots.map (Option.filter fun p => keep p.1)

theorem holdsAt_keepOnly (keep : K → Bool) (j : ℕ) :
    HoldsAt (keepOnly keep slots) j k w ↔ keep k = true ∧ HoldsAt slots j k w := by
  unfold HoldsAt keepOnly
  simp only [List.getElem?_map, Option.map_eq_some_iff, Option.filter_eq_some_iff]
  constructor
  · intro hfilled
    obtain ⟨slot, hslot, heq, hkeep⟩ := hfilled
    exact ⟨hkeep, heq ▸ hslot⟩
  · intro hheld
    obtain ⟨hkeep, hslot⟩ := hheld
    exact ⟨_, hslot, rfl, hkeep⟩

theorem Unique.keepOnly (hu : Unique slots) (keep : K → Bool) :
    Unique (SlotTable.keepOnly keep slots) := by
  intro a b k x y ha hb
  exact hu a b k x y ((holdsAt_keepOnly keep a).mp ha).2 ((holdsAt_keepOnly keep b).mp hb).2

section Map

variable [DecidableEq K]

theorem valueOf_eq_some_iff {slot : Option (K × V)} :
    valueOf k slot = some v ↔ slot = some (k, v) := by
  cases slot with
  | none => simp [valueOf]
  | some p =>
    obtain ⟨k', w⟩ := p
    by_cases hk : k' = k <;> simp [valueOf, hk]

/-- With no key held twice, the map has exactly the held values. -/
theorem toMap_eq_some_iff (hu : Unique slots) :
    toMap slots k = some v ↔ ∃ i, HoldsAt slots i k v := by
  constructor
  · intro h
    obtain ⟨slot, hmem, hvalue⟩ := List.exists_of_findSome?_eq_some h
    have hslot : slot = some (k, v) := valueOf_eq_some_iff.mp hvalue
    subst slot
    exact List.mem_iff_getElem?.mp hmem
  · intro hheld
    obtain ⟨i, hi⟩ := hheld
    have hmem : some (k, v) ∈ slots := List.mem_of_getElem? hi
    cases hfound : toMap slots k with
    | none =>
      have hnone := List.findSome?_eq_none_iff.mp hfound _ hmem
      simp [valueOf] at hnone
    | some w =>
      obtain ⟨slot, hslot, hvalue⟩ := List.exists_of_findSome?_eq_some hfound
      have heq : slot = some (k, w) := valueOf_eq_some_iff.mp hvalue
      subst slot
      obtain ⟨j, hj⟩ := List.mem_iff_getElem?.mp hslot
      exact congrArg some (hu.value_eq hj hi)

theorem toMap_ne_none_iff (hu : Unique slots) :
    toMap slots k ≠ none ↔ ∃ i v, HoldsAt slots i k v := by
  rw [Option.ne_none_iff_exists']
  constructor
  · intro hvalue
    obtain ⟨v, hv⟩ := hvalue
    obtain ⟨i, hi⟩ := (toMap_eq_some_iff hu).mp hv
    exact ⟨i, v, hi⟩
  · intro hheld
    obtain ⟨i, v, hi⟩ := hheld
    exact ⟨v, (toMap_eq_some_iff hu).mpr ⟨i, hi⟩⟩

/-- Two tables that hold the same values of a key have the same map there. -/
theorem toMap_congr {slots' : List (Option (K × V))} (hu : Unique slots) (hu' : Unique slots')
    (h : ∀ v, (∃ i, HoldsAt slots' i k v) ↔ ∃ i, HoldsAt slots i k v) :
    toMap slots' k = toMap slots k := by
  apply Option.ext
  intro v
  rw [toMap_eq_some_iff hu, toMap_eq_some_iff hu']
  exact h v

/-- The keys of the map are those found in the slots. -/
theorem mem_keys_iff (hu : Unique slots) : k ∈ keys slots ↔ toMap slots k ≠ none := by
  rw [toMap_ne_none_iff hu]
  unfold keys
  simp only [List.mem_filterMap, Option.map_eq_some_iff]
  symm
  constructor
  · intro hheld
    obtain ⟨i, v, hi⟩ := hheld
    exact ⟨some (k, v), List.mem_of_getElem? hi, (k, v), rfl, rfl⟩
  · intro hkey
    obtain ⟨slot, hmem, ⟨k', v⟩, rfl, rfl⟩ := hkey
    obtain ⟨i, hi⟩ := List.mem_iff_getElem?.mp hmem
    exact ⟨i, v, hi⟩

section Set

variable (hu : Unique slots) (hi : i < slots.length)
  (helse : ∀ j u, HoldsAt slots j k u → j = i)

include hu hi helse

/-- Another key that is not in the slot keeps its value. -/
theorem toMap_set_of_free (hne : k' ≠ k) (hfree : ∀ u, ¬ HoldsAt slots i k' u) :
    toMap (slots.set i (some (k, v))) k' = toMap slots k' := by
  apply toMap_congr hu (hu.set hi helse)
  intro w
  constructor
  · intro hheld
    obtain ⟨j, hj⟩ := hheld
    rcases (holdsAt_set hi j).mp hj with ⟨-, hk, -⟩ | ⟨-, hj⟩
    · exact absurd hk.symm hne
    · exact ⟨j, hj⟩
  · intro hheld
    obtain ⟨j, hj⟩ := hheld
    have hji : j ≠ i := by
      rintro rfl
      exact hfree w hj
    exact ⟨j, (holdsAt_set hi j).mpr (Or.inr ⟨hji, hj⟩)⟩

/-- The key that was in the slot has no value any more. -/
theorem toMap_set_of_held (hne : k' ≠ k) (hheld : HoldsAt slots i k' w) :
    toMap (slots.set i (some (k, v))) k' = none := by
  by_contra hsome
  obtain ⟨j, u, hj⟩ := (toMap_ne_none_iff (hu.set hi helse)).mp hsome
  rcases (holdsAt_set hi j).mp hj with ⟨-, hk, -⟩ | ⟨hji, hj⟩
  · exact hne hk.symm
  · exact hji (hu j i k' u w hj hheld)

/-- Writing a slot inserts the key; only the key that sat in the slot can be lost. -/
theorem inserted_set : Inserted (toMap slots) k v (toMap (slots.set i (some (k, v)))) := by
  refine { self := ?_, present := ?_, others := ?_, dropped := ?_ }
  · apply (toMap_eq_some_iff (hu.set hi helse)).mpr
    exact ⟨i, (holdsAt_set hi i).mpr (Or.inl ⟨rfl, rfl, rfl⟩)⟩
  · intro hpresent k' hne
    obtain ⟨j, u, hj⟩ := (toMap_ne_none_iff hu).mp hpresent
    have hji := helse j u hj
    subst j
    exact toMap_set_of_free hu hi helse hne fun w hw => hne (hw.key_eq hj)
  · by_cases hheld : ∃ k' u, HoldsAt slots i k' u
    · obtain ⟨victim, u, hvictim⟩ := hheld
      refine ⟨victim, ?_⟩
      intro k' hne hne'
      exact toMap_set_of_free hu hi helse hne fun w hw => hne' (hw.key_eq hvictim)
    · refine ⟨k, ?_⟩
      intro k' hne _
      exact toMap_set_of_free hu hi helse hne fun u hw => hheld ⟨k', u, hw⟩
  · intro k' hne
    by_cases hheld : ∃ u, HoldsAt slots i k' u
    · obtain ⟨u, hw⟩ := hheld
      exact Or.inr (toMap_set_of_held hu hi helse hne hw)
    · exact Or.inl (toMap_set_of_free hu hi helse hne fun u hw => hheld ⟨u, hw⟩)

end Set

/-- Emptying slots removes exactly the keys that are not kept. -/
theorem toMap_keepOnly (hu : Unique slots) (keep : K → Bool) (k : K) :
    toMap (keepOnly keep slots) k = if keep k = true then toMap slots k else none := by
  split_ifs with hkeep
  · apply toMap_congr hu (hu.keepOnly keep)
    intro w
    simp only [holdsAt_keepOnly, hkeep, true_and]
  · by_contra hsome
    obtain ⟨j, w, hj⟩ := (toMap_ne_none_iff (hu.keepOnly keep)).mp hsome
    exact hkeep ((holdsAt_keepOnly keep j).mp hj).1

end Map

end OsCamp.SlotTable
