import Mathlib.Data.List.Nodup
import OsCamp.RoundRobin

/-!
The places a round-robin search looks at. From `start` it goes along the ring, and
where the next search begins at the place found by the last one, the places of all
searches together form one walk along the ring.
-/

set_option autoImplicit false

namespace OsCamp.RingWalk

open RoundRobin

/-- The `k` places after `start` on a ring of `len` places. -/
def walk (len start k : ℕ) : List ℕ := (List.range' 1 k).map fun j => (start + j) % len

/-- The places whose readiness the search standing at `next` asks for. -/
def visitedFrom (ready : ℕ → Bool) (len start : ℕ) : ℕ → ℕ → List ℕ
  | 0, _ => []
  | fuel + 1, next =>
    if next = start then []
    else if ready next then [next]
    else next :: visitedFrom ready len start fuel ((next + 1) % len)

def visited (ready : ℕ → Bool) (len start : ℕ) : List ℕ :=
  visitedFrom ready len start len ((start + 1) % len)

variable {ready : ℕ → Bool} {len start : ℕ}

theorem walk_append (len start a b : ℕ) :
    walk len start (a + b) = walk len start a ++ walk len ((start + a) % len) b := by
  have hshift : List.range' (1 + a) b = (List.range' 1 b).map (a + ·) := by
    rw [List.map_add_range', Nat.add_comm]
  have hsplit : List.range' 1 (a + b) = List.range' 1 a ++ List.range' (1 + a) b :=
    List.range'_append_1.symm
  unfold walk
  rw [hsplit, List.map_append, hshift, List.map_map]
  congr 1
  apply List.map_congr_left
  intro j _
  show (start + (a + j)) % len = ((start + a) % len + j) % len
  rw [Nat.mod_add_mod, Nat.add_assoc]

theorem mem_walk {k i : ℕ} :
    i ∈ walk len start k ↔ ∃ j, 1 ≤ j ∧ j ≤ k ∧ (start + j) % len = i := by
  simp only [walk, List.mem_map, List.mem_range'_1]
  constructor
  · rintro ⟨j, ⟨hpos, hlt⟩, heq⟩
    exact ⟨j, hpos, by omega, heq⟩
  · rintro ⟨j, hpos, hle, heq⟩
    exact ⟨j, ⟨hpos, by omega⟩, heq⟩

/-- One round visits every place once. -/
theorem nodup_walk (hstart : start < len) {k : ℕ} (hk : k ≤ len) : (walk len start k).Nodup := by
  refine List.Nodup.map_on ?_ List.nodup_range'
  intro a ha b hb heq
  rw [List.mem_range'_1] at ha hb
  rw [place_eq hstart (by omega), place_eq hstart (by omega)] at heq
  split at heq <;> split at heq <;> omega

theorem mem_walk_round (hstart : start < len) {i : ℕ} (hi : i < len) : i ∈ walk len start len := by
  apply mem_walk.mpr
  by_cases heq : i = start
  · exact ⟨len, by omega, Nat.le_refl len, by rw [Nat.add_mod_right, Nat.mod_eq_of_lt hstart, heq]⟩
  · obtain ⟨j, hpos, hlt, hplace⟩ := exists_place hstart hi heq
    exact ⟨j, hpos, by omega, hplace⟩

/-- A walk shorter than a round that ends where it began is empty, one shorter than two
rounds that does so is one round. -/
theorem round_of_return (hstart : start < len) {k : ℕ} (hpos : 0 < k) (hk : k < 2 * len)
    (hback : (start + k) % len = start) : k = len := by
  by_cases hle : k ≤ len
  · exact (place_eq_start_iff hstart hpos hle).mp hback
  · have hsub : (start + k) % len = (start + (k - len)) % len := by
      have hsplit : start + k = start + (k - len) + len := by omega
      rw [hsplit, Nat.add_mod_right]
    rw [hsub] at hback
    have hend := (place_eq_start_iff hstart (by omega) (by omega)).mp hback
    omega

theorem visitedFrom_eq (hstart : start < len) {fuel k m : ℕ} (hpos : 1 ≤ k) (hkm : k ≤ m)
    (hm : m < len) (hfuel : m < fuel + k)
    (hbefore : ∀ j, k ≤ j → j < m → ready ((start + j) % len) = false)
    (hfound : ready ((start + m) % len) = true) :
    visitedFrom ready len start fuel ((start + k) % len) =
      (List.range' k (m + 1 - k)).map fun j => (start + j) % len := by
  induction fuel generalizing k with
  | zero => omega
  | succ fuel ih =>
    have hne : (start + k) % len ≠ start := by
      intro heq
      have hend := (place_eq_start_iff hstart hpos (by omega)).mp heq
      omega
    rw [visitedFrom, if_neg hne]
    by_cases hlast : k = m
    · subst hlast
      have hone : k + 1 - k = 1 := by omega
      rw [if_pos hfound, hone]
      rfl
    · have hnot : ¬ ready ((start + k) % len) = true := by
        rw [hbefore k (Nat.le_refl k) (by omega)]
        exact Bool.false_ne_true
      have hrest := ih (k := k + 1) (by omega) (by omega) (by omega)
        (fun j hj => hbefore j (by omega))
      have hcount : m + 1 - k = m + 1 - (k + 1) + 1 := by omega
      rw [if_neg hnot, Nat.mod_add_mod, Nat.add_assoc, hrest, hcount, List.range'_succ,
        List.map_cons]

/-- Where another place is ready, the search walks up to the first ready one. -/
theorem visited_eq (hstart : start < len) {next : ℕ} (hpick : pick ready len start = some next)
    (hne : next ≠ start) :
    ∃ m, 1 ≤ m ∧ m < len ∧ next = (start + m) % len ∧ visited ready len start = walk len start m ∧
      (∀ j, 1 ≤ j → j < m → ready ((start + j) % len) = false) := by
  obtain ⟨m, hpos, hmlen, hpick', hbefore, hfound⟩ := pick_spec ready hstart
  have hnext : next = (start + m) % len := Option.some.inj (hpick.symm.trans hpick')
  have hlt : m < len := by
    by_contra hend
    have hm : m = len := by omega
    rw [hnext] at hne
    exact hne ((place_eq_start_iff hstart hpos hmlen).mpr hm)
  refine ⟨m, hpos, hlt, hnext, ?_, hbefore⟩
  exact visitedFrom_eq hstart (Nat.le_refl 1) hpos hlt (by omega) hbefore (hfound hlt)

end OsCamp.RingWalk
