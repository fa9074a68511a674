import Mathlib.Data.List.Rotate
import Mathlib.Data.List.ReduceOption

/-!
Caches with first-in-first-out replacement. The cells are listed from the oldest
write on: a new key goes in at the end and the first cell goes, whether it was in
use or not. A ring of slots with a pointer is such a list, read from the pointer.
The module counts the hits and misses of a list of keys served from an empty
cache: a list with no key among the last few before it only misses, and one
whose keys all sit in the cache only hits.
-/

set_option autoImplicit false

namespace OsCamp.FifoCache

/-- Writing a ring at its pointer and moving on, as seen from the pointer. -/
theorem rotate_set_succ {α : Type*} (l : List α) (x : α) {p : ℕ} (hp : p < l.length) :
    (l.set p x).rotate (p + 1) = (l.rotate p).tail ++ [x] := by
  have hset : l.set p x = (l.take p ++ [x]) ++ l.drop (p + 1) := by
    rw [List.set_eq_take_append_cons_drop, if_pos hp]
    simp
  have hlen : (l.take p ++ [x]).length = p + 1 := by
    rw [List.length_append, List.length_take, List.length_singleton]
    omega
  have htail : (l.rotate p).tail = l.drop (p + 1) ++ l.take p := by
    rw [List.rotate_eq_drop_append_take hp.le, List.drop_eq_getElem_cons hp]
    rfl
  calc (l.set p x).rotate (p + 1)
      = ((l.take p ++ [x]) ++ l.drop (p + 1)).rotate (l.take p ++ [x]).length := by
        rw [hset, hlen]
    _ = l.drop (p + 1) ++ (l.take p ++ [x]) := List.rotate_append_length_eq _ _
    _ = (l.rotate p).tail ++ [x] := by rw [htail, List.append_assoc]

variable {K : Type*}

section Order

variable {cells : List (Option K)} {k victim : K} {time : K → ℕ} {n : ℕ}

/-- The keys in the cells are in the order of their times. -/
def InOrder (time : K → ℕ) (cells : List (Option K)) : Prop :=
  cells.reduceOption.Pairwise fun a b => time a < time b

theorem inOrder_replicate (capacity : ℕ) : InOrder time (List.replicate capacity none) := by
  unfold InOrder
  rw [List.reduceOption_replicate_none]
  exact List.Pairwise.nil

theorem InOrder.congr (h : InOrder time cells) {time' : K → ℕ}
    (heq : ∀ k, some k ∈ cells → time' k = time k) : InOrder time' cells := by
  refine List.Pairwise.imp_of_mem ?_ h
  intro a b ha hb hlt
  rw [heq a (List.reduceOption_mem_iff.mp ha), heq b (List.reduceOption_mem_iff.mp hb)]
  exact hlt

/-- Emptying cells takes keys out and leaves the others in order. -/
theorem InOrder.filter (h : InOrder time cells) (keep : K → Bool) :
    InOrder time (cells.map (Option.filter keep)) := by
  refine List.Pairwise.sublist ?_ h
  clear h
  induction cells with
  | nil => exact List.Sublist.refl _
  | cons cell rest ih =>
    cases cell with
    | none => exact ih
    | some k =>
      cases hk : keep k with
      | false =>
        simp only [List.map_cons, Option.filter_some, hk, List.reduceOption_cons_of_some]
        exact ih.cons k
      | true =>
        simp only [List.map_cons, Option.filter_some, hk, if_true,
          List.reduceOption_cons_of_some]
        exact ih.cons_cons k

/-- A later key may go in at the end. -/
theorem InOrder.push (h : InOrder time cells) (hlast : ∀ a, some a ∈ cells → time a < time k) :
    InOrder time (cells.tail ++ [some k]) := by
  have htail : cells.tail.reduceOption.Sublist cells.reduceOption :=
    (List.tail_sublist cells).filterMap _
  unfold InOrder
  rw [List.reduceOption_append, List.reduceOption_singleton]
  refine List.pairwise_append.mpr ⟨List.Pairwise.sublist htail h, List.pairwise_singleton _ _, ?_⟩
  intro a ha b hb
  have hbk : b = k := List.mem_singleton.mp hb
  rw [hbk]
  exact hlast a (List.reduceOption_mem_iff.mp (htail.subset ha))

/-- The key in the first cell is older than the others. -/
theorem InOrder.first_lt (h : InOrder time (some victim :: cells)) (hk : some k ∈ cells) :
    time victim < time k := by
  unfold InOrder at h
  rw [List.reduceOption_cons_of_some] at h
  exact List.rel_of_pairwise_cons h (List.reduceOption_mem_iff.mpr hk)

end Order

@[ext]
structure Cache (K : Type*) where
  cells : List (Option K)
  hits : ℕ
  misses : ℕ

def empty (capacity : ℕ) : Cache K := ⟨List.replicate capacity none, 0, 0⟩

variable [DecidableEq K]

def access (s : Cache K) (k : K) : Cache K :=
  if some k ∈ s.cells then { s with hits := s.hits + 1 }
  else { s with cells := s.cells.tail ++ [some k], misses := s.misses + 1 }

def serve (s : Cache K) (w : List K) : Cache K := w.foldl access s

variable {capacity r i : ℕ} {s : Cache K} {l w w' : List K} {k : K}

theorem serve_append (s : Cache K) (w w' : List K) :
    serve s (w ++ w') = serve (serve s w) w' := List.foldl_append

/-- Where every key is in the cache, every access hits. -/
theorem serve_resident (h : ∀ k ∈ w, some k ∈ s.cells) :
    serve s w = { s with hits := s.hits + w.length } := by
  induction w generalizing s with
  | nil => rfl
  | cons k rest ih =>
    have hfirst : access s k = { s with hits := s.hits + 1 } := if_pos (h k List.mem_cons_self)
    have hrest : ∀ k' ∈ rest, some k' ∈ (access s k).cells := by
      intro k' hk'
      rw [hfirst]
      exact h k' (List.mem_cons_of_mem k hk')
    calc serve s (k :: rest) = serve (access s k) rest := rfl
      _ = { access s k with hits := (access s k).hits + rest.length } := ih hrest
      _ = { s with hits := s.hits + (k :: rest).length } := by
        rw [hfirst, List.length_cons]
        ext1
        · rfl
        · show s.hits + 1 + rest.length = s.hits + (rest.length + 1)
          omega
        · rfl

/-- The cells after a list of misses: the last keys of the list. -/
def recent (capacity : ℕ) (w : List K) : List (Option K) :=
  (List.replicate capacity none ++ w.map some).drop w.length

omit [DecidableEq K] in
theorem recent_concat (hpos : 1 ≤ capacity) (w : List K) (k : K) :
    recent capacity (w ++ [k]) = (recent capacity w).tail ++ [some k] := by
  have hlen : w.length + 1 ≤ (List.replicate capacity none ++ w.map some).length := by
    rw [List.length_append, List.length_replicate, List.length_map]
    omega
  unfold recent
  rw [List.map_append, ← List.append_assoc, List.length_append, List.length_singleton,
    List.tail_drop]
  exact List.drop_append_of_le_length hlen

omit [DecidableEq K] in
theorem mem_recent : some k ∈ recent capacity w ↔
    ∃ i, w.length ≤ i + capacity ∧ w[i]? = some k := by
  unfold recent
  rw [List.mem_iff_getElem?]
  simp only [List.getElem?_drop, List.getElem?_append, List.length_replicate,
    List.getElem?_map, List.getElem?_replicate]
  constructor
  · rintro ⟨j, hj⟩
    split_ifs at hj with hlt
    · simp at hj
    · refine ⟨w.length + j - capacity, by omega, ?_⟩
      simpa using hj
  · rintro ⟨i, hi, hk⟩
    refine ⟨i + capacity - w.length, ?_⟩
    rw [if_neg (by omega), show w.length + (i + capacity - w.length) - capacity = i by omega, hk]
    rfl

/-- A list in which no key is among the last ones before it only misses. -/
theorem serve_spaced (hpos : 1 ≤ capacity)
    (h : ∀ a k b, w = a ++ k :: b → some k ∉ recent capacity a) :
    serve (empty capacity) w = ⟨recent capacity w, 0, w.length⟩ := by
  induction w using List.reverseRecOn with
  | nil => simp [serve, empty, recent]
  | append_singleton w k ih =>
    have hbefore : serve (empty capacity) w = ⟨recent capacity w, 0, w.length⟩ := by
      apply ih
      intro a k' b hw
      refine h a k' (b ++ [k]) ?_
      rw [hw]
      simp
    have hmiss : some k ∉ recent capacity w := h w k [] rfl
    rw [serve_append, hbefore]
    show access _ k = _
    rw [access, if_neg hmiss, recent_concat hpos, List.length_append]
    rfl

omit [DecidableEq K] in
/-- The repeated list, read at an index. -/
theorem getElem?_rounds (hi : i < r * l.length) :
    (List.replicate r l).flatten[i]? = l[i % l.length]? := by
  induction r generalizing i with
  | zero => omega
  | succ r ih =>
    rw [List.replicate_succ, List.flatten_cons, List.getElem?_append]
    split_ifs with hlt
    · rw [Nat.mod_eq_of_lt hlt]
    · have hrest : i - l.length < r * l.length := by
        rw [Nat.succ_mul] at hi
        omega
      have hmod : i % l.length = (i - l.length) % l.length := Nat.mod_eq_sub_mod (by omega)
      rw [ih hrest, hmod]

omit [DecidableEq K] in
theorem length_rounds : (List.replicate r l).flatten.length = r * l.length := by
  rw [List.length_flatten, List.map_replicate, List.sum_replicate_nat]

/-- Rounds through more keys than cells: every access misses. -/
theorem serve_rounds_of_lt (hpos : 1 ≤ capacity) (hnodup : l.Nodup) (hlt : capacity < l.length) :
    serve (empty capacity) (List.replicate r l).flatten =
      ⟨recent capacity (List.replicate r l).flatten, 0, r * l.length⟩ := by
  rw [← length_rounds]
  apply serve_spaced hpos
  intro a k b hw hrecent
  obtain ⟨j, hj, hk⟩ := mem_recent.mp hrecent
  have hja : j < a.length := (List.getElem?_eq_some_iff.mp hk).choose
  have hlen : a.length < r * l.length := by
    rw [← length_rounds (r := r), hw, List.length_append, List.length_cons]
    omega
  have hlast : l[a.length % l.length]? = some k := by
    rw [← getElem?_rounds hlen, hw]
    simp
  have hearlier : l[j % l.length]? = some k := by
    rw [← getElem?_rounds (hja.trans hlen), hw, List.getElem?_append_left hja]
    exact hk
  -- two places of one key in the rounds are a multiple of the length apart
  have hsame : a.length % l.length = j % l.length := by
    have hbound : a.length % l.length < l.length := Nat.mod_lt _ (by omega)
    exact (List.getElem?_inj hbound hnodup).mp (hlast.trans hearlier.symm)
  have hdvd : l.length ∣ a.length - j :=
    Nat.dvd_of_mod_eq_zero (Nat.sub_mod_eq_zero_of_mod_eq hsame)
  have hle := Nat.le_of_dvd (by omega) hdvd
  omega

/-- Rounds through keys that fit in the cells: the first round misses and fills the
cache, and the others hit. -/
theorem serve_rounds_of_le (hpos : 1 ≤ capacity) (hnodup : l.Nodup) (hle : l.length ≤ capacity) :
    serve (empty capacity) (List.replicate (r + 1) l).flatten =
      ⟨recent capacity l, r * l.length, l.length⟩ := by
  have hfirst : serve (empty capacity) l = ⟨recent capacity l, 0, l.length⟩ := by
    apply serve_spaced hpos
    intro a k b hw hrecent
    obtain ⟨j, -, hj⟩ := mem_recent.mp hrecent
    have hmem : k ∈ a := List.mem_of_getElem? hj
    rw [hw] at hnodup
    exact (List.nodup_append.mp hnodup).2.2 k hmem k List.mem_cons_self rfl
  have hresident : ∀ k ∈ (List.replicate r l).flatten, some k ∈ recent capacity l := by
    intro k hk
    obtain ⟨round, hround, hmem⟩ := List.mem_flatten.mp hk
    rw [(List.mem_replicate.mp hround).2] at hmem
    obtain ⟨i, hi⟩ := List.mem_iff_getElem?.mp hmem
    exact mem_recent.mpr ⟨i, by omega, hi⟩
  rw [List.replicate_succ, List.flatten_cons, serve_append, hfirst, serve_resident hresident,
    length_rounds, Nat.zero_add]

end OsCamp.FifoCache
