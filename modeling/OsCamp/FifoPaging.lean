import Mathlib.Data.Finset.Card
import Mathlib.Data.List.Nodup
import OsCamp.FifoCache

/-!
How often a first-in-first-out cache misses. In a window with no more distinct keys
than cells each key misses once at most, whatever the cache holds before it. Cut
into such windows, a list of keys shows that any other replacement in as many cells,
also one that knows the keys to come, misses once for each window but the last.
-/

set_option autoImplicit false

namespace OsCamp.FifoPaging

open FifoCache

variable {K : Type*} [DecidableEq K] {s : Cache K} {w w' : List K} {k x : K} {capacity n : ℕ}

/-- The keys of `w` that miss, in order. -/
def missed (s : Cache K) : List K → List K
  | [] => []
  | k :: rest =>
    bif s.cells.contains (some k) then missed (access s k) rest else k :: missed (access s k) rest

theorem missed_cons (s : Cache K) (k : K) (rest : List K) : missed s (k :: rest) =
    if some k ∈ s.cells then missed (access s k) rest else k :: missed (access s k) rest := by
  rw [missed]
  by_cases hk : some k ∈ s.cells
  · rw [List.contains_iff_mem.mpr hk, if_pos hk]
    rfl
  · rw [Bool.eq_false_iff.mpr fun h => hk (List.contains_iff_mem.mp h), if_neg hk]
    rfl

theorem missed_append (s : Cache K) (w w' : List K) :
    missed s (w ++ w') = missed s w ++ missed (serve s w) w' := by
  induction w generalizing s with
  | nil => rfl
  | cons k rest ih =>
    rw [List.cons_append, missed_cons, missed_cons, ih]
    by_cases hk : some k ∈ s.cells
    · rw [if_pos hk, if_pos hk]
      rfl
    · rw [if_neg hk, if_neg hk]
      rfl

theorem missed_concat (s : Cache K) (w : List K) (k : K) :
    missed s (w ++ [k]) = if some k ∈ (serve s w).cells then missed s w else missed s w ++ [k] := by
  rw [missed_append, missed_cons]
  split_ifs
  · exact List.append_nil _
  · rfl

theorem missed_sublist (s : Cache K) (w : List K) : (missed s w).Sublist w := by
  induction w generalizing s with
  | nil => exact List.Sublist.refl []
  | cons k rest ih =>
    rw [missed_cons]
    split_ifs
    · exact (ih _).cons k
    · exact (ih _).cons_cons k

/-- The keys that miss push the cells in front of them out. -/
theorem serve_eq (hcells : 1 ≤ s.cells.length) (w : List K) :
    serve s w = ⟨(s.cells ++ (missed s w).map some).drop (missed s w).length,
      s.hits + (w.length - (missed s w).length), s.misses + (missed s w).length⟩ ∧
      (missed s w).length ≤ w.length := by
  induction w using List.reverseRecOn with
  | nil => exact ⟨by simp [serve, missed], Nat.le_refl 0⟩
  | append_singleton w x ih =>
    obtain ⟨hserve, hle⟩ := ih
    have hstep : serve s (w ++ [x]) = access (serve s w) x := serve_append s w [x]
    rw [hstep, missed_concat, List.length_append, List.length_singleton]
    by_cases hx : some x ∈ (serve s w).cells
    · rw [access, if_pos hx, if_pos hx, hserve]
      refine ⟨?_, by omega⟩
      ext1
      · rfl
      · show s.hits + (w.length - _) + 1 = s.hits + (w.length + 1 - _)
        omega
      · rfl
    · rw [access, if_neg hx, if_neg hx, hserve, List.length_append, List.length_singleton]
      refine ⟨?_, by omega⟩
      have hdrop : (missed s w).length + 1 ≤ (s.cells ++ (missed s w).map some).length := by
        rw [List.length_append, List.length_map]
        omega
      ext1
      · show ((s.cells ++ (missed s w).map some).drop (missed s w).length).tail ++ [some x] = _
        rw [List.tail_drop, List.map_append, ← List.append_assoc]
        exact (List.drop_append_of_le_length hdrop).symm
      · show s.hits + (w.length - _) = s.hits + (w.length + 1 - (_ + 1))
        omega
      · rfl

/-- A key that misses stays for as many further misses as there are cells. -/
theorem mem_cells_of_missed (hcells : 1 ≤ s.cells.length)
    (hroom : (missed s w).length ≤ s.cells.length) (hk : k ∈ missed s w) :
    some k ∈ (serve s w).cells := by
  rw [(serve_eq hcells w).1]
  show some k ∈ (s.cells ++ (missed s w).map some).drop (missed s w).length
  rw [List.drop_append_of_le_length hroom]
  exact List.mem_append_right _ (List.mem_map_of_mem hk)

theorem length_le_card (hnodup : w'.Nodup) (hsubset : ∀ k ∈ w', k ∈ w) :
    w'.length ≤ w.toFinset.card := by
  rw [← List.toFinset_card_of_nodup hnodup]
  apply Finset.card_le_card
  intro k hk
  exact List.mem_toFinset.mpr (hsubset k (List.mem_toFinset.mp hk))

theorem card_mono (w w' : List K) : w.toFinset.card ≤ (w ++ w').toFinset.card := by
  apply Finset.card_le_card
  rw [List.toFinset_append]
  exact Finset.subset_union_left

/-- In a window with no more distinct keys than cells no key misses twice. -/
theorem missed_nodup (hcells : 1 ≤ s.cells.length) (hfit : w.toFinset.card ≤ s.cells.length) :
    (missed s w).Nodup := by
  induction w using List.reverseRecOn with
  | nil => exact List.nodup_nil
  | append_singleton w x ih =>
    have hbefore := Nat.le_trans (card_mono w [x]) hfit
    have hnodup := ih hbefore
    rw [missed_concat]
    split_ifs with hx
    · exact hnodup
    · have hcard := length_le_card hnodup fun _ hk => (missed_sublist s w).subset hk
      have hroom := Nat.le_trans hcard hbefore
      have hnew : x ∉ missed s w := fun hmem => hx (mem_cells_of_missed hcells hroom hmem)
      rw [← List.concat_eq_append]
      exact hnodup.concat hnew

theorem missed_le_distinct (hcells : 1 ≤ s.cells.length)
    (hfit : w.toFinset.card ≤ s.cells.length) : (missed s w).length ≤ w.toFinset.card :=
  length_le_card (missed_nodup hcells hfit) (fun _ hk => (missed_sublist s w).subset hk)

/-- A key that is not in the cache misses once at least. -/
theorem mem_missed_of_absent (hk : k ∈ w) (habsent : some k ∉ s.cells) : k ∈ missed s w := by
  induction w generalizing s with
  | nil => exact absurd hk List.not_mem_nil
  | cons x rest ih =>
    rw [missed_cons]
    by_cases hx : x = k
    · rw [hx, if_neg habsent]
      exact List.mem_cons_self
    · have hrest : k ∈ rest := (List.mem_cons.mp hk).resolve_left (Ne.symm hx)
      have hstill : some k ∉ (access s x).cells := by
        unfold access
        split_ifs
        · exact habsent
        · intro hmem
          rcases List.mem_append.mp hmem with hmem | hmem
          · exact habsent (List.mem_of_mem_tail hmem)
          · exact hx (Option.some.inj (List.mem_singleton.mp hmem)).symm
      split_ifs
      · exact ih hrest hstill
      · exact List.mem_cons_of_mem _ (ih hrest hstill)

/-- The accesses of some replacement, each with the keys in the cache behind it: the
key is loaded, nothing else comes in, and there are at most `capacity` keys. -/
def Valid (capacity : ℕ) : Finset K → List (K × Finset K) → Prop
  | _, [] => True
  | c, (k, c') :: rest => k ∈ c' ∧ c' ⊆ insert k c ∧ c'.card ≤ capacity ∧ Valid capacity c' rest

def faults : Finset K → List (K × Finset K) → ℕ
  | _, [] => 0
  | c, (k, c') :: rest => (if k ∈ c then 0 else 1) + faults c' rest

variable {c c' : Finset K} {plan : List (K × Finset K)}

/-- Without a fault the cache can only get smaller. -/
theorem mem_of_no_fault (hvalid : Valid capacity c plan) (hnone : faults c plan = 0)
    (hk : k ∈ plan.map Prod.fst) : k ∈ c := by
  induction plan generalizing c with
  | nil => exact absurd hk List.not_mem_nil
  | cons access rest ih =>
    obtain ⟨x, c'⟩ := access
    obtain ⟨-, hsubset, -, hrest⟩ := hvalid
    have hx : x ∈ c := by
      by_contra hx
      rw [faults, if_neg hx] at hnone
      omega
    rw [faults, if_pos hx, Nat.zero_add] at hnone
    rcases List.mem_cons.mp hk with heq | hmem
    · rw [heq]
      exact hx
    · have hlater := hsubset (ih hrest hnone hmem)
      rwa [Finset.insert_eq_self.mpr hx] at hlater

theorem faults_pos (hvalid : Valid capacity c plan) (hcard : c.card ≤ capacity) (hx : x ∈ c)
    (hmany : capacity < (x :: plan.map Prod.fst).toFinset.card) : 1 ≤ faults c plan := by
  by_contra hfew
  have hnone : faults c plan = 0 := by omega
  have hall : (x :: plan.map Prod.fst).toFinset ⊆ c := by
    intro k hk
    rcases List.mem_cons.mp (List.mem_toFinset.mp hk) with heq | hmem
    · rw [heq]
      exact hx
    · exact mem_of_no_fault hvalid hnone hmem
  have hle := Finset.card_le_card hall
  omega

/-- The cache behind the accesses. -/
def after : Finset K → List (K × Finset K) → Finset K
  | c, [] => c
  | _, (_, c') :: rest => after c' rest

theorem faults_append (c : Finset K) (plan later : List (K × Finset K)) :
    faults c (plan ++ later) = faults c plan + faults (after c plan) later := by
  induction plan generalizing c with
  | nil => exact (Nat.zero_add _).symm
  | cons access rest ih =>
    obtain ⟨x, c'⟩ := access
    rw [List.cons_append, faults, faults, after, ih, Nat.add_assoc]

omit [DecidableEq K] in
theorem after_concat (c : Finset K) (plan : List (K × Finset K)) (access : K × Finset K) :
    after c (plan ++ [access]) = access.2 := by
  induction plan generalizing c with
  | nil => rfl
  | cons first rest ih => exact ih first.2

theorem Valid.append {later : List (K × Finset K)} (h : Valid capacity c (plan ++ later)) :
    Valid capacity c plan ∧ Valid capacity (after c plan) later := by
  induction plan generalizing c with
  | nil => exact ⟨trivial, h⟩
  | cons access rest ih =>
    obtain ⟨x, c'⟩ := access
    obtain ⟨hmem, hsubset, hcard, hrest⟩ := h
    obtain ⟨hfirst, hlater⟩ := ih hrest
    exact ⟨⟨hmem, hsubset, hcard, hfirst⟩, hlater⟩

/-- A list has few distinct keys, or a first window with `n` of them and a new key behind it. -/
theorem exists_window (n : ℕ) (w : List K) : w.toFinset.card ≤ n ∨
    ∃ p x r, w = p ++ x :: r ∧ p.toFinset.card = n ∧ x ∉ p := by
  induction w using List.reverseRecOn with
  | nil => exact Or.inl (Nat.zero_le n)
  | append_singleton w y ih =>
    rcases ih with hfew | ⟨p, x, r, hw, hcard, hx⟩
    · by_cases hall : (w ++ [y]).toFinset.card ≤ n
      · exact Or.inl hall
      · have hinsert : (w ++ [y]).toFinset = insert y w.toFinset := by
          rw [List.toFinset_append, Finset.union_comm]
          rfl
        rw [hinsert] at hall
        have hnew : y ∉ w := by
          intro hmem
          rw [Finset.insert_eq_self.mpr (List.mem_toFinset.mpr hmem)] at hall
          exact hall hfew
        have hone := Finset.card_insert_le y w.toFinset
        exact Or.inr ⟨w, y, [], rfl, by omega, hnew⟩
    · refine Or.inr ⟨p, x, r ++ [y], ?_, hcard, hx⟩
      rw [hw, List.append_assoc, List.cons_append]

theorem length_cells_serve (hcells : 1 ≤ s.cells.length) (w : List K) :
    (serve s w).cells.length = s.cells.length := by
  rw [(serve_eq hcells w).1, List.length_drop, List.length_append, List.length_map]
  omega

/-- The window behind the access of `x` and up to the next new key costs any other
replacement a fault. -/
theorem window_fault {cx : Finset K} (hmem : k ∈ c) (hcard : c.card ≤ capacity)
    (hvalid : Valid capacity c (plan ++ [(x, cx)]))
    (hwindow : (k :: plan.map Prod.fst).toFinset.card = capacity)
    (hnew : x ∉ k :: plan.map Prod.fst) : 1 ≤ faults c (plan ++ [(x, cx)]) := by
  apply faults_pos hvalid hcard hmem
  have hkeys : (k :: (plan ++ [(x, cx)]).map Prod.fst).toFinset =
      insert x (k :: plan.map Prod.fst).toFinset := by
    rw [List.map_append, ← List.cons_append, List.toFinset_append, Finset.union_comm]
    rfl
  rw [hkeys, Finset.card_insert_of_notMem fun h => hnew (List.mem_toFinset.mp h), hwindow]
  exact Nat.lt_succ_self capacity

/-- The first access aside, each window of the first-in-first-out cache costs the other
replacement a fault. -/
theorem missed_le_windows (hcells : s.cells.length = capacity) (hpos : 1 ≤ capacity)
    (hvalid : Valid capacity c ((k, c') :: plan)) :
    (missed s (k :: plan.map Prod.fst)).length ≤ capacity * (faults c' plan + 1) := by
  induction hn : plan.length using Nat.strongRecOn generalizing s c k c' plan with
  | ind n ih =>
    have hsome : 1 ≤ s.cells.length := by omega
    rcases exists_window capacity (k :: plan.map Prod.fst) with hfew | ⟨p, x, r, hw, hcard, hx⟩
    · have hle := missed_le_distinct hsome (Nat.le_trans hfew (Nat.le_of_eq hcells.symm))
      exact Nat.le_trans (Nat.le_trans hle hfew) (Nat.le_mul_of_pos_right _ (Nat.succ_pos _))
    · cases p with
      | nil =>
        rw [List.toFinset_nil, Finset.card_empty] at hcard
        omega
      | cons first p =>
        obtain ⟨hfirst, hrest⟩ := List.cons.inj hw
        subst hfirst
        obtain ⟨plan₁, later, hplan, hp, hlater⟩ := List.map_eq_append_iff.mp hrest
        obtain ⟨access, plan₂, hsplit, haccess, hr⟩ := List.map_eq_cons_iff.mp hlater
        obtain ⟨y, cx⟩ := access
        cases haccess
        subst hp hr hsplit hplan
        obtain ⟨hmem, -, hcapacity, hvalid'⟩ := hvalid
        have hshift : plan₁ ++ (y, cx) :: plan₂ = (plan₁ ++ [(y, cx)]) ++ plan₂ := by
          rw [List.append_assoc]
          rfl
        have hfault : 1 ≤ faults c' (plan₁ ++ [(y, cx)]) :=
          window_fault hmem hcapacity (hshift ▸ hvalid').append.1 hcard hx
        have hfaults : faults c' (plan₁ ++ (y, cx) :: plan₂) =
            faults c' (plan₁ ++ [(y, cx)]) + faults cx plan₂ := by
          rw [hshift, faults_append, after_concat]
        have hwindow := missed_le_distinct hsome
          (by omega : (k :: plan₁.map Prod.fst).toFinset.card ≤ s.cells.length)
        have htail := ih plan₂.length (by rw [← hn, List.length_append, List.length_cons]; omega)
          ((length_cells_serve hsome (k :: plan₁.map Prod.fst)).trans hcells) hvalid'.append.2 rfl
        have hmissed : missed s (k :: (plan₁ ++ (y, cx) :: plan₂).map Prod.fst) =
            missed s (k :: plan₁.map Prod.fst) ++
              missed (serve s (k :: plan₁.map Prod.fst)) (y :: plan₂.map Prod.fst) := by
          rw [← missed_append, List.map_append]
          rfl
        rw [hmissed, List.length_append, hfaults]
        calc (missed s (k :: plan₁.map Prod.fst)).length +
              (missed (serve s (k :: plan₁.map Prod.fst)) (y :: plan₂.map Prod.fst)).length
            ≤ capacity + capacity * (faults cx plan₂ + 1) := Nat.add_le_add (by omega) htail
          _ = capacity * (1 + faults cx plan₂ + 1) := by
              rw [Nat.add_comm capacity, ← Nat.mul_succ, Nat.add_comm 1]
          _ ≤ capacity * (faults c' (plan₁ ++ [(y, cx)]) + faults cx plan₂ + 1) :=
              Nat.mul_le_mul_left _ (by omega)

/-- The cache misses at most `capacity` times as often as any other replacement does,
and `capacity` times more. -/
theorem missed_le_faults (hcells : s.cells.length = capacity) (hpos : 1 ≤ capacity)
    (hvalid : Valid capacity c plan) :
    (missed s (plan.map Prod.fst)).length ≤ capacity * (faults c plan + 1) := by
  cases plan with
  | nil => exact Nat.zero_le _
  | cons access rest =>
    obtain ⟨x, c'⟩ := access
    refine Nat.le_trans (missed_le_windows hcells hpos hvalid) (Nat.mul_le_mul_left _ ?_)
    rw [faults]
    omega

end OsCamp.FifoPaging
