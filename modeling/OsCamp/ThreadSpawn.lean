import Mathlib.Tactic.Ring
import OsCamp.CoreAlloc
import OsCamp.ForkJoin

/-!
The thread exercises. A sum of `i32` overflows where one of its prefixes does,
also if the total fits; then a debug build panics in the thread, and the panic
comes back through the join. The calls of a thread on its own counter do not see
those of the others.
-/

set_option autoImplicit false

namespace OsCamp.ThreadSpawn

open CoreAlloc Execution ForkJoin

/-- The range of `i32`. -/
def Fits (x : ℤ) : Prop := -2 ^ 31 ≤ x ∧ x < 2 ^ 31

instance (x : ℤ) : Decidable (Fits x) := inferInstanceAs (Decidable (_ ∧ _))

/-- The result `x` of an operation on `i32`, where `none` is a panic. -/
def arith (profile : Profile) (x : ℤ) : Option ℤ :=
  if Fits x then some x
  else match profile with
    | .debug => none
    | .release => some (x.bmod (2 ^ 32))

/-- `Iterator::sum`. -/
def sum (profile : Profile) (numbers : List ℤ) : Option ℤ :=
  numbers.foldlM (fun acc n => arith profile (acc + n)) 0

/-- One thread, joined at once. -/
def oneThread {α : Type} (unwraps : Bool) (result : Option α) : Program α where
  threads := 1
  job _ := result
  unwraps := unwraps
  inScope := false

/-- A thread for each of two sums. -/
def twoSums (inScope : Bool) (profile : Profile) (a b : List ℤ) : Program ℤ where
  threads := 2
  job i := if i = 0 then sum profile a else sum profile b
  unwraps := true
  inScope := inScope

def doubleInThread (profile : Profile) (numbers : List ℤ) : Program (List ℤ) :=
  oneThread true (numbers.mapM fun n => arith profile (n * 2))

def parallelSum (profile : Profile) (a b : List ℤ) : Program ℤ := twoSums false profile a b

def scopedSliceSum (profile : Profile) (a b : List ℤ) : Program ℤ := twoSums true profile a b

def namedSleeper (value : ℤ) : Program ℤ := oneThread true (some value)

/-- `handle_panic` does not unwrap; its result is that of the join without the message. -/
def handlePanic (value : ℤ) (shouldPanic : Bool) : Program ℤ :=
  oneThread false (if shouldPanic then none else some value)

variable {profile : Profile} {a b numbers : List ℤ} {x : ℤ}

theorem arith_of_fits (hx : Fits x) : arith profile x = some x := if_pos hx

theorem arith_debug_of_not_fits (hx : ¬ Fits x) : arith .debug x = none := if_neg hx

theorem bmod_of_fits (hx : Fits x) : x.bmod (2 ^ 32) = x := by
  obtain ⟨hlow, hhigh⟩ := hx
  apply Int.bmod_eq_of_le <;> norm_num <;> omega

theorem arith_release (x : ℤ) : arith .release x = some (x.bmod (2 ^ 32)) := by
  by_cases hx : Fits x
  · rw [arith_of_fits hx, bmod_of_fits hx]
  · exact if_neg hx

/-- Every prefix of the sum fits. -/
def PrefixesFit (numbers : List ℤ) : Prop := ∀ k ≤ numbers.length, Fits (numbers.take k).sum

instance (numbers : List ℤ) : Decidable (PrefixesFit numbers) :=
  inferInstanceAs (Decidable (∀ k ≤ numbers.length, Fits (numbers.take k).sum))

theorem prefixesFit_concat (numbers : List ℤ) (x : ℤ) :
    PrefixesFit (numbers ++ [x]) ↔ PrefixesFit numbers ∧ Fits (numbers.sum + x) := by
  constructor
  · intro h
    constructor
    · intro k hk
      have hfits := h k (by rw [List.length_append]; omega)
      rwa [List.take_append_of_le_length hk] at hfits
    · have hfits := h (numbers ++ [x]).length (Nat.le_refl _)
      rwa [List.take_length, List.sum_append, List.sum_singleton] at hfits
  · intro h k hk
    obtain ⟨hinit, hlast⟩ := h
    rw [List.length_append, List.length_singleton] at hk
    rcases Nat.le_succ_iff.mp hk with hle | heq
    · rw [List.take_append_of_le_length hle]
      exact hinit k hle
    · have hlength : k = (numbers ++ [x]).length := by
        rw [List.length_append, List.length_singleton, heq]
      rw [hlength, List.take_length, List.sum_append, List.sum_singleton]
      exact hlast

/-- A debug build has the sum exactly where all prefixes fit. -/
theorem sum_debug (numbers : List ℤ) :
    (PrefixesFit numbers → sum .debug numbers = some numbers.sum) ∧
      (¬ PrefixesFit numbers → sum .debug numbers = none) := by
  induction numbers using List.reverseRecOn with
  | nil =>
    refine ⟨fun _ => rfl, ?_⟩
    intro h
    refine absurd ?_ h
    intro k hk
    cases Nat.le_zero.mp hk
    decide
  | append_singleton numbers x ih =>
    obtain ⟨ihfit, ihpanic⟩ := ih
    rw [prefixesFit_concat]
    unfold sum at ihfit ihpanic ⊢
    rw [List.foldlM_append]
    by_cases hinit : PrefixesFit numbers
    · rw [ihfit hinit]
      constructor
      · intro h
        simp [arith_of_fits h.2]
      · intro h
        have hlast : ¬ Fits (numbers.sum + x) := fun hlast => h ⟨hinit, hlast⟩
        simp [arith_debug_of_not_fits hlast]
    · rw [ihpanic hinit]
      constructor
      · intro h
        exact absurd h.1 hinit
      · intro _
        rfl

/-- A release build has the sum of the whole, wrapped once. -/
theorem sum_release (numbers : List ℤ) :
    sum .release numbers = some (numbers.sum.bmod (2 ^ 32)) := by
  induction numbers using List.reverseRecOn with
  | nil => rfl
  | append_singleton numbers x ih =>
    unfold sum at ih ⊢
    rw [List.foldlM_append, ih]
    simp [arith_release]

theorem sum_eq_none (profile : Profile) (numbers : List ℤ) :
    sum profile numbers = none ↔ profile = .debug ∧ ¬ PrefixesFit numbers := by
  cases profile with
  | debug =>
    obtain ⟨hfit, hpanic⟩ := sum_debug numbers
    by_cases h : PrefixesFit numbers
    · rw [hfit h]
      exact iff_of_false (Option.some_ne_none _) fun hnot => hnot.2 h
    · exact iff_of_true (hpanic h) ⟨rfl, h⟩
  | release =>
    rw [sum_release]
    exact iff_of_false (Option.some_ne_none _) fun hnot => Profile.noConfusion hnot.1

theorem PrefixesFit.sum_fits (h : PrefixesFit numbers) : Fits numbers.sum := by
  have hfits := h numbers.length (Nat.le_refl _)
  rwa [List.take_length] at hfits

theorem sum_eq (profile : Profile) (numbers : List ℤ) :
    sum profile numbers = if profile = .debug ∧ ¬ PrefixesFit numbers then none
      else some (numbers.sum.bmod (2 ^ 32)) := by
  by_cases hpanic : profile = .debug ∧ ¬ PrefixesFit numbers
  · rw [if_pos hpanic]
    exact (sum_eq_none profile numbers).mpr hpanic
  · rw [if_neg hpanic]
    cases profile with
    | debug =>
      have hfit : PrefixesFit numbers := by
        by_contra hnot
        exact hpanic ⟨rfl, hnot⟩
      rw [bmod_of_fits hfit.sum_fits]
      exact (sum_debug numbers).1 hfit
    | release => exact sum_release numbers

theorem twoSums_fails (inScope : Bool) (profile : Profile) (a b : List ℤ) :
    (twoSums inScope profile a b).Fails ↔
      profile = .debug ∧ ¬ (PrefixesFit a ∧ PrefixesFit b) := by
  constructor
  · intro h
    obtain ⟨-, i, hi, hnone⟩ := h
    by_cases hzero : i = 0
    · rw [hzero] at hnone
      obtain ⟨hdebug, hnot⟩ := (sum_eq_none profile a).mp hnone
      exact ⟨hdebug, fun hboth => hnot hboth.1⟩
    · have hsum : sum profile b = none := (if_neg hzero).symm.trans hnone
      obtain ⟨hdebug, hnot⟩ := (sum_eq_none profile b).mp hsum
      exact ⟨hdebug, fun hboth => hnot hboth.2⟩
  · intro h
    obtain ⟨hdebug, hnot⟩ := h
    refine ⟨rfl, ?_⟩
    by_cases ha : PrefixesFit a
    · have hb : ¬ PrefixesFit b := fun hb => hnot ⟨ha, hb⟩
      exact ⟨1, Nat.lt_succ_self 1, (sum_eq_none profile b).mpr ⟨hdebug, hb⟩⟩
    · exact ⟨0, Nat.zero_lt_two, (sum_eq_none profile a).mpr ⟨hdebug, ha⟩⟩

theorem twoSums_final {inScope : Bool} {l : List Action} {s : State ℤ}
    (hrun : run (step (twoSums inScope profile a b)) (initial (twoSums inScope profile a b)) l =
      some s) (hfinal : s.main.Final) :
    s.main = if profile = .debug ∧ ¬ (PrefixesFit a ∧ PrefixesFit b) then .panicked
      else .returned [some (a.sum.bmod (2 ^ 32)), some (b.sum.bmod (2 ^ 32))] := by
  have hmain := (run_settles hrun).final hfinal
  have hfails := twoSums_fails inScope profile a b
  unfold outcome at hmain
  rw [hmain]
  by_cases hpanic : profile = .debug ∧ ¬ (PrefixesFit a ∧ PrefixesFit b)
  · rw [if_pos hpanic, if_pos (hfails.mpr hpanic)]
  · rw [if_neg hpanic, if_neg fun hf => hpanic (hfails.mp hf)]
    have ha : ¬ (profile = .debug ∧ ¬ PrefixesFit a) :=
      fun hnot => hpanic ⟨hnot.1, fun hboth => hnot.2 hboth.1⟩
    have hb : ¬ (profile = .debug ∧ ¬ PrefixesFit b) :=
      fun hnot => hpanic ⟨hnot.1, fun hboth => hnot.2 hboth.2⟩
    have hsums : Main.returned ((List.range 2).map (twoSums inScope profile a b).job) =
        .returned [sum profile a, sum profile b] := rfl
    rw [sum_eq, sum_eq, if_neg ha, if_neg hb] at hsums
    exact hsums

theorem parallelSum_final {l : List Action} {s : State ℤ}
    (hrun : run (step (parallelSum profile a b)) (initial (parallelSum profile a b)) l = some s)
    (hfinal : s.main.Final) :
    s.main = if profile = .debug ∧ ¬ (PrefixesFit a ∧ PrefixesFit b) then .panicked
      else .returned [some (a.sum.bmod (2 ^ 32)), some (b.sum.bmod (2 ^ 32))] :=
  twoSums_final hrun hfinal

/-- The scope comes to the same, with both of its threads over. -/
theorem scopedSliceSum_final {l : List Action} {s : State ℤ}
    (hrun : run (step (scopedSliceSum profile a b)) (initial (scopedSliceSum profile a b)) l =
      some s) (hfinal : s.main.Final) :
    (s.main = if profile = .debug ∧ ¬ (PrefixesFit a ∧ PrefixesFit b) then .panicked
      else .returned [some (a.sum.bmod (2 ^ 32)), some (b.sum.bmod (2 ^ 32))]) ∧
    ∀ i < 2, (s.thread i).hasEnded = true :=
  ⟨twoSums_final hrun hfinal, (run_settles hrun).ended hfinal (Or.inl rfl)⟩

/-- In every interleaving of `parallel_sum` and `scoped_slice_sum` the end comes, and
it is the same one; and the scope leaves no thread behind that could use the slices. -/
theorem twoSums_run {inScope : Bool} {l : List Action} {s : State ℤ}
    (hrun : run (step (twoSums inScope profile a b)) (initial (twoSums inScope profile a b)) l =
      some s) :
    (s.main.Final ∨ ∃ act s', step (twoSums inScope profile a b) s act = some s') ∧
      l.length ≤ 8 ∧
      (s.main.Final →
        (s.main = .panicked ↔ profile = .debug ∧ ¬ (PrefixesFit a ∧ PrefixesFit b)) ∧
        (s.main ≠ .panicked → ∃ x y, s.main = .returned [some x, some y] ∧
          x = a.sum.bmod (2 ^ 32) ∧ y = b.sum.bmod (2 ^ 32) ∧
          (profile = .debug → x = a.sum ∧ y = b.sum)) ∧
        (inScope = true → ∀ i < 2, (s.thread i).hasEnded = true)) := by
  have h := run_settles hrun
  refine ⟨h.progress, h.bounded, ?_⟩
  intro hfinal
  have hmain := twoSums_final hrun hfinal
  by_cases hpanic : profile = .debug ∧ ¬ (PrefixesFit a ∧ PrefixesFit b)
  · rw [if_pos hpanic] at hmain
    exact ⟨iff_of_true hmain hpanic, fun hne => absurd hmain hne,
      fun hscope => h.ended hfinal (Or.inl hscope)⟩
  · rw [if_neg hpanic] at hmain
    refine ⟨iff_of_false (fun heq => nomatch hmain.symm.trans heq) hpanic, ?_,
      fun hscope => h.ended hfinal (Or.inl hscope)⟩
    intro _
    refine ⟨_, _, hmain, rfl, rfl, ?_⟩
    intro hdebug
    have hboth : PrefixesFit a ∧ PrefixesFit b := by
      by_contra hnot
      exact hpanic ⟨hdebug, hnot⟩
    exact ⟨bmod_of_fits hboth.1.sum_fits, bmod_of_fits hboth.2.sum_fits⟩

/-- The total of the first slice fits, but not its prefix, and the scope waits for the
second thread before the panic. -/
theorem twoSums_run_prefix_overflow : ∃ l s,
    run (step (twoSums true .debug [2147483647, 1, -1] [1]))
      (initial (twoSums true .debug [2147483647, 1, -1] [1])) l = some s ∧ s.main = .panicked ∧
      (s.main.Final → (s.main = .panicked ↔ Profile.debug = .debug ∧
        ¬ (PrefixesFit [2147483647, 1, -1] ∧ PrefixesFit [1])) ∧
        (true = true → ∀ i < 2, (s.thread i).hasEnded = true)) := by
  have hmain : (run (step (twoSums true .debug [2147483647, 1, -1] [1]))
      (initial (twoSums true .debug [2147483647, 1, -1] [1]))
      [.spawn, .spawn, .finish 0, .join, .finish 1, .leave]).map (·.main) = some .panicked := by
    decide +kernel
  obtain ⟨s, hrun, hs⟩ := Option.map_eq_some_iff.mp hmain
  refine ⟨_, s, hrun, hs, ?_⟩
  intro hfinal
  have hend := (twoSums_run hrun).2.2 hfinal
  exact ⟨hend.1, hend.2.2⟩

theorem oneThread_final {α : Type} {unwraps : Bool} {result : Option α} {l : List Action}
    {s : State α} (hrun : run (step (oneThread unwraps result)) (initial (oneThread unwraps result))
      l = some s) (hfinal : s.main.Final) :
    s.main = if unwraps = true ∧ result = none then .panicked else .returned [result] := by
  have hmain := (run_settles hrun).final hfinal
  unfold outcome at hmain
  have hfails : (oneThread unwraps result).Fails ↔ unwraps = true ∧ result = none := by
    constructor
    · intro h
      obtain ⟨hunwraps, i, -, hnone⟩ := h
      exact ⟨hunwraps, hnone⟩
    · intro h
      exact ⟨h.1, 0, Nat.zero_lt_one, h.2⟩
  rw [hmain]
  by_cases hf : unwraps = true ∧ result = none
  · rw [if_pos hf, if_pos (hfails.mpr hf)]
  · rw [if_neg hf, if_neg fun h => hf (hfails.mp h)]
    rfl

theorem namedSleeper_final {value : ℤ} {l : List Action} {s : State ℤ}
    (hrun : run (step (namedSleeper value)) (initial (namedSleeper value)) l = some s)
    (hfinal : s.main.Final) : s.main = .returned [some value] := by
  have hmain := oneThread_final hrun hfinal
  rwa [if_neg fun h => Option.some_ne_none value h.2] at hmain

/-- Without the `unwrap` the panic of the thread is a value. -/
theorem handlePanic_final {value : ℤ} {shouldPanic : Bool} {l : List Action} {s : State ℤ}
    (hrun : run (step (handlePanic value shouldPanic)) (initial (handlePanic value shouldPanic)) l =
      some s) (hfinal : s.main.Final) :
    s.main = .returned [if shouldPanic then none else some value] := by
  have hmain := oneThread_final hrun hfinal
  rwa [if_neg fun h => Bool.false_ne_true h.1] at hmain

theorem doubles (profile : Profile) (numbers : List ℤ) :
    (numbers.mapM fun n => arith profile (n * 2)) =
      if profile = .debug ∧ ∃ n ∈ numbers, ¬ Fits (n * 2) then none
      else some (numbers.map fun n => (n * 2).bmod (2 ^ 32)) := by
  induction numbers with
  | nil => simp
  | cons n numbers ih =>
    rw [List.mapM_cons, ih, List.map_cons]
    by_cases hn : Fits (n * 2)
    · rw [bmod_of_fits hn]
      simp [arith_of_fits hn, hn]
      split_ifs <;> rfl
    · cases profile with
      | debug => simp [arith_debug_of_not_fits hn, hn]
      | release => simp [arith_release]

theorem doubleInThread_final {l : List Action} {s : State (List ℤ)}
    (hrun : run (step (doubleInThread profile numbers)) (initial (doubleInThread profile numbers))
      l = some s) (hfinal : s.main.Final) :
    s.main = if profile = .debug ∧ ∃ n ∈ numbers, ¬ Fits (n * 2) then .panicked
      else .returned [some (numbers.map fun n => (n * 2).bmod (2 ^ 32))] := by
  rw [oneThread_final hrun hfinal, doubles]
  split_ifs <;> simp_all

section ThreadLocal

variable {T : Type} [DecidableEq T] {n : ℕ} {counts : T → ℕ} {t u : T}

/-- A call of `increment_thread_local` by thread `t`: the counters of all threads, and
the result, `none` for a panic. -/
def incrementThreadLocal (profile : Profile) (counts : T → ℕ) (t : T) : (T → ℕ) × Option ℕ :=
  match profile.add (counts t) 1 with
  | some count => (Function.update counts t count, some count)
  | none => (counts, none)

/-- The results of calls by the listed threads, one after another. -/
def callAll (profile : Profile) : (T → ℕ) → List T → List (Option ℕ)
  | _, [] => []
  | counts, t :: rest =>
    (incrementThreadLocal profile counts t).2 ::
      callAll profile (incrementThreadLocal profile counts t).1 rest

/-- The results of the calls by `t` among those of all threads. -/
def resultsOf (t : T) (calls : List T) (results : List (Option ℕ)) : List (Option ℕ) :=
  ((calls.zip results).filter fun call => call.1 = t).map (·.2)

theorem incrementThreadLocal_result (profile : Profile) (counts : T → ℕ) (t : T) :
    (incrementThreadLocal profile counts t).2 = profile.add (counts t) 1 := by
  unfold incrementThreadLocal
  cases profile.add (counts t) 1 <;> rfl

theorem incrementThreadLocal_self (profile : Profile) (counts : T → ℕ) (t : T) :
    (incrementThreadLocal profile counts t).1 t = (profile.add (counts t) 1).getD (counts t) := by
  unfold incrementThreadLocal
  cases profile.add (counts t) 1 with
  | none => rfl
  | some count => exact Function.update_self _ _ _

theorem incrementThreadLocal_of_ne (profile : Profile) (counts : T → ℕ) (hu : u ≠ t) :
    (incrementThreadLocal profile counts t).1 u = counts u := by
  unfold incrementThreadLocal
  cases profile.add (counts t) 1 with
  | none => rfl
  | some count => exact Function.update_of_ne hu _ _

/-- The calls depend on the counters of their own threads alone. -/
theorem callAll_congr (profile : Profile) {counts counts' : T → ℕ} {calls : List T}
    (h : ∀ u ∈ calls, counts u = counts' u) :
    callAll profile counts calls = callAll profile counts' calls := by
  induction calls generalizing counts counts' with
  | nil => rfl
  | cons t rest ih =>
    have ht := h t (List.mem_cons_self ..)
    rw [callAll, callAll, incrementThreadLocal_result, incrementThreadLocal_result, ht]
    congr 1
    apply ih
    intro u hu
    by_cases hut : u = t
    · rw [hut, incrementThreadLocal_self, incrementThreadLocal_self, ht]
    · rw [incrementThreadLocal_of_ne profile counts hut,
        incrementThreadLocal_of_ne profile counts' hut]
      exact h u (List.mem_cons_of_mem _ hu)

/-- The results of one thread are those of its own calls. -/
theorem resultsOf_callAll (profile : Profile) (counts : T → ℕ) (calls : List T) (t : T) :
    resultsOf t calls (callAll profile counts calls) =
      callAll profile counts (calls.filter fun u => u = t) := by
  induction calls generalizing counts with
  | nil => rfl
  | cons u rest ih =>
    have hrest := ih (incrementThreadLocal profile counts u).1
    unfold resultsOf at hrest ⊢
    rw [callAll, List.zip_cons_cons, List.filter_cons, List.filter_cons]
    by_cases hu : u = t
    · rw [if_pos (decide_eq_true hu), if_pos (decide_eq_true hu), List.map_cons, hrest, callAll]
    · rw [if_neg (by simpa using hu), if_neg (by simpa using hu), hrest]
      apply callAll_congr
      intro w hw
      have hwt : w = t := by simpa using (List.mem_filter.mp hw).2
      rw [hwt]
      exact incrementThreadLocal_of_ne profile counts (Ne.symm hu)

/-- As long as its counter fits, the calls of one thread count up. -/
theorem callAll_replicate (hfit : counts t + n < 2 ^ 64) :
    callAll profile counts (List.replicate n t) =
      (List.range n).map fun k => some (counts t + k + 1) := by
  induction n generalizing counts with
  | zero => rfl
  | succ n ih =>
    have hadd : profile.add (counts t) 1 = some (counts t + 1) := if_pos (by omega)
    have hself : (incrementThreadLocal profile counts t).1 t = counts t + 1 := by
      rw [incrementThreadLocal_self, hadd, Option.getD_some]
    rw [List.replicate_succ, callAll, incrementThreadLocal_result, hadd, ih (by omega), hself,
      List.range_succ_eq_map, List.map_cons, List.map_map]
    congr 1
    apply List.map_congr_left
    intro k _
    show some (counts t + 1 + k + 1) = some (counts t + (k + 1) + 1)
    rw [Nat.add_right_comm (counts t) 1 k, Nat.add_assoc (counts t) k 1]

/-- Under every interleaving of the calls a thread sees the results that its calls have
alone: the k-th call gives k. -/
theorem increment_thread_local_alone (profile : Profile) (calls : List T) (t : T) :
    resultsOf t calls (callAll profile (fun _ => 0) calls) =
        callAll profile (fun _ => 0) (calls.filter fun u => u = t) ∧
      (calls.count t < 2 ^ 64 → resultsOf t calls (callAll profile (fun _ => 0) calls) =
        (List.range (calls.count t)).map fun k => some (k + 1)) := by
  have halone := resultsOf_callAll profile (fun _ => 0) calls t
  refine ⟨halone, ?_⟩
  intro hfit
  rw [halone, List.filter_eq, callAll_replicate (by omega)]
  simp only [Nat.zero_add]

end ThreadLocal

end OsCamp.ThreadSpawn
