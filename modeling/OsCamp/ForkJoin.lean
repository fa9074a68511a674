import OsCamp.Execution
import OsCamp.Weights

/-!
A main thread that spawns threads without shared state and joins them in order.
A join gives the result of the thread or its panic; a main thread that unwraps
panics in turn, at once, or behind the end of a scope that waits for the others.
Every interleaving ends, and all end the same way.
-/

set_option autoImplicit false

namespace OsCamp.ForkJoin

open Execution Weights

/-- Thread `i` computes `job i`, where `none` is a panic. -/
structure Program (α : Type*) where
  threads : ℕ
  job : ℕ → Option α
  unwraps : Bool
  inScope : Bool

inductive Thread (α : Type*)
  | unborn
  | running
  | ended (result : Option α)

/-- `leaving` is a main thread that panics inside a scope. -/
inductive Main (α : Type*)
  | spawning (i : ℕ)
  | joining (i : ℕ) (results : List (Option α))
  | leaving
  | returned (results : List (Option α))
  | panicked
  deriving DecidableEq

structure State (α : Type*) where
  main : Main α
  thread : ℕ → Thread α

inductive Action
  | spawn
  | finish (i : ℕ)
  | join
  | leave

variable {α : Type*}

def Thread.hasEnded : Thread α → Bool
  | .ended _ => true
  | _ => false

/-- The main thread before the join of thread `i`, or behind the last join. -/
def Program.joinFrom (P : Program α) (i : ℕ) (results : List (Option α)) : Main α :=
  if i < P.threads then .joining i results else .returned results

/-- The main thread before the spawn of thread `i`, or before the joins. -/
def Program.spawnFrom (P : Program α) (i : ℕ) : Main α :=
  if i < P.threads then .spawning i else P.joinFrom 0 []

def initial (P : Program α) : State α := ⟨P.spawnFrom 0, fun _ => .unborn⟩

/-- The main thread behind the join of thread `i`. -/
def Program.joined (P : Program α) (i : ℕ) (results : List (Option α)) (result : Option α) :
    Main α :=
  if P.unwraps && result.isNone then if P.inScope then .leaving else .panicked
  else P.joinFrom (i + 1) (results ++ [result])

def step (P : Program α) (s : State α) : Action → Option (State α)
  | .spawn =>
    match s.main with
    | .spawning i => some ⟨P.spawnFrom (i + 1), Function.update s.thread i .running⟩
    | _ => none
  | .finish i =>
    match s.thread i with
    | .running => some { s with thread := Function.update s.thread i (.ended (P.job i)) }
    | _ => none
  | .join =>
    match s.main with
    | .joining i results =>
      match s.thread i with
      | .ended result => some { s with main := P.joined i results result }
      | _ => none
    | _ => none
  | .leave =>
    match s.main with
    | .leaving =>
      if ∀ i < P.threads, (s.thread i).hasEnded = true then some { s with main := .panicked }
      else none
    | _ => none

/-- What each action does, and where it is enabled. -/
inductive Moved (P : Program α) (s : State α) : Action → State α → Prop
  | spawn {i : ℕ} (main : s.main = .spawning i) :
      Moved P s .spawn ⟨P.spawnFrom (i + 1), Function.update s.thread i .running⟩
  | finish {i : ℕ} (thread : s.thread i = .running) :
      Moved P s (.finish i) { s with thread := Function.update s.thread i (.ended (P.job i)) }
  | join {i : ℕ} {results : List (Option α)} {result : Option α}
      (main : s.main = .joining i results) (thread : s.thread i = .ended result) :
      Moved P s .join { s with main := P.joined i results result }
  | leave (main : s.main = .leaving) (all : ∀ i < P.threads, (s.thread i).hasEnded = true) :
      Moved P s .leave { s with main := .panicked }

variable {P : Program α} {s s' : State α} {a : Action} {i j : ℕ} {t : Thread α}
  {results : List (Option α)}

theorem step_moved (hs : step P s a = some s') : Moved P s a s' := by
  cases a with
  | spawn =>
    cases hmain : s.main <;> simp only [step, hmain] at hs
    case spawning i =>
      cases hs
      exact .spawn hmain
    all_goals cases hs
  | finish i =>
    cases hthread : s.thread i <;> simp only [step, hthread] at hs
    case running =>
      cases hs
      exact .finish hthread
    all_goals cases hs
  | join =>
    cases hmain : s.main <;> simp only [step, hmain] at hs
    case joining i results =>
      cases hthread : s.thread i <;> simp only [hthread] at hs
      case ended result =>
        cases hs
        exact .join hmain hthread
      all_goals cases hs
    all_goals cases hs
  | leave =>
    cases hmain : s.main <;> simp only [step, hmain] at hs
    case leaving =>
      obtain ⟨hall, hres⟩ := Option.ite_none_right_eq_some.mp hs
      cases hres
      exact .leave hmain hall
    all_goals cases hs

/-- How many threads have been spawned. -/
def spawned (P : Program α) : Main α → ℕ
  | .spawning i => i
  | _ => P.threads

inductive Placed (P : Program α) (main : Main α) (i : ℕ) : Thread α → Prop
  | unborn (le : spawned P main ≤ i) : Placed P main i .unborn
  | running (lt : i < spawned P main) : Placed P main i .running
  | ended (lt : i < spawned P main) : Placed P main i (.ended (P.job i))

/-- The joins of the first `i` threads are behind the main thread. -/
structure Collected (P : Program α) (thread : ℕ → Thread α) (i : ℕ)
    (results : List (Option α)) : Prop where
  eq : results = (List.range i).map P.job
  ended : ∀ j < i, (thread j).hasEnded = true
  sound : P.unwraps = true → ∀ j < i, P.job j ≠ none

/-- A thread panics, and the main thread unwraps what it gave. -/
def Program.Fails (P : Program α) : Prop :=
  P.unwraps = true ∧ ∃ i < P.threads, P.job i = none

/-- Where the main thread stands among the joins. -/
inductive Joined (P : Program α) (thread : ℕ → Thread α) : Main α → Prop
  | spawning {i : ℕ} (lt : i < P.threads) : Joined P thread (.spawning i)
  | joining {i : ℕ} {results : List (Option α)} (lt : i < P.threads)
      (collected : Collected P thread i results) : Joined P thread (.joining i results)
  | leaving (inScope : P.inScope = true) (fails : P.Fails) : Joined P thread .leaving
  | returned {results : List (Option α)} (collected : Collected P thread P.threads results) :
      Joined P thread (.returned results)
  | panicked (fails : P.Fails)
      (inScope : P.inScope = true → ∀ j < P.threads, (thread j).hasEnded = true) :
      Joined P thread .panicked

structure Inv (P : Program α) (s : State α) : Prop where
  placed : ∀ i, Placed P s.main i (s.thread i)
  joined : Joined P s.thread s.main

theorem Collected.nil (P : Program α) (thread : ℕ → Thread α) : Collected P thread 0 [] where
  eq := rfl
  ended j hj := absurd hj (Nat.not_lt_zero j)
  sound _ j hj := absurd hj (Nat.not_lt_zero j)

theorem Collected.succ {thread : ℕ → Thread α} (h : Collected P thread i results)
    (hi : (thread i).hasEnded = true) (hsound : P.unwraps = true → P.job i ≠ none) :
    Collected P thread (i + 1) (results ++ [P.job i]) where
  eq := by rw [h.eq, List.range_succ, List.map_append]; rfl
  ended j hj := by
    rcases Nat.lt_succ_iff_lt_or_eq.mp hj with hlt | heq
    · exact h.ended j hlt
    · rw [heq]
      exact hi
  sound hunwraps j hj := by
    rcases Nat.lt_succ_iff_lt_or_eq.mp hj with hlt | heq
    · exact h.sound hunwraps j hlt
    · rw [heq]
      exact hsound hunwraps

/-- An ended thread stays as it is. -/
theorem Collected.mono {thread thread' : ℕ → Thread α} (h : Collected P thread i results)
    (hended : ∀ j, (thread j).hasEnded = true → (thread' j).hasEnded = true) :
    Collected P thread' i results :=
  ⟨h.eq, fun j hj => hended j (h.ended j hj), h.sound⟩

theorem Joined.mono {thread thread' : ℕ → Thread α} {main : Main α} (h : Joined P thread main)
    (hended : ∀ j, (thread j).hasEnded = true → (thread' j).hasEnded = true) :
    Joined P thread' main := by
  cases h with
  | spawning lt => exact .spawning lt
  | joining lt collected => exact .joining lt (collected.mono hended)
  | leaving inScope fails => exact .leaving inScope fails
  | returned collected => exact .returned (collected.mono hended)
  | panicked fails inScope =>
    exact .panicked fails fun hscope j hj => hended j (inScope hscope j hj)

theorem joined_joinFrom {thread : ℕ → Thread α} (hi : i ≤ P.threads)
    (h : Collected P thread i results) : Joined P thread (P.joinFrom i results) := by
  unfold Program.joinFrom
  split_ifs with hlt
  · exact .joining hlt h
  · cases Nat.le_antisymm hi (Nat.le_of_not_lt hlt)
    exact .returned h

theorem joined_spawnFrom (thread : ℕ → Thread α) (i : ℕ) : Joined P thread (P.spawnFrom i) := by
  unfold Program.spawnFrom
  split_ifs with hlt
  · exact .spawning hlt
  · exact joined_joinFrom (Nat.zero_le _) (Collected.nil P thread)

theorem spawned_joinFrom (i : ℕ) (results : List (Option α)) :
    spawned P (P.joinFrom i results) = P.threads := by
  unfold Program.joinFrom
  split_ifs <;> rfl

theorem spawned_joined (i : ℕ) (results : List (Option α)) (result : Option α) :
    spawned P (P.joined i results result) = P.threads := by
  unfold Program.joined
  by_cases hfails : (P.unwraps && result.isNone) = true
  · rw [if_pos hfails]
    split_ifs <;> rfl
  · rw [if_neg hfails]
    exact spawned_joinFrom (i + 1) (results ++ [result])

theorem spawned_spawnFrom (hi : i ≤ P.threads) : spawned P (P.spawnFrom i) = i := by
  unfold Program.spawnFrom
  split_ifs with hlt
  · rfl
  · rw [spawned_joinFrom]
    exact Nat.le_antisymm (Nat.le_of_not_lt hlt) hi

theorem Placed.congr {main main' : Main α} (h : Placed P main i t)
    (hborn : i < spawned P main' ↔ i < spawned P main) : Placed P main' i t := by
  cases h with
  | unborn le => exact .unborn (by omega)
  | running lt => exact .running (hborn.mpr lt)
  | ended lt => exact .ended (hborn.mpr lt)

theorem Placed.lt_of_ne_unborn {main : Main α} (h : Placed P main i t) (ht : t ≠ .unborn) :
    i < spawned P main := by
  cases h with
  | unborn le => exact absurd rfl ht
  | running lt => exact lt
  | ended lt => exact lt

theorem Placed.unborn_of_ge {main : Main α} (h : Placed P main i t) (hge : spawned P main ≤ i) :
    t = .unborn := by
  cases h with
  | unborn le => rfl
  | running lt => omega
  | ended lt => omega

namespace Inv

theorem spawned_le (h : Inv P s) : spawned P s.main ≤ P.threads := by
  have hjoined := h.joined
  generalize s.main = main at hjoined
  cases hjoined with
  | spawning lt => exact Nat.le_of_lt lt
  | joining lt collected => exact Nat.le_refl _
  | leaving inScope fails => exact Nat.le_refl _
  | returned collected => exact Nat.le_refl _
  | panicked fails inScope => exact Nat.le_refl _

theorem spawning_lt (h : Inv P s) (hmain : s.main = .spawning i) : i < P.threads := by
  have hjoined := h.joined
  rw [hmain] at hjoined
  cases hjoined with
  | spawning lt => exact lt

theorem joining_collected (h : Inv P s) (hmain : s.main = .joining i results) :
    i < P.threads ∧ Collected P s.thread i results := by
  have hjoined := h.joined
  rw [hmain] at hjoined
  cases hjoined with
  | joining lt collected => exact ⟨lt, collected⟩

theorem result_eq (h : Inv P s) {result : Option α} (hthread : s.thread i = .ended result) :
    result = P.job i := by
  have hplaced := h.placed i
  rw [hthread] at hplaced
  cases hplaced with
  | ended lt => rfl

theorem new (P : Program α) : Inv P (initial P) where
  placed i := by
    apply Placed.unborn
    show spawned P (P.spawnFrom 0) ≤ i
    rw [spawned_spawnFrom (Nat.zero_le _)]
    exact Nat.zero_le i
  joined := joined_spawnFrom _ 0

theorem spawn (h : Inv P s) (hmain : s.main = .spawning i) :
    Inv P ⟨P.spawnFrom (i + 1), Function.update s.thread i .running⟩ := by
  have hlt := h.spawning_lt hmain
  have hbefore : spawned P s.main = i := by rw [hmain]; rfl
  have hafter : spawned P (P.spawnFrom (i + 1)) = i + 1 := spawned_spawnFrom hlt
  refine ⟨?_, joined_spawnFrom _ _⟩
  intro j
  show Placed P (P.spawnFrom (i + 1)) j (Function.update s.thread i .running j)
  by_cases hj : j = i
  · rw [hj, Function.update_self]
    exact .running (by omega)
  · rw [Function.update_of_ne hj]
    exact (h.placed j).congr (by omega)

theorem finish (h : Inv P s) (hthread : s.thread i = .running) :
    Inv P { s with thread := Function.update s.thread i (.ended (P.job i)) } := by
  have hlt := (h.placed i).lt_of_ne_unborn (by rw [hthread]; exact fun hne => nomatch hne)
  refine ⟨?_, h.joined.mono ?_⟩
  · intro j
    show Placed P s.main j (Function.update s.thread i (.ended (P.job i)) j)
    by_cases hj : j = i
    · rw [hj, Function.update_self]
      exact .ended hlt
    · rw [Function.update_of_ne hj]
      exact h.placed j
  · intro j hended
    show (Function.update s.thread i (.ended (P.job i)) j).hasEnded = true
    by_cases hj : j = i
    · rw [hj, Function.update_self]
      rfl
    · rw [Function.update_of_ne hj]
      exact hended

/-- The main thread behind its spawns moves alone. -/
theorem main_step (h : Inv P s) {main : Main α} (hbefore : spawned P s.main = P.threads)
    (hafter : spawned P main = P.threads) (hjoined : Joined P s.thread main) :
    Inv P { s with main := main } where
  placed j := (h.placed j).congr (by rw [hbefore, hafter])
  joined := hjoined

theorem join (h : Inv P s) {result : Option α} (hmain : s.main = .joining i results)
    (hthread : s.thread i = .ended result) :
    Inv P { s with main := P.joined i results result } := by
  obtain ⟨hlt, hcollected⟩ := h.joining_collected hmain
  refine h.main_step (by rw [hmain]; rfl) (spawned_joined i results result) ?_
  have hresult := h.result_eq hthread
  have hended : (s.thread i).hasEnded = true := by rw [hthread]; rfl
  unfold Program.joined
  split_ifs with hfails hscope
  · obtain ⟨hunwraps, hnone⟩ := Bool.and_eq_true_iff.mp hfails
    exact .leaving hscope ⟨hunwraps, i, hlt, hresult ▸ Option.isNone_iff_eq_none.mp hnone⟩
  · obtain ⟨hunwraps, hnone⟩ := Bool.and_eq_true_iff.mp hfails
    exact .panicked ⟨hunwraps, i, hlt, hresult ▸ Option.isNone_iff_eq_none.mp hnone⟩
      fun htrue => absurd htrue hscope
  · rw [hresult]
    refine joined_joinFrom hlt (hcollected.succ hended ?_)
    intro hunwraps hnone
    rw [hunwraps, hresult, hnone] at hfails
    exact hfails rfl

theorem leave (h : Inv P s) (hmain : s.main = .leaving)
    (hall : ∀ i < P.threads, (s.thread i).hasEnded = true) :
    Inv P { s with main := .panicked } := by
  have hjoined := h.joined
  rw [hmain] at hjoined
  cases hjoined with
  | leaving inScope fails =>
    exact h.main_step (by rw [hmain]; rfl) rfl (.panicked fails fun _ => hall)

theorem step (h : Inv P s) (hs : ForkJoin.step P s a = some s') : Inv P s' := by
  cases step_moved hs with
  | spawn hmain => exact h.spawn hmain
  | finish hthread => exact h.finish hthread
  | join hmain hthread => exact h.join hmain hthread
  | leave hmain hall => exact h.leave hmain hall

end Inv

def Main.Final : Main α → Prop
  | .returned _ => True
  | .panicked => True
  | _ => False

theorem joining_moves (h : Inv P s) (hmain : s.main = .joining i results) :
    ∃ a s', step P s a = some s' := by
  have hlt : i < spawned P s.main := by
    rw [hmain]
    exact (h.joining_collected hmain).1
  have hplaced := h.placed i
  cases hthread : s.thread i with
  | unborn =>
    rw [hthread] at hplaced
    cases hplaced with
    | unborn le => exact absurd hlt (Nat.not_lt.mpr le)
  | running =>
    refine ⟨.finish i, { s with thread := Function.update s.thread i (.ended (P.job i)) }, ?_⟩
    simp only [step, hthread]
  | ended result =>
    refine ⟨.join, { s with main := P.joined i results result }, ?_⟩
    simp only [step, hmain, hthread]

/-- Inside a scope the main thread waits for the threads that it has not joined. -/
theorem leaving_moves (h : Inv P s) (hmain : s.main = .leaving) :
    ∃ a s', step P s a = some s' := by
  by_cases hall : ∀ i < P.threads, (s.thread i).hasEnded = true
  · refine ⟨.leave, { s with main := .panicked }, ?_⟩
    simp only [step, hmain]
    exact if_pos hall
  · push Not at hall
    obtain ⟨i, hlt, hended⟩ := hall
    have hplaced := h.placed i
    cases hthread : s.thread i with
    | unborn =>
      rw [hthread, hmain] at hplaced
      cases hplaced with
      | unborn le => exact absurd hlt (Nat.not_lt.mpr le)
    | running =>
      refine ⟨.finish i, { s with thread := Function.update s.thread i (.ended (P.job i)) }, ?_⟩
      simp only [step, hthread]
    | ended result =>
      rw [hthread] at hended
      exact absurd rfl hended

theorem progress (h : Inv P s) : s.main.Final ∨ ∃ a s', step P s a = some s' := by
  cases hmain : s.main with
  | spawning i =>
    refine Or.inr ⟨.spawn, ⟨P.spawnFrom (i + 1), Function.update s.thread i .running⟩, ?_⟩
    simp only [step, hmain]
  | joining i results => exact Or.inr (joining_moves h hmain)
  | leaving => exact Or.inr (leaving_moves h hmain)
  | returned results => exact Or.inl trivial
  | panicked => exact Or.inl trivial

/-- A bound on the steps that a thread has before it. -/
def weight : Thread α → ℕ
  | .unborn => 2
  | .running => 1
  | .ended _ => 0

def mainWeight (P : Program α) : Main α → ℕ
  | .spawning _ => P.threads + 2
  | .joining i _ => P.threads + 1 - i
  | .leaving => 1
  | .returned _ => 0
  | .panicked => 0

def measure (P : Program α) (s : State α) : ℕ :=
  mainWeight P s.main + total (fun _ => weight) P.threads s.thread

theorem mainWeight_joinFrom (i : ℕ) (results : List (Option α)) :
    mainWeight P (P.joinFrom i results) ≤ P.threads + 1 - i := by
  unfold Program.joinFrom
  split_ifs
  · exact Nat.le_refl _
  · exact Nat.zero_le _

theorem mainWeight_spawnFrom (i : ℕ) : mainWeight P (P.spawnFrom i) ≤ P.threads + 2 := by
  unfold Program.spawnFrom
  split_ifs
  · exact Nat.le_refl _
  · have hle := mainWeight_joinFrom (P := P) 0 []
    omega

/-- A join brings the main thread nearer to its end. -/
theorem mainWeight_joined (hi : i < P.threads) (results : List (Option α)) (result : Option α) :
    mainWeight P (P.joined i results result) < P.threads + 1 - i := by
  have hle := mainWeight_joinFrom (P := P) (i + 1) (results ++ [result])
  unfold Program.joined
  split_ifs
  · show 1 < _
    omega
  · show 0 < _
    omega
  · omega

theorem measure_lt (h : Inv P s) (hs : step P s a = some s') : measure P s' < measure P s := by
  unfold measure
  cases step_moved hs with
  | @spawn i hmain =>
    have hlt := h.spawning_lt hmain
    have hmainWeight : mainWeight P (P.spawnFrom (i + 1)) ≤ mainWeight P s.main := by
      rw [hmain]
      exact mainWeight_spawnFrom (i + 1)
    have hunborn := (h.placed i).unborn_of_ge (by rw [hmain]; exact Nat.le_refl i)
    have hweight : weight (.running : Thread α) < weight (s.thread i) := by
      rw [hunborn]
      exact Nat.lt_succ_self 1
    exact Nat.add_lt_add_of_le_of_lt hmainWeight (total_update_lt hlt hweight)
  | @finish i hthread =>
    have hborn := (h.placed i).lt_of_ne_unborn (by rw [hthread]; exact fun hne => nomatch hne)
    have hlt := Nat.lt_of_lt_of_le hborn h.spawned_le
    have hweight : weight (.ended (P.job i)) < weight (s.thread i) := by
      rw [hthread]
      exact Nat.zero_lt_one
    exact Nat.add_lt_add_left (total_update_lt hlt hweight) _
  | @join i results result hmain hthread =>
    have hlt := (h.joining_collected hmain).1
    rw [hmain]
    exact Nat.add_lt_add_right (mainWeight_joined hlt results result) _
  | leave hmain hall =>
    rw [hmain]
    exact Nat.add_lt_add_right Nat.zero_lt_one _

instance (P : Program α) : Decidable P.Fails :=
  inferInstanceAs (Decidable (P.unwraps = true ∧ ∃ i < P.threads, P.job i = none))

/-- Where every interleaving ends. -/
def outcome (P : Program α) : Main α :=
  if P.Fails then .panicked else .returned ((List.range P.threads).map P.job)

theorem Inv.final_eq (h : Inv P s) (hfinal : s.main.Final) : s.main = outcome P := by
  have hjoined := h.joined
  unfold outcome
  cases hmain : s.main with
  | spawning i => rw [hmain] at hfinal; exact hfinal.elim
  | joining i results => rw [hmain] at hfinal; exact hfinal.elim
  | leaving => rw [hmain] at hfinal; exact hfinal.elim
  | returned results =>
    rw [hmain] at hjoined
    cases hjoined with
    | returned collected =>
      have hsound : ¬ P.Fails := by
        intro hfails
        obtain ⟨hunwraps, i, hi, hnone⟩ := hfails
        exact collected.sound hunwraps i hi hnone
      rw [if_neg hsound, collected.eq]
  | panicked =>
    rw [hmain] at hjoined
    cases hjoined with
    | panicked fails inScope => rw [if_pos fails]

/-- At the end of a scope no thread is left. -/
theorem Inv.final_ended (h : Inv P s) (hfinal : s.main.Final)
    (hscope : P.inScope = true ∨ ¬ P.Fails) (hi : i < P.threads) :
    (s.thread i).hasEnded = true := by
  have hjoined := h.joined
  cases hmain : s.main with
  | spawning i => rw [hmain] at hfinal; exact hfinal.elim
  | joining i results => rw [hmain] at hfinal; exact hfinal.elim
  | leaving => rw [hmain] at hfinal; exact hfinal.elim
  | returned results =>
    rw [hmain] at hjoined
    cases hjoined with
    | returned collected => exact collected.ended i hi
  | panicked =>
    rw [hmain] at hjoined
    cases hjoined with
    | panicked fails inScope => exact inScope (hscope.resolve_right (not_not_intro fails)) i hi

theorem Inv.run {l : List Action} (hrun : Execution.run (ForkJoin.step P) (initial P) l = some s) :
    Inv P s :=
  (Reach.init.run hrun).invariant (Inv.new P) fun _ _ _ hinv _ hs => hinv.step hs

theorem run_length_le_threads {l : List Action}
    (hrun : run (step P) (initial P) l = some s) : l.length ≤ 3 * P.threads + 2 := by
  have hlength := run_length_le (I := Inv P) (measure P)
    (fun s a s' hinv hs => ⟨hinv.step hs, measure_lt hinv hs⟩) (Inv.new P) hrun
  have hthreads : total (fun _ => weight) P.threads (initial P).thread = P.threads * 2 :=
    total_of_forall fun i _ => rfl
  have hmain : mainWeight P (initial P).main ≤ P.threads + 2 := mainWeight_spawnFrom 0
  have hinitial : measure P (initial P) =
    mainWeight P (initial P).main + total (fun _ => weight) P.threads (initial P).thread := rfl
  omega

/-- What is common to all interleavings. -/
structure Settles (P : Program α) (l : List Action) (s : State α) : Prop where
  progress : s.main.Final ∨ ∃ a s', step P s a = some s'
  bounded : l.length ≤ 3 * P.threads + 2
  final : s.main.Final → s.main = outcome P
  ended : s.main.Final → P.inScope = true ∨ ¬ P.Fails → ∀ i < P.threads, (s.thread i).hasEnded

theorem run_settles {l : List Action} (hrun : run (step P) (initial P) l = some s) :
    Settles P l s := by
  have h := Inv.run hrun
  exact ⟨progress h, run_length_le_threads hrun, h.final_eq,
    fun hfinal hscope i hi => h.final_ended hfinal hscope hi⟩

end OsCamp.ForkJoin
