import OsCamp.Execution
import OsCamp.Weights

/-!
Threads that update a value behind a mutex, spawned and joined by a main thread.
A thread that panics with the mutex held poisons it, and then every lock and
the join of that thread panic in turn. In every interleaving the value is the
result of the updates one after another, in the order of the critical sections.
-/

set_option autoImplicit false

namespace OsCamp.LockedWorkers

open Execution Weights

/-- Thread `i` has `sections i` critical sections, each one `update i`, which may panic. -/
structure Program (σ : Type*) where
  threads : ℕ
  sections : ℕ → ℕ
  update : ℕ → σ → Option σ
  init : σ

/-- `leaving` is a thread behind its update with the mutex still held. -/
inductive Thread
  | unborn
  | outside (left : ℕ)
  | inside (left : ℕ)
  | leaving (left : ℕ)
  | ended
  | panicked
  deriving DecidableEq

inductive Main (σ : Type*)
  | spawning (i : ℕ)
  | joining (i : ℕ)
  | returned (value : σ)
  | panicked
  deriving DecidableEq

structure State (σ : Type*) where
  main : Main σ
  thread : ℕ → Thread
  holder : Option ℕ
  poisoned : Bool
  value : σ

inductive Action
  | spawn
  | lock (i : ℕ)
  | update (i : ℕ)
  | unlock (i : ℕ)
  | finish (i : ℕ)
  | join
  | read

variable {σ : Type*}

def State.setThread (s : State σ) (i : ℕ) (t : Thread) : State σ :=
  { s with thread := Function.update s.thread i t }

/-- The main thread before the spawn of thread `i`, or before the joins. -/
def Program.spawnFrom (P : Program σ) (i : ℕ) : Main σ :=
  if i < P.threads then .spawning i else .joining 0

def initial (P : Program σ) : State σ := ⟨P.spawnFrom 0, fun _ => .unborn, none, false, P.init⟩

def step (P : Program σ) (s : State σ) : Action → Option (State σ)
  | .spawn =>
    match s.main with
    | .spawning i =>
      some { s.setThread i (.outside (P.sections i)) with main := P.spawnFrom (i + 1) }
    | _ => none
  | .lock i =>
    match s.thread i with
    | .outside (left + 1) =>
      if s.holder = none then
        some (if s.poisoned then s.setThread i .panicked
          else { s.setThread i (.inside left) with holder := some i })
      else none
    | _ => none
  | .update i =>
    match s.thread i with
    | .inside left =>
      match P.update i s.value with
      | some v => some { s.setThread i (.leaving left) with value := v }
      | none => some { s.setThread i .panicked with holder := none, poisoned := true }
    | _ => none
  | .unlock i =>
    match s.thread i with
    | .leaving left => some { s.setThread i (.outside left) with holder := none }
    | _ => none
  | .finish i =>
    match s.thread i with
    | .outside 0 => some (s.setThread i .ended)
    | _ => none
  | .join =>
    match s.main with
    | .joining i =>
      if i < P.threads then
        match s.thread i with
        | .ended => some { s with main := .joining (i + 1) }
        | .panicked => some { s with main := .panicked }
        | _ => none
      else none
    | _ => none
  | .read =>
    match s.main with
    | .joining i =>
      if i < P.threads then none
      else if s.holder = none then
        some { s with main := if s.poisoned then .panicked else .returned s.value }
      else none
    | _ => none

/-- What each action does, and where it is enabled. -/
inductive Moved (P : Program σ) (s : State σ) : Action → State σ → Prop
  | spawn {i : ℕ} (main : s.main = .spawning i) :
      Moved P s .spawn
        { s.setThread i (.outside (P.sections i)) with main := P.spawnFrom (i + 1) }
  | lock {i left : ℕ} (thread : s.thread i = .outside (left + 1)) (free : s.holder = none)
      (sound : s.poisoned = false) :
      Moved P s (.lock i) { s.setThread i (.inside left) with holder := some i }
  | lockPoisoned {i left : ℕ} (thread : s.thread i = .outside (left + 1)) (free : s.holder = none)
      (poisoned : s.poisoned = true) : Moved P s (.lock i) (s.setThread i .panicked)
  | update {i left : ℕ} {v : σ} (thread : s.thread i = .inside left)
      (result : P.update i s.value = some v) :
      Moved P s (.update i) { s.setThread i (.leaving left) with value := v }
  | updatePanics {i left : ℕ} (thread : s.thread i = .inside left)
      (result : P.update i s.value = none) :
      Moved P s (.update i) { s.setThread i .panicked with holder := none, poisoned := true }
  | unlock {i left : ℕ} (thread : s.thread i = .leaving left) :
      Moved P s (.unlock i) { s.setThread i (.outside left) with holder := none }
  | finish {i : ℕ} (thread : s.thread i = .outside 0) : Moved P s (.finish i) (s.setThread i .ended)
  | join {i : ℕ} (main : s.main = .joining i) (lt : i < P.threads) (thread : s.thread i = .ended) :
      Moved P s .join { s with main := .joining (i + 1) }
  | joinPanics {i : ℕ} (main : s.main = .joining i) (lt : i < P.threads)
      (thread : s.thread i = .panicked) : Moved P s .join { s with main := .panicked }
  | read {i : ℕ} (main : s.main = .joining i) (ge : ¬ i < P.threads) (sound : s.poisoned = false) :
      Moved P s .read { s with main := .returned s.value }
  | readPanics {i : ℕ} (main : s.main = .joining i) (ge : ¬ i < P.threads)
      (poisoned : s.poisoned = true) : Moved P s .read { s with main := .panicked }

variable {P : Program σ} {s s' : State σ} {a : Action} {log : List ℕ} {i j left : ℕ} {t : Thread}

theorem step_moved (hs : step P s a = some s') : Moved P s a s' := by
  cases a with
  | spawn =>
    cases hmain : s.main <;> simp only [step, hmain] at hs
    case spawning i =>
      cases hs
      exact .spawn hmain
    all_goals cases hs
  | lock i =>
    unfold step at hs
    simp only at hs
    split at hs
    · rename_i left hthread
      obtain ⟨hfree, hres⟩ := Option.ite_none_right_eq_some.mp hs
      cases hres
      split_ifs with hpoisoned
      · exact .lockPoisoned hthread hfree hpoisoned
      · exact .lock hthread hfree (Bool.eq_false_iff.mpr hpoisoned)
    · cases hs
  | update i =>
    cases hthread : s.thread i <;> simp only [step, hthread] at hs
    case inside left =>
      cases hresult : P.update i s.value with
      | some v =>
        rw [hresult] at hs
        cases hs
        exact .update hthread hresult
      | none =>
        rw [hresult] at hs
        cases hs
        exact .updatePanics hthread hresult
    all_goals cases hs
  | unlock i =>
    cases hthread : s.thread i <;> simp only [step, hthread] at hs
    case leaving left =>
      cases hs
      exact .unlock hthread
    all_goals cases hs
  | finish i =>
    unfold step at hs
    simp only at hs
    split at hs
    · rename_i hthread
      cases hs
      exact .finish hthread
    · cases hs
  | join =>
    cases hmain : s.main <;> simp only [step, hmain] at hs
    case joining i =>
      obtain ⟨hlt, hres⟩ := Option.ite_none_right_eq_some.mp hs
      cases hthread : s.thread i <;> simp only [hthread] at hres
      case ended =>
        cases hres
        exact .join hmain hlt hthread
      case panicked =>
        cases hres
        exact .joinPanics hmain hlt hthread
      all_goals cases hres
    all_goals cases hs
  | read =>
    cases hmain : s.main <;> simp only [step, hmain] at hs
    case joining i =>
      obtain ⟨hge, hrest⟩ := Option.ite_none_left_eq_some.mp hs
      obtain ⟨-, hres⟩ := Option.ite_none_right_eq_some.mp hrest
      cases hres
      split_ifs with hpoisoned
      · exact .readPanics hmain hge hpoisoned
      · exact .read hmain hge (Bool.eq_false_iff.mpr hpoisoned)
    all_goals cases hs

/-- How many threads have been spawned. -/
def spawned (P : Program σ) : Main σ → ℕ
  | .spawning i => i
  | _ => P.threads

/-- Where thread `i` may stand with `count` of its critical sections behind it. -/
inductive Placed (P : Program σ) (s : State σ) (i count : ℕ) : Thread → Prop
  | unborn (le : spawned P s.main ≤ i) (zero : count = 0) : Placed P s i count .unborn
  | outside {left : ℕ} (lt : i < spawned P s.main) (sum : count + left = P.sections i) :
      Placed P s i count (.outside left)
  | inside {left : ℕ} (lt : i < spawned P s.main) (sum : count + left + 1 = P.sections i) :
      Placed P s i count (.inside left)
  | leaving {left : ℕ} (lt : i < spawned P s.main) (sum : count + left = P.sections i) :
      Placed P s i count (.leaving left)
  | ended (lt : i < spawned P s.main) (all : count = P.sections i) : Placed P s i count .ended
  | panicked (lt : i < spawned P s.main) (some : count < P.sections i)
      (poisoned : s.poisoned = true) : Placed P s i count .panicked

def Thread.holds : Thread → Prop
  | .inside _ => True
  | .leaving _ => True
  | _ => False

def Thread.runs : Thread → Prop
  | .outside _ => True
  | .inside _ => True
  | .leaving _ => True
  | _ => False

/-- A poisoned mutex stays as the panicking thread has left it. -/
structure Poison (P : Program σ) (s : State σ) (log : List ℕ) : Prop where
  free : s.poisoned = true → s.holder = none
  cause : s.poisoned = true →
    ∃ i < P.threads, log.count i < P.sections i ∧ P.update i s.value = none

structure Joined (P : Program σ) (s : State σ) : Prop where
  spawning : ∀ i, s.main = .spawning i → i < P.threads
  joining : ∀ i, s.main = .joining i → i ≤ P.threads ∧ ∀ j < i, s.thread j = .ended
  returned : ∀ v, s.main = .returned v → v = s.value ∧ ∀ j < P.threads, s.thread j = .ended
  panicked : s.main = .panicked → s.poisoned = true ∧ ∃ i < P.threads, s.thread i = .panicked

/-- `log` holds the threads in the order of their critical sections. -/
structure Inv (P : Program σ) (s : State σ) (log : List ℕ) : Prop where
  applied : log.foldlM (fun v i => P.update i v) P.init = some s.value
  placed : ∀ i, Placed P s i (log.count i) (s.thread i)
  held : ∀ i, s.holder = some i ↔ (s.thread i).holds
  poison : Poison P s log
  joined : Joined P s

theorem thread_setThread_self (s : State σ) (i : ℕ) (t : Thread) :
    (s.setThread i t).thread i = t := Function.update_self _ _ _

theorem thread_setThread_of_ne (s : State σ) (t : Thread) (hj : j ≠ i) :
    (s.setThread i t).thread j = s.thread j := Function.update_of_ne hj _ _

/-- Where a thread may stand depends on whether it is born, and on the poison. -/
theorem Placed.congr {count : ℕ} (h : Placed P s i count t)
    (hborn : i < spawned P s'.main ↔ i < spawned P s.main)
    (hpoisoned : s.poisoned = true → s'.poisoned = true) : Placed P s' i count t := by
  cases h with
  | unborn le zero => exact .unborn (by omega) zero
  | outside lt sum => exact .outside (hborn.mpr lt) sum
  | inside lt sum => exact .inside (hborn.mpr lt) sum
  | leaving lt sum => exact .leaving (hborn.mpr lt) sum
  | ended lt all => exact .ended (hborn.mpr lt) all
  | panicked lt some poisoned => exact .panicked (hborn.mpr lt) some (hpoisoned poisoned)

theorem Placed.lt_of_runs {count : ℕ} (h : Placed P s i count t) (ht : t.runs) :
    i < spawned P s.main := by
  cases h with
  | unborn le zero => exact ht.elim
  | outside lt sum => exact lt
  | inside lt sum => exact lt
  | leaving lt sum => exact lt
  | ended lt all => exact ht.elim
  | panicked lt some poisoned => exact ht.elim

theorem Placed.unborn_of_ge {count : ℕ} (h : Placed P s i count t) (hge : spawned P s.main ≤ i) :
    t = .unborn ∧ count = 0 := by
  cases h with
  | unborn le zero => exact ⟨rfl, zero⟩
  | outside lt sum => omega
  | inside lt sum => omega
  | leaving lt sum => omega
  | ended lt all => omega
  | panicked lt some poisoned => omega

theorem Joined.spawned_le (h : Joined P s) : spawned P s.main ≤ P.threads := by
  cases hmain : s.main with
  | spawning i => exact Nat.le_of_lt (h.spawning i hmain)
  | joining i => exact Nat.le_refl _
  | returned v => exact Nat.le_refl _
  | panicked => exact Nat.le_refl _

theorem spawned_spawnFrom (hi : i ≤ P.threads) : spawned P (P.spawnFrom i) = i := by
  unfold Program.spawnFrom
  split_ifs with hlt
  · rfl
  · exact Nat.le_antisymm (Nat.le_of_not_lt hlt) hi

/-- The main thread goes on spawning, or starts to join. -/
theorem joined_spawnFrom (hmain : s.main = P.spawnFrom i) : Joined P s := by
  unfold Program.spawnFrom at hmain
  split_ifs at hmain with hlt
  · refine ⟨?_, ?_, ?_, ?_⟩
    · intro k hk
      cases hmain.symm.trans hk
      exact hlt
    · exact fun k hk => nomatch hmain.symm.trans hk
    · exact fun v hv => nomatch hmain.symm.trans hv
    · exact fun hp => nomatch hmain.symm.trans hp
  · refine ⟨?_, ?_, ?_, ?_⟩
    · exact fun k hk => nomatch hmain.symm.trans hk
    · intro k hk
      cases hmain.symm.trans hk
      exact ⟨Nat.zero_le _, fun j hj => absurd hj (Nat.not_lt_zero j)⟩
    · exact fun v hv => nomatch hmain.symm.trans hv
    · exact fun hp => nomatch hmain.symm.trans hp

namespace Inv

/-- A thread that runs is one the main thread still waits for. -/
theorem not_returned (h : Inv P s log) (hruns : (s.thread i).runs) (v : σ) :
    s.main ≠ .returned v := by
  intro hmain
  have hlt := (h.placed i).lt_of_runs hruns
  rw [hmain] at hlt
  rw [(h.joined.returned v hmain).2 i hlt] at hruns
  exact hruns

/-- The step of one running thread leaves the joins as they are. -/
theorem joined_thread (h : Inv P s log) (hruns : (s.thread i).runs) (hmain : s'.main = s.main)
    (hthread : ∀ j, j ≠ i → s'.thread j = s.thread j)
    (hpoisoned : s.poisoned = true → s'.poisoned = true) : Joined P s' := by
  have hstill : ∀ j, ¬ (s.thread j).runs → j ≠ i := fun j hj heq => hj (heq ▸ hruns)
  refine ⟨fun k hk => h.joined.spawning k (hmain ▸ hk), ?_,
    fun v hv => absurd (hmain ▸ hv) (h.not_returned hruns v), ?_⟩
  · intro k hk
    obtain ⟨hle, hended⟩ := h.joined.joining k (hmain ▸ hk)
    refine ⟨hle, ?_⟩
    intro j hj
    rw [hthread j (hstill j (by rw [hended j hj]; exact id))]
    exact hended j hj
  · intro hp
    obtain ⟨hbefore, j, hj, hpanicked⟩ := h.joined.panicked (hmain ▸ hp)
    have hji := hstill j (by rw [hpanicked]; exact id)
    exact ⟨hpoisoned hbefore, j, hj, (hthread j hji).trans hpanicked⟩

/-- One thread moves, and the others stand where they stood. -/
theorem placed_thread (h : Inv P s log) {log' : List ℕ} (hmain : s'.main = s.main)
    (hpoisoned : s.poisoned = true → s'.poisoned = true)
    (hthread : ∀ j, j ≠ i → s'.thread j = s.thread j)
    (hcount : ∀ j, j ≠ i → log'.count j = log.count j)
    (hi : Placed P s' i (log'.count i) (s'.thread i)) (j : ℕ) :
    Placed P s' j (log'.count j) (s'.thread j) := by
  by_cases hj : j = i
  · rw [hj]
    exact hi
  · rw [hthread j hj, hcount j hj]
    exact (h.placed j).congr (by rw [hmain]) hpoisoned

theorem new (P : Program σ) : Inv P (initial P) [] where
  applied := rfl
  placed i := by
    refine .unborn ?_ rfl
    rw [initial, spawned_spawnFrom (Nat.zero_le _)]
    exact Nat.zero_le i
  held i := iff_of_false (fun hi => nomatch hi) fun hi => hi
  poison := ⟨(fun hp => nomatch hp), fun hp => nomatch hp⟩
  joined := joined_spawnFrom rfl

theorem spawn (h : Inv P s log) (hmain : s.main = .spawning i) :
    Inv P { s.setThread i (.outside (P.sections i)) with main := P.spawnFrom (i + 1) } log := by
  have hlt := h.joined.spawning i hmain
  have hspawned : spawned P (P.spawnFrom (i + 1)) = i + 1 := spawned_spawnFrom hlt
  have hunborn := (h.placed i).unborn_of_ge (by rw [hmain]; exact Nat.le_refl i)
  refine { applied := h.applied, placed := ?_, held := ?_,
           poison := ⟨h.poison.free, h.poison.cause⟩, joined := joined_spawnFrom rfl }
  · intro j
    show Placed P _ j _ ((s.setThread i (.outside (P.sections i))).thread j)
    by_cases hj : j = i
    · rw [hj, thread_setThread_self, hunborn.2]
      refine .outside ?_ (Nat.zero_add _)
      simp only [hspawned]
      exact Nat.lt_succ_self i
    · rw [thread_setThread_of_ne s _ hj]
      have hbefore : spawned P s.main = i := by rw [hmain]; rfl
      refine (h.placed j).congr ?_ id
      simp only [hspawned, hbefore]
      omega
  · intro j
    show s.holder = some j ↔ ((s.setThread i (.outside (P.sections i))).thread j).holds
    by_cases hj : j = i
    · rw [hj, thread_setThread_self, h.held, hunborn.1]
      exact Iff.rfl
    · rw [thread_setThread_of_ne s _ hj]
      exact h.held j

/-- Nobody else holds the mutex that a thread holds. -/
theorem alone (h : Inv P s log) (hi : (s.thread i).holds) (hj : j ≠ i) : ¬ (s.thread j).holds := by
  intro hheld
  have hsame := ((h.held j).mpr hheld).symm.trans ((h.held i).mpr hi)
  exact hj (Option.some.inj hsame)

theorem lock (h : Inv P s log) (hthread : s.thread i = .outside (left + 1))
    (hfree : s.holder = none) (hsound : s.poisoned = false) :
    Inv P { s.setThread i (.inside left) with holder := some i } log := by
  have hplaced := h.placed i
  rw [hthread] at hplaced
  obtain ⟨hlt, hsum⟩ : i < spawned P s.main ∧ log.count i + (left + 1) = P.sections i := by
    cases hplaced with
    | outside lt sum => exact ⟨lt, sum⟩
  have hruns : (s.thread i).runs := by rw [hthread]; trivial
  refine { applied := h.applied, placed := ?_, held := ?_, poison := ⟨?_, ?_⟩, joined := ?_ }
  · refine h.placed_thread rfl id (fun j hj => thread_setThread_of_ne s _ hj) (fun _ _ => rfl) ?_
    rw [thread_setThread_self]
    exact .inside hlt (by omega)
  · intro j
    show some i = some j ↔ ((s.setThread i (.inside left)).thread j).holds
    by_cases hj : j = i
    · rw [hj, thread_setThread_self]
      exact iff_of_true rfl trivial
    · rw [thread_setThread_of_ne s _ hj, ← h.held j, hfree]
      exact iff_of_false (fun heq => hj (Option.some.inj heq).symm) fun hnone => nomatch hnone
  · exact fun hp => nomatch hsound.symm.trans hp
  · exact h.poison.cause
  · exact h.joined_thread hruns rfl (fun j hj => thread_setThread_of_ne s _ hj) id

/-- A thread that finds the mutex poisoned panics without entering. -/
theorem lockPoisoned (h : Inv P s log) (hthread : s.thread i = .outside (left + 1))
    (hpoisoned : s.poisoned = true) : Inv P (s.setThread i .panicked) log := by
  have hplaced := h.placed i
  rw [hthread] at hplaced
  obtain ⟨hlt, hsum⟩ : i < spawned P s.main ∧ log.count i + (left + 1) = P.sections i := by
    cases hplaced with
    | outside lt sum => exact ⟨lt, sum⟩
  have hruns : (s.thread i).runs := by rw [hthread]; trivial
  refine { applied := h.applied, placed := ?_, held := ?_,
           poison := ⟨h.poison.free, h.poison.cause⟩, joined := ?_ }
  · refine h.placed_thread rfl id (fun j hj => thread_setThread_of_ne s _ hj) (fun _ _ => rfl) ?_
    rw [thread_setThread_self]
    exact .panicked hlt (by omega) hpoisoned
  · intro j
    show s.holder = some j ↔ ((s.setThread i .panicked).thread j).holds
    by_cases hj : j = i
    · rw [hj, thread_setThread_self, h.held, hthread]
      exact Iff.rfl
    · rw [thread_setThread_of_ne s _ hj]
      exact h.held j
  · exact h.joined_thread hruns rfl (fun j hj => thread_setThread_of_ne s _ hj) id

theorem count_concat_of_ne (log : List ℕ) (hj : j ≠ i) : (log ++ [i]).count j = log.count j := by
  rw [List.count_append, List.count_singleton, beq_false_of_ne (Ne.symm hj)]
  rfl

/-- A critical section takes its place at the end of the order. -/
theorem update (h : Inv P s log) (hthread : s.thread i = .inside left) {v : σ}
    (hresult : P.update i s.value = some v) :
    Inv P { s.setThread i (.leaving left) with value := v } (log ++ [i]) := by
  have hplaced := h.placed i
  rw [hthread] at hplaced
  obtain ⟨hlt, hsum⟩ : i < spawned P s.main ∧ log.count i + left + 1 = P.sections i := by
    cases hplaced with
    | inside lt sum => exact ⟨lt, sum⟩
  have hholds : (s.thread i).holds := by rw [hthread]; trivial
  have hruns : (s.thread i).runs := by rw [hthread]; trivial
  have hholder := (h.held i).mpr hholds
  have hsound : s.poisoned = true → False := fun hp => nomatch (h.poison.free hp).symm.trans hholder
  refine { applied := ?_, placed := ?_, held := ?_, poison := ⟨?_, ?_⟩, joined := ?_ }
  · rw [List.foldlM_append, h.applied]
    simp [hresult]
  · refine h.placed_thread rfl id (fun j hj => thread_setThread_of_ne s _ hj)
      (fun j hj => count_concat_of_ne log hj) ?_
    rw [thread_setThread_self, List.count_append, List.count_singleton_self]
    exact .leaving hlt (by omega)
  · intro j
    show s.holder = some j ↔ ((s.setThread i (.leaving left)).thread j).holds
    by_cases hj : j = i
    · rw [hj, thread_setThread_self]
      exact iff_of_true hholder trivial
    · rw [thread_setThread_of_ne s _ hj]
      exact h.held j
  · exact fun hp => (hsound hp).elim
  · exact fun hp => (hsound hp).elim
  · exact h.joined_thread hruns rfl (fun j hj => thread_setThread_of_ne s _ hj) id

/-- A panic with the mutex held poisons it, and the value stays. -/
theorem updatePanics (h : Inv P s log) (hthread : s.thread i = .inside left)
    (hresult : P.update i s.value = none) :
    Inv P { s.setThread i .panicked with holder := none, poisoned := true } log := by
  have hplaced := h.placed i
  rw [hthread] at hplaced
  obtain ⟨hlt, hsum⟩ : i < spawned P s.main ∧ log.count i + left + 1 = P.sections i := by
    cases hplaced with
    | inside lt sum => exact ⟨lt, sum⟩
  have hholds : (s.thread i).holds := by rw [hthread]; trivial
  have hruns : (s.thread i).runs := by rw [hthread]; trivial
  have hthreads := Nat.lt_of_lt_of_le hlt h.joined.spawned_le
  refine { applied := h.applied, placed := ?_, held := ?_, poison := ⟨?_, ?_⟩, joined := ?_ }
  · refine h.placed_thread rfl (fun _ => rfl) (fun j hj => thread_setThread_of_ne s _ hj)
      (fun _ _ => rfl) ?_
    rw [thread_setThread_self]
    exact .panicked hlt (by omega) rfl
  · intro j
    show none = some j ↔ ((s.setThread i .panicked).thread j).holds
    by_cases hj : j = i
    · rw [hj, thread_setThread_self]
      exact iff_of_false (fun hnone => nomatch hnone) id
    · rw [thread_setThread_of_ne s _ hj]
      exact iff_of_false (fun hnone => nomatch hnone) (h.alone hholds hj)
  · exact fun _ => rfl
  · exact fun _ => ⟨i, hthreads, by omega, hresult⟩
  · exact h.joined_thread hruns rfl (fun j hj => thread_setThread_of_ne s _ hj) fun _ => rfl

theorem unlock (h : Inv P s log) (hthread : s.thread i = .leaving left) :
    Inv P { s.setThread i (.outside left) with holder := none } log := by
  have hplaced := h.placed i
  rw [hthread] at hplaced
  obtain ⟨hlt, hsum⟩ : i < spawned P s.main ∧ log.count i + left = P.sections i := by
    cases hplaced with
    | leaving lt sum => exact ⟨lt, sum⟩
  have hholds : (s.thread i).holds := by rw [hthread]; trivial
  have hruns : (s.thread i).runs := by rw [hthread]; trivial
  refine { applied := h.applied, placed := ?_, held := ?_, poison := ⟨fun _ => rfl, h.poison.cause⟩,
           joined := ?_ }
  · refine h.placed_thread rfl id (fun j hj => thread_setThread_of_ne s _ hj) (fun _ _ => rfl) ?_
    rw [thread_setThread_self]
    exact .outside hlt hsum
  · intro j
    show none = some j ↔ ((s.setThread i (.outside left)).thread j).holds
    by_cases hj : j = i
    · rw [hj, thread_setThread_self]
      exact iff_of_false (fun hnone => nomatch hnone) id
    · rw [thread_setThread_of_ne s _ hj]
      exact iff_of_false (fun hnone => nomatch hnone) (h.alone hholds hj)
  · exact h.joined_thread hruns rfl (fun j hj => thread_setThread_of_ne s _ hj) id

theorem finish (h : Inv P s log) (hthread : s.thread i = .outside 0) :
    Inv P (s.setThread i .ended) log := by
  have hplaced := h.placed i
  rw [hthread] at hplaced
  obtain ⟨hlt, hsum⟩ : i < spawned P s.main ∧ log.count i + 0 = P.sections i := by
    cases hplaced with
    | outside lt sum => exact ⟨lt, sum⟩
  have hruns : (s.thread i).runs := by rw [hthread]; trivial
  refine { applied := h.applied, placed := ?_, held := ?_,
           poison := ⟨h.poison.free, h.poison.cause⟩, joined := ?_ }
  · refine h.placed_thread rfl id (fun j hj => thread_setThread_of_ne s _ hj) (fun _ _ => rfl) ?_
    rw [thread_setThread_self]
    exact .ended hlt hsum
  · intro j
    show s.holder = some j ↔ ((s.setThread i .ended).thread j).holds
    by_cases hj : j = i
    · rw [hj, thread_setThread_self, h.held, hthread]
      exact Iff.rfl
    · rw [thread_setThread_of_ne s _ hj]
      exact h.held j
  · exact h.joined_thread hruns rfl (fun j hj => thread_setThread_of_ne s _ hj) id

/-- A step of the main thread behind the spawns moves nothing else. -/
theorem main_step (h : Inv P s log) {main : Main σ} (hmain : spawned P main = spawned P s.main)
    (hjoined : Joined P { s with main := main }) : Inv P { s with main := main } log where
  applied := h.applied
  placed i := (h.placed i).congr (by simp only [hmain]) id
  held := h.held
  poison := ⟨h.poison.free, h.poison.cause⟩
  joined := hjoined

/-- Behind the joins of threads that have all ended, the mutex is not poisoned. -/
theorem sound_of_joined (h : Inv P s log) (hmain : s.main = .joining i) (hge : ¬ i < P.threads) :
    s.poisoned = false := by
  apply Bool.eq_false_iff.mpr
  intro hpoisoned
  obtain ⟨j, hj, hcount, -⟩ := h.poison.cause hpoisoned
  have hplaced := h.placed j
  rw [(h.joined.joining i hmain).2 j (by omega)] at hplaced
  cases hplaced with
  | ended lt all => omega

theorem step (h : Inv P s log) (hs : LockedWorkers.step P s a = some s') :
    ∃ log', Inv P s' log' := by
  cases step_moved hs with
  | spawn hmain => exact ⟨log, h.spawn hmain⟩
  | lock hthread hfree hsound => exact ⟨log, h.lock hthread hfree hsound⟩
  | lockPoisoned hthread hfree hpoisoned => exact ⟨log, h.lockPoisoned hthread hpoisoned⟩
  | @update i left v hthread hresult => exact ⟨log ++ [i], h.update hthread hresult⟩
  | updatePanics hthread hresult => exact ⟨log, h.updatePanics hthread hresult⟩
  | unlock hthread => exact ⟨log, h.unlock hthread⟩
  | finish hthread => exact ⟨log, h.finish hthread⟩
  | @join i hmain hlt hthread =>
    have hended := (h.joined.joining i hmain).2
    refine ⟨log, h.main_step (by rw [hmain]; rfl) ⟨?_, ?_, ?_, ?_⟩⟩
    · exact fun k hk => nomatch hk
    · intro k hk
      cases hk
      refine ⟨hlt, ?_⟩
      intro j hj
      rcases Nat.lt_succ_iff_lt_or_eq.mp hj with hlt' | heq
      · exact hended j hlt'
      · rw [heq]
        exact hthread
    · exact fun v hv => nomatch hv
    · exact fun hp => nomatch hp
  | @joinPanics i hmain hlt hthread =>
    have hpoisoned : s.poisoned = true := by
      have hplaced := h.placed i
      rw [hthread] at hplaced
      cases hplaced with
      | panicked lt some poisoned => exact poisoned
    refine ⟨log, h.main_step (by rw [hmain]; rfl) ⟨?_, ?_, ?_, ?_⟩⟩
    · exact fun k hk => nomatch hk
    · exact fun k hk => nomatch hk
    · exact fun v hv => nomatch hv
    · exact fun _ => ⟨hpoisoned, i, hlt, hthread⟩
  | @read i hmain hge hsound =>
    obtain ⟨hle, hended⟩ := h.joined.joining i hmain
    refine ⟨log, h.main_step (by rw [hmain]; rfl) ⟨?_, ?_, ?_, fun hp => nomatch hp⟩⟩
    · exact fun k hk => nomatch hk
    · exact fun k hk => nomatch hk
    · intro v hv
      cases hv
      exact ⟨rfl, fun j hj => hended j (by omega)⟩
  | readPanics hmain hge hpoisoned =>
    have hsound := h.sound_of_joined hmain hge
    exact absurd (hsound.symm.trans hpoisoned) Bool.false_ne_true

end Inv

def Main.Final : Main σ → Prop
  | .returned _ => True
  | .panicked => True
  | _ => False

/-- The thread that holds the mutex can go on. -/
theorem holder_moves (P : Program σ) (hi : (s.thread i).holds) : ∃ a s', step P s a = some s' := by
  cases hthread : s.thread i with
  | inside left =>
    cases hresult : P.update i s.value with
    | some v =>
      refine ⟨.update i, { s.setThread i (.leaving left) with value := v }, ?_⟩
      simp only [step, hthread, hresult]
    | none =>
      refine ⟨.update i, { s.setThread i .panicked with holder := none, poisoned := true }, ?_⟩
      simp only [step, hthread, hresult]
  | leaving left =>
    refine ⟨.unlock i, { s.setThread i (.outside left) with holder := none }, ?_⟩
    simp only [step, hthread]
  | unborn => rw [hthread] at hi; exact hi.elim
  | outside left => rw [hthread] at hi; exact hi.elim
  | ended => rw [hthread] at hi; exact hi.elim
  | panicked => rw [hthread] at hi; exact hi.elim

/-- Where a thread runs, some thread can go on: it, or the holder it waits for. -/
theorem running_moves (h : Inv P s log) (hi : (s.thread i).runs) :
    ∃ a s', step P s a = some s' := by
  cases hholder : s.holder with
  | some j => exact holder_moves P ((h.held j).mp hholder)
  | none =>
    cases hthread : s.thread i with
    | outside left =>
      cases left with
      | zero =>
        refine ⟨.finish i, s.setThread i .ended, ?_⟩
        simp only [step, hthread]
      | succ left =>
        refine ⟨.lock i, if s.poisoned then s.setThread i .panicked
          else { s.setThread i (.inside left) with holder := some i }, ?_⟩
        simp only [step, hthread]
        exact if_pos hholder
    | inside left => exact holder_moves P (by rw [hthread]; trivial)
    | leaving left => exact holder_moves P (by rw [hthread]; trivial)
    | unborn => rw [hthread] at hi; exact hi.elim
    | ended => rw [hthread] at hi; exact hi.elim
    | panicked => rw [hthread] at hi; exact hi.elim

theorem progress (h : Inv P s log) : s.main.Final ∨ ∃ a s', step P s a = some s' := by
  cases hmain : s.main with
  | spawning i =>
    refine Or.inr ⟨.spawn,
      { s.setThread i (.outside (P.sections i)) with main := P.spawnFrom (i + 1) }, ?_⟩
    simp only [step, hmain]
  | joining i =>
    right
    by_cases hi : i < P.threads
    · have hplaced := h.placed i
      cases hthread : s.thread i with
      | unborn =>
        rw [hthread] at hplaced
        cases hplaced with
        | unborn le zero =>
          rw [hmain] at le
          exact absurd hi (Nat.not_lt.mpr le)
      | ended =>
        refine ⟨.join, { s with main := .joining (i + 1) }, ?_⟩
        simp only [step, hmain, hthread]
        exact if_pos hi
      | panicked =>
        refine ⟨.join, { s with main := .panicked }, ?_⟩
        simp only [step, hmain, hthread]
        exact if_pos hi
      | outside left => exact running_moves h (i := i) (by rw [hthread]; trivial)
      | inside left => exact running_moves h (i := i) (by rw [hthread]; trivial)
      | leaving left => exact running_moves h (i := i) (by rw [hthread]; trivial)
    · cases hholder : s.holder with
      | some j => exact holder_moves P ((h.held j).mp hholder)
      | none =>
        refine ⟨.read, { s with main := if s.poisoned then .panicked else .returned s.value }, ?_⟩
        simp only [step, hmain]
        exact (if_neg hi).trans (if_pos hholder)
  | returned v => exact Or.inl trivial
  | panicked => exact Or.inl trivial

/-- A bound on the steps that a thread has before it. -/
def weight (sections : ℕ) : Thread → ℕ
  | .unborn => 3 * sections + 2
  | .outside left => 3 * left + 1
  | .inside left => 3 * left + 3
  | .leaving left => 3 * left + 2
  | .ended => 0
  | .panicked => 0

def mainWeight (P : Program σ) : Main σ → ℕ
  | .spawning _ => P.threads + 2
  | .joining i => P.threads + 1 - i
  | .returned _ => 0
  | .panicked => 0

def measure (P : Program σ) (s : State σ) : ℕ :=
  mainWeight P s.main + total (fun i => weight (P.sections i)) P.threads s.thread

/-- A thread that moves to a lighter place lowers the measure. -/
theorem measure_lt_of_thread (h : Inv P s log) (hruns : (s.thread i).runs)
    (hmain : s'.main = s.main) (hthread : s'.thread = (s.setThread i t).thread)
    (hlt : weight (P.sections i) t < weight (P.sections i) (s.thread i)) :
    measure P s' < measure P s := by
  have hi := Nat.lt_of_lt_of_le ((h.placed i).lt_of_runs hruns) h.joined.spawned_le
  unfold measure
  rw [hmain, hthread]
  exact Nat.add_lt_add_left (total_update_lt hi hlt) _

theorem measure_lt (h : Inv P s log) (hs : step P s a = some s') : measure P s' < measure P s := by
  cases step_moved hs with
  | @spawn i hmain =>
    have hi := h.joined.spawning i hmain
    have hunborn := ((h.placed i).unborn_of_ge (by rw [hmain]; exact Nat.le_refl i)).1
    have hmainWeight : mainWeight P (P.spawnFrom (i + 1)) ≤ mainWeight P s.main := by
      rw [hmain]
      unfold Program.spawnFrom
      split_ifs <;> simp only [mainWeight] <;> omega
    have hweight : weight (P.sections i) (.outside (P.sections i)) <
        weight (P.sections i) (s.thread i) := by
      rw [hunborn]
      exact Nat.lt_succ_self _
    exact Nat.add_lt_add_of_le_of_lt hmainWeight (total_update_lt hi hweight)
  | @lock i left hthread hfree hsound =>
    refine measure_lt_of_thread h (i := i) (t := .inside left) (by rw [hthread]; trivial) rfl rfl ?_
    rw [hthread]
    simp only [weight]
    omega
  | @lockPoisoned i left hthread hfree hpoisoned =>
    refine measure_lt_of_thread h (i := i) (t := .panicked) (by rw [hthread]; trivial) rfl rfl ?_
    rw [hthread]
    simp only [weight]
    omega
  | @update i left v hthread hresult =>
    refine measure_lt_of_thread h (i := i) (t := .leaving left)
      (by rw [hthread]; trivial) rfl rfl ?_
    rw [hthread]
    simp only [weight]
    omega
  | @updatePanics i left hthread hresult =>
    refine measure_lt_of_thread h (i := i) (t := .panicked) (by rw [hthread]; trivial) rfl rfl ?_
    rw [hthread]
    simp only [weight]
    omega
  | @unlock i left hthread =>
    refine measure_lt_of_thread h (i := i) (t := .outside left)
      (by rw [hthread]; trivial) rfl rfl ?_
    rw [hthread]
    simp only [weight]
    omega
  | @finish i hthread =>
    refine measure_lt_of_thread h (i := i) (t := .ended) (by rw [hthread]; trivial) rfl rfl ?_
    rw [hthread]
    simp only [weight]
    omega
  | @join i hmain hlt hthread =>
    simp only [measure, hmain, mainWeight]
    omega
  | @joinPanics i hmain hlt hthread =>
    have hle := (h.joined.joining i hmain).1
    simp only [measure, hmain, mainWeight]
    omega
  | @read i hmain hge hsound =>
    have hle := (h.joined.joining i hmain).1
    simp only [measure, hmain, mainWeight]
    omega
  | @readPanics i hmain hge hpoisoned =>
    have hle := (h.joined.joining i hmain).1
    simp only [measure, hmain, mainWeight]
    omega

theorem measure_initial_le (P : Program σ) : measure P (initial P) ≤
    P.threads + 2 + ∑ i ∈ Finset.range P.threads, (3 * P.sections i + 2) := by
  have hmain : mainWeight P (P.spawnFrom 0) ≤ P.threads + 2 := by
    unfold Program.spawnFrom
    split_ifs <;> simp only [mainWeight] <;> omega
  exact Nat.add_le_add_right hmain _

theorem Inv.reach (h : Reachable (LockedWorkers.step P) (initial P) s) : ∃ log, Inv P s log := by
  apply h.invariant (I := fun s => ∃ log, Inv P s log) ⟨[], Inv.new P⟩
  intro s a s' hinv _ hs
  obtain ⟨log, hlog⟩ := hinv
  exact hlog.step hs

theorem run_length_le_measure {l : List Action} (hrun : run (step P) (initial P) l = some s) :
    l.length ≤ P.threads + 2 + ∑ i ∈ Finset.range P.threads, (3 * P.sections i + 2) := by
  have hlen := run_length_le (I := fun s => ∃ log, Inv P s log) (measure P) (by
    intro s a s' hinv hs
    obtain ⟨log, hlog⟩ := hinv
    exact ⟨hlog.step hs, measure_lt hlog hs⟩) ⟨[], Inv.new P⟩ hrun
  have hinit := measure_initial_le P
  omega

theorem Inv.lt_threads (h : Inv P s log) (hi : i ∈ log) : i < P.threads := by
  by_contra hge
  have hspawned := Nat.le_trans h.joined.spawned_le (Nat.le_of_not_lt hge)
  have hcount := ((h.placed i).unborn_of_ge hspawned).2
  exact absurd hcount (Nat.ne_of_gt (List.count_pos_iff.mpr hi))

theorem Inv.count_le (h : Inv P s log) (i : ℕ) : log.count i ≤ P.sections i := by
  have hplaced := h.placed i
  generalize s.thread i = t at hplaced
  cases hplaced with
  | unborn le zero => omega
  | outside lt sum => omega
  | inside lt sum => omega
  | leaving lt sum => omega
  | ended lt all => omega
  | panicked lt some poisoned => omega

theorem Inv.length_eq (h : Inv P s log) :
    log.length = ∑ i ∈ Finset.range P.threads, log.count i := by
  rw [← List.sum_toFinset_count_eq_length]
  apply Finset.sum_subset
  · intro i hi
    exact Finset.mem_range.mpr (h.lt_threads (List.mem_toFinset.mp hi))
  · intro i _ hi
    exact List.count_eq_zero_of_not_mem fun hmem => hi (List.mem_toFinset.mpr hmem)

/-- Where the main thread returns, every thread has run all its critical sections. -/
theorem Inv.returned_count (h : Inv P s log) {v : σ} (hmain : s.main = .returned v)
    (hi : i < P.threads) : log.count i = P.sections i := by
  have hplaced := h.placed i
  rw [(h.joined.returned v hmain).2 i hi] at hplaced
  cases hplaced with
  | ended lt all => exact all

theorem Inv.returned_applied (h : Inv P s log) {v : σ} (hmain : s.main = .returned v) :
    log.foldlM (fun v i => P.update i v) P.init = some v := by
  rw [(h.joined.returned v hmain).1]
  exact h.applied

/-- Where the main thread panics, an update that is still to come has failed. -/
theorem Inv.panicked_cause (h : Inv P s log) (hmain : s.main = .panicked) :
    ∃ i < P.threads, log.count i < P.sections i ∧ P.update i s.value = none :=
  h.poison.cause (h.joined.panicked hmain).1

/-- The main thread panics where it joins a thread, not behind the joins. -/
theorem Inv.read_returns (h : Inv P s log) (hs : LockedWorkers.step P s .read = some s') :
    s'.main = .returned s.value := by
  cases step_moved hs with
  | read hmain hge hsound => rfl
  | readPanics hmain hge hpoisoned =>
    exact absurd ((h.sound_of_joined hmain hge).symm.trans hpoisoned) Bool.false_ne_true

/-- A thread has panicked only where some update fails. -/
theorem Inv.not_panicked (h : Inv P s log) (htotal : ∀ i v, P.update i v ≠ none) (i : ℕ) :
    s.thread i ≠ .panicked := by
  intro hthread
  have hplaced := h.placed i
  rw [hthread] at hplaced
  cases hplaced with
  | panicked lt some poisoned =>
    obtain ⟨j, -, -, hnone⟩ := h.poison.cause poisoned
    exact htotal j s.value hnone

end OsCamp.LockedWorkers
