import Mathlib.Data.List.Count
import OsCamp.Execution

/-!
An executor of futures. A poll returns a result or leaves the future pending,
and may wake its task; only a task in the ready queue is polled, in any order.
A future that wakes its task whenever it stays pending is polled exactly as
often as it needs under every schedule.
-/

set_option autoImplicit false

namespace OsCamp.TaskExecutor

open Execution

variable {S O : Type*}

inductive Poll (O : Type*)
  | ready (out : O)
  | pending
  deriving DecidableEq

/-- What a poll returns, the state it leaves, and whether it woke the task. -/
structure Polled (S O : Type*) where
  result : Poll O
  state : S
  woken : Bool

inductive Task (S O : Type*)
  | queued (state : S)
  | waiting (state : S)
  | done (out : O)
  deriving DecidableEq

/-- A pending task goes back to the ready queue only if it was woken. -/
def advance (polled : Polled S O) : Task S O :=
  match polled.result with
  | .ready out => .done out
  | .pending => if polled.woken then .queued polled.state else .waiting polled.state

def step (poll : S → Polled S O) (tasks : List (Task S O)) (i : ℕ) : Option (List (Task S O)) :=
  match tasks[i]? with
  | some (.queued s) => some (tasks.set i (advance (poll s)))
  | _ => none

def spawn (states : List S) : List (Task S O) := states.map Task.queued

/-- From this state the future is pending `n` times, waking its task each time,
and then ready with `out`. -/
inductive Completes (poll : S → Polled S O) : S → ℕ → O → Prop
  | ready {s : S} {out : O} : (poll s).result = .ready out → Completes poll s 0 out
  | pending {s : S} {n : ℕ} {out : O} : (poll s).result = .pending → (poll s).woken = true →
      Completes poll (poll s).state n out → Completes poll s (n + 1) out

/-- The task is done after `k` more polls, and in the ready queue until then. -/
inductive Left (poll : S → Polled S O) : Task S O → ℕ → O → Prop
  | queued {s : S} {n : ℕ} {out : O} : Completes poll s n out → Left poll (.queued s) (n + 1) out
  | done (out : O) : Left poll (.done out) 0 out

/-- Each task has its own number of polls left. -/
structure Owes (poll : S → Polled S O) (tasks : List (Task S O)) (left : ℕ → ℕ) (out : ℕ → O) :
    Prop where
  task : ∀ i t, tasks[i]? = some t → Left poll t (left i) (out i)
  none : ∀ i, tasks.length ≤ i → left i = 0

variable {poll : S → Polled S O} {tasks tasks' : List (Task S O)} {left : ℕ → ℕ} {out : ℕ → O}
  {t : Task S O} {s : S} {i k n : ℕ} {o : O} {schedule : List ℕ}

theorem Completes.advance (h : Completes poll s n o) :
    Left poll (TaskExecutor.advance (poll s)) n o := by
  cases h with
  | ready hresult =>
    unfold TaskExecutor.advance
    rw [hresult]
    exact .done o
  | pending hresult hwoken hrest =>
    unfold TaskExecutor.advance
    rw [hresult, hwoken]
    exact .queued hrest

/-- A task is in the ready queue exactly while it has polls left. -/
theorem Left.queued_iff (h : Left poll t k o) : (∃ s, t = .queued s) ↔ 0 < k := by
  cases h with
  | queued hs => exact iff_of_true ⟨_, rfl⟩ (Nat.succ_pos _)
  | done => exact iff_of_false (fun ⟨_, hs⟩ => nomatch hs) (Nat.lt_irrefl 0)

theorem Left.done_iff (h : Left poll t k o) : t = .done o ↔ k = 0 := by
  cases h with
  | queued hs => exact iff_of_false (fun hs => nomatch hs) (Nat.succ_ne_zero _)
  | done => exact iff_of_true rfl rfl

/-- No task comes or goes. -/
theorem length_run (hrun : Execution.run (step poll) tasks schedule = some tasks') :
    tasks'.length = tasks.length := by
  induction schedule generalizing tasks with
  | nil =>
    cases hrun
    rfl
  | cons i rest ih =>
    obtain ⟨mid, hs, hrest⟩ := Option.bind_eq_some_iff.mp hrun
    rw [ih hrest]
    unfold step at hs
    split at hs
    · cases hs
      exact List.length_set
    · cases hs

namespace Owes

theorem step_isSome (h : Owes poll tasks left out) (i : ℕ) :
    (TaskExecutor.step poll tasks i).isSome = true ↔ 0 < left i := by
  cases htask : tasks[i]? with
  | none =>
    have hlength : tasks.length ≤ i := List.getElem?_eq_none_iff.mp htask
    rw [h.none i hlength, TaskExecutor.step, htask]
    simp
  | some t =>
    rw [← (h.task i t htask).queued_iff, TaskExecutor.step, htask]
    cases t with
    | queued s => exact iff_of_true rfl ⟨s, rfl⟩
    | waiting s => exact iff_of_false Bool.false_ne_true fun ⟨_, hs⟩ => nomatch hs
    | done o => exact iff_of_false Bool.false_ne_true fun ⟨_, hs⟩ => nomatch hs

/-- A poll takes one off what its task has left and touches no other task. -/
theorem step (h : Owes poll tasks left out) (hs : TaskExecutor.step poll tasks i = some tasks') :
    Owes poll tasks' (Function.update left i (left i - 1)) out := by
  unfold TaskExecutor.step at hs
  split at hs
  · rename_i s htask
    cases hs
    have hlt : i < tasks.length := (List.getElem?_eq_some_iff.mp htask).1
    have hleft := h.task i _ htask
    refine { task := ?_, none := ?_ }
    · intro j t hj
      by_cases hji : j = i
      · subst hji
        rw [List.getElem?_set_self hlt] at hj
        cases hj
        rw [Function.update_self]
        generalize left j = k at hleft
        cases hleft with
        | queued hcompletes => exact hcompletes.advance
      · rw [List.getElem?_set_ne (Ne.symm hji)] at hj
        rw [Function.update_of_ne hji]
        exact h.task j t hj
    · intro j hj
      rw [List.length_set] at hj
      rw [Function.update_of_ne (by omega)]
      exact h.none j hj
  · cases hs

theorem spawn {states : List S} (hpolls : ∀ i s, states[i]? = some s → ∃ n, left i = n + 1 ∧
    Completes poll s n (out i)) (hnone : ∀ i, states.length ≤ i → left i = 0) :
    Owes poll (TaskExecutor.spawn states) left out where
  task i t ht := by
    rw [TaskExecutor.spawn, List.getElem?_map] at ht
    obtain ⟨s, hs, hst⟩ := Option.map_eq_some_iff.mp ht
    obtain ⟨n, hn, hcompletes⟩ := hpolls i s hs
    rw [hn, ← hst]
    exact .queued hcompletes
  none i hi := by
    rw [TaskExecutor.spawn, List.length_map] at hi
    exact hnone i hi

/-- After a run each task has had one poll for each time it was scheduled. -/
theorem run (h : Owes poll tasks left out)
    (hrun : Execution.run (TaskExecutor.step poll) tasks schedule = some tasks') :
    Owes poll tasks' (fun i => left i - schedule.count i) out := by
  induction schedule generalizing tasks left with
  | nil =>
    cases hrun
    exact h
  | cons i rest ih =>
    obtain ⟨mid, hs, hrest⟩ := Option.bind_eq_some_iff.mp hrun
    have howes := ih (h.step hs) hrest
    have hcount : (fun j => Function.update left i (left i - 1) j - rest.count j) =
        fun j => left j - (i :: rest).count j := by
      funext j
      by_cases hji : j = i
      · rw [hji, Function.update_self, List.count_cons_self]
        omega
      · rw [Function.update_of_ne hji, List.count_cons_of_ne (Ne.symm hji)]
    rw [hcount] at howes
    exact howes

/-- A schedule can be run exactly when it polls no task more often than it has left. -/
theorem run_isSome (h : Owes poll tasks left out) (schedule : List ℕ) :
    (Execution.run (TaskExecutor.step poll) tasks schedule).isSome = true ↔
      ∀ i, schedule.count i ≤ left i := by
  induction schedule generalizing tasks left with
  | nil => exact iff_of_true rfl fun i => Nat.zero_le _
  | cons i rest ih =>
    rw [Execution.run]
    cases hs : TaskExecutor.step poll tasks i with
    | none =>
      have hzero : ¬ 0 < left i := by
        rw [← h.step_isSome, hs]
        exact Bool.false_ne_true
      refine iff_of_false Bool.false_ne_true ?_
      intro hall
      have hle := hall i
      rw [List.count_cons_self] at hle
      omega
    | some mid =>
      have hpos : 0 < left i := by
        rw [← h.step_isSome, hs]
        rfl
      rw [Option.bind_some, ih (h.step hs)]
      refine forall_congr' ?_
      intro j
      by_cases hji : j = i
      · rw [hji, Function.update_self, List.count_cons_self]
        omega
      · rw [Function.update_of_ne hji, List.count_cons_of_ne (Ne.symm hji)]

end Owes

end OsCamp.TaskExecutor
