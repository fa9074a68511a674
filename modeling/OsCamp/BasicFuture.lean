import OsCamp.TaskExecutor

/-!
`CountDown` and `YieldOnce`, awaited one after another by tasks of an executor.
Both wake their task whenever they stay pending, so no schedule loses a task:
each is polled once more often than its futures are pending, and then done.
-/

set_option autoImplicit false

namespace OsCamp.BasicFuture

open Execution TaskExecutor

structure CountDown where
  count : UInt32
  deriving DecidableEq

def CountDown.new (count : UInt32) : CountDown := ⟨count⟩

def CountDown.poll (c : CountDown) : Polled CountDown String :=
  if c.count = 0 then ⟨.ready "liftoff!", c, false⟩
  else ⟨.pending, ⟨c.count - 1⟩, true⟩

structure YieldOnce where
  yielded : Bool
  deriving DecidableEq

def YieldOnce.new : YieldOnce := ⟨false⟩

def YieldOnce.poll (y : YieldOnce) : Polled YieldOnce Unit :=
  if y.yielded then ⟨.ready (), y, false⟩
  else ⟨.pending, ⟨true⟩, true⟩

/-- A future that a task awaits. -/
inductive Await
  | countDown (c : CountDown)
  | yieldOnce (y : YieldOnce)
  deriving DecidableEq

inductive Output
  | text (s : String)
  | unit
  deriving DecidableEq

def Await.poll : Await → Polled Await Output
  | .countDown c =>
    match c.poll with
    | ⟨.ready s, c', woken⟩ => ⟨.ready (.text s), .countDown c', woken⟩
    | ⟨.pending, c', woken⟩ => ⟨.pending, .countDown c', woken⟩
  | .yieldOnce y =>
    match y.poll with
    | ⟨.ready _, y', woken⟩ => ⟨.ready .unit, .yieldOnce y', woken⟩
    | ⟨.pending, y', woken⟩ => ⟨.pending, .yieldOnce y', woken⟩

/-- An async body: the futures still to be awaited in order, and the results so far. -/
structure Body where
  rest : List Await
  results : List Output
  deriving DecidableEq

/-- One poll goes through the ready futures and stops at the first pending one. -/
def pollRest : List Await → List Output → Polled Body (List Output)
  | [], results => ⟨.ready results, ⟨[], results⟩, false⟩
  | a :: rest, results =>
    match a.poll with
    | ⟨.ready o, _, _⟩ => pollRest rest (results ++ [o])
    | ⟨.pending, a', woken⟩ => ⟨.pending, ⟨a' :: rest, results⟩, woken⟩

def Body.poll (b : Body) : Polled Body (List Output) := pollRest b.rest b.results

def Body.new (awaits : List Await) : Body := ⟨awaits, []⟩

/-- How often the future is still pending. -/
def Await.pendings : Await → ℕ
  | .countDown c => c.count.toNat
  | .yieldOnce y => if y.yielded then 0 else 1

def Await.output : Await → Output
  | .countDown _ => .text "liftoff!"
  | .yieldOnce _ => .unit

def pendings : List Await → ℕ
  | [] => 0
  | a :: rest => a.pendings + pendings rest

/-- How many polls the task with this body needs, and none for a missing task. -/
def polls (tasks : List (List Await)) (i : ℕ) : ℕ :=
  match tasks[i]? with
  | some awaits => pendings awaits + 1
  | none => 0

def start (tasks : List (List Await)) : List (Task Body (List Output)) :=
  spawn (tasks.map Body.new)

variable {a : Await} {awaits : List Await} {results : List Output} {n : ℕ}
  {tasks : List (List Await)} {schedule : List ℕ}

/-- A future that is pending some more times wakes its task and counts down. -/
theorem Await.poll_pending (h : a.pendings = n + 1) :
    ∃ a', a.poll = ⟨.pending, a', true⟩ ∧ a'.pendings = n ∧ a'.output = a.output := by
  cases a with
  | countDown c =>
    have hcount : c.count.toNat = n + 1 := h
    have hne : c.count ≠ 0 := by
      intro hzero
      rw [hzero] at hcount
      exact absurd hcount (by simp)
    refine ⟨.countDown ⟨c.count - 1⟩, ?_, ?_, rfl⟩
    · rw [Await.poll, CountDown.poll, if_neg hne]
    · have hle : (1 : UInt32) ≤ c.count := by
        rw [UInt32.le_iff_toNat_le, hcount]
        exact Nat.le_add_left 1 n
      show (c.count - 1).toNat = n
      rw [UInt32.toNat_sub_of_le _ _ hle, hcount]
      rfl
  | yieldOnce y =>
    have hyielded : y.yielded = false ∧ n = 0 := by
      have hif : (if y.yielded then 0 else 1) = n + 1 := h
      split_ifs at hif with hy
      exact ⟨Bool.eq_false_iff.mpr hy, by omega⟩
    refine ⟨.yieldOnce ⟨true⟩, ?_, ?_, rfl⟩
    · rw [Await.poll, YieldOnce.poll, hyielded.1]
      rfl
    · rw [hyielded.2]
      rfl

theorem Await.poll_ready (h : a.pendings = 0) :
    ∃ a' woken, a.poll = ⟨.ready a.output, a', woken⟩ := by
  cases a with
  | countDown c =>
    have hcount : c.count = 0 := UInt32.toNat_inj.mp h
    exact ⟨.countDown c, false, by rw [Await.poll, CountDown.poll, if_pos hcount]; rfl⟩
  | yieldOnce y =>
    have hyielded : y.yielded = true := by
      have hif : (if y.yielded then 0 else 1) = 0 := h
      split_ifs at hif with hy
      exact hy
    exact ⟨.yieldOnce y, false, by rw [Await.poll, YieldOnce.poll, if_pos hyielded]; rfl⟩

/-- A ready future in front is passed in the same poll. -/
theorem pollRest_ready (h : a.pendings = 0) :
    pollRest (a :: awaits) results = pollRest awaits (results ++ [a.output]) := by
  obtain ⟨a', woken, hpoll⟩ := Await.poll_ready h
  rw [pollRest, hpoll]

theorem completes_of_ready (h : a.pendings = 0) {out : List Output}
    (hrest : Completes Body.poll ⟨awaits, results ++ [a.output]⟩ n out) :
    Completes Body.poll ⟨a :: awaits, results⟩ n out := by
  have hpoll : Body.poll ⟨a :: awaits, results⟩ = Body.poll ⟨awaits, results ++ [a.output]⟩ :=
    pollRest_ready h
  cases hrest with
  | ready hresult => exact .ready (by rw [hpoll]; exact hresult)
  | pending hresult hwoken hnext =>
    rw [← hpoll] at hresult hwoken hnext
    exact .pending hresult hwoken hnext

/-- A body of futures completes with their outputs, after as many pending polls as they have. -/
theorem completes_body (awaits : List Await) (results : List Output) :
    Completes Body.poll ⟨awaits, results⟩ (pendings awaits)
      (results ++ awaits.map Await.output) := by
  induction awaits generalizing results with
  | nil =>
    rw [List.map_nil, List.append_nil]
    exact .ready rfl
  | cons a rest ih =>
    rw [pendings]
    generalize hn : a.pendings = n
    induction n generalizing a with
    | zero =>
      have hrest := ih (results ++ [a.output])
      rw [List.append_assoc] at hrest
      rw [Nat.zero_add]
      exact completes_of_ready hn hrest
    | succ n ihn =>
      obtain ⟨a', hpoll, hpendings, houtput⟩ := Await.poll_pending hn
      have hbody : Body.poll ⟨a :: rest, results⟩ = ⟨.pending, ⟨a' :: rest, results⟩, true⟩ := by
        rw [Body.poll, pollRest, hpoll]
      have hnext := ihn a' hpendings
      rw [List.map_cons, houtput] at hnext
      rw [Nat.succ_add]
      refine .pending ?_ ?_ ?_
      · rw [hbody]
      · rw [hbody]
      · rw [hbody]
        exact hnext

theorem owes_start (tasks : List (List Await)) :
    Owes Body.poll (start tasks) (polls tasks) fun i => ((tasks[i]?).getD []).map Await.output := by
  refine Owes.spawn ?_ ?_
  · intro i b hb
    rw [List.getElem?_map] at hb
    obtain ⟨awaits, hawaits, hbody⟩ := Option.map_eq_some_iff.mp hb
    refine ⟨pendings awaits, ?_, ?_⟩
    · rw [polls, hawaits]
    · have hcompletes := completes_body awaits []
      rw [List.nil_append] at hcompletes
      rw [← hbody, hawaits]
      exact hcompletes
  · intro i hi
    rw [List.length_map] at hi
    rw [polls, List.getElem?_eq_none hi]

/-- A schedule can be run exactly when it polls no task more often than the task
is pending and once more. After it a task is done with the outputs of its
futures if it had all its polls, and otherwise in the ready queue. -/
theorem run_polls (tasks : List (List Await)) (schedule : List ℕ) :
    ((run (step Body.poll) (start tasks) schedule).isSome = true ↔
      ∀ i, schedule.count i ≤ polls tasks i) ∧
    ∀ s ∈ run (step Body.poll) (start tasks) schedule, ∀ i awaits, tasks[i]? = some awaits →
      if schedule.count i = pendings awaits + 1
      then s[i]? = some (.done (awaits.map Await.output))
      else ∃ b, s[i]? = some (.queued b) := by
  refine ⟨(owes_start tasks).run_isSome schedule, ?_⟩
  intro s hs i awaits hawaits
  have howes := (owes_start tasks).run hs
  have hle := ((owes_start tasks).run_isSome schedule).mp (Option.isSome_of_eq_some hs) i
  have hpolls : polls tasks i = pendings awaits + 1 := by
    rw [polls, hawaits]
  rw [hpolls] at hle
  have hlen : i < s.length := by
    rw [length_run hs, start, spawn, List.length_map, List.length_map]
    exact (List.getElem?_eq_some_iff.mp hawaits).1
  have htask := List.getElem?_eq_getElem hlen
  have hleft := howes.task i s[i] htask
  simp only [hpolls, hawaits, Option.getD_some] at hleft
  rw [htask]
  split_ifs with hcount
  · have hdone := hleft.done_iff.mpr (by omega)
    rw [hdone]
  · obtain ⟨b, hb⟩ := hleft.queued_iff.mpr (by omega)
    exact ⟨b, by rw [hb]⟩

end OsCamp.BasicFuture
