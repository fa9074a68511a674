import Mathlib.Data.List.Basic
import OsCamp.Execution
import OsCamp.RoundRobin

/-!
The cooperative scheduler: `Scheduler::{new, spawn, run, schedule_next}`, `yield_now`,
`thread_wrapper` and `thread_finished` with their globals. A context is modelled by
where it resumes; `switch_context` stores that of the running thread and goes on at
the stored one of the next. A stack is named by the index of the thread it was
allocated for. An entry's code is a sequence of segments that end in `yield_now` or
in its return, the choice being the entry's; each segment run is recorded. Entries do
not run a scheduler themselves.
-/

set_option autoImplicit false

namespace OsCamp.GreenThreads

open RoundRobin

variable {F : Type*}

inductive ThreadState
  | ready
  | running
  | finished
  deriving DecidableEq, Repr

/-- A place in the code, with the stack it runs on. -/
inductive Pc (F : Type*)
  | null
  /-- Main outside of `run`. -/
  | outside
  /-- Main at the head of the loop in `run`. -/
  | runLoop
  | threadWrapper (stack : ℕ)
  /-- In the entry, after as many returns from `yield_now`. -/
  | user (stack : ℕ) (entry : F) (segment : ℕ)
  /-- `schedule_next` has returned into `thread_finished`. -/
  | afterFinished (stack : ℕ)
  deriving DecidableEq

def Pc.stack : Pc F → ℕ
  | .null | .outside | .runLoop => 0
  | .threadWrapper stack => stack
  | .user stack _ _ => stack
  | .afterFinished stack => stack

structure GreenThread (F : Type*) where
  ctx : Pc F
  state : ThreadState
  entry : Option F

inductive Event (F : Type*)
  | called (stack : ℕ) (entry : F)
  | segment (stack : ℕ) (entry : F) (index : ℕ)
  deriving DecidableEq

def Event.stack : Event F → ℕ
  | .called stack _ => stack
  | .segment stack _ _ => stack

structure Scheduler (F : Type*) where
  threads : List (GreenThread F)
  current : ℕ

namespace Scheduler

def new : Scheduler F where
  threads := [{ ctx := .null, state := .running, entry := none }]
  current := 0

def spawn (self : Scheduler F) (entry : F) : Scheduler F :=
  { self with
    threads := self.threads ++
      [{ ctx := .threadWrapper self.threads.length, state := .ready, entry := some entry }] }

/-- `threads[i].state == state`. -/
def stateIs (self : Scheduler F) (state : ThreadState) (i : ℕ) : Bool :=
  self.threads[i]?.any fun t => t.state = state

def setState (self : Scheduler F) (i : ℕ) (state : ThreadState) : Scheduler F :=
  { self with threads := self.threads.modify i fun t => { t with state := state } }

/-- The thread that stops running is `Ready` again unless it has finished. -/
def suspendState (self : Scheduler F) : Scheduler F :=
  if self.stateIs .finished self.current then self else self.setState self.current .ready

/-- `threads[i].entry.take()`, the slot apart. -/
def takeEntry (self : Scheduler F) (i : ℕ) : Scheduler F :=
  { self with threads := self.threads.modify i fun t => { t with entry := none } }

def setCtx (self : Scheduler F) (i : ℕ) (ctx : Pc F) : Scheduler F :=
  { self with threads := self.threads.modify i fun t => { t with ctx := ctx } }

def allFinished (self : Scheduler F) : Bool :=
  (self.threads.drop 1).all fun t => t.state = .finished

end Scheduler

/-- `slot` is `CURRENT_THREAD_ENTRY`; `active` says that `SCHEDULER` is not null. -/
structure State (F : Type*) where
  sched : Scheduler F
  slot : Option F
  active : Bool
  pc : Pc F
  log : List (Event F)

namespace State

def record (s : State F) (e : Event F) : State F := { s with log := s.log ++ [e] }

/-- `schedule_next`, called where `ret` is next; `none` is an index out of bounds. -/
def scheduleNext (s : State F) (ret : Pc F) : Option (State F) :=
  let current := s.sched.current
  (pick (s.sched.stateIs .ready) s.sched.threads.length current).bind fun next =>
  if next = current then
    -- No other thread is ready.
    some { s with pc := ret }
  else
    let marked := s.sched.suspendState.setState next .running
    marked.threads[next]?.map fun new =>
      { s with
        sched := { (marked.takeEntry next).setCtx current ret with current := next }
        slot := new.entry.or s.slot
        pc := new.ctx }

def yieldNow (s : State F) (ret : Pc F) : Option (State F) :=
  if s.active then s.scheduleNext ret else some { s with pc := ret }

/-- `sched.threads[sched.current].state = Finished`. -/
def markFinished (s : State F) : State F :=
  { s with sched := s.sched.setState s.sched.current .finished }

def threadFinished (s : State F) (stack : ℕ) : Option (State F) :=
  if s.active then s.markFinished.scheduleNext (.afterFinished stack)
  else some { s with pc := .afterFinished stack }

/-- Up to the first instruction of the entry, or on to `thread_finished`. -/
def threadWrapper (s : State F) (stack : ℕ) : Option (State F) :=
  match s.slot with
  | some f => some { s.record (.called stack f) with slot := none, pc := .user stack f 0 }
  | none => s.threadFinished stack

/-- One turn of the loop in `run`. -/
def runLoop (s : State F) : Option (State F) :=
  if s.sched.allFinished then some { s with active := false, pc := .outside }
  else s.scheduleNext .runLoop

end State

/-- `yieldNow` and `finish` end the segment that runs, by a call of `yield_now` or by
the return of the entry; `proceed` is the scheduler's own code. -/
inductive Action (F : Type*)
  | spawn (entry : F)
  | run
  | proceed
  | yieldNow
  | finish
  deriving DecidableEq

def initial : State F := ⟨Scheduler.new, none, false, .outside, []⟩

def step (s : State F) : Action F → Option (State F)
  | .spawn f =>
    match s.pc with
    | .outside => some { s with sched := s.sched.spawn f }
    | _ => none
  | .run =>
    match s.pc with
    | .outside => some { s with active := true, pc := .runLoop }
    | _ => none
  | .proceed =>
    match s.pc with
    | .runLoop => s.runLoop
    | .threadWrapper stack => s.threadWrapper stack
    -- The wrapper returns to its own start, the `ra` it was entered with.
    | .afterFinished stack => some { s with pc := .threadWrapper stack }
    | _ => none
  | .yieldNow =>
    match s.pc with
    | .outside => s.yieldNow .outside
    | .user stack f j => (s.record (.segment stack f j)).yieldNow (.user stack f (j + 1))
    | _ => none
  | .finish =>
    match s.pc with
    | .user stack f j => (s.record (.segment stack f j)).threadFinished stack
    | _ => none

/-- Two threads that yield once each. -/
example : (Execution.run step initial
    [.spawn 7, .spawn 8, .run, .proceed, .proceed, .yieldNow, .proceed, .yieldNow, .proceed,
      .finish, .finish, .proceed]).map (fun s => (s.pc, s.log)) =
    some (.outside, [.called 1 7, .segment 1 7 0, .called 2 8, .segment 2 8 0,
      .segment 1 7 1, .segment 2 8 1]) := by
  decide

section Outside

variable {s : State F} (hpc : s.pc = .outside)

include hpc

theorem step_spawn (f : F) : step s (.spawn f) = some { s with sched := s.sched.spawn f } := by
  simp only [step]
  split
  · rfl
  · contradiction

theorem step_run : step s .run = some { s with active := true, pc := .runLoop } := by
  simp only [step]
  split
  · rfl
  · contradiction

/-- Outside of `run` there is no scheduler to yield to. -/
theorem step_yieldNow_outside (hinactive : s.active = false) : step s .yieldNow = some s := by
  have hyield : s.yieldNow s.pc = some s := if_neg (by simp [hinactive])
  rw [hpc] at hyield
  simp only [step]
  split
  · exact hyield
  · rename_i hother
    rw [hpc] at hother
    cases hother
  · contradiction

end Outside

theorem step_leave {s : State F} (hpc : s.pc = .runLoop) (hall : s.sched.allFinished = true) :
    step s .proceed = some { s with active := false, pc := .outside } := by
  simp only [step, hpc, State.runLoop, if_pos hall]

theorem step_enter {s : State F} {stack : ℕ} {f : F} (hpc : s.pc = .threadWrapper stack)
    (hslot : s.slot = some f) :
    step s .proceed =
      some { s.record (.called stack f) with slot := none, pc := .user stack f 0 } := by
  simp only [step, hpc, State.threadWrapper, hslot]

namespace Scheduler

variable (self : Scheduler F) (state : ThreadState) (ctx : Pc F) (i : ℕ)

theorem stateIs_iff :
    self.stateIs state i = true ↔ ∃ t, self.threads[i]? = some t ∧ t.state = state := by
  simp only [stateIs, Option.any_eq_true, decide_eq_true_eq]

@[simp] theorem length_setState :
    (self.setState i state).threads.length = self.threads.length :=
  List.length_modify _ _ _

@[simp] theorem getElem?_setState_self :
    (self.setState i state).threads[i]? =
      self.threads[i]?.map fun t => { t with state := state } :=
  List.getElem?_modify_eq _ _ _

theorem getElem?_setState_ne {j : ℕ} (hne : i ≠ j) :
    (self.setState i state).threads[j]? = self.threads[j]? :=
  List.getElem?_modify_ne _ _ hne

@[simp] theorem length_takeEntry : (self.takeEntry i).threads.length = self.threads.length :=
  List.length_modify _ _ _

@[simp] theorem getElem?_takeEntry_self :
    (self.takeEntry i).threads[i]? = self.threads[i]?.map fun t => { t with entry := none } :=
  List.getElem?_modify_eq _ _ _

theorem getElem?_takeEntry_ne {j : ℕ} (hne : i ≠ j) :
    (self.takeEntry i).threads[j]? = self.threads[j]? :=
  List.getElem?_modify_ne _ _ hne

@[simp] theorem length_setCtx : (self.setCtx i ctx).threads.length = self.threads.length :=
  List.length_modify _ _ _

@[simp] theorem getElem?_setCtx_self :
    (self.setCtx i ctx).threads[i]? = self.threads[i]?.map fun t => { t with ctx := ctx } :=
  List.getElem?_modify_eq _ _ _

theorem getElem?_setCtx_ne {j : ℕ} (hne : i ≠ j) :
    (self.setCtx i ctx).threads[j]? = self.threads[j]? :=
  List.getElem?_modify_ne _ _ hne

theorem length_suspendState : self.suspendState.threads.length = self.threads.length := by
  unfold suspendState
  split
  · rfl
  · exact length_setState _ _ _

theorem getElem?_suspendState_self {t : GreenThread F}
    (ht : self.threads[self.current]? = some t) :
    self.suspendState.threads[self.current]? =
      some { t with state := if t.state = .finished then .finished else .ready } := by
  unfold suspendState
  by_cases hfin : t.state = .finished
  · have his := (self.stateIs_iff .finished self.current).mpr ⟨t, ht, hfin⟩
    rw [if_pos his, ht, if_pos hfin, ← hfin]
  · have hnot : ¬ self.stateIs .finished self.current = true := by
      intro his
      obtain ⟨u, hu, hufin⟩ := (self.stateIs_iff .finished self.current).mp his
      rw [ht] at hu
      cases hu
      exact hfin hufin
    rw [if_neg hnot, getElem?_setState_self, ht, if_neg hfin]
    rfl

theorem getElem?_suspendState_ne {j : ℕ} (hne : j ≠ self.current) :
    self.suspendState.threads[j]? = self.threads[j]? := by
  unfold suspendState
  split
  · rfl
  · exact getElem?_setState_ne _ _ _ hne.symm

theorem allFinished_iff :
    self.allFinished = true ↔
      ∀ i t, i ≠ 0 → self.threads[i]? = some t → t.state = .finished := by
  simp only [allFinished, List.all_eq_true, decide_eq_true_eq]
  constructor
  · intro h i t hi ht
    apply h t
    apply List.mem_of_getElem? (i := i - 1)
    rw [List.getElem?_drop, Nat.add_sub_cancel' (by omega)]
    exact ht
  · intro h t hmem
    obtain ⟨i, ht⟩ := List.mem_iff_getElem?.mp hmem
    rw [List.getElem?_drop] at ht
    exact h (1 + i) t (by omega) ht

end Scheduler

theorem Scheduler.getElem?_spawn (self : Scheduler F) (f : F) {i : ℕ} {t : GreenThread F} :
    (self.spawn f).threads[i]? = some t ↔
      self.threads[i]? = some t ∨
        i = self.threads.length ∧
          t = { ctx := .threadWrapper i, state := .ready, entry := some f } := by
  show (self.threads ++ [_])[i]? = some t ↔ _
  rcases Nat.lt_trichotomy i self.threads.length with hlt | rfl | hgt
  · rw [List.getElem?_append_left hlt]
    constructor
    · exact Or.inl
    · rintro (h | ⟨h, -⟩)
      · exact h
      · omega
  · rw [List.getElem?_concat_length, List.getElem?_eq_none (Nat.le_refl _)]
    simp [eq_comm]
  · rw [List.getElem?_eq_none (by simp only [List.length_append, List.length_singleton]; omega),
      List.getElem?_eq_none (Nat.le_of_lt hgt)]
    constructor
    · exact fun h => nomatch h
    · rintro (h | ⟨h, -⟩)
      · cases h
      · omega

theorem State.markFinished_self {s : State F} {t : GreenThread F}
    (ht : s.sched.threads[s.sched.current]? = some t) :
    s.markFinished.sched.threads[s.sched.current]? = some { t with state := .finished } := by
  have hself := s.sched.getElem?_setState_self .finished s.sched.current
  rw [ht] at hself
  exact hself

theorem State.markFinished_ne {s : State F} {i : ℕ} (hne : i ≠ s.sched.current) :
    s.markFinished.sched.threads[i]? = s.sched.threads[i]? :=
  Scheduler.getElem?_setState_ne _ _ _ hne.symm

/-- Thread `next` runs instead of the current one, which will go on at `ret`. -/
structure Switched (s : State F) (ret : Pc F) (next : ℕ) (s' : State F) : Prop where
  picked : pick (s.sched.stateIs .ready) s.sched.threads.length s.sched.current = some next
  ne_current : next ≠ s.sched.current
  resumed : ∃ new, s.sched.threads[next]? = some new ∧ new.state = .ready ∧
    s'.sched.threads[next]? = some { new with state := .running, entry := none } ∧
    s'.slot = new.entry.or s.slot ∧ s'.pc = new.ctx
  suspended : ∀ t, s.sched.threads[s.sched.current]? = some t →
    s'.sched.threads[s.sched.current]? =
      some { t with ctx := ret, state := if t.state = .finished then .finished else .ready }
  others : ∀ i, i ≠ s.sched.current → i ≠ next →
    s'.sched.threads[i]? = s.sched.threads[i]?
  length : s'.sched.threads.length = s.sched.threads.length
  current : s'.sched.current = next
  active : s'.active = s.active
  log : s'.log = s.log

/-- Where another thread is ready, `schedule_next` switches to the one it picks. -/
theorem State.scheduleNext_switches {s : State F} (ret : Pc F)
    (hcurrent : s.sched.current < s.sched.threads.length) {i : ℕ} {t : GreenThread F}
    (ht : s.sched.threads[i]? = some t) (hready : t.state = .ready)
    (hne : i ≠ s.sched.current) :
    ∃ next s', s.scheduleNext ret = some s' ∧ Switched s ret next s' := by
  obtain ⟨hi, -⟩ := List.getElem?_eq_some_iff.mp ht
  obtain ⟨next, hpick, hnext, -, hnextReady⟩ := pick_of_ready hcurrent hi hne
    ((Scheduler.stateIs_iff _ _ _).mpr ⟨t, ht, hready⟩)
  obtain ⟨new, hnew, hstate⟩ := (Scheduler.stateIs_iff _ _ _).mp hnextReady
  have hmarked : (s.sched.suspendState.setState next .running).threads[next]? =
      some { new with state := .running } := by
    rw [Scheduler.getElem?_setState_self, Scheduler.getElem?_suspendState_ne _ hnext, hnew]
    rfl
  obtain ⟨s', hs'⟩ : ∃ s', s.scheduleNext ret = some s' := by
    simp only [State.scheduleNext, hpick, Option.bind_some, if_neg hnext, hmarked,
      Option.map_some]
    exact ⟨_, rfl⟩
  refine ⟨next, s', hs', ?_⟩
  simp only [State.scheduleNext, hpick, Option.bind_some, if_neg hnext, hmarked,
    Option.map_some, Option.some.injEq] at hs'
  subst hs'
  constructor
  · exact hpick
  · exact hnext
  · refine ⟨new, hnew, hstate, ?_, rfl, rfl⟩
    show (((s.sched.suspendState.setState next .running).takeEntry next).setCtx
      s.sched.current ret).threads[next]? = _
    rw [Scheduler.getElem?_setCtx_ne _ _ _ hnext.symm, Scheduler.getElem?_takeEntry_self,
      hmarked]
    rfl
  · intro u hu
    show (((s.sched.suspendState.setState next .running).takeEntry next).setCtx
      s.sched.current ret).threads[s.sched.current]? = _
    rw [Scheduler.getElem?_setCtx_self, Scheduler.getElem?_takeEntry_ne _ _ hnext,
      Scheduler.getElem?_setState_ne _ _ _ hnext, Scheduler.getElem?_suspendState_self _ hu]
    rfl
  · intro j hj hjnext
    show (((s.sched.suspendState.setState next .running).takeEntry next).setCtx
      s.sched.current ret).threads[j]? = _
    rw [Scheduler.getElem?_setCtx_ne _ _ _ hj.symm,
      Scheduler.getElem?_takeEntry_ne _ _ hjnext.symm,
      Scheduler.getElem?_setState_ne _ _ _ hjnext.symm, Scheduler.getElem?_suspendState_ne _ hj]
  · show (((s.sched.suspendState.setState next .running).takeEntry next).setCtx
      s.sched.current ret).threads.length = _
    rw [Scheduler.length_setCtx, Scheduler.length_takeEntry, Scheduler.length_setState,
      Scheduler.length_suspendState]
  · rfl
  · rfl
  · rfl

end OsCamp.GreenThreads
