import Mathlib.Logic.Function.Basic
import OsCamp.ContextSwitch
import OsCamp.Execution

/-!
Tasks that take turns through `switch_context`. Between two switches the running task
changes the registers and any memory but the contexts of the others. Beside the machine,
the state keeps the machine at each task's last call, if it has made one.
-/

set_option autoImplicit false

namespace OsCamp.ContextSwitchRuns

open ByteMemory RiscV ContextSwitch Execution

/-- Addresses of contexts that do not overlap. -/
structure Contexts (n : ℕ) where
  addr : Fin n → BitVec 64
  fits : ∀ t, (addr t).toNat + TaskContext.size ≤ 2 ^ 64
  apart : ∀ t u, t ≠ u → (addr t).toNat + TaskContext.size ≤ (addr u).toNat ∨
    (addr u).toNat + TaskContext.size ≤ (addr t).toNat

structure State (n : ℕ) where
  machine : Machine
  current : Fin n
  lastCall : Fin n → Option Machine

inductive Action (n : ℕ)
  | compute (m : Machine)
  | switch (new : Fin n)

variable {n : ℕ}

def initial (m : Machine) (first : Fin n) : State n where
  machine := m
  current := first
  lastCall _ := none

variable (crate : Crate) (C : Contexts n)

/-- The machine at the first instruction of `switch_context`. -/
def called (s : State n) (new : Fin n) : Machine :=
  (s.machine.setX a0 (C.addr s.current)).setX a1 (C.addr new)

def step (s : State n) : Action n → Option (State n)
  | .compute m =>
    if ∀ t, t ≠ s.current → ∀ i < TaskContext.size,
        m.mem ((C.addr t).toNat + i) = s.machine.mem ((C.addr t).toNat + i) then
      some { s with machine := m }
    else none
  | .switch new =>
    if new ≠ s.current then
      some
        { machine := (called C s new).execAll (switchContext crate)
          current := new
          lastCall := Function.update s.lastCall s.current (some s.machine) }
    else none

/-- What a task has to find in its registers: those of its last call, or what its context
held at the start. -/
def expected (m : Machine) (s : State n) (t : Fin n) : TaskContext :=
  match s.lastCall t with
  | some m' => calleeSaved m'
  | none => TaskContext.read m.mem (C.addr t).toNat

variable {crate : Crate} {C : Contexts n} {m : Machine} {s s' : State n}

theorem step_switch (crate : Crate) (C : Contexts n) (s : State n) {new : Fin n}
    (hne : new ≠ s.current) :
    ∃ s', step crate C s (.switch new) = some s' ∧ s'.current = new ∧
      s'.lastCall = Function.update s.lastCall s.current (some s.machine) :=
  ⟨_, if_pos hne, rfl, rfl⟩

theorem calleeSaved_called (new : Fin n) : calleeSaved (called C s new) = calleeSaved s.machine :=
  calleeSaved_congr fun _ hk0 hk1 => (Machine.setX_ne hk1).trans (Machine.setX_ne hk0)

theorem switches_called (crate : Crate) {new : Fin n} (hne : new ≠ s.current) :
    Switches (called C s new) ((called C s new).execAll (switchContext crate))
      (C.addr s.current).toNat (C.addr new).toNat :=
  switchContext_switches crate (called C s new) (C.fits s.current) (C.fits new)
    (C.apart new s.current hne)

/-- A waiting task's context holds what the task has to find. -/
def Inv (C : Contexts n) (m : Machine) (s : State n) : Prop :=
  ∀ t, t ≠ s.current → TaskContext.read s.machine.mem (C.addr t).toNat = expected C m s t

theorem Inv.compute (h : Inv C m s) {m' : Machine}
    (hkeep : ∀ t, t ≠ s.current → ∀ i < TaskContext.size,
      m'.mem ((C.addr t).toNat + i) = s.machine.mem ((C.addr t).toNat + i)) :
    Inv C m { s with machine := m' } := by
  intro t ht
  have hsame : SameOn s.machine.mem m'.mem (C.addr t).toNat TaskContext.size := by
    intro x hlo hhi
    have hx := hkeep t ht (x - (C.addr t).toNat) (by omega)
    rwa [Nat.add_sub_cancel' hlo] at hx
  exact (TaskContext.read_congr hsame).trans (h t ht)

theorem Inv.step (h : Inv C m s) {a : Action n} (hs : step crate C s a = some s') :
    Inv C m s' := by
  cases a with
  | compute m' =>
    obtain ⟨hkeep, hres⟩ := Option.ite_none_right_eq_some.mp hs
    cases hres
    exact h.compute hkeep
  | switch new =>
    obtain ⟨hne, hres⟩ := Option.ite_none_right_eq_some.mp hs
    cases hres
    have hswitch := switches_called crate (C := C) hne
    intro t ht
    by_cases hold : t = s.current
    · have hcall : Function.update s.lastCall s.current (some s.machine) t = some s.machine := by
        rw [hold, Function.update_self]
      simp only [expected, hcall]
      rw [hold, ← calleeSaved_called (C := C) new]
      exact hswitch.saved
    · have hcall : Function.update s.lastCall s.current (some s.machine) t = s.lastCall t :=
        Function.update_of_ne hold _ _
      have hsame := hswitch.elsewhere (C.addr t).toNat TaskContext.size (C.apart t s.current hold)
      have hwaiting := h t hold
      simp only [expected, hcall]
      exact (TaskContext.read_congr hsame).trans hwaiting

theorem reachable_inv {first : Fin n} (h : Reachable (step crate C) (initial m first) s) :
    Inv C m s :=
  h.invariant (fun _ _ => rfl) fun _ _ _ hinv _ hs => hinv.step hs

/-- A switch sets the saved registers to what the task has to find and goes on behind
its call. -/
theorem switch_found {first new : Fin n} (h : Reachable (step crate C) (initial m first) s)
    (hs : step crate C s (.switch new) = some s') :
    calleeSaved s'.machine = expected C m s new ∧
    s'.machine.pc = (expected C m s new).ra &&& ~~~1 := by
  obtain ⟨hne, hres⟩ := Option.ite_none_right_eq_some.mp hs
  cases hres
  have hswitch := switches_called crate (C := C) hne
  have hwaiting := reachable_inv h new hne
  constructor
  · exact hswitch.restored.trans hwaiting
  · rw [← hwaiting]
    exact hswitch.resumed

/-- A task whose context was initialized starts at its entry, on an aligned stack and with
the other saved registers zero. -/
theorem first_switch_enters {first new : Fin n} {stackTop entry : BitVec 64}
    (h : Reachable (step crate C) (initial m first) s)
    (hs : step crate C s (.switch new) = some s') (hnever : s.lastCall new = none)
    (hinit : TaskContext.read m.mem (C.addr new).toNat = TaskContext.empty.init stackTop entry) :
    s'.machine.pc = entry &&& ~~~1 ∧ (s'.machine.x sp).toNat % 16 = 0 ∧
    ∀ r ∈ savedRegs, r ≠ sp → r ≠ ra → s'.machine.x r = 0 := by
  obtain ⟨hregs, hpc⟩ := switch_found h hs
  have hexpected : expected C m s new = TaskContext.empty.init stackTop entry := by
    simp only [expected, hnever]
    exact hinit
  rw [hexpected] at hregs hpc
  refine ⟨hpc, ?_, ?_⟩
  · have hsp : s'.machine.x sp = (TaskContext.empty.init stackTop entry).sp :=
      congrArg TaskContext.sp hregs
    rw [hsp]
    exact TaskContext.init_sp_aligned _ _ _
  · intro r hr hnsp hnra
    have hfields := congrArg TaskContext.fields hregs
    rw [fields_calleeSaved] at hfields
    simp only [savedRegs, List.mem_cons, List.not_mem_nil, or_false] at hr
    simp only [savedRegs, List.map_cons, TaskContext.fields, TaskContext.init, TaskContext.empty,
      List.cons.injEq] at hfields
    rcases hr with rfl | rfl | rfl | rfl | rfl | rfl | rfl | rfl | rfl | rfl | rfl | rfl | rfl | rfl
    · exact absurd rfl hnsp
    · exact absurd rfl hnra
    all_goals simp only [hfields]

/-- A task is resumed with the registers of its last call, or with its context where it
never ran, and no context but the one it is resumed from changes. -/
theorem switch_resumes {first new : Fin n}
    (h : Reachable (step crate C) (initial m first) s)
    (hs : step crate C s (.switch new) = some s') :
    (∀ m', s.lastCall new = some m' → calleeSaved s'.machine = calleeSaved m') ∧
    (s.lastCall new = none →
      calleeSaved s'.machine = TaskContext.read m.mem (C.addr new).toNat) ∧
    s'.machine.x a0 = 0 ∧ s'.machine.x a1 = 0 ∧
    s'.machine.pc = (calleeSaved s'.machine).ra &&& ~~~1 ∧
    ∀ t, t ≠ s.current →
      SameOn s.machine.mem s'.machine.mem (C.addr t).toNat TaskContext.size := by
  obtain ⟨hne, hres⟩ := Option.ite_none_right_eq_some.mp hs
  cases hres
  have hswitch := switches_called crate (C := C) hne
  obtain ⟨hfound, hpc⟩ := switch_found h hs
  refine ⟨?_, ?_, hswitch.cleared.1, hswitch.cleared.2, ?_, ?_⟩
  · intro m' hcall
    simpa only [expected, hcall] using hfound
  · intro hcall
    simpa only [expected, hcall] using hfound
  · rw [hfound]
    exact hpc
  · intro t ht
    exact hswitch.elsewhere _ _ (C.apart t s.current ht)

def twoContexts : Contexts 2 where
  addr t := if t = 0 then 0x1000 else 0x1070
  fits := by decide
  apart := by decide

/-- Every register holds its own number, all of memory is zero. -/
def numbered : Machine where
  x r := BitVec.ofNat 64 r.val
  f r := BitVec.ofNat 64 r.val
  pc := 0
  mem _ := 0

/-- Task 0 switches to task 1, which sets all registers to 7 and switches back. -/
theorem switch_resumes_there_and_back :
    ∃ s s' : State 2, s.lastCall 0 = some numbered ∧ s.machine.x sp = 7 ∧
      step .greenThreads twoContexts s (.switch 0) = some s' ∧
      calleeSaved s'.machine = calleeSaved numbered ∧ s'.machine.x sp = 2 := by
  obtain ⟨s₁, hthere, hcurrent, hcall⟩ := step_switch .greenThreads twoContexts
    (initial numbered 0) (show (1 : Fin 2) ≠ 0 by decide)
  have hcompute : step .greenThreads twoContexts s₁
      (.compute { s₁.machine with x := fun _ => 7 }) =
      some { s₁ with machine := { s₁.machine with x := fun _ => 7 } } :=
    if_pos fun _ _ _ _ => rfl
  have hreach : Reachable (step .greenThreads twoContexts) (initial numbered 0)
      { s₁ with machine := { s₁.machine with x := fun _ => 7 } } :=
    Reach.step _ (Reach.step _ Reach.init trivial hthere) trivial hcompute
  have hne : (0 : Fin 2) ≠ s₁.current := by
    rw [hcurrent]
    decide
  obtain ⟨s', hback, -, -⟩ := step_switch .greenThreads twoContexts
    { s₁ with machine := { s₁.machine with x := fun _ => 7 } } hne
  have hcall₀ : s₁.lastCall 0 = some numbered := by
    rw [hcall]
    exact Function.update_self _ _ _
  obtain ⟨hregs, -⟩ := switch_resumes hreach hback
  have hsaved := hregs numbered hcall₀
  exact ⟨{ s₁ with machine := { s₁.machine with x := fun _ => 7 } }, s', hcall₀, rfl, hback,
    hsaved, congrArg TaskContext.sp hsaved⟩

end OsCamp.ContextSwitchRuns
