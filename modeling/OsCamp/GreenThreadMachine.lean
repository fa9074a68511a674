import OsCamp.BitFields
import OsCamp.ContextSwitch
import OsCamp.GreenThreadRuns

/-!
The scheduler on the machine. Each thread's context lies in memory and a switch is the code
of `switch_context`; between two switches the running code changes registers and memory
but the contexts and stacks of the waiting threads. The contexts then stand for the places
that the scheduler's model keeps: a thread goes on where that model says, with the
registers and the stack that it had.
-/

set_option autoImplicit false

namespace OsCamp.GreenThreadMachine

open ByteMemory RiscV ContextSwitch Execution GreenThreads GreenThreadStates GreenThreadRuns

/-- `STACK_SIZE` -/
def stackSize : ℕ := 1024 * 128

/-- The context that `spawn` sets up for a stack buffer. -/
def spawnContext (buffer : ℕ) (threadWrapper : BitVec 64) : TaskContext :=
  let rawTop := BitVec.ofNat 64 (buffer + stackSize)
  { TaskContext.empty with ra := threadWrapper, sp := rawTop &&& ~~~0xF }

/-- Where `n` threads lie in memory. The stack of main, thread 0, is of any size; the others
are buffers that `spawn` has allocated. -/
structure Layout (n : ℕ) where
  threadWrapper : BitVec 64
  ctx : ℕ → BitVec 64
  stack : ℕ → ℕ
  size : ℕ → ℕ
  ctx_fits : ∀ i < n, (ctx i).toNat + TaskContext.size ≤ 2 ^ 64
  ctx_apart : ∀ i < n, ∀ j < n, i ≠ j → (ctx i).toNat + TaskContext.size ≤ (ctx j).toNat ∨
    (ctx j).toNat + TaskContext.size ≤ (ctx i).toNat
  stack_apart : ∀ i < n, ∀ j < n, stack i + size i ≤ (ctx j).toNat ∨
    (ctx j).toNat + TaskContext.size ≤ stack i
  buffer_size : ∀ i < n, i ≠ 0 → size i = stackSize
  buffer_fits : ∀ i < n, stack i + size i < 2 ^ 64
  wrapper_even : threadWrapper &&& ~~~1 = threadWrapper

variable {F : Type*} {n : ℕ}

/-- For each thread that has called `switch_context`, the machine at its last call and where
the code goes on behind it. -/
structure State (F : Type*) where
  scheduler : GreenThreads.State F
  machine : Machine
  suspended : ℕ → Option (Machine × Pc F)

namespace State

def current (s : State F) : ℕ := s.scheduler.sched.current

end State

/-- Where the code goes on when a call at the place returns. -/
def returnPlace : Pc F → Action F → Pc F
  | .user stack f j, .yieldNow => .user stack f (j + 1)
  | .user stack _ _, .finish => .afterFinished stack
  | pc, _ => pc

/-- The memory of the waiting threads is as before. -/
def Keeps (L : Layout n) (s : State F) (mem : Memory) : Prop :=
  ∀ i < n, i ≠ s.current →
    (∀ k < TaskContext.size, mem ((L.ctx i).toNat + k) = s.machine.mem ((L.ctx i).toNat + k)) ∧
    ∀ k < L.size i, mem (L.stack i + k) = s.machine.mem (L.stack i + k)

instance (L : Layout n) (s : State F) (mem : Memory) : Decidable (Keeps L s mem) := by
  unfold Keeps
  infer_instance

/-- The machine `m` at a call of `switch_context`. -/
def called (L : Layout n) (m : Machine) (old new : ℕ) : Machine :=
  (m.setX a0 (L.ctx old)).setX a1 (L.ctx new)

/-- The running code leaves the machine `m`, then the scheduler takes its action; all threads
have been spawned. -/
def step (L : Layout n) (s : State F) : Action F × Machine → Option (State F)
  | (.spawn _, _) => none
  | (a, m) =>
    if Keeps L s m.mem then
      (GreenThreads.step s.scheduler a).map fun scheduler =>
        if scheduler.sched.current = s.current then ⟨scheduler, m, s.suspended⟩
        else
          { scheduler := scheduler
            machine := (called L m s.current scheduler.sched.current).execAll
              (switchContext .greenThreads)
            suspended := Function.update s.suspended s.current
              (some (m, returnPlace s.scheduler.pc a)) }
    else none

/-- `run` has been called; the contexts are as `spawn` left them. -/
def initial (entries : List F) (m : Machine) : State F := ⟨started entries, m, fun _ => none⟩

/-- The contexts of the spawned threads as `spawn` left them. -/
def Spawned (L : Layout n) (mem : Memory) : Prop :=
  ∀ i < n, i ≠ 0 →
    TaskContext.read mem (L.ctx i).toNat = spawnContext (L.stack i) L.threadWrapper

/-- The context in memory of a thread that waits, and its stack. -/
def Stored (L : Layout n) (mem : Memory) (i : ℕ) : Option (Machine × Pc F) → Prop
  | none => TaskContext.read mem (L.ctx i).toNat = spawnContext (L.stack i) L.threadWrapper
  | some (m, _) => TaskContext.read mem (L.ctx i).toNat = calleeSaved m ∧
      SameOn m.mem mem (L.stack i) (L.size i)

/-- Where the scheduler's model has a thread that waits. -/
def Placed (entries : List F) (i : ℕ) (t : GreenThread F) : Option (Machine × Pc F) → Prop
  | none => i ≠ 0 ∧ t.ctx = .threadWrapper i ∧ t.entry = entries[i - 1]?
  | some (_, ret) => t.ctx = ret ∧ t.entry = none

/-- The current thread is left at the place, and `next` goes on where its context says. -/
structure HandsOver (σ : GreenThreads.State F) (ret : Pc F) (next : ℕ)
    (σ' : GreenThreads.State F) : Prop where
  ne_current : next ≠ σ.sched.current
  current : σ'.sched.current = next
  resumed : ∃ new, σ.sched.threads[next]? = some new ∧ σ'.pc = new.ctx ∧ σ'.slot = new.entry
  left : ∀ t, σ'.sched.threads[σ.sched.current]? = some t → t.ctx = ret ∧ t.entry = none
  others : ∀ i, i ≠ σ.sched.current → i ≠ next →
    σ'.sched.threads[i]? = σ.sched.threads[i]?
  length : σ'.sched.threads.length = σ.sched.threads.length

section Scheduler

variable {σ σ' : GreenThreads.State F} {ret : Pc F} {next : ℕ}

theorem handsOver_of_switched (h : Waiting σ) (hslot : σ.slot = none)
    (hs : Switched σ ret next σ') : HandsOver σ ret next σ' := by
  obtain ⟨new, hnew, -, -, hslot', hpc'⟩ := hs.resumed
  rw [hslot, Option.or_none] at hslot'
  refine ⟨hs.ne_current, hs.current, ⟨new, hnew, hpc', hslot'⟩, ?_, hs.others, hs.length⟩
  intro t ht
  obtain ⟨u, hu⟩ := h.exists_current
  have hleft := hs.suspended u hu
  rw [ht] at hleft
  cases hleft
  exact ⟨rfl, h.taken u hu⟩

/-- An action lets the current thread go on, or hands over to another one. -/
theorem step_hands_over (h : GreenThreadStates.Inv σ) {a : Action F}
    (hspawn : ∀ f, a ≠ .spawn f) (hs : GreenThreads.step σ a = some σ') :
    σ'.sched = σ.sched ∨ ∃ next, HandsOver σ (returnPlace σ.pc a) next σ' := by
  cases h.move hs with
  | spawn f hpc => exact absurd rfl (hspawn f)
  | run hpc => exact Or.inl rfl
  | leave hpc hall => exact Or.inl rfl
  | @dispatch _ next hpc hswitch =>
    obtain ⟨-, hslot⟩ := h.at_main (Or.inr hpc)
    refine Or.inr ⟨next, ?_⟩
    rw [hpc]
    exact handsOver_of_switched h.toWaiting hslot hswitch
  | enter hpc hslot => exact Or.inl rfl
  | stay hpc => exact Or.inl rfl
  | @yield _ stack j next f hpc hswitch =>
    obtain ⟨-, -, hslot, -⟩ := h.at_user hpc
    have hover := handsOver_of_switched (h.toWaiting.record (.segment stack f j)) hslot hswitch
    refine Or.inr ⟨next, ?_⟩
    rw [hpc]
    exact { hover with }
  | @finish _ stack j next f hpc hswitch =>
    obtain ⟨-, hmain, hslot, -⟩ := h.at_user hpc
    have hmarked := (h.toWaiting.record (.segment stack f j)).markFinished hmain
    have hover := handsOver_of_switched hmarked hslot hswitch
    obtain ⟨new, hnew, hpc', hslot'⟩ := hover.resumed
    refine Or.inr ⟨next, ?_⟩
    rw [hpc]
    refine ⟨hover.ne_current, hover.current, ⟨new, ?_, hpc', hslot'⟩, hover.left, ?_, ?_⟩
    · rw [← hnew]
      exact (State.markFinished_ne (s := σ.record (.segment stack f j)) hover.ne_current).symm
    · intro i hi hnext
      exact (hover.others i hi hnext).trans (State.markFinished_ne hi)
    · exact hover.length.trans (Scheduler.length_setState _ _ _)

end Scheduler

section Machine

variable {L : Layout n} {mem mem' : Memory} {s : State F} {i : ℕ}

/-- Any part of the memory of a thread that waits is as before. -/
theorem Keeps.sameOn (h : Keeps L s mem) (hi : i < n) (hne : i ≠ s.current) :
    SameOn s.machine.mem mem (L.ctx i).toNat TaskContext.size ∧
    SameOn s.machine.mem mem (L.stack i) (L.size i) := by
  obtain ⟨hctx, hstack⟩ := h i hi hne
  constructor
  · intro x hlo hhi
    have hx := hctx (x - (L.ctx i).toNat) (by omega)
    rwa [Nat.add_sub_cancel' hlo] at hx
  · intro x hlo hhi
    have hx := hstack (x - L.stack i) (by omega)
    rwa [Nat.add_sub_cancel' hlo] at hx

theorem Stored.congr {saved : Option (Machine × Pc F)} (h : Stored L mem i saved)
    (hctx : SameOn mem mem' (L.ctx i).toNat TaskContext.size)
    (hstack : SameOn mem mem' (L.stack i) (L.size i)) : Stored L mem' i saved := by
  cases saved with
  | none => exact (TaskContext.read_congr hctx).trans h
  | some call =>
    obtain ⟨hread, hsame⟩ := h
    refine ⟨(TaskContext.read_congr hctx).trans hread, ?_⟩
    intro x hlo hhi
    exact (hstack x hlo hhi).trans (hsame x hlo hhi)

theorem calleeSaved_called (L : Layout n) (m : Machine) (old new : ℕ) :
    calleeSaved (called L m old new) = calleeSaved m :=
  calleeSaved_congr fun _ hk0 hk1 => (Machine.setX_ne hk1).trans (Machine.setX_ne hk0)

variable (L) {old new : ℕ}

theorem called_switches (m : Machine) (hold : old < n) (hnew : new < n) (hne : new ≠ old) :
    Switches (called L m old new) ((called L m old new).execAll (switchContext .greenThreads))
      (L.ctx old).toNat (L.ctx new).toNat :=
  switchContext_switches .greenThreads (called L m old new) (L.ctx_fits old hold)
    (L.ctx_fits new hnew) (L.ctx_apart new hnew old hold hne)

/-- The new thread finds what its context holds. -/
theorem switched_found (m : Machine) (hold : old < n) (hnew : new < n) (hne : new ≠ old)
    {c : TaskContext} (hread : TaskContext.read m.mem (L.ctx new).toNat = c) :
    calleeSaved ((called L m old new).execAll (switchContext .greenThreads)) = c ∧
    ((called L m old new).execAll (switchContext .greenThreads)).pc = c.ra &&& ~~~1 := by
  have hswitch := called_switches L m hold hnew hne
  have hmem : (called L m old new).mem = m.mem := rfl
  rw [← hread, ← hmem]
  exact ⟨hswitch.restored, hswitch.resumed⟩

/-- A switch keeps what the other threads have stored and stores what the old one had. -/
theorem stored_switched (m : Machine) (ret : Pc F) (hold : old < n) (hnew : new < n)
    (hne : new ≠ old) {suspended : ℕ → Option (Machine × Pc F)}
    (h : ∀ j < n, j ≠ old → Stored L m.mem j (suspended j)) (hi : i < n) :
    Stored L ((called L m old new).execAll (switchContext .greenThreads)).mem i
      (Function.update suspended old (some (m, ret)) i) := by
  have hswitch := called_switches L m hold hnew hne
  have hstack : SameOn m.mem ((called L m old new).execAll (switchContext .greenThreads)).mem
      (L.stack i) (L.size i) := hswitch.elsewhere _ _ (L.stack_apart i hi old hold)
  by_cases heq : i = old
  · subst heq
    rw [Function.update_self]
    refine ⟨?_, hstack⟩
    rw [← calleeSaved_called L m i new]
    exact hswitch.saved
  · rw [Function.update_of_ne heq]
    have hctx := hswitch.elsewhere _ _ (L.ctx_apart i hi old hold heq)
    exact (h i hi heq).congr hctx hstack

end Machine

/-- What a thread finds when it goes on agrees with where the scheduler's model has it. -/
structure Inv (entries : List F) (L : Layout (entries.length + 1)) (s : State F) : Prop where
  states : GreenThreadStates.Inv s.scheduler
  length : s.scheduler.sched.threads.length = entries.length + 1
  stored : ∀ i < entries.length + 1, i ≠ s.current → Stored L s.machine.mem i (s.suspended i)
  placed : ∀ i t, i ≠ s.current → s.scheduler.sched.threads[i]? = some t →
    Placed entries i t (s.suspended i)

/-- What a step of the running code and the scheduler does. -/
theorem step_cases {L : Layout n} {s s' : State F} {a : Action F} {m : Machine}
    (hs : step L s (a, m) = some s') :
    (∀ f, a ≠ .spawn f) ∧ Keeps L s m.mem ∧
    ∃ σ, GreenThreads.step s.scheduler a = some σ ∧
      (σ.sched.current = s.current ∧ s' = ⟨σ, m, s.suspended⟩ ∨
        σ.sched.current ≠ s.current ∧
          s' = ⟨σ, (called L m s.current σ.sched.current).execAll (switchContext .greenThreads),
            Function.update s.suspended s.current (some (m, returnPlace s.scheduler.pc a))⟩) := by
  have hspawn : ∀ f, a ≠ .spawn f := by
    rintro f rfl
    cases hs
  have hstep : (if Keeps L s m.mem then
      (GreenThreads.step s.scheduler a).map fun scheduler =>
        if scheduler.sched.current = s.current then (⟨scheduler, m, s.suspended⟩ : State F)
        else ⟨scheduler, (called L m s.current scheduler.sched.current).execAll
            (switchContext .greenThreads),
          Function.update s.suspended s.current (some (m, returnPlace s.scheduler.pc a))⟩
      else none) = some s' := by
    cases a with
    | spawn f => exact absurd rfl (hspawn f)
    | _ => exact hs
  obtain ⟨hkeeps, hmap⟩ := Option.ite_none_right_eq_some.mp hstep
  obtain ⟨σ, hσ, hs'⟩ := Option.map_eq_some_iff.mp hmap
  refine ⟨hspawn, hkeeps, σ, hσ, ?_⟩
  by_cases hcurrent : σ.sched.current = s.current
  · rw [if_pos hcurrent] at hs'
    exact Or.inl ⟨hcurrent, hs'.symm⟩
  · rw [if_neg hcurrent] at hs'
    exact Or.inr ⟨hcurrent, hs'.symm⟩

/-- Code that keeps memory as it is may end in any action but a spawn. -/
theorem step_unchanged {L : Layout n} {s : State F} {a : Action F} {m : Machine}
    {σ : GreenThreads.State F}
    (hmem : m.mem = s.machine.mem) (hspawn : ∀ f, a ≠ .spawn f)
    (hσ : GreenThreads.step s.scheduler a = some σ) :
    ∃ s', step L s (a, m) = some s' ∧ s'.scheduler = σ ∧
      (σ.sched.current = s.current → s'.machine = m ∧ s'.suspended = s.suspended) ∧
      (σ.sched.current ≠ s.current → s'.suspended =
        Function.update s.suspended s.current (some (m, returnPlace s.scheduler.pc a))) := by
  have hkeeps : Keeps L s m.mem := by
    rw [hmem]
    exact fun _ _ _ => ⟨fun _ _ => rfl, fun _ _ => rfl⟩
  obtain ⟨s', hs⟩ : ∃ s', step L s (a, m) = some s' := by
    cases a with
    | spawn f => exact absurd rfl (hspawn f)
    | _ => exact ⟨_, (if_pos hkeeps).trans (congrArg _ hσ)⟩
  obtain ⟨-, -, σ', hσ', hcase⟩ := step_cases hs
  rw [hσ] at hσ'
  cases hσ'
  refine ⟨s', hs, ?_⟩
  rcases hcase with ⟨hcurrent, rfl⟩ | ⟨hcurrent, rfl⟩
  · exact ⟨rfl, fun _ => ⟨rfl, rfl⟩, fun hne => absurd hcurrent hne⟩
  · exact ⟨rfl, fun heq => absurd heq hcurrent, fun _ => rfl⟩

namespace Inv

variable {entries : List F} {L : Layout (entries.length + 1)} {s s' : State F}

theorem initial {m : Machine} (hspawned : Spawned L m.mem) :
    Inv entries L (initial entries m) := by
  obtain ⟨hcurrent, hlength, hthreads⟩ := started_threads entries
  refine ⟨reachable_inv (Reach.init.run (run_started entries)), hlength, ?_, ?_⟩
  · intro i hi hne
    have hmain : i ≠ 0 := by
      rw [← hcurrent]
      exact hne
    exact hspawned i hi hmain
  · intro i t hne ht
    have hmain : i ≠ 0 := by
      rw [← hcurrent]
      exact hne
    obtain ⟨hi, -⟩ := List.getElem?_eq_some_iff.mp ht
    have hlt : i < entries.length + 1 := by
      rw [← hlength]
      exact hi
    have hentry : entries[i - 1]? = some entries[i - 1] := List.getElem?_eq_getElem (by omega)
    have hspawn := hthreads (i - 1) _ hentry
    rw [Nat.sub_add_cancel (by omega)] at hspawn
    cases hspawn.symm.trans ht
    exact ⟨hmain, rfl, hentry.symm⟩

theorem kept (h : Inv entries L s) {mem : Memory} (hkeeps : Keeps L s mem) {i : ℕ}
    (hi : i < entries.length + 1) (hne : i ≠ s.current) : Stored L mem i (s.suspended i) := by
  obtain ⟨hctx, hstack⟩ := hkeeps.sameOn hi hne
  exact (h.stored i hi hne).congr hctx hstack

theorem current_lt (h : Inv entries L s) : s.current < entries.length + 1 := by
  rw [← h.length]
  exact h.states.current_lt

/-- The thread that a hand over lets go on is one of those that wait. -/
theorem next_lt (h : Inv entries L s) {ret : Pc F} {next : ℕ} {σ : GreenThreads.State F}
    (hover : HandsOver s.scheduler ret next σ) : next < entries.length + 1 := by
  obtain ⟨new, hnew, -⟩ := hover.resumed
  obtain ⟨hlt, -⟩ := List.getElem?_eq_some_iff.mp hnew
  rw [← h.length]
  exact hlt

theorem placed_hands_over (h : Inv entries L s) {ret : Pc F} {next : ℕ}
    {σ : GreenThreads.State F} (hover : HandsOver s.scheduler ret next σ) (m : Machine) {i : ℕ}
    {t : GreenThread F} (hne : i ≠ next) (ht : σ.sched.threads[i]? = some t) :
    Placed entries i t (Function.update s.suspended s.current (some (m, ret)) i) := by
  by_cases heq : i = s.current
  · rw [heq, Function.update_self]
    rw [heq] at ht
    exact hover.left t ht
  · rw [Function.update_of_ne heq]
    rw [hover.others i heq hne] at ht
    exact h.placed i t heq ht

theorem step (h : Inv entries L s) {a : Action F} {m : Machine}
    (hs : GreenThreadMachine.step L s (a, m) = some s') : Inv entries L s' := by
  obtain ⟨hspawn, hkeeps, σ, hσ, hcase⟩ := step_cases hs
  have hstates := h.states.step hσ
  have hstored : ∀ i < entries.length + 1, i ≠ s.current → Stored L m.mem i (s.suspended i) :=
    fun i hi hne => h.kept hkeeps hi hne
  rcases hcase with ⟨hcurrent, rfl⟩ | ⟨hcurrent, rfl⟩
  · rcases step_hands_over h.states hspawn hσ with hsched | ⟨next, hover⟩
    · refine ⟨hstates, ?_, ?_, ?_⟩
      · show σ.sched.threads.length = _
        rw [hsched]
        exact h.length
      · intro i hi hne
        exact hstored i hi fun heq => hne (heq.trans hcurrent.symm)
      · intro i t hne ht
        have hne' : i ≠ s.current := fun heq => hne (heq.trans hcurrent.symm)
        have ht' : σ.sched.threads[i]? = some t := ht
        rw [hsched] at ht'
        exact h.placed i t hne' ht'
    · exact absurd (hover.current.symm.trans hcurrent) hover.ne_current
  · rcases step_hands_over h.states hspawn hσ with hsched | ⟨next, hover⟩
    · rw [hsched] at hcurrent
      exact absurd rfl hcurrent
    · have hnext := h.next_lt hover
      rw [hover.current]
      refine ⟨hstates, hover.length.trans h.length, ?_, ?_⟩
      · intro i hi _
        exact stored_switched L m _ h.current_lt hnext hover.ne_current hstored hi
      · intro i t hne ht
        have hne' : i ≠ next := fun heq => hne (heq.trans hover.current.symm)
        exact h.placed_hands_over hover m hne' ht

end Inv

theorem reachable_inv {entries : List F} {L : Layout (entries.length + 1)} {m : Machine}
    {s : State F} (hspawned : Spawned L m.mem)
    (h : Reachable (step L) (initial entries m) s) : Inv entries L s :=
  h.invariant (Inv.initial hspawned) fun _ _ _ hinv _ hs => hinv.step hs

/-- The machine at the start of a spawned thread. -/
structure Starts (entries : List F) (L : Layout n) (i : ℕ) (s : State F) : Prop where
  at_wrapper : s.scheduler.pc = .threadWrapper i
  handed : ∃ f, entries[i - 1]? = some f ∧ s.scheduler.slot = some f
  pc : s.machine.pc = L.threadWrapper
  sp_aligned : (s.machine.x sp).toNat % 16 = 0
  sp_in_buffer : (s.machine.x sp).toNat ≤ L.stack i + stackSize ∧
    L.stack i + stackSize < (s.machine.x sp).toNat + 16
  others_zero : ∀ r ∈ savedRegs, r ≠ sp → r ≠ ra → s.machine.x r = 0

/-- A thread goes on behind its call of `switch_context`. -/
structure Resumes (L : Layout n) (i : ℕ) (m : Machine) (ret : Pc F) (s : State F) : Prop where
  at_return : s.scheduler.pc = ret
  pc : s.machine.pc = m.x ra &&& ~~~1
  registers : calleeSaved s.machine = calleeSaved m
  stack : SameOn m.mem s.machine.mem (L.stack i) (L.size i)

theorem toNat_spawnContext_sp {buffer : ℕ} (hfits : buffer + stackSize < 2 ^ 64)
    (threadWrapper : BitVec 64) :
    (spawnContext buffer threadWrapper).sp.toNat = (buffer + stackSize) / 16 * 16 := by
  show (BitVec.ofNat 64 (buffer + stackSize) &&& ~~~0xF).toNat = _
  rw [BitFields.toNat_and_not_mask _ 0xF 4 rfl, BitVec.toNat_ofNat, Nat.mod_eq_of_lt hfits]
  rfl

/-- But for the stack pointer and the return address a thread starts with zeros. -/
theorem spawnContext_zero {m : Machine} {buffer : ℕ} {threadWrapper : BitVec 64}
    (h : calleeSaved m = spawnContext buffer threadWrapper) {r : Reg} (hr : r ∈ savedRegs)
    (hsp : r ≠ sp) (hra : r ≠ ra) : m.x r = 0 := by
  have hmap : savedRegs.map m.x = savedRegs.map fun r =>
      if r = sp then (spawnContext buffer threadWrapper).sp
      else if r = ra then threadWrapper else 0 :=
    congrArg TaskContext.fields h
  have hreg := List.map_inj_left.mp hmap r hr
  simpa only [if_neg hsp, if_neg hra] using hreg

theorem starts_of_spawned {entries : List F} {L : Layout (entries.length + 1)} {s' : State F}
    {i : ℕ} {t : GreenThread F} (hi : i < entries.length + 1)
    (hplaced : Placed entries i t none) (hpc : s'.scheduler.pc = t.ctx)
    (hslot : s'.scheduler.slot = t.entry)
    (hregs : calleeSaved s'.machine = spawnContext (L.stack i) L.threadWrapper)
    (hmachine : s'.machine.pc = L.threadWrapper &&& ~~~1) : Starts entries L i s' := by
  obtain ⟨hmain, hctx, hentry⟩ := hplaced
  have hsize := L.buffer_size i hi hmain
  have hfits := L.buffer_fits i hi
  rw [hsize] at hfits
  have hsp : (s'.machine.x sp).toNat = (L.stack i + stackSize) / 16 * 16 := by
    have hfield : s'.machine.x sp = (spawnContext (L.stack i) L.threadWrapper).sp :=
      congrArg TaskContext.sp hregs
    rw [hfield]
    exact toNat_spawnContext_sp hfits L.threadWrapper
  refine ⟨hpc.trans hctx, ?_, hmachine.trans L.wrapper_even, by omega, by omega, ?_⟩
  · have hlt : entries[i - 1]? = some entries[i - 1] := List.getElem?_eq_getElem (by omega)
    exact ⟨_, hlt, (hslot.trans hentry).trans hlt⟩
  · intro r hr hnsp hnra
    exact spawnContext_zero hregs hr hnsp hnra

/-- A switch hands the processor to a thread where the scheduler's model has it: a new
thread at the wrapper, with its own entry and an aligned stack in its own buffer, any other
behind its call, with the registers and the stack that it had there. -/
theorem switch_continues (entries : List F) {L : Layout (entries.length + 1)} {s s' : State F}
    {m₀ : Machine} (hspawned : Spawned L m₀.mem)
    (h : Reachable (step L) (initial entries m₀) s) {a : Action F} {m : Machine}
    (hs : step L s (a, m) = some s') (hswitch : s'.current ≠ s.current) :
    (s.suspended s'.current = none → Starts entries L s'.current s') ∧
    (∀ m₁ ret, s.suspended s'.current = some (m₁, ret) → Resumes L s'.current m₁ ret s') ∧
    s'.machine.x a0 = 0 ∧ s'.machine.x a1 = 0 := by
  have hinv := reachable_inv hspawned h
  obtain ⟨hspawn, hkeeps, σ, hσ, ⟨hcurrent, rfl⟩ | ⟨hcurrent, rfl⟩⟩ := step_cases hs
  · exact absurd hcurrent hswitch
  rcases step_hands_over hinv.states hspawn hσ with hsched | ⟨next, hover⟩
  · rw [hsched] at hcurrent
    exact absurd rfl hcurrent
  obtain ⟨new, hnew, hpc, hslot⟩ := hover.resumed
  obtain rfl : σ.sched.current = next := hover.current
  have hnext := hinv.next_lt hover
  have hplaced := hinv.placed _ new hover.ne_current hnew
  have hstored := hinv.kept hkeeps hnext hover.ne_current
  have hmachine := called_switches L m hinv.current_lt hnext hover.ne_current
  refine ⟨?_, ?_, hmachine.cleared.1, hmachine.cleared.2⟩
  · intro hnever
    replace hnever : s.suspended σ.sched.current = none := hnever
    rw [hnever] at hplaced hstored
    obtain ⟨hregs, hra⟩ := switched_found L m hinv.current_lt hnext hover.ne_current hstored
    exact starts_of_spawned hnext hplaced hpc hslot hregs hra
  · intro m₁ ret hcall
    replace hcall : s.suspended σ.sched.current = some (m₁, ret) := hcall
    rw [hcall] at hplaced hstored
    obtain ⟨hread, hstack⟩ := hstored
    obtain ⟨hregs, hra⟩ := switched_found L m hinv.current_lt hnext hover.ne_current hread
    have hkept := hmachine.elsewhere _ _ (L.stack_apart _ hnext _ hinv.current_lt)
    refine ⟨hpc.trans hplaced.1, hra, hregs, ?_⟩
    intro x hlo hhi
    exact (hkept x hlo hhi).trans (hstack x hlo hhi)

/-- Main and one spawned thread. -/
def oneThread : Layout 2 where
  threadWrapper := 0x4000
  ctx i := if i = 0 then 0x1000 else 0x1070
  stack i := if i = 0 then 0x8000 else 0x10008
  size i := if i = 0 then 0x1000 else stackSize
  ctx_fits := by decide
  ctx_apart := by decide
  stack_apart := by decide
  buffer_size := by decide
  buffer_fits := by decide
  wrapper_even := by decide

/-- Every register holds its own number; the context of thread 1 is as `spawn` leaves it. -/
def beforeRun : Machine where
  x r := BitVec.ofNat 64 r.val
  f r := BitVec.ofNat 64 r.val
  pc := 0
  mem := storeWords (fun _ => 0) 0x1070 (spawnContext 0x10008 0x4000).fields

theorem beforeRun_spawned : Spawned oneThread beforeRun.mem := by
  intro i hi hmain
  obtain rfl : i = 1 := by omega
  apply TaskContext.fields_injective
  exact words_storeWords (spawnContext 0x10008 0x4000).fields

/-- Main runs thread 1, which sets all registers to 7 and yields. -/
theorem switch_continues_there_and_back :
    ∃ s s' : State ℕ, Starts [5] oneThread 1 s ∧ s.suspended 0 = some (beforeRun, .runLoop) ∧
      Resumes oneThread 0 beforeRun .runLoop s' ∧ s'.machine.x sp = 2 := by
  obtain ⟨σ₁, hσ₁, σ₂, hσ₂, σ₃, hσ₃, hone, htwo, hthree⟩ :
      ∃ σ₁, GreenThreads.step (started [5]) .proceed = some σ₁ ∧
      ∃ σ₂, GreenThreads.step σ₁ .proceed = some σ₂ ∧
      ∃ σ₃, GreenThreads.step σ₂ .yieldNow = some σ₃ ∧
        σ₁.sched.current = 1 ∧ σ₂.sched.current = 1 ∧ σ₃.sched.current = 0 :=
    ⟨_, rfl, _, rfl, _, rfl, rfl, rfl, rfl⟩
  obtain ⟨s₁, hs₁, rfl, -, hcalls⟩ := step_unchanged (L := oneThread)
    (s := initial [5] beforeRun) (m := beforeRun) rfl (by simp) hσ₁
  have hreach₁ : Reachable (step oneThread) (initial [5] beforeRun) s₁ :=
    Reach.step _ Reach.init trivial hs₁
  have hcall : s₁.suspended 0 = some (beforeRun, .runLoop) := by
    rw [hcalls (by rw [hone]; exact Nat.one_ne_zero)]
    rfl
  have hswitch₁ : s₁.current ≠ (initial [5] beforeRun).current := by
    rw [State.current, hone]
    exact Nat.one_ne_zero
  obtain ⟨hstarts, -⟩ := switch_continues [5] beforeRun_spawned Reach.init hs₁ hswitch₁
  rw [State.current, hone] at hstarts
  -- Thread 1 enters its entry and runs to its call of `yield_now`.
  obtain ⟨s₂, hs₂, rfl, hstay, -⟩ := step_unchanged (L := oneThread) (s := s₁)
    (m := { s₁.machine with x := fun _ => 7 }) rfl (by simp) hσ₂
  obtain ⟨-, hcalls₂⟩ := hstay (htwo.trans hone.symm)
  obtain ⟨s₃, hs₃, rfl, -⟩ := step_unchanged (L := oneThread) (s := s₂) (m := s₂.machine) rfl
    (by simp) hσ₃
  have hreach₂ : Reachable (step oneThread) (initial [5] beforeRun) s₂ :=
    Reach.step _ hreach₁ trivial hs₂
  have hswitch₃ : s₃.current ≠ s₂.current := by
    rw [State.current, State.current, hthree, htwo]
    exact Nat.zero_ne_one
  obtain ⟨-, hresumes, -⟩ := switch_continues [5] beforeRun_spawned hreach₂ hs₃ hswitch₃
  rw [State.current, hthree, hcalls₂, hcall] at hresumes
  have hback := hresumes beforeRun .runLoop rfl
  exact ⟨s₁, s₃, hstarts rfl, hcall, hback, congrArg TaskContext.sp hback.registers⟩

end OsCamp.GreenThreadMachine
