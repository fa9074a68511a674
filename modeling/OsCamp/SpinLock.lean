import Mathlib.Algebra.Ring.Nat
import Mathlib.Data.Nat.Cast.Defs
import Mathlib.Logic.Function.Basic
import OsCamp.Execution

/-!
`SpinLock` of the two crates, shared by threads. An operation on `locked` is one step, and
so are the read and the write of the data in a critical section. A thread that holds the
lock reads the data once, writes a function of what it read, and unlocks; with a
`SpinGuard` the last is the drop of the guard. The functions of the sections that have
ended are recorded in order.
-/

set_option autoImplicit false

namespace OsCamp.SpinLock

open Execution

/-- `lock` of the second crate uses `compare_exchange_weak`, which may fail spuriously. -/
inductive Crate
  | spinlock
  | spinlockGuard
  deriving DecidableEq

/-- Where a thread stands, with what it read or wrote in its critical section. -/
inductive Pc (D : Type*)
  | idle
  | spinning
  | trying
  | holding
  | loaded (v : D)
  | written (f : D → D)

structure State (T D : Type*) where
  locked : Bool
  data : D
  pc : T → Pc D
  completed : List (D → D)

inductive Action (T D : Type*)
  | lock (t : T)
  | tryLock (t : T)
  | exchange (t : T) (spurious : Bool)
  | read (t : T)
  | write (t : T) (f : D → D)
  | unlock (t : T)

section

variable {T D : Type*} [DecidableEq T]

namespace State

def new (data : D) : State T D := ⟨false, data, fun _ => .idle, []⟩

def goto (s : State T D) (t : T) (pc : Pc D) : State T D :=
  { s with pc := Function.update s.pc t pc }

/-- The exchange of `false` for `true`; a thread that fails goes to `failed`. -/
def compareExchange (s : State T D) (t : T) (spurious : Bool) (failed : Pc D) : State T D :=
  if s.locked = false ∧ spurious = false then { s with locked := true }.goto t .holding
  else s.goto t failed

end State

def step (crate : Crate) (s : State T D) : Action T D → Option (State T D)
  | .lock t =>
    match s.pc t with
    | .idle => some (s.goto t .spinning)
    | _ => none
  | .tryLock t =>
    match crate, s.pc t with
    | .spinlock, .idle => some (s.goto t .trying)
    | _, _ => none
  | .exchange t spurious =>
    if spurious = true ∧ crate = .spinlock then none
    else match s.pc t with
      | .spinning => some (s.compareExchange t spurious .spinning)
      | .trying => some (s.compareExchange t spurious .idle)
      | _ => none
  | .read t =>
    match s.pc t with
    | .holding => some (s.goto t (.loaded s.data))
    | _ => none
  | .write t f =>
    match s.pc t with
    | .loaded v => some ({ s with data := f v }.goto t (.written f))
    | _ => none
  | .unlock t =>
    match s.pc t with
    | .written f =>
      some ({ s with locked := false, completed := s.completed ++ [f] }.goto t .idle)
    | _ => none

end

section

variable {T D : Type*}

/-- Between acquire and release. -/
def Pc.Holds : Pc D → Prop
  | .holding => True
  | .loaded _ => True
  | .written _ => True
  | _ => False

/-- The critical sections one after the other. -/
def composed (init : D) (sections : List (D → D)) : D := sections.foldl (fun v f => f v) init

/-- The data as the thread that holds the lock has left it. -/
def InSection (init : D) (s : State T D) : Pc D → Prop
  | .holding => s.data = composed init s.completed
  | .loaded v => v = s.data ∧ s.data = composed init s.completed
  | .written f => s.data = f (composed init s.completed)
  | _ => False

inductive Inv (init : D) (s : State T D) : Prop
  | free (unlocked : s.locked = false) (nobody : ∀ u, ¬ (s.pc u).Holds)
      (released : s.data = composed init s.completed)
  | held (t : T) (locked : s.locked = true) (others : ∀ u, u ≠ t → ¬ (s.pc u).Holds)
      (inSection : InSection init s (s.pc t))

variable {crate : Crate} {init : D} {s s' : State T D} {t u : T} {pc : Pc D}

theorem InSection.holds (h : InSection init s pc) : pc.Holds := by
  cases pc with
  | holding => trivial
  | loaded v => trivial
  | written f => trivial
  | idle => cases h
  | spinning => cases h
  | trying => cases h

namespace Inv

theorem new : Inv init (State.new init : State T D) :=
  free rfl (fun _ h => nomatch h) rfl

/-- A thread that holds the lock is the only one. -/
theorem holder (h : Inv init s) (ht : (s.pc t).Holds) :
    s.locked = true ∧ (∀ u, u ≠ t → ¬ (s.pc u).Holds) ∧ InSection init s (s.pc t) := by
  cases h with
  | free unlocked nobody released => exact absurd ht (nobody t)
  | held v locked others inSection =>
    have hvt : t = v := by_contra fun hne => others t hne ht
    rw [hvt]
    exact ⟨locked, others, inSection⟩

theorem exclusive (h : Inv init s) (ht : (s.pc t).Holds) (hu : (s.pc u).Holds) : t = u :=
  by_contra fun hne => (h.holder hu).2.1 t hne ht

theorem locked_iff (h : Inv init s) : s.locked = true ↔ ∃ t, (s.pc t).Holds := by
  constructor
  · intro hlocked
    cases h with
    | free unlocked nobody released =>
      rw [unlocked] at hlocked
      cases hlocked
    | held t locked others inSection => exact ⟨t, inSection.holds⟩
  · exact fun ⟨t, ht⟩ => (h.holder ht).1

theorem data_released (h : Inv init s) (hnobody : ∀ t, ¬ (s.pc t).Holds) :
    s.data = composed init s.completed := by
  cases h with
  | free unlocked nobody released => exact released
  | held t locked others inSection => exact absurd inSection.holds (hnobody t)

end Inv

variable [DecidableEq T]

theorem goto_self : (s.goto t pc).pc t = pc := Function.update_self _ _ _

theorem goto_ne (hu : u ≠ t) : (s.goto t pc).pc u = s.pc u := Function.update_of_ne hu _ _

theorem others_goto (h : ∀ u, u ≠ t → ¬ (s.pc u).Holds) :
    ∀ u, u ≠ t → ¬ ((s.goto t pc).pc u).Holds := by
  intro u hu
  rw [goto_ne hu]
  exact h u hu

theorem nobody_goto (h : ∀ u, u ≠ t → ¬ (s.pc u).Holds) (hpc : ¬ pc.Holds) :
    ∀ u, ¬ ((s.goto t pc).pc u).Holds := by
  intro u
  by_cases hu : u = t
  · rw [hu, goto_self]
    exact hpc
  · exact others_goto h u hu

namespace Inv

/-- A thread outside its critical section moves on outside of it. -/
theorem outside (h : Inv init s) (hold : ¬ (s.pc t).Holds) (hnew : ¬ pc.Holds) :
    Inv init (s.goto t pc) := by
  cases h with
  | free unlocked nobody released =>
    exact free unlocked (nobody_goto (fun u _ => nobody u) hnew) released
  | held v locked others inSection =>
    have hvt : v ≠ t := by
      rintro rfl
      exact hold inSection.holds
    refine held v locked ?_ ?_
    · intro u hu
      by_cases hut : u = t
      · rw [hut, goto_self]
        exact hnew
      · rw [goto_ne hut]
        exact others u hu
    · rw [goto_ne hvt]
      exact inSection

/-- The thread that holds the lock moves on in its critical section. -/
theorem inside (hlocked : s.locked = true) (hothers : ∀ u, u ≠ t → ¬ (s.pc u).Holds)
    (hpc : InSection init s pc) : Inv init (s.goto t pc) := by
  refine held t hlocked (others_goto hothers) ?_
  rw [goto_self]
  exact hpc

theorem exchange (h : Inv init s) {spurious : Bool} (hold : ¬ (s.pc t).Holds)
    (hfailed : ¬ pc.Holds) : Inv init (s.compareExchange t spurious pc) := by
  unfold State.compareExchange
  split_ifs with hwins
  · have hnobody : ∀ u, ¬ (s.pc u).Holds := by
      intro u hu
      have hlocked := (h.holder hu).1
      rw [hwins.1] at hlocked
      cases hlocked
    exact inside (s := { s with locked := true }) rfl (fun u _ => hnobody u)
      (h.data_released hnobody)
  · exact h.outside hold hfailed

theorem read (h : Inv init s) (hpc : s.pc t = .holding) :
    Inv init (s.goto t (.loaded s.data)) := by
  obtain ⟨hlocked, hothers, hsection⟩ := h.holder (t := t) (by rw [hpc]; trivial)
  rw [hpc] at hsection
  exact inside hlocked hothers ⟨rfl, hsection⟩

theorem write (h : Inv init s) {v : D} (hpc : s.pc t = .loaded v) (f : D → D) :
    Inv init ({ s with data := f v }.goto t (.written f)) := by
  obtain ⟨hlocked, hothers, hsection⟩ := h.holder (t := t) (by rw [hpc]; trivial)
  rw [hpc] at hsection
  obtain ⟨hread, hdata⟩ := hsection
  apply inside (s := { s with data := f v }) hlocked hothers
  show f v = f (composed init s.completed)
  rw [hread, hdata]

theorem unlock (h : Inv init s) {f : D → D} (hpc : s.pc t = .written f) :
    Inv init
      ({ s with locked := false, completed := s.completed ++ [f] }.goto t .idle) := by
  obtain ⟨-, hothers, hsection⟩ := h.holder (t := t) (by rw [hpc]; trivial)
  rw [hpc] at hsection
  refine free rfl (nobody_goto hothers fun h => nomatch h) ?_
  show s.data = composed init (s.completed ++ [f])
  unfold composed
  rw [List.foldl_append]
  exact hsection

theorem step (h : Inv init s) {a : Action T D} (hs : SpinLock.step crate s a = some s') :
    Inv init s' := by
  cases a with
  | lock t =>
    cases hpc : s.pc t <;> simp only [SpinLock.step, hpc] at hs
    case idle =>
      cases hs
      exact h.outside (by rw [hpc]; exact id) id
    all_goals cases hs
  | tryLock t =>
    cases crate <;> cases hpc : s.pc t <;> simp only [SpinLock.step, hpc] at hs
    case spinlock.idle =>
      cases hs
      exact h.outside (by rw [hpc]; exact id) id
    all_goals cases hs
  | exchange t spurious =>
    obtain ⟨-, hs⟩ := Option.ite_none_left_eq_some.mp hs
    cases hpc : s.pc t <;> simp only [hpc] at hs
    case spinning =>
      cases hs
      exact h.exchange (by rw [hpc]; exact id) id
    case trying =>
      cases hs
      exact h.exchange (by rw [hpc]; exact id) id
    all_goals cases hs
  | read t =>
    cases hpc : s.pc t <;> simp only [SpinLock.step, hpc] at hs
    case holding =>
      cases hs
      exact h.read hpc
    all_goals cases hs
  | write t f =>
    cases hpc : s.pc t <;> simp only [SpinLock.step, hpc] at hs
    case loaded v =>
      cases hs
      exact h.write hpc f
    all_goals cases hs
  | unlock t =>
    cases hpc : s.pc t <;> simp only [SpinLock.step, hpc] at hs
    case written f =>
      cases hs
      exact h.unlock hpc
    all_goals cases hs

end Inv

/-- What the lock promises in every state. -/
structure LockSafe (init : D) (s : State T D) : Prop where
  exclusive : ∀ t u, (s.pc t).Holds → (s.pc u).Holds → t = u
  locked_iff : s.locked = true ↔ ∃ t, (s.pc t).Holds
  released : (∀ t, ¬ (s.pc t).Holds) → s.data = composed init s.completed
  held : ∀ t, (s.pc t).Holds → InSection init s (s.pc t)

/-- A `try_lock` that fails changes nothing but where its thread stands. -/
theorem tryLock_failed {spurious : Bool} (hpc : s.pc t = .trying)
    (hs : step crate s (.exchange t spurious) = some s') (hfailed : ¬ (s'.pc t).Holds) :
    s' = s.goto t .idle := by
  obtain ⟨-, hs⟩ := Option.ite_none_left_eq_some.mp hs
  simp only [hpc] at hs
  cases hs
  unfold State.compareExchange at hfailed ⊢
  split_ifs with hwins
  · rw [if_pos hwins, goto_self] at hfailed
    exact absurd trivial hfailed
  · rfl

omit [DecidableEq T] in
theorem composed_add_one [AddMonoidWithOne D] {sections : List (D → D)} (init : D)
    (h : ∀ f ∈ sections, ∀ v, f v = v + 1) :
    composed init sections = init + (sections.length : D) := by
  induction sections generalizing init with
  | nil => simp [composed]
  | cons f rest ih =>
    have hhead : f init = init + 1 := h f (List.mem_cons_self ..) init
    have hrest := ih (f init) fun g hg => h g (List.mem_cons_of_mem _ hg)
    show composed (f init) rest = _
    rw [hrest, hhead, add_assoc, List.length_cons, Nat.add_comm, Nat.cast_add, Nat.cast_one]

/-- In every interleaving at most one thread is between acquire and release, `locked` is
true exactly then, a failed `try_lock` changes nothing, and the data are those of the
sections that have ended, each applied once; so sections that add 1 are counted. -/
theorem reachable_lockSafe (crate : Crate) (init : D)
    (h : Reachable (step crate) (State.new init) s) :
    LockSafe init s ∧
    (∀ t spurious s', s.pc t = .trying → step crate s (.exchange t spurious) = some s' →
      ¬ (s'.pc t).Holds → s'.locked = s.locked ∧ s'.data = s.data ∧
        s'.completed = s.completed ∧ ∀ u, u ≠ t → s'.pc u = s.pc u) ∧
    ∀ [AddMonoidWithOne D], (∀ f ∈ s.completed, ∀ v, f v = v + 1) →
      (∀ t, ¬ (s.pc t).Holds) → s.data = init + (s.completed.length : D) := by
  have hinv : Inv init s := h.invariant Inv.new fun _ _ _ hi _ hs => hi.step hs
  refine ⟨?_, ?_, ?_⟩
  · exact { exclusive := fun _ _ => hinv.exclusive, locked_iff := hinv.locked_iff,
            released := hinv.data_released, held := fun _ ht => (hinv.holder ht).2.2 }
  · intro t spurious s' hpc hs hfailed
    rw [tryLock_failed hpc hs hfailed]
    exact ⟨rfl, rfl, rfl, fun u hu => goto_ne hu⟩
  · intro _ hadds hnobody
    rw [hinv.data_released hnobody, composed_add_one init hadds]

/-- Two threads that add 1; the exchange of thread 0 fails spuriously, then it holds the
lock while thread 1 spins. -/
theorem reachable_lockSafe_two_threads :
    ∃ s : State (Fin 2) ℕ,
      run (step .spinlockGuard) (State.new 5) [.lock 0, .exchange 0 true, .lock 1,
        .exchange 0 false, .exchange 1 false, .read 0, .exchange 1 false, .write 0 (· + 1),
        .unlock 0, .exchange 1 false, .read 1, .write 1 (· + 1), .unlock 1] = some s ∧
      s.completed.length = 2 ∧ s.data = 7 ∧ s.locked = false := by
  obtain ⟨s, hrun, hcompleted, hpc⟩ : ∃ s : State (Fin 2) ℕ,
      run (step .spinlockGuard) (State.new 5) [.lock 0, .exchange 0 true, .lock 1,
        .exchange 0 false, .exchange 1 false, .read 0, .exchange 1 false, .write 0 (· + 1),
        .unlock 0, .exchange 1 false, .read 1, .write 1 (· + 1), .unlock 1] = some s ∧
      s.completed = [(· + 1), (· + 1)] ∧ s.pc 0 = .idle ∧ s.pc 1 = .idle :=
    ⟨_, rfl, rfl, rfl, rfl⟩
  have hnobody : ∀ t, ¬ (s.pc t).Holds := by
    rw [Fin.forall_fin_two, hpc.1, hpc.2]
    exact ⟨id, id⟩
  have hreach : Reachable (step .spinlockGuard) (State.new 5) s := Reach.init.run hrun
  obtain ⟨hsafe, -, hcount⟩ := reachable_lockSafe .spinlockGuard 5 hreach
  have hlength : s.completed.length = 2 := by rw [hcompleted]; rfl
  have hdata := hcount (by rw [hcompleted]; simp) hnobody
  rw [hlength] at hdata
  refine ⟨s, hrun, hlength, hdata.trans rfl, ?_⟩
  apply Bool.eq_false_iff.mpr
  intro hlocked
  obtain ⟨t, ht⟩ := hsafe.locked_iff.mp hlocked
  exact hnobody t ht

end

end OsCamp.SpinLock
