import OsCamp.Execution
import Mathlib.Data.Fintype.Basic
import Mathlib.Logic.Function.Basic

/-!
The flag channel shared by any number of threads. Each load and store is one
sequentially consistent step. A `consume` that has seen the flag loads the data in a
step of its own; a `reset` that stores its 0 in between makes it deliver a value that
nobody produced.
-/

set_option autoImplicit false

namespace OsCamp.FlagChannel

open Execution

/-- The next atomic operation of a thread. -/
inductive Pc
  | idle
  | produceData (value : BitVec 32)
  | produceReady
  | consumeReady
  | consumeData
  | resetReady
  | resetData
  deriving DecidableEq

/-- A store to `data`, by the call that made it. -/
inductive DataStore
  | produce (value : BitVec 32)
  | reset
  deriving DecidableEq

def DataStore.value : DataStore → BitVec 32
  | .produce value => value
  | .reset => 0

/-- `stores` are the stores to `data`, `consumed` the values that `consume` returned, both
latest first. -/
structure State (T : Type*) where
  data : BitVec 32
  ready : Bool
  pc : T → Pc
  stores : List DataStore
  consumed : List (BitVec 32)

inductive Action (T : Type*)
  | beginProduce (t : T) (value : BitVec 32)
  | beginConsume (t : T)
  | beginReset (t : T)
  | advance (t : T)
  deriving DecidableEq

section Model

variable {T : Type*} [DecidableEq T]

namespace State

def new : State T := ⟨0, false, fun _ => .idle, [], []⟩

def goto (s : State T) (t : T) (pc : Pc) : State T := { s with pc := Function.update s.pc t pc }

def storeData (s : State T) (store : DataStore) : State T :=
  { s with data := store.value, stores := store :: s.stores }

def advance (s : State T) (t : T) : Option (State T) :=
  match s.pc t with
  | .idle => none
  | .produceData value => some ((s.storeData (.produce value)).goto t .produceReady)
  | .produceReady => some { s.goto t .idle with ready := true }
  | .consumeReady =>
    -- The loop spins on a false flag.
    if s.ready then some (s.goto t .consumeData) else some s
  | .consumeData => some { s.goto t .idle with consumed := s.data :: s.consumed }
  | .resetReady => some { s.goto t .resetData with ready := false }
  | .resetData => some ((s.storeData .reset).goto t .idle)

end State

def begin (s : State T) (t : T) (pc : Pc) : Option (State T) :=
  if s.pc t = .idle then some (s.goto t pc) else none

def step (s : State T) : Action T → Option (State T)
  | .beginProduce t value => begin s t (.produceData value)
  | .beginConsume t => begin s t .consumeReady
  | .beginReset t => begin s t .resetReady
  | .advance t => s.advance t

end Model

/-- Every value returned is one that a `produce` has stored by then. -/
def DeliversProduced {T : Type*} (s : State T) : Prop :=
  ∀ v ∈ s.consumed, .produce v ∈ s.stores

/-- No `consume` loads the data while the latest store to it is that of a `reset`, unless
some `produce` has stored a 0. -/
def LoadsProduced {T : Type*} (s : State T) (a : Action T) : Prop :=
  ∀ t, a = .advance t → s.pc t = .consumeData →
    s.stores.head? = some .reset → .produce 0 ∈ s.stores

instance {T : Type*} [Fintype T] [DecidableEq T] (s : State T) (a : Action T) :
    Decidable (LoadsProduced s a) :=
  inferInstanceAs (Decidable (∀ t, a = .advance t → s.pc t = .consumeData →
    s.stores.head? = some .reset → .produce 0 ∈ s.stores))

/-- Some `produce` has stored its value. -/
def Produced (stores : List DataStore) : Prop := ∃ value, .produce value ∈ stores

/-- Behind a raised flag, and wherever a thread has relied on one, a value was stored. -/
structure Inv {T : Type*} (s : State T) : Prop where
  data : s.data = (s.stores.head?.map DataStore.value).getD 0
  ready : s.ready = true → Produced s.stores
  raising : ∀ t, s.pc t = .produceReady → Produced s.stores
  loading : ∀ t, s.pc t = .consumeData → Produced s.stores

variable {T : Type*} [DecidableEq T] {s s' : State T} {t : T}

theorem goto_pc (s : State T) (t u : T) (pc : Pc) :
    (s.goto t pc).pc u = if u = t then pc else s.pc u := by
  by_cases hu : u = t
  · subst u
    simp [State.goto]
  · simp [State.goto, hu]

/-- A thread at `target` after the move has been sent there or was there before. -/
theorem pc_of_goto {u : T} {pc target : Pc} (h : (s.goto t pc).pc u = target) :
    pc = target ∨ s.pc u = target := by
  rw [goto_pc] at h
  split_ifs at h with hut
  · exact Or.inl h
  · exact Or.inr h

/-- What a step does to the shared atomics and to what was returned. -/
inductive Op (s : State T) : Action T → State T → Prop
  | move (a : Action T) (t : T) (pc : Pc) (ready : Bool)
      (ha : ∀ u, a = .advance u → s.pc u ≠ .consumeData)
      (hready : ready = true → s.ready = true ∨ s.pc t = .produceReady)
      (hraising : pc ≠ .produceReady) (hloading : pc = .consumeData → s.ready = true) :
      Op s a { s.goto t pc with ready := ready }
  | produce (t : T) (value : BitVec 32) (hpc : s.pc t = .produceData value) :
      Op s (.advance t) ((s.storeData (.produce value)).goto t .produceReady)
  | reset (t : T) (hpc : s.pc t = .resetData) :
      Op s (.advance t) ((s.storeData .reset).goto t .idle)
  | consume (t : T) (hpc : s.pc t = .consumeData) :
      Op s (.advance t) { s.goto t .idle with consumed := s.data :: s.consumed }

theorem goto_self (s : State T) (t : T) : s.goto t (s.pc t) = s := by
  unfold State.goto
  rw [Function.update_eq_self]

theorem begin_op {pc : Pc} {a : Action T} (ha : ∀ u, a ≠ .advance u)
    (hraising : pc ≠ .produceReady) (hloading : pc ≠ .consumeData)
    (hs : begin s t pc = some s') : Op s a s' := by
  obtain ⟨-, hout⟩ := Option.ite_none_right_eq_some.mp hs
  cases hout
  exact Op.move a t pc s.ready (fun u hu => absurd hu (ha u)) Or.inl hraising
    (fun h => absurd h hloading)

theorem step_op {a : Action T} (hs : step s a = some s') : Op s a s' := by
  cases a with
  | beginProduce t value => exact begin_op (by simp) (by simp) (by simp) hs
  | beginConsume t => exact begin_op (by simp) (by simp) (by simp) hs
  | beginReset t => exact begin_op (by simp) (by simp) (by simp) hs
  | advance t =>
    have hadvance : s.advance t = some s' := hs
    unfold State.advance at hadvance
    cases hpc : s.pc t with
    | idle => simp [hpc] at hadvance
    | produceData value =>
      simp only [hpc, Option.some.injEq] at hadvance
      subst s'
      exact Op.produce t value hpc
    | produceReady =>
      simp only [hpc, Option.some.injEq] at hadvance
      subst s'
      exact Op.move _ t .idle true (by simp [hpc]) (fun _ => Or.inr hpc) (by simp) (by simp)
    | consumeReady =>
      simp only [hpc] at hadvance
      split_ifs at hadvance with hready
      · cases hadvance
        exact Op.move _ t .consumeData s.ready (by simp [hpc]) Or.inl (by simp) (fun _ => hready)
      · have hsame : s' = { s.goto t (s.pc t) with ready := s.ready } := by
          rw [goto_self]
          exact (Option.some.inj hadvance).symm
        rw [hsame, hpc]
        exact Op.move _ t .consumeReady s.ready (by simp [hpc]) Or.inl (by simp) (by simp)
    | consumeData =>
      simp only [hpc, Option.some.injEq] at hadvance
      subst s'
      exact Op.consume t hpc
    | resetReady =>
      simp only [hpc, Option.some.injEq] at hadvance
      subst s'
      exact Op.move _ t .resetData false (by simp [hpc]) (by simp) (by simp) (by simp)
    | resetData =>
      simp only [hpc, Option.some.injEq] at hadvance
      subst s'
      exact Op.reset t hpc

theorem Produced.cons {stores : List DataStore} (h : Produced stores) (store : DataStore) :
    Produced (store :: stores) := by
  obtain ⟨value, hmem⟩ := h
  exact ⟨value, List.mem_cons_of_mem _ hmem⟩

namespace Inv

omit [DecidableEq T] in
theorem new : Inv (State.new : State T) where
  data := rfl
  ready h := nomatch h
  raising _ h := nomatch h
  loading _ h := nomatch h

/-- A store to the data keeps the invariant, wherever its thread goes on. -/
theorem storeData (h : Inv s) (store : DataStore) {pc : Pc}
    (hraising : pc = .produceReady → Produced (store :: s.stores)) (hloading : pc ≠ .consumeData) :
    Inv ((s.storeData store).goto t pc) where
  data := rfl
  ready hready := (h.ready hready).cons store
  raising u hu := by
    rcases pc_of_goto hu with hsent | hstood
    · exact hraising hsent
    · exact (h.raising u hstood).cons store
  loading u hu := by
    rcases pc_of_goto hu with hsent | hstood
    · exact absurd hsent hloading
    · exact (h.loading u hstood).cons store

theorem step (h : Inv s) {a : Action T} (hs : step s a = some s') : Inv s' := by
  cases step_op hs with
  | move _ t pc ready _ hready hraising hloading =>
    constructor
    · exact h.data
    · intro hset
      rcases hready hset with hold | hpc
      · exact h.ready hold
      · exact h.raising t hpc
    · intro u hu
      rcases pc_of_goto (s := s) hu with hsent | hstood
      · exact absurd hsent hraising
      · exact h.raising u hstood
    · intro u hu
      rcases pc_of_goto (s := s) hu with hsent | hstood
      · exact h.ready (hloading hsent)
      · exact h.loading u hstood
  | produce t value hpc =>
    exact h.storeData (.produce value) (fun _ => ⟨value, List.mem_cons_self ..⟩) (by simp)
  | reset t hpc => exact h.storeData .reset (by simp) (by simp)
  | consume t hpc =>
    constructor
    · exact h.data
    · exact h.ready
    · intro u hu
      rcases pc_of_goto (s := s) hu with hsent | hstood
      · cases hsent
      · exact h.raising u hstood
    · intro u hu
      rcases pc_of_goto (s := s) hu with hsent | hstood
      · cases hsent
      · exact h.loading u hstood

omit [DecidableEq T] in
/-- The data that a `consume` loads is produced exactly where the condition holds. -/
theorem loaded_iff (h : Inv s) (hpc : s.pc t = .consumeData) :
    .produce s.data ∈ s.stores ↔ (s.stores.head? = some .reset → .produce 0 ∈ s.stores) := by
  have hdata := h.data
  obtain ⟨value, hmem⟩ := h.loading t hpc
  cases hstores : s.stores with
  | nil =>
    rw [hstores] at hmem
    exact absurd hmem List.not_mem_nil
  | cons store rest =>
    rw [hstores] at hdata
    cases store with
    | produce v =>
      have hv : s.data = v := hdata
      rw [hv]
      exact iff_of_true (List.mem_cons_self ..) (fun heq => nomatch heq)
    | reset =>
      have hzero : s.data = 0 := hdata
      rw [hzero]
      exact ⟨fun hproduced _ => hproduced, fun hif => hif rfl⟩

end Inv

/-- One step keeps the property exactly where it does not load a reset's 0. -/
theorem deliversProduced_step_iff (hinv : Inv s) (h : DeliversProduced s) {a : Action T}
    (hs : step s a = some s') : DeliversProduced s' ↔ LoadsProduced s a := by
  cases step_op hs with
  | move _ t pc ready ha => exact iff_of_true h fun u hu hpc => absurd hpc (ha u hu)
  | produce t value hpc =>
    refine iff_of_true (fun v hv => List.mem_cons_of_mem _ (h v hv)) ?_
    intro u hu hload
    cases hu
    rw [hpc] at hload
    cases hload
  | reset t hpc =>
    refine iff_of_true (fun v hv => List.mem_cons_of_mem _ (h v hv)) ?_
    intro u hu hload
    cases hu
    rw [hpc] at hload
    cases hload
  | consume t hpc =>
    constructor
    · intro hdelivers u hu _
      exact (hinv.loaded_iff hpc).mp (hdelivers s.data (List.mem_cons_self ..))
    · intro hloads v hv
      rcases List.mem_cons.mp hv with rfl | hold
      · exact (hinv.loaded_iff hpc).mpr (hloads t rfl hpc)
      · exact h v hold

/-- In every run in which no `consume` loads a reset's 0, only produced values are
delivered, and a step that loads one breaks this. -/
theorem consume_delivers_produced (h : Reach step LoadsProduced (State.new : State T) s) :
    DeliversProduced s ∧
      ∀ a s', step s a = some s' → (DeliversProduced s' ↔ LoadsProduced s a) := by
  have hboth : Inv s ∧ DeliversProduced s := by
    refine h.invariant (I := fun s => Inv s ∧ DeliversProduced s)
      ⟨Inv.new, fun v hv => absurd hv List.not_mem_nil⟩ ?_
    intro s a s' ⟨hinv, hdelivers⟩ hok hs
    exact ⟨hinv.step hs, (deliversProduced_step_iff hinv hdelivers hs).mpr hok⟩
  exact ⟨hboth.2, fun a s' hs => deliversProduced_step_iff hboth.1 hboth.2 hs⟩

/-- A reset between two rounds of the channel does no harm. -/
theorem consume_delivers_produced_twice :
    ∃ s : State (Fin 2), run step State.new [.beginProduce 0 7, .advance 0, .advance 0,
        .beginConsume 1, .advance 1, .advance 1, .beginReset 0, .advance 0, .advance 0,
        .beginProduce 0 8, .advance 0, .advance 0, .beginConsume 1, .advance 1, .advance 1] =
        some s ∧
      s.consumed = [8, 7] ∧ DeliversProduced s := by
  obtain ⟨s, hrun, hconsumed⟩ : ∃ s : State (Fin 2), run step State.new [.beginProduce 0 7,
      .advance 0, .advance 0, .beginConsume 1, .advance 1, .advance 1, .beginReset 0, .advance 0,
      .advance 0, .beginProduce 0 8, .advance 0, .advance 0, .beginConsume 1, .advance 1,
      .advance 1] = some s ∧ s.consumed = [8, 7] := ⟨_, rfl, rfl⟩
  have hreach : Reach step LoadsProduced State.new s :=
    Reach.init.run_of_admitted (by decide) hrun
  exact ⟨s, hrun, hconsumed, (consume_delivers_produced hreach).1⟩

/-- The consumer sees the flag of the 7, and the reset stores its 0 before the load. -/
theorem consume_delivers_reset :
    ∃ s : State (Fin 2), run step State.new [.beginProduce 0 7, .advance 0, .advance 0,
        .beginConsume 1, .advance 1, .beginReset 0, .advance 0, .advance 0, .advance 1] = some s ∧
      s.consumed = [0] ∧ s.stores = [.reset, .produce 7] ∧ ¬ DeliversProduced s := by
  refine ⟨_, rfl, rfl, rfl, ?_⟩
  intro h
  have hmem := h 0 (List.mem_singleton_self 0)
  have hnot : DataStore.produce 0 ∉ [DataStore.reset, DataStore.produce 7] := by decide
  exact hnot hmem

end OsCamp.FlagChannel
