import Mathlib.Logic.Function.Basic
import OsCamp.CoreAlloc
import OsCamp.Execution
import OsCamp.Linearizability

/-!
`AtomicCounter`, shared by threads. An atomic operation on `value` is one step; the
product that `fetch_multiply` computes is part of the exchange it is used for. Numbers
below 2^64 stand for `u64`. Beside the code's own state, the invocations and returns of
all calls are recorded in a history.
-/

set_option autoImplicit false

namespace OsCamp.AtomicCounter

open CoreAlloc Execution Linearizability

inductive Op
  | increment
  | decrement
  | get
  | compareAndSwap (expected newVal : ℕ)
  | fetchMultiply (multiplier : ℕ)
  deriving DecidableEq

inductive Answer
  | value (v : ℕ)
  | ok (v : ℕ)
  | err (v : ℕ)
  deriving DecidableEq

/-- The product of two words, `none` where it panics. -/
def mul (profile : Profile) (x y : ℕ) : Option ℕ :=
  if x * y < 2 ^ 64 then some (x * y)
  else match profile with
    | .debug => none
    | .release => some (x * y % 2 ^ 64)

/-- The next atomic operation of a thread, with its local variables. -/
inductive Pc
  | idle
  | called (op : Op)
  | exchange (multiplier current : ℕ)
  | returning (answer : Answer)
  | panicked
  deriving DecidableEq

structure State (T : Type*) where
  value : ℕ
  pc : T → Pc
  call : T → ℕ
  started : ℕ
  history : List (Event Op Answer)

inductive Action (T : Type*)
  | invoke (t : T) (op : Op)
  | atomic (t : T)
  | ret (t : T)

section

variable {T : Type*} [DecidableEq T]

namespace State

def new (init : ℕ) : State T := ⟨init, fun _ => .idle, fun _ => 0, 0, []⟩

def goto (s : State T) (t : T) (pc : Pc) : State T := { s with pc := Function.update s.pc t pc }

def fetchAdd (s : State T) (t : T) (n : ℕ) : State T :=
  { s with value := (s.value + n) % 2 ^ 64 }.goto t (.returning (.value s.value))

def fetchSub (s : State T) (t : T) (n : ℕ) : State T :=
  { s with value := (s.value + (2 ^ 64 - n)) % 2 ^ 64 }.goto t (.returning (.value s.value))

/-- A call of `compare_and_swap`: `success` and `failure` say how the caller goes on with
the value found. -/
def compareExchange (s : State T) (t : T) (expected newVal : ℕ) (success failure : ℕ → Pc) :
    State T :=
  if s.value = expected then { s with value := newVal }.goto t (success s.value)
  else s.goto t (failure s.value)

/-- The first atomic operation of a call. -/
def begin (s : State T) (t : T) : Op → State T
  | .increment => s.fetchAdd t 1
  | .decrement => s.fetchSub t 1
  | .get => s.goto t (.returning (.value s.value))
  | .compareAndSwap expected newVal =>
    s.compareExchange t expected newVal (.returning <| .ok ·) (.returning <| .err ·)
  | .fetchMultiply multiplier => s.goto t (.exchange multiplier s.value)

/-- One round of the loop of `fetch_multiply`. -/
def multiplyRound (profile : Profile) (s : State T) (t : T) (multiplier current : ℕ) : State T :=
  match mul profile current multiplier with
  | none => s.goto t .panicked
  | some new =>
    s.compareExchange t current new (.returning <| .value ·) (.exchange multiplier ·)

end State

def step (profile : Profile) (s : State T) : Action T → Option (State T)
  | .invoke t op =>
    match s.pc t with
    | .idle => some
        { value := s.value
          pc := Function.update s.pc t (.called op)
          call := Function.update s.call t s.started
          started := s.started + 1
          history := s.history ++ [.invoke s.started op] }
    | _ => none
  | .atomic t =>
    match s.pc t with
    | .called op => some (s.begin t op)
    | .exchange multiplier current => some (s.multiplyRound profile t multiplier current)
    | _ => none
  | .ret t =>
    match s.pc t with
    | .returning answer => some
        { s.goto t .idle with history := s.history ++ [.ret (s.call t) answer] }
    | _ => none

/-- The product that the next atomic operation is given, if any. -/
def product : Pc → ℕ
  | .exchange multiplier current => current * multiplier
  | _ => 0

/-- The product computed in this step fits into a word. -/
def ProductFits (s : State T) : Action T → Prop
  | .atomic t => product (s.pc t) < 2 ^ 64
  | _ => True

instance (s : State T) : ∀ a, Decidable (ProductFits s a)
  | .invoke _ _ => isTrue trivial
  | .atomic t => inferInstanceAs (Decidable (product (s.pc t) < 2 ^ 64))
  | .ret _ => isTrue trivial

end

/-- The counter as a sequential object. -/
def counter : SeqSpec ℕ Op Answer where
  apply
    | .increment, v => (v + 1) % 2 ^ 64
    | .decrement, v => (v + (2 ^ 64 - 1)) % 2 ^ 64
    | .get, v => v
    | .compareAndSwap expected newVal, v => if v = expected then newVal else v
    | .fetchMultiply multiplier, v => v * multiplier
  answer
    | .compareAndSwap expected _, v => if v = expected then .ok v else .err v
    | _, v => .value v

/-- The operation of a call that has not taken effect. -/
def pendingOp : Pc → Option Op
  | .called op => some op
  | .exchange multiplier _ => some (.fetchMultiply multiplier)
  | _ => none

/-- The order is that of the steps by which the calls took effect. -/
structure Inv {T : Type*} (init : ℕ) (s : State T) (order : List (Entry Op Answer)) : Prop where
  lin : Linearization counter init s.history order s.value
  numbered : ∀ c op, .invoke c op ∈ s.history → c < s.started
  call_lt : ∀ t, s.pc t ≠ .idle → s.call t < s.started
  apart : ∀ t u, t ≠ u → s.pc t ≠ .idle → s.pc u ≠ .idle → s.call t ≠ s.call u
  invoked : ∀ t op, pendingOp (s.pc t) = some op → .invoke (s.call t) op ∈ s.history
  waiting : ∀ t op, pendingOp (s.pc t) = some op → s.call t ∉ calls order
  effective : ∀ t answer, s.pc t = .returning answer → ∃ op, ⟨s.call t, op, answer⟩ ∈ order
  returned : ∀ e ∈ order, .ret e.call e.answer ∈ s.history ∨
    ∃ t, s.pc t = .returning e.answer ∧ s.call t = e.call

variable {T : Type*} {profile : Profile} {init : ℕ} {s s' : State T}
  {order : List (Entry Op Answer)} {t u : T} {pc : Pc} {op : Op}

theorem ne_idle_of_pending (h : pendingOp pc = some op) : pc ≠ .idle := by
  rintro rfl
  cases h

namespace Inv

theorem new : Inv init (State.new init : State T) [] where
  lin := Linearization.empty
  numbered _ _ h := nomatch h
  call_lt _ h := absurd rfl h
  apart _ _ _ h := absurd rfl h
  invoked _ _ h := nomatch h
  waiting _ _ h := nomatch h
  effective _ _ h := nomatch h
  returned _ h := nomatch h

theorem call_lt_of_mem (h : Inv init s order) {c : ℕ} (hc : c ∈ calls order) : c < s.started := by
  obtain ⟨e, he, rfl⟩ := List.mem_map.mp hc
  exact h.numbered e.call e.op (h.lin.invoked e he)

end Inv

variable [DecidableEq T]

theorem goto_self : (s.goto t pc).pc t = pc := Function.update_self _ _ _

theorem goto_ne (hu : u ≠ t) : (s.goto t pc).pc u = s.pc u := Function.update_of_ne hu _ _

/-- A thread that is in a call moves: who is in a call was so before. -/
theorem ne_idle_of_goto (hactive : s.pc t ≠ .idle) (hu : (s.goto t pc).pc u ≠ .idle) :
    s.pc u ≠ .idle := by
  by_cases hut : u = t
  · rw [hut]
    exact hactive
  · rwa [goto_ne hut] at hu

/-- A thread other than the one that moves is about to return as before. -/
theorem Inv.returned_goto (h : Inv init s order) (hop : pendingOp (s.pc t) = some op) :
    ∀ e ∈ order, .ret e.call e.answer ∈ s.history ∨
      ∃ v, (s.goto t pc).pc v = .returning e.answer ∧ s.call v = e.call := by
  intro e he
  rcases h.returned e he with hret | ⟨v, hv, hcall⟩
  · exact Or.inl hret
  · have hvt : v ≠ t := by
      rintro rfl
      rw [hv] at hop
      cases hop
    exact Or.inr ⟨v, (goto_ne hvt).trans hv, hcall⟩

namespace Inv

/-- A thread goes on in the same call, which has not taken effect before or after. -/
theorem goto (h : Inv init s order) (hop : pendingOp (s.pc t) = some op)
    (hpc : pendingOp pc = some op) : Inv init (s.goto t pc) order := by
  have hidle : ∀ v, (s.goto t pc).pc v ≠ .idle → s.pc v ≠ .idle :=
    fun v hv => ne_idle_of_goto (ne_idle_of_pending hop) hv
  have hpending : ∀ v op', pendingOp ((s.goto t pc).pc v) = some op' →
      pendingOp (s.pc v) = some op' := by
    intro v op' hv
    by_cases hvt : v = t
    · rw [hvt, goto_self] at hv
      rw [hvt, hop, ← hpc, hv]
    · rwa [goto_ne hvt] at hv
  refine { lin := h.lin, numbered := h.numbered, call_lt := ?_, apart := ?_, invoked := ?_,
           waiting := ?_, effective := ?_, returned := h.returned_goto hop }
  · exact fun v hv => h.call_lt v (hidle v hv)
  · exact fun v w hne hv hw => h.apart v w hne (hidle v hv) (hidle w hw)
  · exact fun v op' hv => h.invoked v op' (hpending v op' hv)
  · exact fun v op' hv => h.waiting v op' (hpending v op' hv)
  · intro v answer hv
    by_cases hvt : v = t
    · rw [hvt, goto_self] at hv
      rw [hv] at hpc
      cases hpc
    · rw [goto_ne hvt] at hv
      exact h.effective v answer hv

/-- The call of a thread takes effect and is about to return. -/
theorem commit (h : Inv init s order) (hop : pendingOp (s.pc t) = some op) :
    Inv init ({ s with value := counter.apply op s.value }.goto t
        (.returning (counter.answer op s.value)))
      (order ++ [⟨s.call t, op, counter.answer op s.value⟩]) := by
  have hactive := ne_idle_of_pending hop
  have hidle : ∀ v, Function.update s.pc t (.returning (counter.answer op s.value)) v ≠ .idle →
      s.pc v ≠ .idle := fun v hv => ne_idle_of_goto hactive hv
  have hpending : ∀ v op', pendingOp
      (Function.update s.pc t (.returning (counter.answer op s.value)) v) = some op' →
      v ≠ t ∧ pendingOp (s.pc v) = some op' := by
    intro v op' hv
    by_cases hvt : v = t
    · rw [hvt, Function.update_self] at hv
      cases hv
    · rw [Function.update_of_ne hvt] at hv
      exact ⟨hvt, hv⟩
  refine { lin := ?_, numbered := h.numbered, call_lt := ?_, apart := ?_, invoked := ?_,
           waiting := ?_, effective := ?_, returned := ?_ }
  · exact h.lin.commit (h.invoked t op hop) (h.waiting t op hop)
  · exact fun v hv => h.call_lt v (hidle v hv)
  · exact fun v w hne hv hw => h.apart v w hne (hidle v hv) (hidle w hw)
  · exact fun v op' hv => h.invoked v op' (hpending v op' hv).2
  · intro v op' hv hmem
    obtain ⟨hvt, hold⟩ := hpending v op' hv
    rw [calls, List.map_append] at hmem
    rcases List.mem_append.mp hmem with hmem | hmem
    · exact h.waiting v op' hold hmem
    · exact h.apart v t hvt (ne_idle_of_pending hold) hactive (List.mem_singleton.mp hmem)
  · intro v answer hv
    by_cases hvt : v = t
    · rw [hvt, goto_self] at hv
      cases hv
      rw [hvt]
      exact ⟨op, List.mem_append_right _ (List.mem_singleton.mpr rfl)⟩
    · rw [goto_ne hvt] at hv
      obtain ⟨op', hmem⟩ := h.effective v answer hv
      exact ⟨op', List.mem_append_left _ hmem⟩
  · intro e he
    rcases List.mem_append.mp he with he | he
    · exact h.returned_goto hop e he
    · rw [List.mem_singleton.mp he]
      exact Or.inr ⟨t, goto_self, rfl⟩

/-- Who is in a call after an invocation: the invoking thread with the new number, or a
thread that was in its call before. -/
theorem active_invoke {v : T} (hv : Function.update s.pc t (.called op) v ≠ .idle) :
    (v = t ∧ Function.update s.call t s.started v = s.started) ∨
    (v ≠ t ∧ s.pc v ≠ .idle ∧ Function.update s.call t s.started v = s.call v) := by
  by_cases hvt : v = t
  · subst v
    exact Or.inl ⟨rfl, Function.update_self _ _ _⟩
  · rw [Function.update_of_ne hvt] at hv
    exact Or.inr ⟨hvt, hv, Function.update_of_ne hvt _ _⟩

/-- The same for the calls that have not taken effect. -/
theorem pending_invoke {v : T} {op' : Op}
    (hv : pendingOp (Function.update s.pc t (.called op) v) = some op') :
    (v = t ∧ op' = op ∧ Function.update s.call t s.started v = s.started) ∨
    (v ≠ t ∧ pendingOp (s.pc v) = some op' ∧
      Function.update s.call t s.started v = s.call v) := by
  by_cases hvt : v = t
  · subst v
    rw [Function.update_self] at hv
    exact Or.inl ⟨rfl, (Option.some.inj hv).symm, Function.update_self _ _ _⟩
  · rw [Function.update_of_ne hvt] at hv
    exact Or.inr ⟨hvt, hv, Function.update_of_ne hvt _ _⟩

/-- An idle thread invokes its next call. -/
theorem invoke (h : Inv init s order) (hidle : s.pc t = .idle) (op : Op) :
    Inv init
      { value := s.value
        pc := Function.update s.pc t (.called op)
        call := Function.update s.call t s.started
        started := s.started + 1
        history := s.history ++ [.invoke s.started op] } order := by
  have hnew : s.started ∉ calls order := fun hmem => Nat.lt_irrefl _ (h.call_lt_of_mem hmem)
  refine { lin := h.lin.invoke hnew, numbered := ?_, call_lt := ?_, apart := ?_, invoked := ?_,
           waiting := ?_, effective := ?_, returned := ?_ }
  · intro c op' hmem
    show c < s.started + 1
    rcases List.mem_append.mp hmem with hmem | hmem
    · have hlt := h.numbered c op' hmem
      omega
    · cases List.mem_singleton.mp hmem
      omega
  · intro v hv
    show Function.update s.call t s.started v < s.started + 1
    rcases active_invoke hv with ⟨-, hcall⟩ | ⟨-, hold, hcall⟩
    · omega
    · have hlt := h.call_lt v hold
      omega
  · intro v w hne hv hw
    show Function.update s.call t s.started v ≠ Function.update s.call t s.started w
    rcases active_invoke hv with ⟨hvt, hcall⟩ | ⟨-, hold, hcall⟩
    · rcases active_invoke hw with ⟨hwt, -⟩ | ⟨-, hold', hcall'⟩
      · exact absurd (hvt.trans hwt.symm) hne
      · have hlt := h.call_lt w hold'
        omega
    · have hlt := h.call_lt v hold
      rcases active_invoke hw with ⟨-, hcall'⟩ | ⟨-, hold', hcall'⟩
      · omega
      · rw [hcall, hcall']
        exact h.apart v w hne hold hold'
  · intro v op' hv
    show .invoke (Function.update s.call t s.started v) op' ∈ s.history ++ [.invoke s.started op]
    rcases pending_invoke hv with ⟨-, rfl, hcall⟩ | ⟨-, hold, hcall⟩
    · rw [hcall]
      exact List.mem_append_right _ (List.mem_singleton.mpr rfl)
    · rw [hcall]
      exact List.mem_append_left _ (h.invoked v op' hold)
  · intro v op' hv
    show Function.update s.call t s.started v ∉ calls order
    rcases pending_invoke hv with ⟨-, -, hcall⟩ | ⟨-, hold, hcall⟩
    · rw [hcall]
      exact hnew
    · rw [hcall]
      exact h.waiting v op' hold
  · intro v answer hv
    show ∃ op', ⟨Function.update s.call t s.started v, op', answer⟩ ∈ order
    change Function.update s.pc t (.called op) v = .returning answer at hv
    by_cases hvt : v = t
    · rw [hvt, Function.update_self] at hv
      cases hv
    · rw [Function.update_of_ne hvt] at hv ⊢
      exact h.effective v answer hv
  · intro e he
    rcases h.returned e he with hret | ⟨v, hv, hcall⟩
    · exact Or.inl (List.mem_append_left _ hret)
    · have hvt : v ≠ t := by
        intro hsame
        rw [hsame, hidle] at hv
        cases hv
      exact Or.inr ⟨v, (Function.update_of_ne hvt _ _).trans hv,
        (Function.update_of_ne hvt _ _).trans hcall⟩

/-- A call that has taken effect returns. -/
theorem ret (h : Inv init s order) {answer : Answer} (hpc : s.pc t = .returning answer) :
    Inv init { s.goto t .idle with history := s.history ++ [.ret (s.call t) answer] } order := by
  obtain ⟨op, hmem⟩ := h.effective t answer hpc
  have hactive : ∀ v, (s.goto t .idle).pc v ≠ .idle → v ≠ t := by
    rintro v hv rfl
    exact hv goto_self
  have hold : ∀ v, (s.goto t .idle).pc v ≠ .idle → s.pc v ≠ .idle := by
    intro v hv
    rwa [goto_ne (hactive v hv)] at hv
  refine { lin := h.lin.ret hmem, numbered := ?_, call_lt := ?_, apart := ?_, invoked := ?_,
           waiting := ?_, effective := ?_, returned := ?_ }
  · intro c op' hc
    rcases List.mem_append.mp hc with hc | hc
    · exact h.numbered c op' hc
    · cases List.mem_singleton.mp hc
  · exact fun v hv => h.call_lt v (hold v hv)
  · exact fun v w hne hv hw => h.apart v w hne (hold v hv) (hold w hw)
  · intro v op' hv
    have hv' : (s.goto t .idle).pc v = s.pc v := goto_ne (hactive v (ne_idle_of_pending hv))
    exact List.mem_append_left _ (h.invoked v op' (hv' ▸ hv))
  · intro v op' hv
    have hv' : (s.goto t .idle).pc v = s.pc v := goto_ne (hactive v (ne_idle_of_pending hv))
    exact h.waiting v op' (hv' ▸ hv)
  · intro v answer' hv
    have hne : (s.goto t .idle).pc v ≠ .idle := by
      intro hidle
      cases hidle.symm.trans hv
    exact h.effective v answer' ((goto_ne (hactive v hne)).symm.trans hv)
  · intro e he
    rcases h.returned e he with hret | ⟨v, hv, hcall⟩
    · exact Or.inl (List.mem_append_left _ hret)
    · by_cases hvt : v = t
      · rw [hvt] at hv hcall
        have hanswer : e.answer = answer := Pc.returning.inj (hv.symm.trans hpc)
        rw [hanswer, ← hcall]
        exact Or.inl (List.mem_append_right _ (List.mem_singleton.mpr rfl))
      · exact Or.inr ⟨v, (goto_ne hvt).trans hv, hcall⟩

/-- The first atomic operation of a call. -/
theorem begin (h : Inv init s order) (hpc : s.pc t = .called op) :
    ∃ order', Inv init (s.begin t op) order' := by
  have hop : pendingOp (s.pc t) = some op := congrArg pendingOp hpc
  cases op with
  | increment => exact ⟨_, h.commit hop⟩
  | decrement =>
    have hspec : counter.apply .decrement s.value = (s.value + (2 ^ 64 - 1)) % 2 ^ 64 := by
      simp only [counter]
    exact ⟨_, hspec ▸ h.commit hop⟩
  | get => exact ⟨_, h.commit hop⟩
  | fetchMultiply multiplier => exact ⟨_, h.goto hop rfl⟩
  | compareAndSwap expected newVal =>
    have hcommit := h.commit hop
    simp only [counter] at hcommit
    simp only [State.begin, State.compareExchange]
    by_cases hvalue : s.value = expected
    · rw [if_pos hvalue, if_pos hvalue] at hcommit
      rw [if_pos hvalue]
      exact ⟨_, hcommit⟩
    · rw [if_neg hvalue, if_neg hvalue] at hcommit
      rw [if_neg hvalue]
      exact ⟨_, hcommit⟩

/-- A product that fits is exchanged for the value it was computed from, or the call goes
on with the value found. -/
theorem multiplyRound (h : Inv init s order) {multiplier current : ℕ}
    (hpc : s.pc t = .exchange multiplier current) (hfits : current * multiplier < 2 ^ 64) :
    ∃ order', Inv init (s.multiplyRound profile t multiplier current) order' := by
  have hop : pendingOp (s.pc t) = some (.fetchMultiply multiplier) := congrArg pendingOp hpc
  have hmul : mul profile current multiplier = some (current * multiplier) := if_pos hfits
  simp only [State.multiplyRound, hmul, State.compareExchange]
  by_cases hvalue : s.value = current
  · rw [if_pos hvalue, ← hvalue]
    exact ⟨_, h.commit hop⟩
  · rw [if_neg hvalue]
    exact ⟨_, h.goto hop rfl⟩

theorem step (h : Inv init s order) {a : Action T} (hok : ProductFits s a)
    (hs : AtomicCounter.step profile s a = some s') : ∃ order', Inv init s' order' := by
  cases a with
  | invoke t op =>
    cases hpc : s.pc t <;> simp only [AtomicCounter.step, hpc] at hs
    case idle =>
      cases hs
      exact ⟨order, h.invoke hpc op⟩
    all_goals cases hs
  | atomic t =>
    cases hpc : s.pc t <;> simp only [AtomicCounter.step, ProductFits, product, hpc] at hs hok
    case called op =>
      cases hs
      exact h.begin hpc
    case exchange multiplier current =>
      cases hs
      exact h.multiplyRound hpc hok
    all_goals cases hs
  | ret t =>
    cases hpc : s.pc t <;> simp only [AtomicCounter.step, hpc] at hs
    case returning answer =>
      cases hs
      exact ⟨order, h.ret hpc⟩
    all_goals cases hs

end Inv

/-- In every interleaving in which no product overflows, the calls that have taken effect
have one order, consistent with that of the calls that do not overlap, in which each answers
from the value just before it and which leads to the present value. Each of them has
returned or is about to. -/
theorem reachable_linearization (profile : Profile) (init : ℕ)
    (h : Reach (step profile) ProductFits (State.new init) s) :
    ∃ order, Linearization counter init s.history order s.value ∧
      ∀ e ∈ order, .ret e.call e.answer ∈ s.history ∨
        ∃ t, s.pc t = .returning e.answer ∧ s.call t = e.call := by
  obtain ⟨order, hinv⟩ : ∃ order, Inv init s order := by
    refine Reach.invariant (I := fun s => ∃ order, Inv init s order) ⟨[], Inv.new⟩ ?_ h
    rintro s a s' ⟨order, hinv⟩ hok hs
    exact hinv.step hok hs
  exact ⟨order, hinv.lin, hinv.returned⟩

/-- Thread 1 increments and decrements between the load and the exchange of thread 0. -/
theorem reachable_linearization_value_returns :
    ∃ (s : State (Fin 2)) (order : List (Entry Op Answer)),
      run (step .debug) (State.new 3) [.invoke 0 (.fetchMultiply 2), .atomic 0,
        .invoke 1 .increment, .atomic 1, .ret 1, .invoke 1 .decrement, .atomic 1, .ret 1,
        .atomic 0, .ret 0, .invoke 1 (.compareAndSwap 5 9), .atomic 1] = some s ∧
      s.history = [.invoke 0 (.fetchMultiply 2), .invoke 1 .increment, .ret 1 (.value 3),
        .invoke 2 .decrement, .ret 2 (.value 4), .ret 0 (.value 3),
        .invoke 3 (.compareAndSwap 5 9)] ∧
      Linearization counter 3 s.history order 6 := by
  have hend : (run (step .debug) (State.new 3) [.invoke (0 : Fin 2) (.fetchMultiply 2),
      .atomic 0, .invoke 1 .increment, .atomic 1, .ret 1, .invoke 1 .decrement, .atomic 1,
      .ret 1, .atomic 0, .ret 0, .invoke 1 (.compareAndSwap 5 9), .atomic 1]).map
        (fun s => (s.value, s.history)) =
      some (6, [.invoke 0 (.fetchMultiply 2), .invoke 1 .increment, .ret 1 (.value 3),
        .invoke 2 .decrement, .ret 2 (.value 4), .ret 0 (.value 3),
        .invoke 3 (.compareAndSwap 5 9)]) := by decide +kernel
  obtain ⟨s, hrun, hs⟩ := Option.map_eq_some_iff.mp hend
  rw [Prod.mk.injEq] at hs
  obtain ⟨order, hlin, -⟩ := reachable_linearization .debug 3
    (Reach.init.run_of_admitted (by decide +kernel) hrun)
  rw [hs.1] at hlin
  exact ⟨s, order, hrun, hs.2, hlin⟩

end OsCamp.AtomicCounter
