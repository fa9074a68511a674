import OsCamp.AtomicCounter
import OsCamp.RetryLoops

/-!
The counter is lock-free. An exchange of `fetch_multiply` fails only after another
thread has changed the value since this thread last saw it, so `n` threads that make `k`
calls take at most `(n + 3) * k` steps under every schedule, and no thread is ever stuck.
-/

set_option autoImplicit false

namespace OsCamp.CounterProgress

open CoreAlloc Execution RetryLoops AtomicCounter

/-- The value that the next exchange expects. -/
def held : Pc → Option ℕ
  | .exchange _ current => some current
  | _ => none

/-- The steps before a thread among `n`, without failures, and the rounds it will cost
the others. -/
def rank (n : ℕ) : Pc → ℕ
  | .called _ => n + 2
  | .exchange _ _ => n + 1
  | .returning _ => 1
  | .idle => 0
  | .panicked => 0

section

variable {T : Type*}

def isInvoke : Action T → Bool
  | .invoke _ _ => true
  | _ => false

variable [DecidableEq T]

/-- The next step of the thread is an exchange that fails. -/
def fails (profile : Profile) (s : State T) (t : T) : Bool :=
  match s.pc t with
  | .exchange multiplier current =>
    (mul profile current multiplier).isSome && decide (s.value ≠ current)
  | _ => false

/-- One for a step in which an exchange of `t` fails. -/
def failure (profile : Profile) (t : T) (s : State T) : Action T → ℕ
  | .atomic u => if u = t ∧ fails profile s t = true then 1 else 0
  | _ => 0

/-- One for a step in which a thread other than `t` changes the value. -/
def changedByOther (profile : Profile) (t : T) (s : State T) : Action T → ℕ
  | .atomic u =>
    if u ≠ t ∧ (step profile s (.atomic u)).any (fun s' => s'.value ≠ s.value) then 1 else 0
  | _ => 0

end

variable {T : Type*} [DecidableEq T] {profile : Profile} {init : ℕ} {s s' : State T} {t u : T}
  {op : Op} {multiplier current : ℕ}

/-- What one step can do: the position a thread leaves, the value and its new position. -/
inductive Effect (s : State T) : Action T → State T → Prop
  | invoke (t : T) (op : Op) (hidle : s.pc t = .idle) (s' : State T) (hvalue : s'.value = s.value)
      (hpc : s'.pc = Function.update s.pc t (.called op)) : Effect s (.invoke t op) s'
  | answer (t : T) (v : ℕ) (answer : Answer) (hrank : ∀ n, n + 1 ≤ rank n (s.pc t)) :
      Effect s (.atomic t) ({ s with value := v }.goto t (.returning answer))
  | read (t : T) (multiplier : ℕ) (op : Op) (hpc : s.pc t = .called op) :
      Effect s (.atomic t) (s.goto t (.exchange multiplier s.value))
  | retry (t : T) (multiplier current : ℕ) (hpc : s.pc t = .exchange multiplier current)
      (hne : current ≠ s.value) :
      Effect s (.atomic t) (s.goto t (.exchange multiplier s.value))
  | panic (t : T) (multiplier current : ℕ) (hpc : s.pc t = .exchange multiplier current) :
      Effect s (.atomic t) (s.goto t .panicked)
  | ret (t : T) (answer : Answer) (hpc : s.pc t = .returning answer) (s' : State T)
      (hvalue : s'.value = s.value) (hidle : s'.pc = Function.update s.pc t .idle) :
      Effect s (.ret t) s'

theorem begin_effect (hpc : s.pc t = .called op) : Effect s (.atomic t) (s.begin t op) := by
  have hrank : ∀ n, n + 1 ≤ rank n (s.pc t) := by
    intro n
    rw [hpc]
    exact Nat.le_succ _
  cases op with
  | increment => exact Effect.answer t _ _ hrank
  | decrement => exact Effect.answer t _ _ hrank
  | get => exact Effect.answer t s.value _ hrank
  | fetchMultiply multiplier => exact Effect.read t multiplier _ hpc
  | compareAndSwap expected newVal =>
    show Effect s _ (if s.value = expected then _ else _)
    split
    · exact Effect.answer t newVal _ hrank
    · exact Effect.answer t s.value _ hrank

theorem multiplyRound_effect (profile : Profile) (hpc : s.pc t = .exchange multiplier current) :
    Effect s (.atomic t) (s.multiplyRound profile t multiplier current) := by
  unfold State.multiplyRound
  cases mul profile current multiplier with
  | none => exact Effect.panic t multiplier current hpc
  | some new =>
    show Effect s _ (if s.value = current then _ else _)
    split
    · refine Effect.answer t new _ fun n => ?_
      rw [hpc]
      exact Nat.le_refl _
    · exact Effect.retry t multiplier current hpc (Ne.symm ‹_›)

theorem step_effect {a : Action T} (hs : step profile s a = some s') : Effect s a s' := by
  cases a with
  | invoke t op =>
    cases hpc : s.pc t with
    | idle =>
      simp only [step, hpc, Option.some.injEq] at hs
      subst hs
      exact Effect.invoke t op hpc _ rfl rfl
    | called op => simp [step, hpc] at hs
    | exchange multiplier current => simp [step, hpc] at hs
    | returning answer => simp [step, hpc] at hs
    | panicked => simp [step, hpc] at hs
  | atomic t =>
    cases hpc : s.pc t with
    | called op =>
      simp only [step, hpc, Option.some.injEq] at hs
      subst hs
      exact begin_effect hpc
    | exchange multiplier current =>
      simp only [step, hpc, Option.some.injEq] at hs
      subst hs
      exact multiplyRound_effect profile hpc
    | idle => simp [step, hpc] at hs
    | returning answer => simp [step, hpc] at hs
    | panicked => simp [step, hpc] at hs
  | ret t =>
    cases hpc : s.pc t with
    | returning answer =>
      simp only [step, hpc, Option.some.injEq] at hs
      subst hs
      exact Effect.ret t answer hpc _ rfl rfl
    | idle => simp [step, hpc] at hs
    | called op => simp [step, hpc] at hs
    | exchange multiplier current => simp [step, hpc] at hs
    | panicked => simp [step, hpc] at hs

theorem failure_le_stale (profile : Profile) (t : T) (s : State T) (a : Action T) :
    failure profile t s a ≤ stale s.value (held (s.pc t)) := by
  cases a with
  | invoke u op => exact Nat.zero_le _
  | ret u => exact Nat.zero_le _
  | atomic u =>
    show (if u = t ∧ fails profile s t = true then 1 else 0) ≤ _
    by_cases hfails : u = t ∧ fails profile s t = true
    · rw [if_pos hfails]
      obtain ⟨-, hfails⟩ := hfails
      unfold fails at hfails
      cases hpc : s.pc t with
      | exchange multiplier current =>
        rw [hpc, Bool.and_eq_true, decide_eq_true_eq] at hfails
        have hstale : stale s.value (some current) = 1 := stale_of_ne (Ne.symm hfails.2)
        exact hstale.ge
      | idle => simp [hpc] at hfails
      | called op => simp [hpc] at hfails
      | returning answer => simp [hpc] at hfails
      | panicked => simp [hpc] at hfails
    · rw [if_neg hfails]
      exact Nat.zero_le _

def thread : Action T → T
  | .invoke t _ => t
  | .atomic t => t
  | .ret t => t

/-- The thread that moves expects nothing else than the value it leaves behind. -/
theorem effect_fresh {a : Action T} (h : Effect s a s') :
    stale s'.value (held (s'.pc (thread a))) = 0 ∧ ∀ u, u ≠ thread a → s'.pc u = s.pc u := by
  cases h with
  | invoke t op hidle s' hvalue hpc =>
    rw [hpc]
    exact ⟨by rw [thread, Function.update_self]; rfl, fun u hu => Function.update_of_ne hu _ _⟩
  | answer t v answer hrank =>
    exact ⟨by rw [thread, goto_self]; rfl, fun u hu => goto_ne hu⟩
  | read t multiplier op hpc =>
    exact ⟨by rw [thread, goto_self]; exact stale_self, fun u hu => goto_ne hu⟩
  | retry t multiplier current hpc hne =>
    exact ⟨by rw [thread, goto_self]; exact stale_self, fun u hu => goto_ne hu⟩
  | panic t multiplier current hpc =>
    exact ⟨by rw [thread, goto_self]; rfl, fun u hu => goto_ne hu⟩
  | ret t answer hpc s' hvalue hidle =>
    rw [hidle]
    exact ⟨by rw [thread, Function.update_self]; rfl, fun u hu => Function.update_of_ne hu _ _⟩

theorem value_of_effect {a : Action T} (h : Effect s a s') (hne : s'.value ≠ s.value) :
    ∃ u, a = .atomic u := by
  cases h with
  | invoke t op hidle s' hvalue hpc => exact absurd hvalue hne
  | answer t v answer hrank => exact ⟨t, rfl⟩
  | read t multiplier op hpc => exact ⟨t, rfl⟩
  | retry t multiplier current hpc hne => exact ⟨t, rfl⟩
  | panic t multiplier current hpc => exact ⟨t, rfl⟩
  | ret t answer hpc s' hvalue hidle => exact absurd hvalue hne

/-- A failed exchange uses up the staleness that a change by another thread has caused. -/
theorem failure_step {a : Action T} (t : T) (hs : step profile s a = some s') :
    failure profile t s a + stale s'.value (held (s'.pc t)) ≤
      changedByOther profile t s a + stale s.value (held (s.pc t)) := by
  have heffect := step_effect hs
  obtain ⟨hfresh, hothers⟩ := effect_fresh heffect
  by_cases ht : t = thread a
  · have hle := failure_le_stale profile t s a
    rw [← ht] at hfresh
    omega
  · have hnone : failure profile t s a = 0 := by
      cases a with
      | invoke u op => rfl
      | atomic u => exact if_neg fun h => ht h.1.symm
      | ret u => rfl
    rw [hnone, hothers t ht]
    by_cases hvalue : s'.value = s.value
    · rw [hvalue]
      omega
    · obtain ⟨u, rfl⟩ := value_of_effect heffect hvalue
      have hchanged : changedByOther profile t s (.atomic u) = 1 := by
        apply if_pos
        rw [hs]
        exact ⟨Ne.symm ht, by simpa using hvalue⟩
      have hle := stale_le_one s'.value (held (s.pc t))
      omega

/-- A thread in a call has a next step, whatever the others do. -/
theorem moves (profile : Profile) (s : State T) (t : T) :
    s.pc t = .idle ∨ s.pc t = .panicked ∨ (step profile s (.atomic t)).isSome ∨
      (step profile s (.ret t)).isSome := by
  cases hpc : s.pc t with
  | idle => exact Or.inl rfl
  | panicked => exact Or.inr (Or.inl rfl)
  | called op => exact Or.inr (Or.inr (Or.inl (by simp [step, hpc])))
  | exchange multiplier current => exact Or.inr (Or.inr (Or.inl (by simp [step, hpc])))
  | returning answer => exact Or.inr (Or.inr (Or.inr (by simp [step, hpc])))

variable [Fintype T]

theorem cost_step {a : Action T} (hs : step profile s a = some s') :
    1 + potential (rank (Fintype.card T)) held s'.value s'.pc ≤
      (if isInvoke a then Fintype.card T + 3 else 0) +
        potential (rank (Fintype.card T)) held s.value s.pc := by
  have hmove := potential_move (rank (Fintype.card T)) held s.value s.pc
  cases step_effect hs with
  | invoke t op hidle s' hvalue hpc =>
    have hstep := hmove t (.called op)
    rw [hidle] at hstep
    rw [hvalue, hpc, isInvoke, if_pos rfl]
    simp only [work, rank, held, stale_none] at hstep
    omega
  | answer t v answer hrank =>
    have hstep := potential_store (rank (Fintype.card T)) held s.value v s.pc t (.returning answer)
    have hfrom := hrank (Fintype.card T)
    show 1 + potential _ _ v (Function.update s.pc t (.returning answer)) ≤ 0 + _
    simp only [work, rank, held, stale_none] at hstep hfrom
    omega
  | read t multiplier op hpc =>
    have hstep := hmove t (.exchange multiplier s.value)
    rw [hpc] at hstep
    show 1 + potential _ _ s.value (Function.update s.pc t (.exchange multiplier s.value)) ≤ 0 + _
    simp only [work, rank, held, stale_none, stale_self] at hstep
    omega
  | retry t multiplier current hpc hne =>
    have hstep := hmove t (.exchange multiplier s.value)
    rw [hpc] at hstep
    show 1 + potential _ _ s.value (Function.update s.pc t (.exchange multiplier s.value)) ≤ 0 + _
    simp only [work, rank, held, stale_self, stale_of_ne hne] at hstep
    omega
  | panic t multiplier current hpc =>
    have hstep := hmove t .panicked
    rw [hpc] at hstep
    show 1 + potential _ _ s.value (Function.update s.pc t .panicked) ≤ 0 + _
    simp only [work, rank, held, stale_none] at hstep
    omega
  | ret t answer hpc s' hvalue hidle =>
    have hstep := hmove t .idle
    rw [hpc] at hstep
    rw [hvalue, hidle]
    show 1 + _ ≤ 0 + _
    simp only [work, rank, held, stale_none] at hstep
    omega

/-- `n` threads take at most `(n + 3) * k` steps for `k` calls, a thread's exchanges fail
at most as often as other threads change the value, and no thread in a call is stuck. -/
theorem counter_lock_free (profile : Profile) (init : ℕ) {l : List (Action T)}
    (hrun : run (step profile) (State.new init) l = some s) :
    l.length ≤ (Fintype.card T + 3) * l.countP isInvoke ∧
    (∀ t, cost (step profile) (failure profile t) (State.new init) l ≤
      cost (step profile) (changedByOther profile t) (State.new init) l) ∧
    ∀ t, s.pc t = .idle ∨ s.pc t = .panicked ∨ (step profile s (.atomic t)).isSome ∨
      (step profile s (.ret t)).isSome := by
  refine ⟨?_, ?_, fun t => moves profile s t⟩
  · have hcost := cost_le_credit
      (fun s : State T => potential (rank (Fintype.card T)) held s.value s.pc)
      (fun _ _ _ hs => cost_step hs) hrun
    have hnew : potential (rank (Fintype.card T)) held init (State.new init : State T).pc = 0 :=
      potential_eq_zero fun _ => rfl
    rw [cost_one hrun, cost_countP isInvoke _ hrun] at hcost
    change l.length + _ ≤ _ + potential _ _ init _ at hcost
    omega
  · intro t
    have hcost : cost (step profile) (failure profile t) (State.new init) l +
        stale s.value (held (s.pc t)) ≤
        cost (step profile) (changedByOther profile t) (State.new init) l + 0 :=
      cost_le_credit (fun s : State T => stale s.value (held (s.pc t)))
        (fun _ _ _ hs => failure_step t hs) hrun
    omega

/-- Two multiplications of one, of which the second fails once. -/
theorem counter_lock_free_two_threads :
    let l : List (Action Bool) :=
      [.invoke false (.fetchMultiply 2), .invoke true (.fetchMultiply 3), .atomic false,
        .atomic true, .atomic false, .atomic true, .atomic true, .ret false, .ret true]
    l.length ≤ 5 * 2 ∧
      cost (step .debug) (failure .debug true) (State.new 1) l = 1 ∧
      cost (step .debug) (changedByOther .debug true) (State.new 1) l = 1 ∧
      (run (step .debug) (State.new 1) l).map State.value = some 6 := by
  intro l
  have hvalue : (run (step .debug) (State.new 1) l).map State.value = some 6 := by decide
  obtain ⟨s, hrun, -⟩ := Option.map_eq_some_iff.mp hvalue
  obtain ⟨hlength, hfailures, -⟩ := counter_lock_free .debug 1 hrun
  have hone : cost (step .debug) (failure .debug true) (State.new 1) l = 1 := by decide
  have hchanges : cost (step .debug) (changedByOther .debug true) (State.new 1) l ≤ 1 := by decide
  have hle := hfailures true
  exact ⟨hlength, hone, by omega, hvalue⟩

end OsCamp.CounterProgress
