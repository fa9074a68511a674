import OsCamp.BumpThreads
import OsCamp.RetryLoops

/-!
The shared bump allocator is lock-free. Spurious failures apart, an exchange fails only
after another thread got a block or the allocator was reset, so `n` threads take at most
`(n + 2) * k` steps for `k` calls of `alloc`, `n + 1` more for each reset, and one more for
each spurious failure.
-/

set_option autoImplicit false

namespace OsCamp.BumpProgress

open CoreAlloc Execution RetryLoops BumpAllocator
open BumpThreads (request)

/-- The value that the next exchange expects. -/
def held : Pc → Option ℕ
  | .exchange _ prevNext _ _ => some prevNext
  | _ => none

/-- The steps before a thread among `n`, without failures, and the rounds it will cost
the others. -/
def rank (n : ℕ) : Pc → ℕ
  | .load _ => n + 1
  | .exchange _ _ _ _ => n
  | .idle => 0

section

variable {T : Type*}

def isAlloc : Action T → Bool
  | .beginAlloc _ _ => true
  | _ => false

def isReset : Action T → Bool
  | .reset => true
  | _ => false

def isSpurious : Action T → Bool
  | .exchange _ spurious => spurious
  | _ => false

/-- What a step is charged. -/
def credit (n : ℕ) (a : Action T) : ℕ :=
  (if isAlloc a then n + 2 else 0) + (if isReset a then n + 1 else 0) +
    if isSpurious a then 1 else 0

/-- `next` is not what the thread's exchange expects. -/
def fails (s : State T) (t : T) : Bool :=
  match s.pc t with
  | .exchange _ prevNext _ _ => decide (s.next ≠ prevNext)
  | _ => false

variable [DecidableEq T]

/-- One for a step in which an exchange of `t` fails, and not spuriously. -/
def failure (t : T) (s : State T) : Action T → ℕ
  | .exchange u spurious => if u = t ∧ spurious = false ∧ fails s t = true then 1 else 0
  | _ => 0

/-- One for a step in which another thread, or a reset, changes `next`. -/
def changedByOther (profile : Profile) (t : T) (s : State T) : Action T → ℕ
  | .exchange u spurious =>
    if u ≠ t ∧ (step profile s (.exchange u spurious)).any (fun s' => s'.next ≠ s.next) then 1
    else 0
  | .reset => if s.heapStart ≠ s.next then 1 else 0
  | _ => 0

end

variable {T : Type*} {profile : Profile} {s s' : State T} {t u : T}

/-- Where a round leads: to an exchange that expects the value just read, or to null. -/
def Read (s : State T) (pc : Pc) : Prop :=
  pc = .idle ∨ ∃ layout allocStart allocEnd, pc = .exchange layout s.next allocStart allocEnd

theorem Read.fresh {pc : Pc} (h : Read s pc) : stale s.next (held pc) = 0 := by
  rcases h with rfl | ⟨layout, allocStart, allocEnd, rfl⟩
  · rfl
  · exact stale_self

variable [DecidableEq T]

theorem goto_self {pc : Pc} : (s.goto t pc).pc t = pc := Function.update_self _ _ _

theorem goto_ne {pc : Pc} (hu : u ≠ t) : (s.goto t pc).pc u = s.pc u := Function.update_of_ne hu _ _

/-- What one step can do. -/
inductive Effect (s : State T) : Action T → State T → Prop
  | begin (t : T) (layout : Layout) (hpc : s.pc t = .idle) :
      Effect s (.beginAlloc t layout) (s.goto t (.load layout))
  | load (t : T) (layout : Layout) (pc : Pc) (hpc : s.pc t = .load layout) (hread : Read s pc) :
      Effect s (.load t) (s.goto t pc)
  | retry (t : T) (spurious : Bool) (pc : Pc) (layout : Layout) (prevNext allocStart allocEnd : ℕ)
      (hpc : s.pc t = .exchange layout prevNext allocStart allocEnd)
      (hfails : spurious = true ∨ prevNext ≠ s.next) (hread : Read s pc) :
      Effect s (.exchange t spurious) (s.goto t pc)
  | grant (t : T) (layout : Layout) (allocStart allocEnd : ℕ)
      (hpc : s.pc t = .exchange layout s.next allocStart allocEnd) :
      Effect s (.exchange t false) (s.grant t ⟨allocStart, layout⟩ allocEnd)
  | reset : Effect s .reset s.reset

theorem attempt_read {layout : Layout} (hs : s.attempt profile t layout = some s') :
    ∃ pc, s' = s.goto t pc ∧ Read s pc := by
  obtain ⟨range, -, rfl⟩ := Option.map_eq_some_iff.mp hs
  cases range with
  | none => exact ⟨.idle, rfl, Or.inl rfl⟩
  | some block =>
    obtain ⟨allocStart, allocEnd⟩ := block
    exact ⟨_, rfl, Or.inr ⟨layout, allocStart, allocEnd, rfl⟩⟩

theorem step_effect {a : Action T} (hs : step profile s a = some s') : Effect s a s' := by
  cases a with
  | beginAlloc t layout =>
    obtain ⟨hpc, hout⟩ := Option.ite_none_right_eq_some.mp hs
    cases hout
    exact Effect.begin t layout hpc
  | load t =>
    change s.load profile t = some s' at hs
    unfold State.load at hs
    cases hpc : s.pc t with
    | load layout =>
      rw [hpc] at hs
      obtain ⟨pc, rfl, hread⟩ := attempt_read hs
      exact Effect.load t layout pc hpc hread
    | idle => simp [hpc] at hs
    | exchange layout prevNext allocStart allocEnd => simp [hpc] at hs
  | exchange t spurious =>
    change s.exchange profile t spurious = some s' at hs
    unfold State.exchange at hs
    cases hpc : s.pc t with
    | exchange layout prevNext allocStart allocEnd =>
      simp only [hpc] at hs
      split_ifs at hs with hcas
      · obtain ⟨rfl, rfl⟩ := hcas
        cases hs
        exact Effect.grant t layout allocStart allocEnd hpc
      · obtain ⟨pc, rfl, hread⟩ := attempt_read hs
        refine Effect.retry t spurious pc layout prevNext allocStart allocEnd hpc ?_ hread
        by_contra hneither
        obtain ⟨hnot, hsame⟩ := not_or.mp hneither
        exact hcas ⟨(not_not.mp hsame).symm, Bool.eq_false_of_not_eq_true hnot⟩
    | idle => simp [hpc] at hs
    | load layout => simp [hpc] at hs
  | reset =>
    cases hs
    exact Effect.reset

def thread : Action T → Option T
  | .beginAlloc t _ => some t
  | .load t => some t
  | .exchange t _ => some t
  | .reset => none

theorem failure_le_stale (t : T) (s : State T) (a : Action T) :
    failure t s a ≤ stale s.next (held (s.pc t)) := by
  cases a with
  | beginAlloc u layout => exact Nat.zero_le _
  | load u => exact Nat.zero_le _
  | reset => exact Nat.zero_le _
  | exchange u spurious =>
    show (if u = t ∧ spurious = false ∧ fails s t = true then 1 else 0) ≤ _
    by_cases hfails : u = t ∧ spurious = false ∧ fails s t = true
    · rw [if_pos hfails]
      obtain ⟨-, -, hfails⟩ := hfails
      unfold fails at hfails
      cases hpc : s.pc t with
      | exchange layout prevNext allocStart allocEnd =>
        rw [hpc, decide_eq_true_eq] at hfails
        have hstale : stale s.next (some prevNext) = 1 := stale_of_ne (Ne.symm hfails)
        exact hstale.ge
      | idle => simp [hpc] at hfails
      | load layout => simp [hpc] at hfails
    · rw [if_neg hfails]
      exact Nat.zero_le _

/-- The thread that moves expects nothing else than the value it leaves behind. -/
theorem effect_fresh {a : Action T} (h : Effect s a s') (t : T) :
    if thread a = some t then stale s'.next (held (s'.pc t)) = 0 else s'.pc t = s.pc t := by
  have hmoved : ∀ (u : T) (pc : Pc) (next : ℕ), stale next (held pc) = 0 →
      if some u = some t then stale next (held ((s.goto u pc).pc t)) = 0
      else (s.goto u pc).pc t = s.pc t := by
    intro u pc next hfresh
    by_cases hu : u = t
    · rw [if_pos (congrArg some hu), hu, goto_self]
      exact hfresh
    · rw [if_neg fun h => hu (Option.some.inj h), goto_ne (Ne.symm hu)]
  cases h with
  | begin u layout hpc => exact hmoved u _ _ rfl
  | load u layout pc hpc hread => exact hmoved u pc _ hread.fresh
  | retry u spurious pc layout prevNext allocStart allocEnd hpc hfails hread =>
    exact hmoved u pc _ hread.fresh
  | grant u layout allocStart allocEnd hpc => exact hmoved u .idle allocEnd rfl
  | reset => rfl

/-- A failed exchange uses up the staleness that a change of `next` has caused. -/
theorem failure_step {a : Action T} (t : T) (hs : step profile s a = some s') :
    failure t s a + stale s'.next (held (s'.pc t)) ≤
      changedByOther profile t s a + stale s.next (held (s.pc t)) := by
  have heffect := step_effect hs
  have hfresh := effect_fresh heffect t
  by_cases ht : thread a = some t
  · rw [if_pos ht] at hfresh
    have hle := failure_le_stale t s a
    omega
  · rw [if_neg ht] at hfresh
    have hnone : failure t s a = 0 := by
      cases a with
      | beginAlloc u layout => rfl
      | load u => rfl
      | exchange u spurious => exact if_neg fun h => ht (congrArg some h.1)
      | reset => rfl
    rw [hnone, hfresh]
    by_cases hnext : s'.next = s.next
    · rw [hnext]
      omega
    · have hchanged : changedByOther profile t s a = 1 := by
        cases heffect with
        | begin u layout hpc => exact absurd rfl hnext
        | load u layout pc hpc hread => exact absurd rfl hnext
        | retry u spurious pc layout prevNext allocStart allocEnd hpc hfails hread =>
          exact absurd rfl hnext
        | grant u layout allocStart allocEnd hpc =>
          apply if_pos
          rw [hs]
          exact ⟨fun h => ht (congrArg some h), by simpa using hnext⟩
        | reset => exact if_pos hnext
      have hle := stale_le_one s'.next (held (s.pc t))
      omega

/-- A thread in a call has a next step, unless its address computation panics. -/
theorem moves (profile : Profile) (s : State T) (t : T) :
    s.pc t = .idle ∨ (step profile s (.load t)).isSome ∨
      (step profile s (.exchange t false)).isSome ∨
      ∃ layout, request (s.pc t) = some layout ∧
        allocRange profile s.heapEnd s.next layout = none := by
  have hattempt : ∀ layout, (s.attempt profile t layout).isSome ∨
      allocRange profile s.heapEnd s.next layout = none := by
    intro layout
    unfold State.attempt
    cases hrange : allocRange profile s.heapEnd s.next layout with
    | none => exact Or.inr rfl
    | some range => exact Or.inl rfl
  cases hpc : s.pc t with
  | idle => exact Or.inl rfl
  | load layout =>
    rcases hattempt layout with hsome | hpanic
    · exact Or.inr (Or.inl (by simpa [step, State.load, hpc] using hsome))
    · exact Or.inr (Or.inr (Or.inr ⟨layout, rfl, hpanic⟩))
  | exchange layout prevNext allocStart allocEnd =>
    by_cases hcas : s.next = prevNext
    · exact Or.inr (Or.inr (Or.inl (by simp [step, State.exchange, hpc, hcas])))
    · rcases hattempt layout with hsome | hpanic
      · exact Or.inr (Or.inr (Or.inl (by simpa [step, State.exchange, hpc, hcas] using hsome)))
      · exact Or.inr (Or.inr (Or.inr ⟨layout, rfl, hpanic⟩))

variable [Fintype T]

theorem cost_step {a : Action T} (hs : step profile s a = some s') :
    1 + potential (rank (Fintype.card T)) held s'.next s'.pc ≤
      credit (Fintype.card T) a + potential (rank (Fintype.card T)) held s.next s.pc := by
  have hmove := potential_move (rank (Fintype.card T)) held s.next s.pc
  cases step_effect hs with
  | begin t layout hpc =>
    have hstep := hmove t (.load layout)
    rw [hpc] at hstep
    show 1 + potential _ _ s.next (Function.update s.pc t (.load layout)) ≤
      (Fintype.card T + 2 + 0 + 0) + _
    simp only [work, rank, held, stale_none] at hstep
    omega
  | load t layout pc hpc hread =>
    have hstep := hmove t pc
    rw [hpc] at hstep
    show 1 + potential _ _ s.next (Function.update s.pc t pc) ≤ (0 + 0 + 0) + _
    rcases hread with rfl | ⟨layout', allocStart, allocEnd, rfl⟩
    · simp only [work, rank, held, stale_none] at hstep
      omega
    · simp only [work, rank, held, stale_none, stale_self] at hstep
      omega
  | retry t spurious pc layout prevNext allocStart allocEnd hpc hfails hread =>
    have hstep := hmove t pc
    rw [hpc] at hstep
    show 1 + potential _ _ s.next (Function.update s.pc t pc) ≤
      (0 + 0 + if spurious then 1 else 0) + _
    -- A spurious failure pays for itself, any other one is paid by the staleness.
    have hpaid : 1 ≤ (if spurious then 1 else 0) + stale s.next (some prevNext) := by
      rcases hfails with rfl | hne
      · exact Nat.le_add_right 1 _
      · rw [stale_of_ne hne]
        exact Nat.le_add_left 1 _
    rcases hread with rfl | ⟨layout', start, stop, rfl⟩
    · simp only [work, rank, held, stale_none] at hstep
      omega
    · simp only [work, rank, held, stale_self] at hstep
      omega
  | grant t layout allocStart allocEnd hpc =>
    have hstep := potential_store (rank (Fintype.card T)) held s.next allocEnd s.pc t .idle
    rw [hpc] at hstep
    show 1 + potential _ _ allocEnd (Function.update s.pc t .idle) ≤ (0 + 0 + 0) + _
    simp only [work, rank, held, stale_none, stale_self] at hstep
    omega
  | reset =>
    have hstep := potential_cell (rank (Fintype.card T)) held s.next s.heapStart s.pc
    show 1 + potential _ _ s.heapStart s.pc ≤ (0 + (Fintype.card T + 1) + 0) + _
    omega

/-- With `n` threads, `k` calls, `r` resets and `f` spurious failures take at most
`(n + 2) * k + (n + 1) * r + f` steps; the other failures of a thread are at most the changes
of `next` by other threads and resets; and a thread in a call is stuck only where the address
computation for its own request panics. -/
theorem alloc_lock_free (profile : Profile) (heapStart heapEnd : ℕ) {l : List (Action T)}
    (hrun : run (step profile) (State.new heapStart heapEnd) l = some s) :
    l.length ≤ (Fintype.card T + 2) * l.countP isAlloc + (Fintype.card T + 1) * l.countP isReset +
      l.countP isSpurious ∧
    (∀ t, cost (step profile) (failure t) (State.new heapStart heapEnd) l ≤
      cost (step profile) (changedByOther profile t) (State.new heapStart heapEnd) l) ∧
    ∀ t, s.pc t = .idle ∨ (step profile s (.load t)).isSome ∨
      (step profile s (.exchange t false)).isSome ∨
      ∃ layout, request (s.pc t) = some layout ∧
        allocRange profile s.heapEnd s.next layout = none := by
  refine ⟨?_, ?_, fun t => moves profile s t⟩
  · have hcost := cost_le_credit
      (fun s : State T => potential (rank (Fintype.card T)) held s.next s.pc)
      (fun _ _ _ hs => cost_step hs) hrun
    have hnew : potential (rank (Fintype.card T)) held heapStart
        (State.new heapStart heapEnd : State T).pc = 0 := potential_eq_zero fun _ => rfl
    unfold credit at hcost
    rw [cost_one hrun, cost_add, cost_add, cost_countP isAlloc _ hrun, cost_countP isReset _ hrun,
      cost_countP isSpurious _ hrun, Nat.one_mul] at hcost
    change l.length + _ ≤ _ + potential _ _ heapStart _ at hcost
    omega
  · intro t
    have hcost : cost (step profile) (failure t) (State.new heapStart heapEnd) l +
        stale s.next (held (s.pc t)) ≤
        cost (step profile) (changedByOther profile t) (State.new heapStart heapEnd) l + 0 :=
      cost_le_credit (fun s : State T => stale s.next (held (s.pc t)))
        (fun _ _ _ hs => failure_step t hs) hrun
    omega

/-- Two calls, of which the second fails once spuriously and once for the first. -/
theorem alloc_lock_free_two_threads :
    let layout := Layout.align8 64 (by decide)
    let l : List (Action Bool) := [.beginAlloc false layout, .beginAlloc true layout, .load false,
      .load true, .exchange true true, .exchange false false, .exchange true false,
      .exchange true false]
    l.length ≤ 4 * 2 + 3 * 0 + 1 ∧
      cost (step .debug) (failure true) (State.new 4096 8192) l = 1 ∧
      cost (step .debug) (changedByOther .debug true) (State.new 4096 8192) l = 1 ∧
      (run (step .debug) (State.new 4096 8192) l).map State.next = some 4224 := by
  intro layout l
  have hnext : (run (step .debug) (State.new 4096 8192) l).map State.next = some 4224 := by
    decide +kernel
  obtain ⟨s, hrun, -⟩ := Option.map_eq_some_iff.mp hnext
  obtain ⟨hlength, hfailures, -⟩ := alloc_lock_free .debug 4096 8192 hrun
  have hone : cost (step .debug) (failure true) (State.new 4096 8192) l = 1 := by decide +kernel
  have hchanges : cost (step .debug) (changedByOther .debug true) (State.new 4096 8192) l ≤ 1 := by
    decide +kernel
  have hle := hfailures true
  exact ⟨hlength, hone, by omega, hnext⟩

end OsCamp.BumpProgress
