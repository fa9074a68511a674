import OsCamp.GreenThreads

/-!
The thread states in every run of the scheduler: the current thread alone is running,
main is ready while it waits, and a finished thread never runs again. What holds of
the waiting threads is stated apart, since it also holds inside `thread_finished`,
between the mark and the switch.
-/

set_option autoImplicit false

namespace OsCamp.GreenThreadStates

open Execution RoundRobin GreenThreads

variable {F : Type*}

/-- Thread `i` goes on at the place; `entry` is what it has still to be handed there. -/
def Resumes (i : ℕ) (entry : Option F) : Pc F → Prop
  | .outside | .runLoop => i = 0 ∧ entry = none
  | .threadWrapper stack => stack = i ∧ i ≠ 0 ∧ entry ≠ none
  | .user stack _ _ => stack = i ∧ i ≠ 0 ∧ entry = none
  | .null | .afterFinished _ => False

theorem Resumes.stack {i : ℕ} {entry : Option F} {pc : Pc F} (h : Resumes i entry pc) :
    pc.stack = i := by
  cases pc with
  | null => exact h.elim
  | outside => exact h.1.symm
  | runLoop => exact h.1.symm
  | threadWrapper stack => exact h.1
  | user stack f j => exact h.1
  | afterFinished stack => exact h.elim

structure Waiting (s : State F) : Prop where
  current_lt : s.sched.current < s.sched.threads.length
  not_running : ∀ i t, i ≠ s.sched.current → s.sched.threads[i]? = some t →
    t.state ≠ .running
  main_unfinished : ∀ t, s.sched.threads[0]? = some t → t.state ≠ .finished
  resumes : ∀ i t, i ≠ s.sched.current → s.sched.threads[i]? = some t → t.state = .ready →
    Resumes i t.entry t.ctx ∧ t.ctx ≠ .outside
  taken : ∀ t, s.sched.threads[s.sched.current]? = some t → t.entry = none

structure Inv (s : State F) : Prop extends Waiting s where
  running : ∀ t, s.sched.threads[s.sched.current]? = some t → t.state = .running
  here : Resumes s.sched.current s.slot s.pc
  active_iff : s.active = true ↔ s.pc ≠ .outside

namespace Waiting

variable {s s' : State F} {ret : Pc F} {next : ℕ}

theorem exists_current (h : Waiting s) : ∃ t, s.sched.threads[s.sched.current]? = some t :=
  ⟨_, List.getElem?_eq_getElem h.current_lt⟩

/-- While main waits it is ready, so that every switch finds a thread. -/
theorem main_ready (h : Waiting s) (hmain : s.sched.current ≠ 0) :
    ∃ t, s.sched.threads[0]? = some t ∧ t.state = .ready := by
  have hlen := h.current_lt
  have ht : s.sched.threads[0]? = some s.sched.threads[0] :=
    List.getElem?_eq_getElem (by omega)
  refine ⟨_, ht, ?_⟩
  have hnot := h.not_running 0 _ hmain.symm ht
  have hunfinished := h.main_unfinished _ ht
  cases hstate : s.sched.threads[0].state with
  | ready => rfl
  | running => exact absurd hstate hnot
  | finished => exact absurd hstate hunfinished

theorem record (h : Waiting s) (e : Event F) : Waiting (s.record e) := { h with }

theorem markFinished (h : Waiting s) (hmain : s.sched.current ≠ 0) :
    Waiting s.markFinished := by
  have hother : ∀ i, i ≠ s.sched.current →
      s.markFinished.sched.threads[i]? = s.sched.threads[i]? :=
    fun i hi => State.markFinished_ne hi
  constructor
  · show s.sched.current < (s.sched.setState s.sched.current .finished).threads.length
    rw [Scheduler.length_setState]
    exact h.current_lt
  · intro i t hi ht
    rw [hother i hi] at ht
    exact h.not_running i t hi ht
  · intro t ht
    rw [hother 0 hmain.symm] at ht
    exact h.main_unfinished t ht
  · intro i t hi ht
    rw [hother i hi] at ht
    exact h.resumes i t hi ht
  · intro t ht
    obtain ⟨u, hu⟩ := h.exists_current
    have hself := State.markFinished_self hu
    cases hself.symm.trans ht
    exact h.taken u hu

theorem state_of_markFinished (h : Waiting s) {t : GreenThread F}
    (ht : s.markFinished.sched.threads[s.sched.current]? = some t) : t.state = .finished := by
  obtain ⟨u, hu⟩ := h.exists_current
  rw [State.markFinished_self hu] at ht
  cases ht
  rfl

end Waiting

section Switch

variable {s s' : State F} {ret : Pc F} {next : ℕ}

/-- Which thread of the state before a thread of the state after a switch is. -/
theorem switched_thread (h : Waiting s) (hs : Switched s ret next s') {i : ℕ}
    {t' : GreenThread F} (ht' : s'.sched.threads[i]? = some t') :
    (i = next ∧ t'.state = .running ∧ t'.entry = none) ∨
    (i = s.sched.current ∧ ∃ t, s.sched.threads[i]? = some t ∧
      t' = { t with ctx := ret, state := if t.state = .finished then .finished else .ready }) ∨
    (i ≠ next ∧ i ≠ s.sched.current ∧ s.sched.threads[i]? = some t') := by
  by_cases hnext : i = next
  · obtain ⟨new, -, -, hnew, -⟩ := hs.resumed
    rw [hnext, hnew] at ht'
    cases ht'
    exact Or.inl ⟨hnext, rfl, rfl⟩
  right
  by_cases hcurrent : i = s.sched.current
  · obtain ⟨t, ht⟩ := h.exists_current
    rw [hcurrent, hs.suspended t ht] at ht'
    cases ht'
    subst hcurrent
    exact Or.inl ⟨rfl, t, ht, rfl⟩
  · rw [hs.others i hcurrent hnext] at ht'
    exact Or.inr ⟨hnext, hcurrent, ht'⟩

/-- A switch from a thread that has finished, or that can go on where it was left. -/
theorem Waiting.switched (h : Waiting s) (hslot : s.slot = none) (hactive : s.active = true)
    (hret : ∀ t, s.sched.threads[s.sched.current]? = some t → t.state ≠ .finished →
      Resumes s.sched.current none ret ∧ ret ≠ .outside)
    (hs : Switched s ret next s') : Inv s' := by
  obtain ⟨new, hnew, hready, hnew', hslot', hpc'⟩ := hs.resumed
  obtain ⟨hresumes, hinside⟩ := h.resumes next new hs.ne_current hnew hready
  rw [hslot, Option.or_none] at hslot'
  constructor
  · constructor
    · obtain ⟨hlt, -⟩ := List.getElem?_eq_some_iff.mp hnew'
      rw [hs.current]
      exact hlt
    · intro i t' hi ht'
      rw [hs.current] at hi
      rcases switched_thread h hs ht' with ⟨heq, -⟩ | ⟨-, t, -, rfl⟩ | ⟨-, hne, ht⟩
      · exact absurd heq hi
      · show (if t.state = .finished then ThreadState.finished else .ready) ≠ .running
        split <;> simp
      · exact h.not_running i t' hne ht
    · intro t' ht'
      rcases switched_thread h hs ht' with ⟨-, hrun, -⟩ | ⟨-, t, ht, rfl⟩ | ⟨-, -, ht⟩
      · simp [hrun]
      · have hunfinished := h.main_unfinished t ht
        simp [hunfinished]
      · exact h.main_unfinished t' ht
    · intro i t' hi ht' hready'
      rw [hs.current] at hi
      rcases switched_thread h hs ht' with ⟨heq, -⟩ | ⟨heq, t, ht, rfl⟩ | ⟨-, hne, ht⟩
      · exact absurd heq hi
      · subst heq
        have hunfinished : t.state ≠ .finished := by
          intro hfin
          simp [hfin] at hready'
        show Resumes s.sched.current t.entry ret ∧ ret ≠ .outside
        rw [h.taken t ht]
        exact hret t ht hunfinished
      · exact h.resumes i t' hne ht hready'
    · intro t' ht'
      rw [hs.current, hnew'] at ht'
      cases ht'
      rfl
  · intro t' ht'
    rw [hs.current, hnew'] at ht'
    cases ht'
    rfl
  · rw [hs.current, hslot', hpc']
    exact hresumes
  · rw [hs.active, hactive, hpc']
    exact iff_of_true rfl hinside

theorem switched_keeps_finished (hs : Switched s ret next s') {i : ℕ} {t : GreenThread F}
    (ht : s.sched.threads[i]? = some t) (hfin : t.state = .finished) :
    ∃ t', s'.sched.threads[i]? = some t' ∧ t'.state = .finished := by
  by_cases hcurrent : i = s.sched.current
  · subst hcurrent
    exact ⟨_, hs.suspended t ht, if_pos hfin⟩
  have hnext : i ≠ next := by
    rintro rfl
    obtain ⟨new, hnew, hready, -⟩ := hs.resumed
    rw [ht] at hnew
    cases hnew
    rw [hfin] at hready
    cases hready
  exact ⟨t, (hs.others i hcurrent hnext).trans ht, hfin⟩

end Switch

/-- What each action does, where the invariant holds. -/
inductive Move : State F → Action F → State F → Prop
  | spawn {s : State F} (f : F) : s.pc = .outside →
      Move s (.spawn f) { s with sched := s.sched.spawn f }
  | run {s : State F} : s.pc = .outside →
      Move s .run { s with active := true, pc := .runLoop }
  | leave {s : State F} : s.pc = .runLoop → s.sched.allFinished = true →
      Move s .proceed { s with active := false, pc := .outside }
  | dispatch {s s' : State F} {next : ℕ} : s.pc = .runLoop → Switched s .runLoop next s' →
      Move s .proceed s'
  | enter {s : State F} {stack : ℕ} {f : F} : s.pc = .threadWrapper stack → s.slot = some f →
      Move s .proceed { s.record (.called stack f) with slot := none, pc := .user stack f 0 }
  | stay {s : State F} : s.pc = .outside → Move s .yieldNow s
  | yield {s s' : State F} {stack j next : ℕ} {f : F} : s.pc = .user stack f j →
      Switched (s.record (.segment stack f j)) (.user stack f (j + 1)) next s' →
      Move s .yieldNow s'
  | finish {s s' : State F} {stack j next : ℕ} {f : F} : s.pc = .user stack f j →
      Switched (s.record (.segment stack f j)).markFinished (.afterFinished stack) next s' →
      Move s .finish s'

namespace Inv

variable {s s' : State F}

theorem initial : Inv (initial : State F) where
  current_lt := Nat.zero_lt_one
  not_running i t hi ht := by
    obtain ⟨hlt, -⟩ := List.getElem?_eq_some_iff.mp ht
    exact absurd (Nat.lt_one_iff.mp hlt) hi
  main_unfinished t ht := by
    cases ht
    exact fun h => nomatch h
  resumes i t hi ht := by
    obtain ⟨hlt, -⟩ := List.getElem?_eq_some_iff.mp ht
    exact absurd (Nat.lt_one_iff.mp hlt) hi
  taken t ht := by
    cases ht
    rfl
  running t ht := by
    cases ht
    rfl
  here := ⟨rfl, rfl⟩
  active_iff := by simp [GreenThreads.initial]

theorem running_iff (h : Inv s) {i : ℕ} {t : GreenThread F}
    (ht : s.sched.threads[i]? = some t) : t.state = .running ↔ i = s.sched.current := by
  constructor
  · intro hrun
    by_contra hne
    exact h.not_running i t hne ht hrun
  · rintro rfl
    exact h.running t ht

theorem at_main (h : Inv s) (hpc : s.pc = .outside ∨ s.pc = .runLoop) :
    s.sched.current = 0 ∧ s.slot = none := by
  have hhere := h.here
  rcases hpc with hpc | hpc <;> rw [hpc] at hhere <;> exact hhere

theorem at_user (h : Inv s) {stack j : ℕ} {f : F} (hpc : s.pc = .user stack f j) :
    stack = s.sched.current ∧ s.sched.current ≠ 0 ∧ s.slot = none ∧ s.active = true := by
  have hhere := h.here
  rw [hpc] at hhere
  refine ⟨hhere.1, hhere.2.1, hhere.2.2, ?_⟩
  apply h.active_iff.mpr
  simp [hpc]

theorem at_wrapper (h : Inv s) {stack : ℕ} (hpc : s.pc = .threadWrapper stack) :
    stack = s.sched.current ∧ s.sched.current ≠ 0 ∧ ∃ f, s.slot = some f := by
  have hhere := h.here
  rw [hpc] at hhere
  exact ⟨hhere.1, hhere.2.1, Option.ne_none_iff_exists'.mp hhere.2.2⟩

/-- `run` hands the processor to a thread while one has not finished. -/
theorem dispatch (h : Inv s) (hpc : s.pc = .runLoop) (hleft : ¬ s.sched.allFinished = true) :
    ∃ next s', step s .proceed = some s' ∧ Switched s .runLoop next s' := by
  obtain ⟨hmain, -⟩ := h.at_main (Or.inr hpc)
  simp only [Scheduler.allFinished_iff, not_forall] at hleft
  obtain ⟨i, t, hi, ht, hunfinished⟩ := hleft
  have hne : i ≠ s.sched.current := by
    rw [hmain]
    exact hi
  have hready : t.state = .ready := by
    have hnot := h.not_running i t hne ht
    cases hstate : t.state with
    | ready => rfl
    | running => exact absurd hstate hnot
    | finished => exact absurd hstate hunfinished
  obtain ⟨next, s', hs, hswitch⟩ := s.scheduleNext_switches .runLoop h.current_lt ht hready hne
  refine ⟨next, s', ?_, hswitch⟩
  have hnot : ¬ s.sched.allFinished = true := by
    rw [Scheduler.allFinished_iff]
    exact fun hall => hunfinished (hall i t hi ht)
  simp only [step, hpc, State.runLoop, if_neg hnot]
  exact hs

theorem yield (h : Inv s) {stack j : ℕ} {f : F} (hpc : s.pc = .user stack f j) :
    ∃ next s', step s .yieldNow = some s' ∧
      Switched (s.record (.segment stack f j)) (.user stack f (j + 1)) next s' := by
  obtain ⟨-, hmain, -, hactive⟩ := h.at_user hpc
  obtain ⟨t, ht, hready⟩ := h.main_ready hmain
  obtain ⟨next, s', hs, hswitch⟩ := (s.record (.segment stack f j)).scheduleNext_switches
    (.user stack f (j + 1)) h.current_lt ht hready hmain.symm
  refine ⟨next, s', ?_, hswitch⟩
  simp only [step, hpc, State.yieldNow]
  exact (if_pos hactive).trans hs

/-- A thread that finishes always finds another one ready. -/
theorem finish (h : Inv s) {stack j : ℕ} {f : F} (hpc : s.pc = .user stack f j) :
    ∃ next s', step s .finish = some s' ∧
      Switched (s.record (.segment stack f j)).markFinished (.afterFinished stack) next s' := by
  obtain ⟨-, hmain, -, hactive⟩ := h.at_user hpc
  have hmarked := (h.toWaiting.record (.segment stack f j)).markFinished hmain
  obtain ⟨t, ht, hready⟩ := hmarked.main_ready hmain
  obtain ⟨next, s', hs, hswitch⟩ := State.scheduleNext_switches (.afterFinished stack)
    hmarked.current_lt ht hready hmain.symm
  refine ⟨next, s', ?_, hswitch⟩
  simp only [step, hpc, State.threadFinished]
  exact (if_pos hactive).trans hs

/-- `spawn` adds a thread behind the others. -/
theorem spawn (h : Inv s) (f : F) : Inv { s with sched := s.sched.spawn f } := by
  have hcurrent := h.current_lt
  have hold : ∀ t, (s.sched.spawn f).threads[s.sched.current]? = some t →
      s.sched.threads[s.sched.current]? = some t := by
    intro t ht
    rcases (s.sched.getElem?_spawn f).mp ht with hpast | ⟨heq, -⟩
    · exact hpast
    · omega
  refine { current_lt := ?_, not_running := ?_, main_unfinished := ?_, resumes := ?_,
           taken := ?_, running := ?_, here := h.here, active_iff := h.active_iff }
  · show s.sched.current < (s.sched.threads ++ [_]).length
    rw [List.length_append]
    omega
  · intro i t hi ht
    rcases (s.sched.getElem?_spawn f).mp ht with hpast | ⟨-, rfl⟩
    · exact h.not_running i t hi hpast
    · exact fun heq => nomatch heq
  · intro t ht
    rcases (s.sched.getElem?_spawn f).mp ht with hpast | ⟨-, rfl⟩
    · exact h.main_unfinished t hpast
    · exact fun heq => nomatch heq
  · intro i t hi ht hready
    rcases (s.sched.getElem?_spawn f).mp ht with hpast | ⟨hi', rfl⟩
    · exact h.resumes i t hi hpast hready
    · have hne : i ≠ 0 := by omega
      exact ⟨⟨rfl, hne, fun heq => nomatch heq⟩, fun heq => nomatch heq⟩
  · exact fun t ht => h.taken t (hold t ht)
  · exact fun t ht => h.running t (hold t ht)

theorem move_outside (h : Inv s) (hpc : s.pc = .outside) {a : Action F}
    (hs : step s a = some s') : Move s a s' := by
  cases a with
  | spawn f =>
    rw [step_spawn hpc] at hs
    cases hs
    exact Move.spawn f hpc
  | run =>
    rw [step_run hpc] at hs
    cases hs
    exact Move.run hpc
  | proceed => simp [step, hpc] at hs
  | yieldNow =>
    have hinactive : s.active = false := by
      have hiff := h.active_iff
      simpa [hpc] using hiff
    rw [step_yieldNow_outside hpc hinactive] at hs
    cases hs
    exact Move.stay hpc
  | finish => simp [step, hpc] at hs

theorem move (h : Inv s) {a : Action F} (hs : step s a = some s') : Move s a s' := by
  have hhere := h.here
  cases hpc : s.pc with
  | null =>
    rw [hpc] at hhere
    exact hhere.elim
  | outside => exact h.move_outside hpc hs
  | runLoop =>
    cases a with
    | proceed =>
      by_cases hleft : s.sched.allFinished = true
      · rw [step_leave hpc hleft] at hs
        cases hs
        exact Move.leave hpc hleft
      · obtain ⟨next, t, ht, hswitch⟩ := h.dispatch hpc hleft
        rw [hs] at ht
        cases ht
        exact Move.dispatch hpc hswitch
    | _ => simp [step, hpc] at hs
  | threadWrapper stack =>
    cases a with
    | proceed =>
      obtain ⟨-, -, f, hslot⟩ := h.at_wrapper hpc
      rw [step_enter hpc hslot] at hs
      cases hs
      exact Move.enter hpc hslot
    | _ => simp [step, hpc] at hs
  | user stack f j =>
    cases a with
    | yieldNow =>
      obtain ⟨next, t, ht, hswitch⟩ := h.yield hpc
      rw [hs] at ht
      cases ht
      exact Move.yield hpc hswitch
    | finish =>
      obtain ⟨next, t, ht, hswitch⟩ := h.finish hpc
      rw [hs] at ht
      cases ht
      exact Move.finish hpc hswitch
    | _ => simp [step, hpc] at hs
  | afterFinished stack =>
    rw [hpc] at hhere
    exact hhere.elim

theorem step (h : Inv s) {a : Action F} (hs : step s a = some s') : Inv s' := by
  cases h.move hs with
  | spawn f hpc => exact h.spawn f
  | run hpc =>
    obtain ⟨hmain, hslot⟩ := h.at_main (Or.inl hpc)
    refine { h with here := ⟨hmain, hslot⟩, active_iff := ?_ }
    simp
  | leave hpc hall =>
    obtain ⟨hmain, hslot⟩ := h.at_main (Or.inr hpc)
    refine { h with here := ⟨hmain, hslot⟩, active_iff := ?_ }
    simp
  | dispatch hpc hswitch =>
    obtain ⟨hmain, hslot⟩ := h.at_main (Or.inr hpc)
    have hactive : s.active = true := h.active_iff.mpr (by simp [hpc])
    apply h.toWaiting.switched hslot hactive _ hswitch
    exact fun _ _ _ => ⟨⟨hmain, rfl⟩, fun heq => nomatch heq⟩
  | enter hpc hslot =>
    obtain ⟨hstack, hmain, -⟩ := h.at_wrapper hpc
    have hactive : s.active = true := h.active_iff.mpr (by simp [hpc])
    refine { h with here := ⟨hstack, hmain, rfl⟩, active_iff := ?_ }
    exact iff_of_true hactive fun heq => nomatch heq
  | stay hpc => exact h
  | yield hpc hswitch =>
    obtain ⟨hstack, hmain, hslot, hactive⟩ := h.at_user hpc
    apply (h.toWaiting.record _).switched hslot hactive _ hswitch
    exact fun _ _ _ => ⟨⟨hstack, hmain, rfl⟩, fun heq => nomatch heq⟩
  | @finish _ stack j _ f hpc hswitch =>
    obtain ⟨hstack, hmain, hslot, hactive⟩ := h.at_user hpc
    have hwaiting := h.toWaiting.record (.segment stack f j)
    apply (hwaiting.markFinished hmain).switched hslot hactive _ hswitch
    intro t ht hunfinished
    exact absurd (hwaiting.state_of_markFinished ht) hunfinished

theorem step_keeps_finished (h : Inv s) {a : Action F} (hs : GreenThreads.step s a = some s')
    {i : ℕ} {t : GreenThread F} (ht : s.sched.threads[i]? = some t)
    (hfin : t.state = .finished) :
    ∃ t', s'.sched.threads[i]? = some t' ∧ t'.state = .finished := by
  cases h.move hs with
  | spawn f => exact ⟨t, (s.sched.getElem?_spawn f).mpr (Or.inl ht), hfin⟩
  | run => exact ⟨t, ht, hfin⟩
  | leave => exact ⟨t, ht, hfin⟩
  | dispatch hpc hswitch => exact switched_keeps_finished hswitch ht hfin
  | enter => exact ⟨t, ht, hfin⟩
  | stay => exact ⟨t, ht, hfin⟩
  | yield hpc hswitch => exact switched_keeps_finished hswitch ht hfin
  | @finish _ stack j _ f hpc hswitch =>
    have hne : i ≠ s.sched.current := by
      rintro rfl
      rw [h.running t ht] at hfin
      cases hfin
    have ht' : (s.record (.segment stack f j)).markFinished.sched.threads[i]? = some t :=
      (State.markFinished_ne hne).trans ht
    exact switched_keeps_finished hswitch ht' hfin

end Inv

theorem reachable_inv {s : State F} (h : Reachable step initial s) : Inv s :=
  h.invariant Inv.initial fun _ _ _ hinv _ hs => hinv.step hs

/-- From a state that meets the invariant on, a finished thread stays finished. -/
theorem reach_keeps_finished {s s' : State F} (hinv : Inv s) (h : Reachable step s s') {i : ℕ}
    {t : GreenThread F} (ht : s.sched.threads[i]? = some t) (hfin : t.state = .finished) :
    Inv s' ∧ ∃ t', s'.sched.threads[i]? = some t' ∧ t'.state = .finished := by
  induction h with
  | init => exact ⟨hinv, t, ht, hfin⟩
  | step a _ _ hs ih =>
    obtain ⟨hinv', t', ht', hfin'⟩ := ih
    exact ⟨hinv'.step hs, hinv'.step_keeps_finished hs ht' hfin'⟩

/-- The states of the threads where a thread or main executes its own code. -/
structure SchedulerSafe (s : State F) : Prop where
  exists_running : ∃ t, s.sched.threads[s.sched.current]? = some t ∧ t.state = .running
  running_is_current : ∀ i t, s.sched.threads[i]? = some t → t.state = .running →
    i = s.sched.current
  main_unfinished : ∃ t, s.sched.threads[0]? = some t ∧ t.state ≠ .finished ∧
    (s.sched.current ≠ 0 → t.state = .ready)
  finished_stays : ∀ i t s', s.sched.threads[i]? = some t → t.state = .finished →
    Reachable step s s' → s'.sched.current ≠ i ∧ s'.pc.stack ≠ i ∧
      ∃ t', s'.sched.threads[i]? = some t' ∧ t'.state = .finished
  finish_finds_ready : ∀ stack f j, s.pc = .user stack f j → ∃ next,
    pick (s.markFinished.sched.stateIs .ready) s.sched.threads.length s.sched.current =
      some next ∧ next ≠ s.sched.current ∧ s.markFinished.sched.stateIs .ready next = true
  no_return : ∀ stack, s.pc ≠ .afterFinished stack

/-- The current thread alone runs, main waits ready, and a finished thread is left for good. -/
theorem reachable_schedulerSafe {s : State F} (h : Reachable step initial s) :
    SchedulerSafe s := by
  have hinv := reachable_inv h
  obtain ⟨t, ht⟩ := hinv.exists_current
  constructor
  · exact ⟨t, ht, hinv.running t ht⟩
  · exact fun i u hu hrun => (hinv.running_iff hu).mp hrun
  · by_cases hmain : s.sched.current = 0
    · rw [hmain] at ht
      exact ⟨t, ht, hinv.main_unfinished t ht, fun hne => absurd hmain hne⟩
    · obtain ⟨u, hu, hready⟩ := hinv.main_ready hmain
      exact ⟨u, hu, hinv.main_unfinished u hu, fun _ => hready⟩
  · intro i u s' hu hfin hreach
    obtain ⟨hinv', u', hu', hfin'⟩ := reach_keeps_finished hinv hreach hu hfin
    have hne : s'.sched.current ≠ i := by
      rintro rfl
      rw [hinv'.running u' hu'] at hfin'
      cases hfin'
    refine ⟨hne, ?_, u', hu', hfin'⟩
    rw [hinv'.here.stack]
    exact hne
  · intro stack f j hpc
    obtain ⟨-, hmain, -⟩ := hinv.at_user hpc
    have hmarked := hinv.toWaiting.markFinished hmain
    obtain ⟨u, hu, hready⟩ := hmarked.main_ready hmain
    obtain ⟨next, hpick, hne, -, hnext⟩ := pick_of_ready hmarked.current_lt
      (List.getElem?_eq_some_iff.mp hu).1 hmain.symm
      ((Scheduler.stateIs_iff _ _ _).mpr ⟨u, hu, hready⟩)
    refine ⟨next, ?_, hne, hnext⟩
    rw [← hpick]
    exact congrArg (fun len => pick _ len _) (Scheduler.length_setState _ _ _).symm
  · intro stack hpc
    have hhere := hinv.here
    rw [hpc] at hhere
    exact hhere

theorem reachable_schedulerSafe_after_finish :
    ∃ s, run step (initial : State ℕ)
        [.spawn 7, .spawn 8, .run, .proceed, .proceed, .yieldNow, .proceed, .yieldNow, .proceed,
          .finish] = some s ∧
      (s.pc = .user 2 8 1 ∧ s.sched.stateIs .finished 1 = true) ∧ SchedulerSafe s := by
  obtain ⟨s, hrun, hat⟩ : ∃ s, run step (initial : State ℕ)
      [.spawn 7, .spawn 8, .run, .proceed, .proceed, .yieldNow, .proceed, .yieldNow, .proceed,
        .finish] = some s ∧ s.pc = .user 2 8 1 ∧ s.sched.stateIs .finished 1 = true :=
    ⟨_, rfl, rfl, rfl⟩
  exact ⟨s, hrun, hat, reachable_schedulerSafe (Reach.init.run hrun)⟩

end OsCamp.GreenThreadStates
