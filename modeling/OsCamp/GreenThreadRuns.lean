import Mathlib.Algebra.BigOperators.Group.Finset.Basic
import Mathlib.Algebra.Order.BigOperators.Group.Finset
import OsCamp.GreenThreadStates

/-!
One call of `run` on a fresh scheduler. Every entry is a program that yields a fixed
number of times and returns; the number may differ from entry to entry. What each
stack has run so far is tied to where its thread goes on, so that the entry slot
hands every entry to its own thread, and the steps left bound the run.
-/

set_option autoImplicit false

namespace OsCamp.GreenThreadRuns

open Execution GreenThreads GreenThreadStates

variable {F : Type*}

/-- The entry at a place ends its segment as its program says: by a yield while some are
left, then by its return. Nothing is spawned, and `run` is not called again. -/
def follows (yields : F → ℕ) (s : State F) : Action F → Bool
  | .proceed => true
  | .yieldNow =>
    match s.pc with
    | .user _ f j => j < yields f
    | _ => false
  | .finish =>
    match s.pc with
    | .user _ f j => j = yields f
    | _ => false
  | .spawn _ | .run => false

def programStep (yields : F → ℕ) (s : State F) (a : Action F) : Option (State F) :=
  if follows yields s a then step s a else none

/-- The entries are spawned on a fresh scheduler, and `run` is called. -/
def started (entries : List F) : State F :=
  { initial with
    sched := entries.foldl Scheduler.spawn Scheduler.new
    active := true
    pc := .runLoop }

def eventsOn (i : ℕ) (log : List (Event F)) : List (Event F) :=
  log.filter fun e => e.stack = i

/-- The call of the entry and its first segments, in program order. -/
def calledFor (i : ℕ) (f : F) (segments : ℕ) : List (Event F) :=
  .called i f :: (List.range segments).map (.segment i f)

theorem length_calledFor (i : ℕ) (f : F) (k : ℕ) : (calledFor i f k).length = k + 1 := by
  simp [calledFor]

theorem calledFor_succ (i : ℕ) (f : F) (k : ℕ) :
    calledFor i f (k + 1) = calledFor i f k ++ [.segment i f k] := by
  simp [calledFor, List.range_succ]

theorem eventsOn_append_self {i : ℕ} (log : List (Event F)) {e : Event F} (heq : e.stack = i) :
    eventsOn i (log ++ [e]) = eventsOn i log ++ [e] := by
  simp [eventsOn, heq]

theorem eventsOn_append_ne {i : ℕ} (log : List (Event F)) {e : Event F} (hne : e.stack ≠ i) :
    eventsOn i (log ++ [e]) = eventsOn i log := by
  simp [eventsOn, hne]

/-- The next segment on the stack is the next one of its entry. -/
theorem calledFor_record {i j : ℕ} {f : F} {log : List (Event F)}
    (hevents : eventsOn i log = calledFor i f j) :
    eventsOn i (log ++ [.segment i f j]) = calledFor i f (j + 1) := by
  have hself : (Event.segment i f j).stack = i := rfl
  rw [eventsOn_append_self log hself, hevents, calledFor_succ]

theorem started_threads (entries : List F) :
    (entries.foldl Scheduler.spawn Scheduler.new).current = 0 ∧
    (entries.foldl Scheduler.spawn Scheduler.new).threads.length = entries.length + 1 ∧
    ∀ i f, entries[i]? = some f →
      (entries.foldl Scheduler.spawn Scheduler.new).threads[i + 1]? =
        some { ctx := .threadWrapper (i + 1), state := .ready, entry := some f } := by
  induction entries using List.reverseRecOn with
  | nil => exact ⟨rfl, rfl, fun i f h => nomatch h⟩
  | append_singleton entries g ih =>
    obtain ⟨hcurrent, hlength, hthreads⟩ := ih
    rw [List.foldl_concat]
    refine ⟨hcurrent, ?_, ?_⟩
    · show (_ ++ [_]).length = (entries ++ [g]).length + 1
      rw [List.length_append, hlength, List.length_append]
      rfl
    · intro i f hf
      apply (Scheduler.getElem?_spawn _ _).mpr
      rcases Nat.lt_trichotomy i entries.length with hlt | rfl | hgt
      · rw [List.getElem?_append_left hlt] at hf
        exact Or.inl (hthreads i f hf)
      · rw [List.getElem?_concat_length] at hf
        cases hf
        exact Or.inr ⟨hlength.symm, rfl⟩
      · rw [List.getElem?_eq_none (by
          simp only [List.length_append, List.length_singleton]; omega)] at hf
        cases hf

theorem run_started (entries : List F) :
    run step initial (entries.map .spawn ++ [.run]) = some (started entries) := by
  have hspawn : ∀ (l : List F) (s : State F), s.pc = .outside →
      run step s (l.map .spawn) = some { s with sched := l.foldl Scheduler.spawn s.sched } := by
    intro l
    induction l with
    | nil => exact fun s _ => rfl
    | cons f rest ih =>
      intro s hpc
      rw [List.map_cons, run, step_spawn hpc]
      exact ih _ hpc
  rw [run_append, hspawn entries initial rfl]
  rfl

/-- Thread `i`, spawned with `f`, goes on at the place, and its stack has run what comes
before. -/
def OnTrack (yields : F → ℕ) (i : ℕ) (f : F) (log : List (Event F)) (entry : Option F) :
    Pc F → Prop
  | .threadWrapper _ => entry = some f ∧ eventsOn i log = []
  | .user _ g j => g = f ∧ j ≤ yields f ∧ eventsOn i log = calledFor i f j
  | _ => False

def Complete (yields : F → ℕ) (i : ℕ) (f : F) (log : List (Event F)) : Prop :=
  eventsOn i log = calledFor i f (yields f + 1)

/-- A thread that waits, or one that has finished. -/
def Parked (yields : F → ℕ) (s : State F) (i : ℕ) (f : F) : Prop :=
  ∃ t, s.sched.threads[i]? = some t ∧
    (t.state = .ready ∧ OnTrack yields i f s.log t.entry t.ctx ∨
      t.state = .finished ∧ Complete yields i f s.log)

def Tracked (yields : F → ℕ) (s : State F) (i : ℕ) (f : F) : Prop :=
  if i = s.sched.current then OnTrack yields i f s.log s.slot s.pc else Parked yields s i f

structure Inv (yields : F → ℕ) (entries : List F) (s : State F) : Prop where
  states : GreenThreadStates.Inv s
  length : s.sched.threads.length = entries.length + 1
  tracked : ∀ i f, entries[i]? = some f → Tracked yields s (i + 1) f
  logged : ∀ e ∈ s.log, 1 ≤ e.stack ∧ e.stack ≤ entries.length
  returned : s.pc = .outside → s.sched.allFinished = true

variable {yields : F → ℕ} {entries : List F} {s s' : State F}

theorem OnTrack.record_ne {i : ℕ} {f : F} {log : List (Event F)} {entry : Option F} {pc : Pc F}
    {e : Event F} (h : OnTrack yields i f log entry pc) (hne : e.stack ≠ i) :
    OnTrack yields i f (log ++ [e]) entry pc := by
  cases pc with
  | threadWrapper stack => exact ⟨h.1, (eventsOn_append_ne log hne).trans h.2⟩
  | user stack g j => exact ⟨h.1, h.2.1, (eventsOn_append_ne log hne).trans h.2.2⟩
  | _ => exact h

/-- A thread on its track has an event left. -/
theorem OnTrack.length_lt {i : ℕ} {f : F} {log : List (Event F)} {entry : Option F} {pc : Pc F}
    (h : OnTrack yields i f log entry pc) : (eventsOn i log).length < yields f + 2 := by
  cases pc with
  | threadWrapper stack =>
    rw [h.2]
    exact Nat.succ_pos _
  | user stack g j =>
    obtain ⟨-, hle, hevents⟩ := h
    rw [hevents, length_calledFor]
    omega
  | _ => exact h.elim

theorem Parked.record_ne {i : ℕ} {f : F} {e : Event F} (h : Parked yields s i f)
    (hne : e.stack ≠ i) : Parked yields (s.record e) i f := by
  obtain ⟨t, ht, hcase⟩ := h
  refine ⟨t, ht, ?_⟩
  rcases hcase with ⟨hready, htrack⟩ | ⟨hfin, hcomplete⟩
  · exact Or.inl ⟨hready, htrack.record_ne hne⟩
  · exact Or.inr ⟨hfin, (eventsOn_append_ne s.log hne).trans hcomplete⟩

theorem Parked.markFinished {i : ℕ} {f : F} (h : Parked yields s i f)
    (hne : i ≠ s.sched.current) : Parked yields s.markFinished i f := by
  obtain ⟨t, ht, hcase⟩ := h
  exact ⟨t, (State.markFinished_ne hne).trans ht, hcase⟩

/-- A switch leaves every thread on its track, if the one that stops is left on its own. -/
theorem tracked_switched {ret : Pc F} {next i : ℕ} {f : F} (hslot : s.slot = none)
    (hs : Switched s ret next s') (hparked : i ≠ s.sched.current → Parked yields s i f)
    (hleft : i = s.sched.current → Parked yields s' i f) : Tracked yields s' i f := by
  unfold Tracked
  rw [hs.current]
  split
  · rename_i hnext
    obtain ⟨new, hnew, hready, -, hslot', hpc'⟩ := hs.resumed
    obtain ⟨t, ht, hcase⟩ := hparked (by rw [hnext]; exact hs.ne_current)
    rw [hnext, hnew] at ht
    cases ht
    rcases hcase with ⟨-, htrack⟩ | ⟨hfin, -⟩
    · rw [hslot', hslot, Option.or_none, hpc', hs.log]
      exact htrack
    · rw [hready] at hfin
      cases hfin
  · rename_i hnext
    by_cases hcurrent : i = s.sched.current
    · exact hleft hcurrent
    · obtain ⟨t, ht, hcase⟩ := hparked hcurrent
      refine ⟨t, (hs.others i hcurrent hnext).trans ht, ?_⟩
      rw [hs.log]
      exact hcase

theorem parked_suspended {ret : Pc F} {next : ℕ} {f : F} {t : GreenThread F}
    (hs : Switched s ret next s') (ht : s.sched.threads[s.sched.current]? = some t)
    (hleft : t.state ≠ .finished ∧ OnTrack yields s.sched.current f s.log t.entry ret ∨
      t.state = .finished ∧ Complete yields s.sched.current f s.log) :
    Parked yields s' s.sched.current f := by
  refine ⟨_, hs.suspended t ht, ?_⟩
  rw [hs.log]
  rcases hleft with ⟨hunfinished, htrack⟩ | ⟨hfin, hcomplete⟩
  · exact Or.inl ⟨if_neg hunfinished, htrack⟩
  · exact Or.inr ⟨if_pos hfin, hcomplete⟩

theorem programStep_eq_some {a : Action F} :
    programStep yields s a = some s' ↔ follows yields s a = true ∧ step s a = some s' :=
  Option.ite_none_right_eq_some

namespace Inv

theorem parked (h : Inv yields entries s) {i : ℕ} {f : F} (hf : entries[i]? = some f)
    (hne : i + 1 ≠ s.sched.current) : Parked yields s (i + 1) f := by
  have htracked := h.tracked i f hf
  rwa [Tracked, if_neg hne] at htracked

theorem onTrack (h : Inv yields entries s) {i : ℕ} {f : F} (hf : entries[i]? = some f)
    (hcurrent : i + 1 = s.sched.current) :
    OnTrack yields (i + 1) f s.log s.slot s.pc := by
  have htracked := h.tracked i f hf
  rwa [Tracked, if_pos hcurrent] at htracked

theorem current_entry (h : Inv yields entries s) (hmain : s.sched.current ≠ 0) :
    ∃ i f, entries[i]? = some f ∧ i + 1 = s.sched.current := by
  have hlt := h.states.current_lt
  have hlength := h.length
  have hf : entries[s.sched.current - 1]? = some entries[s.sched.current - 1] :=
    List.getElem?_eq_getElem (by omega)
  exact ⟨_, _, hf, by omega⟩

theorem logged_record (h : Inv yields entries s) {e : Event F} (he : e.stack = s.sched.current)
    (hmain : s.sched.current ≠ 0) :
    ∀ e' ∈ (s.record e).log, 1 ≤ e'.stack ∧ e'.stack ≤ entries.length := by
  intro e' hmem
  have hlt := h.states.current_lt
  have hlength := h.length
  rcases List.mem_append.mp hmem with hold | hnew
  · exact h.logged e' hold
  · rw [List.mem_singleton.mp hnew, he]
    omega

/-- An event on the current stack is none of a thread that waits. -/
theorem parked_record (h : Inv yields entries s) {e : Event F}
    (he : e.stack = s.sched.current) {i : ℕ} {f : F} (hf : entries[i]? = some f)
    (hne : i + 1 ≠ s.sched.current) : Parked yields (s.record e) (i + 1) f :=
  (h.parked hf hne).record_ne fun heq => hne (heq.symm.trans he)

/-- The segment that runs is the next one of the entry that the thread was spawned with. -/
theorem segment_recorded (h : Inv yields entries s) {stack j : ℕ} {g : F}
    (hpc : s.pc = .user stack g j) {i : ℕ} {f : F} (hf : entries[i]? = some f)
    (hcurrent : i + 1 = s.sched.current) :
    g = f ∧ eventsOn s.sched.current (s.log ++ [.segment stack g j]) =
      calledFor s.sched.current f (j + 1) := by
  obtain ⟨hstack, -⟩ := h.states.at_user hpc
  have htrack := h.onTrack hf hcurrent
  rw [hpc, hcurrent] at htrack
  obtain ⟨rfl, -, hevents⟩ := htrack
  rw [← hstack] at hevents ⊢
  exact ⟨rfl, calledFor_record hevents⟩

theorem tracked_enter (h : Inv yields entries s) {stack : ℕ} {g : F}
    (hpc : s.pc = .threadWrapper stack) (hslot : s.slot = some g) {i : ℕ} {f : F}
    (hf : entries[i]? = some f) :
    Tracked yields { s.record (.called stack g) with slot := none, pc := .user stack g 0 }
      (i + 1) f := by
  obtain ⟨hstack, -⟩ := h.states.at_wrapper hpc
  by_cases hcurrent : i + 1 = s.sched.current
  · apply (if_pos hcurrent).mpr
    have htrack := h.onTrack hf hcurrent
    rw [hpc, hslot] at htrack
    obtain ⟨hentry, hempty⟩ := htrack
    cases hentry
    have hevent : (Event.called stack g).stack = i + 1 := hstack.trans hcurrent.symm
    refine ⟨rfl, Nat.zero_le _, (eventsOn_append_self s.log hevent).trans ?_⟩
    rw [hempty, ← hevent]
    rfl
  · apply (if_neg hcurrent).mpr
    exact h.parked_record (e := .called stack g) hstack hf hcurrent

theorem tracked_yield (h : Inv yields entries s) {stack j next : ℕ} {g : F}
    (hpc : s.pc = .user stack g j) (hleft : j < yields g)
    (hswitch : Switched (s.record (.segment stack g j)) (.user stack g (j + 1)) next s')
    {i : ℕ} {f : F} (hf : entries[i]? = some f) : Tracked yields s' (i + 1) f := by
  obtain ⟨hstack, -, hslot, -⟩ := h.states.at_user hpc
  apply tracked_switched (s := s.record (.segment stack g j)) hslot hswitch
  · exact h.parked_record (e := .segment stack g j) hstack hf
  · intro hcurrent
    obtain ⟨rfl, hevents⟩ := h.segment_recorded hpc hf hcurrent
    obtain ⟨t, ht⟩ := h.states.exists_current
    rw [hcurrent]
    apply parked_suspended hswitch ht
    rw [h.states.taken t ht]
    exact Or.inl ⟨by simp [h.states.running t ht], rfl, hleft, hevents⟩

theorem tracked_finish (h : Inv yields entries s) {stack j next : ℕ} {g : F}
    (hpc : s.pc = .user stack g j) (hlast : j = yields g)
    (hswitch : Switched (s.record (.segment stack g j)).markFinished (.afterFinished stack)
      next s')
    {i : ℕ} {f : F} (hf : entries[i]? = some f) : Tracked yields s' (i + 1) f := by
  obtain ⟨hstack, hmain, hslot, -⟩ := h.states.at_user hpc
  have hwaiting := h.states.toWaiting.record (.segment stack g j)
  apply tracked_switched (s := (s.record (.segment stack g j)).markFinished) hslot hswitch
  · intro hne
    have hparked := h.parked_record (e := .segment stack g j) hstack hf hne
    exact hparked.markFinished hne
  · intro hcurrent
    obtain ⟨rfl, hevents⟩ := h.segment_recorded hpc hf hcurrent
    obtain ⟨t, ht⟩ := (hwaiting.markFinished hmain).exists_current
    rw [hcurrent]
    apply parked_suspended hswitch ht
    rw [hlast] at hevents hpc ⊢
    exact Or.inr ⟨hwaiting.state_of_markFinished ht, hevents⟩

theorem started : Inv yields entries (started entries) := by
  obtain ⟨hcurrent, hlength, hthreads⟩ := started_threads entries
  refine { states := reachable_inv (Reach.init.run (run_started entries)), length := hlength,
           tracked := ?_, logged := fun e he => (nomatch he), returned := fun h => nomatch h }
  intro i f hf
  have hne : ¬ i + 1 = (GreenThreadRuns.started entries).sched.current := by
    show ¬ i + 1 = (entries.foldl Scheduler.spawn Scheduler.new).current
    omega
  rw [Tracked, if_neg hne]
  exact ⟨_, hthreads i f hf, Or.inl ⟨rfl, rfl, rfl⟩⟩

theorem step (h : Inv yields entries s) {a : Action F} (hs : programStep yields s a = some s') :
    Inv yields entries s' := by
  obtain ⟨hfollows, hs⟩ := programStep_eq_some.mp hs
  have hstates := h.states.step hs
  -- What does not leave `run` has no duty there.
  have hinside : s'.active = true → s'.pc = .outside → s'.sched.allFinished = true :=
    fun hactive hpc => absurd hpc (hstates.active_iff.mp hactive)
  cases h.states.move hs with
  | spawn f => cases hfollows
  | run => cases hfollows
  | stay hpc => simp [follows, hpc] at hfollows
  | leave hpc hall =>
    obtain ⟨hmain, -⟩ := h.states.at_main (Or.inr hpc)
    refine { states := hstates, length := h.length, tracked := ?_, logged := h.logged,
             returned := fun _ => hall }
    intro i f hf
    have hne : i + 1 ≠ s.sched.current := by omega
    exact (if_neg hne).mpr (h.parked hf hne)
  | dispatch hpc hswitch =>
    obtain ⟨hmain, hslot⟩ := h.states.at_main (Or.inr hpc)
    have hactive : s.active = true := h.states.active_iff.mpr (by simp [hpc])
    refine { states := hstates, length := hswitch.length.trans h.length, tracked := ?_,
             logged := hswitch.log ▸ h.logged,
             returned := hinside (hswitch.active.trans hactive) }
    intro i f hf
    apply tracked_switched hslot hswitch (h.parked hf)
    omega
  | @enter stack g hpc hslot =>
    obtain ⟨hstack, hmain, -⟩ := h.states.at_wrapper hpc
    exact
      { states := hstates, length := h.length, logged := h.logged_record hstack hmain,
        tracked := fun i f hf => h.tracked_enter hpc hslot hf,
        returned := fun heq => nomatch heq }
  | @yield _ stack j _ g hpc hswitch =>
    obtain ⟨hstack, hmain, hslot, hactive⟩ := h.states.at_user hpc
    have hleft : j < yields g := by simpa [follows, hpc] using hfollows
    exact
      { states := hstates, length := hswitch.length.trans h.length,
        tracked := fun i f hf => h.tracked_yield hpc hleft hswitch hf,
        logged := hswitch.log ▸ h.logged_record hstack hmain,
        returned := hinside (hswitch.active.trans hactive) }
  | @finish _ stack j _ g hpc hswitch =>
    obtain ⟨hstack, hmain, hslot, hactive⟩ := h.states.at_user hpc
    have hlast : j = yields g := by simpa [follows, hpc] using hfollows
    exact
      { states := hstates,
        length := hswitch.length.trans ((Scheduler.length_setState _ _ _).trans h.length),
        tracked := fun i f hf => h.tracked_finish hpc hlast hswitch hf,
        logged := hswitch.log ▸ h.logged_record hstack hmain,
        returned := hinside (hswitch.active.trans hactive) }

end Inv

theorem reachable_inv {s : State F}
    (h : Reachable (programStep yields) (started entries) s) : Inv yields entries s :=
  h.invariant Inv.started fun _ _ _ hinv _ hs => hinv.step hs

def mainTurn : Pc F → ℕ
  | .runLoop => 1
  | _ => 0

theorem mainTurn_le (pc : Pc F) : mainTurn pc ≤ 1 := by
  cases pc with
  | runLoop => exact Nat.le_refl 1
  | _ => exact Nat.zero_le 1

def eventsLeft (yields : F → ℕ) (entries : List F) (log : List (Event F)) (i : ℕ) : ℕ :=
  (entries[i]?.elim 0 fun f => yields f + 2) - (eventsOn (i + 1) log).length

/-- A thread may hand the processor to main after each of its events. -/
def work (yields : F → ℕ) (entries : List F) (s : State F) : ℕ :=
  2 * ∑ i ∈ Finset.range entries.length, eventsLeft yields entries s.log i + mainTurn s.pc

theorem sum_eventsLeft_lt {i : ℕ} {f : F} {log : List (Event F)} {e : Event F}
    (hf : entries[i]? = some f) (hevent : e.stack = i + 1)
    (hroom : (eventsOn (i + 1) log).length < yields f + 2) :
    ∑ k ∈ Finset.range entries.length, eventsLeft yields entries (log ++ [e]) k <
      ∑ k ∈ Finset.range entries.length, eventsLeft yields entries log k := by
  obtain ⟨hi, -⟩ := List.getElem?_eq_some_iff.mp hf
  apply Finset.sum_lt_sum
  · intro k _
    unfold eventsLeft
    by_cases hk : e.stack = k + 1
    · rw [eventsOn_append_self log hk, List.length_append]
      omega
    · rw [eventsOn_append_ne log hk]
  · refine ⟨i, Finset.mem_range.mpr hi, ?_⟩
    unfold eventsLeft
    rw [eventsOn_append_self log hevent, List.length_append, List.length_singleton, hf]
    show yields f + 2 - _ < yields f + 2 - _
    omega

/-- What one event takes from the work, whoever runs next. -/
theorem work_lt_of_event {i : ℕ} {f : F} {e : Event F} (hf : entries[i]? = some f)
    (hevent : e.stack = i + 1) (hroom : (eventsOn (i + 1) s.log).length < yields f + 2)
    (hlog : s'.log = s.log ++ [e]) : work yields entries s' < work yields entries s := by
  have hsum := sum_eventsLeft_lt hf hevent hroom
  have hturn := mainTurn_le s'.pc
  unfold work
  rw [hlog]
  omega

theorem Inv.work_lt (h : Inv yields entries s) {a : Action F}
    (hs : programStep yields s a = some s') : work yields entries s' < work yields entries s := by
  have hstates := (h.step hs).states
  obtain ⟨hfollows, hs⟩ := programStep_eq_some.mp hs
  cases h.states.move hs with
  | spawn f => cases hfollows
  | run => cases hfollows
  | stay hpc => simp [follows, hpc] at hfollows
  | leave hpc hall =>
    simp only [work, hpc, mainTurn]
    omega
  | dispatch hpc hswitch =>
    obtain ⟨hmain, -⟩ := h.states.at_main (Or.inr hpc)
    have hturn : mainTurn s'.pc = 0 := by
      cases hpc' : s'.pc with
      | runLoop =>
        obtain ⟨hmain', -⟩ := hstates.at_main (Or.inr hpc')
        rw [hswitch.current] at hmain'
        exact absurd (hmain'.trans hmain.symm) hswitch.ne_current
      | _ => rfl
    unfold work
    rw [hswitch.log, hturn, hpc]
    exact Nat.lt_succ_self _
  | @enter stack g hpc hslot =>
    obtain ⟨hstack, hmain, -⟩ := h.states.at_wrapper hpc
    obtain ⟨i, f, hf, hcurrent⟩ := h.current_entry hmain
    exact work_lt_of_event hf (e := .called stack g) (hstack.trans hcurrent.symm)
      (h.onTrack hf hcurrent).length_lt rfl
  | @yield _ stack j _ g hpc hswitch =>
    obtain ⟨hstack, hmain, -⟩ := h.states.at_user hpc
    obtain ⟨i, f, hf, hcurrent⟩ := h.current_entry hmain
    exact work_lt_of_event hf (e := .segment stack g j) (hstack.trans hcurrent.symm)
      (h.onTrack hf hcurrent).length_lt hswitch.log
  | @finish _ stack j _ g hpc hswitch =>
    obtain ⟨hstack, hmain, -⟩ := h.states.at_user hpc
    obtain ⟨i, f, hf, hcurrent⟩ := h.current_entry hmain
    exact work_lt_of_event hf (e := .segment stack g j) (hstack.trans hcurrent.symm)
      (h.onTrack hf hcurrent).length_lt hswitch.log

/-- Until `run` returns, the place where the processor is has a next step. -/
theorem Inv.progress (h : Inv yields entries s) :
    s.pc = .outside ∨ ∃ a s', programStep yields s a = some s' := by
  have hhere := h.states.here
  cases hpc : s.pc with
  | null =>
    rw [hpc] at hhere
    exact hhere.elim
  | outside => exact Or.inl rfl
  | runLoop =>
    right
    by_cases hall : s.sched.allFinished = true
    · exact ⟨.proceed, _, programStep_eq_some.mpr ⟨rfl, step_leave hpc hall⟩⟩
    · obtain ⟨next, s', hs, -⟩ := h.states.dispatch hpc hall
      exact ⟨.proceed, s', programStep_eq_some.mpr ⟨rfl, hs⟩⟩
  | threadWrapper stack =>
    obtain ⟨-, -, f, hslot⟩ := h.states.at_wrapper hpc
    exact Or.inr ⟨.proceed, _, programStep_eq_some.mpr ⟨rfl, step_enter hpc hslot⟩⟩
  | user stack g j =>
    right
    obtain ⟨-, hmain, -⟩ := h.states.at_user hpc
    obtain ⟨i, f, hf, hcurrent⟩ := h.current_entry hmain
    have htrack := h.onTrack hf hcurrent
    rw [hpc] at htrack
    obtain ⟨rfl, hle, -⟩ := htrack
    by_cases hleft : j < yields g
    · obtain ⟨next, s', hs, -⟩ := h.states.yield hpc
      exact ⟨.yieldNow, s', programStep_eq_some.mpr ⟨by simp [follows, hpc, hleft], hs⟩⟩
    · have hlast : j = yields g := by omega
      obtain ⟨next, s', hs, -⟩ := h.states.finish hpc
      exact ⟨.finish, s', programStep_eq_some.mpr ⟨by simp [follows, hpc, hlast], hs⟩⟩
  | afterFinished stack =>
    rw [hpc] at hhere
    exact hhere.elim

/-- `run` returns; then every thread has finished, and every stack has run the call of its
own entry and the entry's segments in program order, all of them once. -/
structure RunsAll (yields : F → ℕ) (entries : List F) : Prop where
  starts : run step initial (entries.map .spawn ++ [.run]) = some (started entries)
  goes_on : ∀ s, Reachable (programStep yields) (started entries) s →
    s.pc = .outside ∨ ∃ a s', programStep yields s a = some s'
  ends : ∃ n, ∀ l s, run (programStep yields) (started entries) l = some s → l.length ≤ n
  returns : ∃ l s, run (programStep yields) (started entries) l = some s ∧ s.pc = .outside
  finished : ∀ s, Reachable (programStep yields) (started entries) s → s.pc = .outside →
    s.sched.threads.length = entries.length + 1 ∧
      ∀ i t, i ≠ 0 → s.sched.threads[i]? = some t → t.state = .finished
  delivered : ∀ s, Reachable (programStep yields) (started entries) s → s.pc = .outside →
    ∀ i f, entries[i]? = some f → eventsOn (i + 1) s.log =
      .called (i + 1) f :: (List.range (yields f + 1)).map (.segment (i + 1) f)
  nothing_else : ∀ s, Reachable (programStep yields) (started entries) s →
    ∀ e ∈ s.log, 1 ≤ e.stack ∧ e.stack ≤ entries.length

theorem run_runsAll (yields : F → ℕ) (entries : List F) : RunsAll yields entries := by
  constructor
  · exact run_started entries
  · exact fun s hreach => (reachable_inv hreach).progress
  · refine ⟨work yields entries (started entries), fun l s hrun => ?_⟩
    have hle := run_length_le (work yields entries) (I := Inv yields entries)
      (fun _ _ _ hinv hs => ⟨hinv.step hs, hinv.work_lt hs⟩) Inv.started hrun
    omega
  · obtain ⟨l, s, hrun, -, hpc⟩ := exists_run_final (fun s => s.pc = .outside)
      (work yields entries) (I := Inv yields entries)
      (fun _ _ _ hinv hs => ⟨hinv.step hs, hinv.work_lt hs⟩) (fun _ hinv => hinv.progress)
      Inv.started
    exact ⟨l, s, hrun, hpc⟩
  · intro s hreach hpc
    have hinv := reachable_inv hreach
    exact ⟨hinv.length, (Scheduler.allFinished_iff _).mp (hinv.returned hpc)⟩
  · intro s hreach hpc i f hf
    have hinv := reachable_inv hreach
    obtain ⟨hmain, -⟩ := hinv.states.at_main (Or.inl hpc)
    have hne : i + 1 ≠ s.sched.current := by omega
    obtain ⟨t, ht, ⟨hready, -⟩ | ⟨-, hcomplete⟩⟩ := hinv.parked hf hne
    · have hall := (Scheduler.allFinished_iff _).mp (hinv.returned hpc)
      rw [hall (i + 1) t (Nat.succ_ne_zero i) ht] at hready
      cases hready
    · exact hcomplete
  · exact fun s hreach => (reachable_inv hreach).logged

end OsCamp.GreenThreadRuns
