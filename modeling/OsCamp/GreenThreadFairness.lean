import OsCamp.GreenThreadStates
import OsCamp.RingWalk

/-!
Fairness of the scheduler. A thread has its turn when a search of `schedule_next`
asks for its state. Through any number of searches the turns go once around the ring
after another, and exactly the threads that have not finished at their turn are given
the processor.
-/

set_option autoImplicit false

namespace OsCamp.GreenThreadFairness

open Execution RoundRobin RingWalk GreenThreads GreenThreadStates

variable {F : Type*}

structure Turn where
  thread : ℕ
  finished : Bool
  deriving DecidableEq, Repr

/-- The turns in one call of `schedule_next`. -/
def searchTurns (sched : Scheduler F) : List Turn :=
  (visited (sched.stateIs .ready) sched.threads.length sched.current).map fun i =>
    ⟨i, sched.stateIs .finished i⟩

/-- The turns in the call of `schedule_next` that the action makes, if any. -/
def stepTurns (s : State F) : Action F → List Turn
  | .proceed =>
    match s.pc with
    | .runLoop => if s.sched.allFinished then [] else searchTurns s.sched
    | _ => []
  | .yieldNow =>
    match s.pc with
    | .user _ _ _ => searchTurns s.sched
    | _ => []
  | .finish =>
    match s.pc with
    | .user _ _ _ => searchTurns s.markFinished.sched
    | _ => []
  | .spawn _ | .run => []

/-- The turns along the actions, in order. -/
def turns (s : State F) : List (Action F) → List Turn
  | [] => []
  | a :: rest => stepTurns s a ++ ((step s a).elim [] fun s' => turns s' rest)

/-- The thread that is given the processor between the two states, if any. -/
def dispatched (s s' : State F) : List ℕ :=
  if s'.sched.current = s.sched.current then [] else [s'.sched.current]

/-- The threads that are given the processor along the actions, in order. -/
def dispatches (s : State F) : List (Action F) → List ℕ
  | [] => []
  | a :: rest => (step s a).elim [] fun s' => dispatched s s' ++ dispatches s' rest

/-- The threads with a turn that have not finished when it comes. -/
def unfinished (l : List Turn) : List ℕ := (l.filter fun u => !u.finished).map Turn.thread

/-- From `s` to `t` the turns make `k` places along the ring, and those not finished at
their turn are dispatched. -/
structure Walked (s t : State F) (k : ℕ) (turns : List Turn) (dispatches : List ℕ) : Prop where
  threads : turns.map Turn.thread = walk s.sched.threads.length s.sched.current k
  arrived : t.sched.current = (s.sched.current + k) % s.sched.threads.length
  dispatched : dispatches = unfinished turns
  length : t.sched.threads.length = s.sched.threads.length

theorem unfinished_append (l l' : List Turn) :
    unfinished (l ++ l') = unfinished l ++ unfinished l' := by
  unfold unfinished
  rw [List.filter_append, List.map_append]

theorem Walked.trans {s t u : State F} {k k' : ℕ} {l l' : List Turn} {d d' : List ℕ}
    (h : Walked s t k l d) (h' : Walked t u k' l' d') :
    Walked s u (k + k') (l ++ l') (d ++ d') where
  threads := by
    rw [List.map_append, h.threads, h'.threads, h.length, h.arrived, walk_append]
  arrived := by
    rw [h'.arrived, h.length, h.arrived, Nat.mod_add_mod, Nat.add_assoc]
  dispatched := by rw [unfinished_append, h.dispatched, h'.dispatched]
  length := h'.length.trans h.length

/-- A place passed over is neither ready nor current, so its thread has finished. -/
theorem finished_of_passed {s : State F} (h : Waiting s) {j : ℕ} (hpos : 1 ≤ j)
    (hlt : j < s.sched.threads.length)
    (hnotReady : s.sched.stateIs .ready ((s.sched.current + j) % s.sched.threads.length) = false) :
    s.sched.stateIs .finished ((s.sched.current + j) % s.sched.threads.length) = true := by
  have hplace : (s.sched.current + j) % s.sched.threads.length < s.sched.threads.length :=
    Nat.mod_lt _ (by omega)
  have ht := List.getElem?_eq_getElem hplace
  have hne : (s.sched.current + j) % s.sched.threads.length ≠ s.sched.current := by
    intro heq
    have hend := (place_eq_start_iff h.current_lt hpos (by omega)).mp heq
    omega
  apply (Scheduler.stateIs_iff _ _ _).mpr ⟨_, ht, ?_⟩
  cases hstate : (s.sched.threads[(s.sched.current + j) % s.sched.threads.length]).state with
  | finished => rfl
  | running => exact absurd hstate (h.not_running _ _ hne ht)
  | ready =>
    have hready := (Scheduler.stateIs_iff s.sched .ready _).mpr ⟨_, ht, hstate⟩
    rw [hnotReady] at hready
    cases hready

theorem not_finished_of_state {s : State F} {i : ℕ} {t : GreenThread F}
    (ht : s.sched.threads[i]? = some t) (hstate : t.state ≠ .finished) :
    s.sched.stateIs .finished i = false := by
  apply Bool.eq_false_iff.mpr
  intro hfin
  obtain ⟨t', ht', hfinished⟩ := (Scheduler.stateIs_iff _ _ _).mp hfin
  cases ht.symm.trans ht'
  exact hstate hfinished

theorem unfinished_searchTurns (sched : Scheduler F) :
    unfinished (searchTurns sched) =
      (visited (sched.stateIs .ready) sched.threads.length sched.current).filter
        fun i => !sched.stateIs .finished i := by
  rw [unfinished, searchTurns, List.filter_map, List.map_map]
  exact List.map_id _

/-- A search that finds a thread passes over finished ones only. -/
theorem switched_walked {s s' : State F} {ret : Pc F} {next : ℕ} (h : Waiting s)
    (hs : Switched s ret next s') :
    ∃ m, 1 ≤ m ∧ m < s.sched.threads.length ∧
      Walked s s' m (searchTurns s.sched) [next] := by
  obtain ⟨m, hpos, hlt, hnext, hvisited, hbefore⟩ := visited_eq h.current_lt hs.picked hs.ne_current
  have hthreads : (searchTurns s.sched).map Turn.thread =
      walk s.sched.threads.length s.sched.current m := by
    rw [searchTurns, List.map_map, hvisited]
    exact List.map_id _
  refine ⟨m, hpos, hlt, hthreads, ?_, ?_, hs.length⟩
  · rw [hs.current, hnext]
  obtain ⟨k, rfl⟩ : ∃ k, m = k + 1 := ⟨m - 1, by omega⟩
  have hsplit : visited (s.sched.stateIs .ready) s.sched.threads.length s.sched.current =
      walk s.sched.threads.length s.sched.current k ++ [next] := by
    have hone : walk s.sched.threads.length ((s.sched.current + k) % s.sched.threads.length) 1 =
        [next] := by
      show [((s.sched.current + k) % s.sched.threads.length + 1) % _] = _
      rw [Nat.mod_add_mod, Nat.add_assoc, hnext]
    rw [hvisited, walk_append, hone]
  have hfound : s.sched.stateIs .finished next = false := by
    obtain ⟨new, hnew, hready, -⟩ := hs.resumed
    exact not_finished_of_state hnew (by simp [hready])
  have hnone : (walk s.sched.threads.length s.sched.current k).filter
      (fun i => !s.sched.stateIs .finished i) = [] := by
    apply List.filter_eq_nil_iff.mpr
    intro i hi
    obtain ⟨j, hj, hjk, rfl⟩ := mem_walk.mp hi
    rw [finished_of_passed h hj (by omega) (hbefore j hj (by omega))]
    exact Bool.false_ne_true
  have hkeep : [next].filter (fun i => !s.sched.stateIs .finished i) = [next] := by
    rw [List.filter_singleton, hfound]
    rfl
  rw [unfinished_searchTurns, hsplit, List.filter_append, hnone, hkeep, List.nil_append]

/-- What one action inside `run` adds to the walk. -/
structure StepWalked (s : State F) (a : Action F) (s' : State F) (m : ℕ) : Prop
    extends Walked s s' m (stepTurns s a) (dispatched s s') where
  short : m < s.sched.threads.length
  finished : ∀ u ∈ stepTurns s a, u.finished = true →
    s.sched.stateIs .finished u.thread = true

theorem mem_searchTurns {sched : Scheduler F} {u : Turn} (h : u ∈ searchTurns sched) :
    u.finished = sched.stateIs .finished u.thread := by
  obtain ⟨i, -, rfl⟩ := List.mem_map.mp h
  rfl

/-- An action that leaves the threads and the current one alone makes no turn. -/
theorem StepWalked.idle {s s' : State F} {a : Action F} (h : Waiting s)
    (hturns : stepTurns s a = []) (hcurrent : s'.sched.current = s.sched.current)
    (hlength : s'.sched.threads.length = s.sched.threads.length) : StepWalked s a s' 0 where
  threads := by
    rw [hturns]
    rfl
  arrived := by rw [hcurrent, Nat.add_zero, Nat.mod_eq_of_lt h.current_lt]
  dispatched := by
    rw [hturns, GreenThreadFairness.dispatched, if_pos hcurrent]
    rfl
  length := hlength
  short := Nat.zero_lt_of_lt h.current_lt
  finished := by
    rw [hturns]
    exact fun u hu => absurd hu List.not_mem_nil

/-- An action with a search, which is made in the state `s₁` that differs from `s` in the
current thread only. -/
theorem StepWalked.search {s s₁ s' : State F} {a : Action F} {ret : Pc F} {next : ℕ}
    (h : Waiting s₁) (hswitch : Switched s₁ ret next s')
    (hturns : stepTurns s a = searchTurns s₁.sched)
    (hcurrent : s₁.sched.current = s.sched.current)
    (hlength : s₁.sched.threads.length = s.sched.threads.length)
    (hsame : ∀ i, i ≠ s.sched.current → s₁.sched.threads[i]? = s.sched.threads[i]?) :
    ∃ m, StepWalked s a s' m := by
  obtain ⟨m, -, hlt, hwalked⟩ := switched_walked h hswitch
  have hdisp : dispatched s s' = [next] := by
    have hne := hswitch.ne_current
    rw [hcurrent] at hne
    unfold dispatched
    rw [hswitch.current, if_neg hne]
  have hthreads := hwalked.threads
  have harrived := hwalked.arrived
  rw [hlength, hcurrent] at hthreads harrived
  rw [hlength] at hlt
  refine ⟨m, ⟨⟨?_, harrived, ?_, hwalked.length.trans hlength⟩, hlt, ?_⟩⟩
  · rw [hturns]
    exact hthreads
  · rw [hturns, hdisp]
    exact hwalked.dispatched
  · intro u hu hfin
    rw [hturns] at hu
    -- The search does not ask for the thread it starts behind.
    have hne : u.thread ≠ s.sched.current := by
      have hmem : u.thread ∈ walk s.sched.threads.length s.sched.current m :=
        hthreads ▸ List.mem_map_of_mem hu
      obtain ⟨i, hi, him, hplace⟩ := mem_walk.mp hmem
      have hlt' := h.current_lt
      rw [hcurrent, hlength] at hlt'
      intro heq
      have hend := (place_eq_start_iff hlt' hi (by omega)).mp (hplace.trans heq)
      omega
    have hstate : s₁.sched.stateIs .finished u.thread = true :=
      (mem_searchTurns hu).symm.trans hfin
    unfold Scheduler.stateIs at hstate ⊢
    rw [hsame _ hne] at hstate
    exact hstate

theorem step_walked {s s' : State F} {a : Action F} (h : Inv s) (hs : step s a = some s')
    (hspawn : ∀ f, a ≠ .spawn f) : ∃ m, StepWalked s a s' m := by
  cases h.move hs with
  | spawn f => exact absurd rfl (hspawn f)
  | run => exact ⟨0, .idle h.toWaiting rfl rfl rfl⟩
  | leave hpc hall =>
    refine ⟨0, .idle h.toWaiting ?_ rfl rfl⟩
    simp only [stepTurns, hpc, if_pos hall]
  | @dispatch _ next hpc hswitch =>
    have hleft : ¬ s.sched.allFinished = true := by
      intro hall
      obtain ⟨new, hnew, hready, -⟩ := hswitch.resumed
      have hne : next ≠ 0 := by
        have hmain := (h.at_main (Or.inr hpc)).1
        have hne := hswitch.ne_current
        omega
      have hfin := (Scheduler.allFinished_iff _).mp hall next new hne hnew
      rw [hready] at hfin
      cases hfin
    have hturns : stepTurns s .proceed = searchTurns s.sched := by
      simp only [stepTurns, hpc, if_neg hleft]
    exact StepWalked.search h.toWaiting hswitch hturns rfl rfl fun _ _ => rfl
  | enter hpc =>
    refine ⟨0, .idle h.toWaiting ?_ rfl rfl⟩
    simp only [stepTurns, hpc]
  | stay hpc =>
    refine ⟨0, .idle h.toWaiting ?_ rfl rfl⟩
    simp only [stepTurns, hpc]
  | yield hpc hswitch =>
    have hturns : stepTurns s .yieldNow = searchTurns s.sched := by
      simp only [stepTurns, hpc]
    exact StepWalked.search (h.toWaiting.record _) hswitch hturns rfl rfl fun _ _ => rfl
  | @finish _ stack j _ f hpc hswitch =>
    obtain ⟨-, hmain, -⟩ := h.at_user hpc
    have hmarked := (h.toWaiting.record (.segment stack f j)).markFinished hmain
    have hlength : s.markFinished.sched.threads.length = s.sched.threads.length :=
      Scheduler.length_setState _ _ _
    have hturns : stepTurns s .finish = searchTurns s.markFinished.sched := by
      simp only [stepTurns, hpc]
    exact StepWalked.search hmarked hswitch hturns rfl hlength
      fun i hi => State.markFinished_ne hi

theorem turns_cons {s s' : State F} {a : Action F} (hs : step s a = some s')
    (rest : List (Action F)) : turns s (a :: rest) = stepTurns s a ++ turns s' rest := by
  rw [turns, hs]
  rfl

theorem dispatches_cons {s s' : State F} {a : Action F} (hs : step s a = some s')
    (rest : List (Action F)) :
    dispatches s (a :: rest) = dispatched s s' ++ dispatches s' rest := by
  rw [dispatches, hs]
  rfl

theorem dispatches_concat {s t t' : State F} {l : List (Action F)} {a : Action F}
    (hrun : run step s l = some t) (hs : step t a = some t') :
    dispatches s (l ++ [a]) = dispatches s l ++ dispatched t t' := by
  induction l generalizing s with
  | nil =>
    cases hrun
    rw [List.nil_append, dispatches_cons hs]
    exact List.append_nil _
  | cons b rest ih =>
    obtain ⟨s', hb, hrest⟩ := Option.bind_eq_some_iff.mp hrun
    rw [List.cons_append, dispatches_cons hb, dispatches_cons hb, ih hrest, List.append_assoc]

theorem turns_concat {s t t' : State F} {l : List (Action F)} {a : Action F}
    (hrun : run step s l = some t) (hs : step t a = some t') :
    turns s (l ++ [a]) = turns s l ++ stepTurns t a := by
  induction l generalizing s with
  | nil =>
    cases hrun
    rw [List.nil_append, turns_cons hs]
    exact List.append_nil _
  | cons b rest ih =>
    obtain ⟨s', hb, hrest⟩ := Option.bind_eq_some_iff.mp hrun
    rw [List.cons_append, turns_cons hb, turns_cons hb, ih hrest, List.append_assoc]

theorem run_walked {s t : State F} {l : List (Action F)} (h : Inv s)
    (hspawn : ∀ a ∈ l, ∀ f, a ≠ .spawn f) (hrun : run step s l = some t) :
    ∃ k, Walked s t k (turns s l) (dispatches s l) := by
  induction l generalizing s with
  | nil =>
    cases hrun
    refine ⟨0, rfl, ?_, rfl, rfl⟩
    rw [Nat.add_zero, Nat.mod_eq_of_lt h.current_lt]
  | cons a rest ih =>
    obtain ⟨s', hs, hrest⟩ := Option.bind_eq_some_iff.mp hrun
    obtain ⟨m, hfirst⟩ := step_walked h hs (hspawn a (List.mem_cons_self ..))
    obtain ⟨k, hwalked⟩ := ih (h.step hs) (fun b hb => hspawn b (List.mem_cons_of_mem _ hb)) hrest
    rw [turns_cons hs, dispatches_cons hs]
    exact ⟨m + k, hfirst.toWalked.trans hwalked⟩

/-- A thread found finished at a turn is finished at the end of the run. -/
theorem finished_of_turn {s t : State F} {l : List (Action F)} (h : Inv s)
    (hspawn : ∀ a ∈ l, ∀ f, a ≠ .spawn f) (hrun : run step s l = some t) {u : Turn}
    (hu : u ∈ turns s l) (hfin : u.finished = true) :
    t.sched.stateIs .finished u.thread = true := by
  induction l generalizing s with
  | nil => exact absurd hu List.not_mem_nil
  | cons a rest ih =>
    obtain ⟨s', hs, hrest⟩ := Option.bind_eq_some_iff.mp hrun
    rw [turns_cons hs] at hu
    rcases List.mem_append.mp hu with hfirst | hlater
    · obtain ⟨m, hwalked⟩ := step_walked h hs (hspawn a (List.mem_cons_self ..))
      obtain ⟨t₀, ht₀, hstate⟩ := (Scheduler.stateIs_iff _ _ _).mp (hwalked.finished u hfirst hfin)
      have hreach : Reachable step s t := Reach.init.run hrun
      obtain ⟨-, t₁, ht₁, hstate'⟩ := reach_keeps_finished h hreach ht₀ hstate
      exact (Scheduler.stateIs_iff _ _ _).mpr ⟨t₁, ht₁, hstate'⟩
    · exact ih (h.step hs) (fun b hb => hspawn b (List.mem_cons_of_mem _ hb)) hrest hlater

/-- Turns without one of the thread they start behind are fewer than a round. -/
theorem Walked.short {s t : State F} {k : ℕ} {l : List Turn} {d : List ℕ} (h : Walked s t k l d)
    (hcurrent : s.sched.current < s.sched.threads.length)
    (hnot : ∀ u ∈ l, u.thread ≠ s.sched.current) : k < s.sched.threads.length := by
  by_contra hlong
  have hturn : s.sched.current ∈ l.map Turn.thread := by
    rw [h.threads]
    refine mem_walk.mpr ⟨s.sched.threads.length, Nat.zero_lt_of_lt hcurrent, by omega, ?_⟩
    rw [Nat.add_mod_right, Nat.mod_eq_of_lt hcurrent]
  obtain ⟨u, hu, hthread⟩ := List.mem_map.mp hturn
  exact hnot u hu hthread

theorem inv_of_run {s t : State F} {l : List (Action F)} (h : Inv s)
    (hrun : run step s l = some t) : Inv t := by
  have hreach : Reachable step s t := Reach.init.run hrun
  exact hreach.invariant h fun _ _ _ hinv _ hs => hinv.step hs

/-- The thread that runs at the end of a run was not found finished in it. -/
theorem unfinished_of_running {s t : State F} {l : List (Action F)} (h : Inv s)
    (hspawn : ∀ a ∈ l, ∀ f, a ≠ .spawn f) (hrun : run step s l = some t) {u : Turn}
    (hu : u ∈ turns s l) (hthread : u.thread = t.sched.current) : u.finished = false := by
  apply Bool.eq_false_iff.mpr
  intro hfin
  have hinv := inv_of_run h hrun
  have hstate := finished_of_turn h hspawn hrun hu hfin
  rw [hthread] at hstate
  obtain ⟨t₀, ht₀, hfinished⟩ := (Scheduler.stateIs_iff _ _ _).mp hstate
  rw [hinv.running t₀ ht₀] at hfinished
  cases hfinished

/-- An action that dispatches a thread gives it the processor. -/
theorem current_of_dispatched {s t : State F} {c : ℕ} (h : dispatched s t = [c]) :
    t.sched.current = c ∧ t.sched.current ≠ s.sched.current := by
  unfold dispatched at h
  split at h
  · cases h
  · exact ⟨(List.cons.inj h).1, ‹_›⟩

/-- Where the current thread changes, a turn is made. -/
theorem Walked.pos {s t : State F} {m : ℕ} {l : List Turn} {d : List ℕ} (h : Walked s t m l d)
    (hcurrent : s.sched.current < s.sched.threads.length)
    (hmoved : t.sched.current ≠ s.sched.current) : 0 < m := by
  by_contra hzero
  have harrived := h.arrived
  have hm : m = 0 := by omega
  rw [hm, Nat.add_zero, Nat.mod_eq_of_lt hcurrent] at harrived
  exact hmoved harrived

/-- From one dispatch of a thread to its next, the turns make one round. -/
theorem round_between {s t : State F} {l : List (Action F)} {a : Action F} (h : Inv s)
    (hspawn : ∀ b ∈ l ++ [a], ∀ f, b ≠ .spawn f) (hrun : run step s (l ++ [a]) = some t)
    (hnot : s.sched.current ∉ dispatches s l)
    (hlast : dispatches s (l ++ [a]) = dispatches s l ++ [s.sched.current]) :
    Walked s t s.sched.threads.length (turns s (l ++ [a])) (dispatches s (l ++ [a])) := by
  have hparts := hrun
  rw [run_append] at hparts
  obtain ⟨t₁, hbefore, hafter⟩ := Option.bind_eq_some_iff.mp hparts
  obtain ⟨t', hs, hnil⟩ := Option.bind_eq_some_iff.mp hafter
  cases hnil
  have hspawn' : ∀ b ∈ l, ∀ f, b ≠ .spawn f := fun b hb => hspawn b (List.mem_append_left _ hb)
  have hinv₁ := inv_of_run h hbefore
  obtain ⟨k, hwalked⟩ := run_walked h hspawn' hbefore
  obtain ⟨m, hstep⟩ := step_walked hinv₁ hs (hspawn a (by simp))
  have hturns := turns_concat hbefore hs
  have hdispatches := dispatches_concat hbefore hs
  -- The last action gives the processor back to the thread.
  obtain ⟨hback, hmoved⟩ := current_of_dispatched
    (List.append_cancel_left (hdispatches.symm.trans hlast))
  have hpos := hstep.toWalked.pos hinv₁.current_lt hmoved
  -- A turn of the thread would be a dispatch: the thread has not finished, as it runs again.
  have hshort : k < s.sched.threads.length := by
    refine hwalked.short h.current_lt ?_
    intro u hu hthread
    have hmem : u ∈ turns s (l ++ [a]) := hturns ▸ List.mem_append_left _ hu
    have hunfinished := unfinished_of_running h hspawn hrun hmem (hthread.trans hback.symm)
    apply hnot
    rw [hwalked.dispatched, ← hthread]
    refine List.mem_map_of_mem (List.mem_filter.mpr ⟨hu, ?_⟩)
    rw [hunfinished]
    rfl
  have hall := hwalked.trans hstep.toWalked
  have hlt := hstep.short
  rw [hwalked.length] at hlt
  have harrived := hall.arrived
  rw [hback] at harrived
  have hround := round_of_return h.current_lt (by omega) (by omega) harrived.symm
  rw [hround] at hall
  rw [hturns, hdispatches]
  exact hall

/-- In one round every thread has one turn, and is dispatched there if not finished. -/
theorem Walked.round {s t : State F} {l : List Turn} {d : List ℕ}
    (h : Walked s t s.sched.threads.length l d)
    (hcurrent : s.sched.current < s.sched.threads.length) {j : ℕ}
    (hj : j < s.sched.threads.length) :
    ∃ u, l.filter (fun v => v.thread = j) = [u] ∧ d.count j = if u.finished then 0 else 1 := by
  have hone : (l.map Turn.thread).count j = 1 := by
    rw [h.threads]
    exact List.count_eq_one_of_mem (nodup_walk hcurrent (Nat.le_refl _))
      (mem_walk_round hcurrent hj)
  rw [List.count_eq_countP, List.countP_map, List.countP_eq_length_filter] at hone
  obtain ⟨u, hu⟩ := List.length_eq_one_iff.mp hone
  refine ⟨u, hu, ?_⟩
  have hcount : d.count j = (l.filter fun v => v.thread = j).countP fun v => !v.finished := by
    rw [h.dispatched, unfinished, List.count_eq_countP, List.countP_map, List.countP_filter,
      List.countP_filter]
    apply List.countP_congr
    intro v _
    simp [and_comm]
  have hu' : l.filter (fun v => v.thread = j) = [u] := hu
  rw [hcount, hu']
  cases hfin : u.finished <;> simp [hfin]

/-- Every action is taken inside a call of `run`. -/
def Inside (s : State F) (l : List (Action F)) : Prop :=
  Admitted step (fun s _ => s.pc ≠ .outside) s l

theorem Inside.no_spawn {s t : State F} {l : List (Action F)} (hin : Inside s l)
    (hrun : run step s l = some t) : ∀ a ∈ l, ∀ f, a ≠ .spawn f := by
  induction l generalizing s with
  | nil => exact fun a ha => absurd ha List.not_mem_nil
  | cons a rest ih =>
    obtain ⟨s', hs, hrest⟩ := Option.bind_eq_some_iff.mp hrun
    obtain ⟨hinside, hin'⟩ := hin
    intro b hb f
    rcases List.mem_cons.mp hb with rfl | hb
    · rintro rfl
      simp only [step] at hs
      cases hs
    · exact ih (hin' s' hs) hrest b hb f

/-- Along every run of the scheduler the turns follow the ring, the threads dispatched are
those not finished at their turn, between two dispatches of a thread every other one has one
turn, and main never gets back from `schedule_next` without a dispatch. -/
theorem round_robin_fair {s t : State F} (h : Reachable step initial s) {l : List (Action F)}
    (hin : Inside s l) (hrun : run step s l = some t) :
    (∃ k, (turns s l).map Turn.thread = walk s.sched.threads.length s.sched.current k) ∧
    dispatches s l = unfinished (turns s l) ∧
    (∀ l₁ a i, l = l₁ ++ [a] → s.sched.current = i → i ∉ dispatches s l₁ →
      dispatches s l = dispatches s l₁ ++ [i] → ∀ j, j < s.sched.threads.length → j ≠ i →
        ∃ u, (turns s l).filter (fun v => v.thread = j) = [u] ∧
          (dispatches s l).count j = if u.finished then 0 else 1) ∧
    (t.pc = .runLoop → t.sched.allFinished = false →
      ∃ t', step t .proceed = some t' ∧ t'.sched.current ≠ t.sched.current) := by
  have hinv := reachable_inv h
  have hspawn := hin.no_spawn hrun
  obtain ⟨k, hwalked⟩ := run_walked hinv hspawn hrun
  refine ⟨⟨k, hwalked.threads⟩, hwalked.dispatched, ?_, ?_⟩
  · rintro l₁ a i rfl rfl hnot hlast j hj -
    exact (round_between hinv hspawn hrun hnot hlast).round hinv.current_lt hj
  · intro hpc hleft
    have hinv' := reachable_inv (h.run hrun)
    have hleft' : ¬ t.sched.allFinished = true := Bool.eq_false_iff.mp hleft
    obtain ⟨next, t', hs, hswitch⟩ := hinv'.dispatch hpc hleft'
    refine ⟨t', hs, ?_⟩
    rw [hswitch.current]
    exact hswitch.ne_current

/-- Thread 1 has the processor, yields, and gets it back after thread 2 and main. -/
theorem round_robin_fair_two_threads :
    ∃ s : State ℕ, run step initial [.spawn 7, .spawn 8, .run, .proceed] = some s ∧
      s.sched.current = 1 ∧
      dispatches s [.proceed, .yieldNow, .proceed, .finish, .proceed] = [2, 0, 1] ∧
      ∀ j, j < 3 → j ≠ 1 → ∃ u,
        (turns s [.proceed, .yieldNow, .proceed, .finish, .proceed]).filter
          (fun v => v.thread = j) = [u] ∧
        (dispatches s [.proceed, .yieldNow, .proceed, .finish, .proceed]).count j =
          if u.finished then 0 else 1 := by
  obtain ⟨s, t, hstart, hrun, hin, hcurrent, hlen, hbefore, hall⟩ : ∃ s t : State ℕ,
      run step initial [.spawn 7, .spawn 8, .run, .proceed] = some s ∧
      run step s [.proceed, .yieldNow, .proceed, .finish, .proceed] = some t ∧
      Inside s [.proceed, .yieldNow, .proceed, .finish, .proceed] ∧
      s.sched.current = 1 ∧ s.sched.threads.length = 3 ∧
      dispatches s [.proceed, .yieldNow, .proceed, .finish] = [2, 0] ∧
      dispatches s [.proceed, .yieldNow, .proceed, .finish, .proceed] = [2, 0, 1] :=
    ⟨_, _, rfl, rfl, by unfold Inside; decide, rfl, rfl, by decide, by decide⟩
  have hfair := round_robin_fair (Reach.init.run hstart) hin hrun
  refine ⟨s, hstart, hcurrent, hall, fun j hj hne => ?_⟩
  have hround := hfair.2.2.1 [.proceed, .yieldNow, .proceed, .finish] .proceed 1 rfl hcurrent
  apply hround _ _ j (hlen ▸ hj) hne
  · rw [hbefore]
    simp
  · rw [hall, hbefore]
    rfl

end OsCamp.GreenThreadFairness
