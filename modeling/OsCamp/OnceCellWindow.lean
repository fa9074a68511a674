import OsCamp.Execution
import OsCamp.OnceCell
import Mathlib.Data.Fintype.Basic

/-!
The flag of the once-cell is raised before the value is stored. The phases of a
cell (fresh, publishing, published) are kept by every step; only in the middle
one does a `get` load something else than a winner's value: the placeholder.
-/

set_option autoImplicit false

namespace OsCamp.OnceCellWindow

open Execution OnceCell

/-- The calls of `init` that returned true. -/
def winners {T : Type*} (s : State T) : List (BitVec 32 × Bool) := s.inits.filter Prod.snd

/-- Between its exchange and its store. -/
def Publishing (pc : Pc) : Prop := ∃ val, pc = .initStore val

inductive Phase {T : Type*} (s : State T) : Prop
  | fresh (hflag : s.initialized = false) (hvalue : s.value = 0)
      (hnone : ∀ t, ¬ Publishing (s.pc t)) (hget : ∀ t, s.pc t ≠ .getValue)
      (hwin : winners s = [])
  | publishing (t : T) (val : BitVec 32) (hflag : s.initialized = true) (hvalue : s.value = 0)
      (hpc : s.pc t = .initStore val) (hother : ∀ u, u ≠ t → ¬ Publishing (s.pc u))
      (hwin : winners s = [])
  | published (hflag : s.initialized = true) (hnone : ∀ t, ¬ Publishing (s.pc t))
      (hwin : winners s = [(s.value, true)])

/-- No `get` loads the value while an `init` is between its exchange and its store. -/
def ValueStored {T : Type*} (s : State T) (a : Action T) : Prop :=
  ∀ t, a = .advance t → s.pc t = .getValue → ∀ u, ¬ Publishing (s.pc u)

instance decidablePublishing : ∀ pc : Pc, Decidable (Publishing pc)
  | .idle => isFalse fun ⟨_, h⟩ => nomatch h
  | .initExchange _ => isFalse fun ⟨_, h⟩ => nomatch h
  | .initStore val => isTrue ⟨val, rfl⟩
  | .getFlag => isFalse fun ⟨_, h⟩ => nomatch h
  | .getValue => isFalse fun ⟨_, h⟩ => nomatch h

instance {T : Type*} [Fintype T] [DecidableEq T] (s : State T) (a : Action T) :
    Decidable (ValueStored s a) :=
  inferInstanceAs
    (Decidable (∀ t, a = .advance t → s.pc t = .getValue → ∀ u, ¬ Publishing (s.pc u)))

/-- At most one `init` returned true, and every `get` that returned `Some(x)` got
the value of an `init` that had returned true. -/
structure GetsWinner {T : Type*} (s : State T) : Prop where
  one_winner : (winners s).length ≤ 1
  from_winner : ∀ x, some x ∈ s.gets → (x, true) ∈ s.inits
  agree : ∀ x y, some x ∈ s.gets → some y ∈ s.gets → x = y

variable {T : Type*} {s s' : State T} {t : T}

theorem mem_winners_iff {x : BitVec 32} : (x, true) ∈ winners s ↔ (x, true) ∈ s.inits := by
  simp [winners]

theorem not_publishing_of_ne {pc : Pc} (h : ∀ val, pc ≠ .initStore val) : ¬ Publishing pc := by
  rintro ⟨val, hval⟩
  exact h val hval

theorem Phase.winners_le (h : Phase s) : (winners s).length ≤ 1 := by
  cases h with
  | fresh _ _ _ _ hwin =>
    rw [hwin]
    exact Nat.zero_le _
  | publishing _ _ _ _ _ _ hwin =>
    rw [hwin]
    exact Nat.zero_le _
  | published _ _ hwin =>
    rw [hwin]
    exact Nat.le_refl _

/-- The winner's value is unique. -/
theorem Phase.winner_eq (h : Phase s) {x y : BitVec 32} (hx : (x, true) ∈ s.inits)
    (hy : (y, true) ∈ s.inits) : x = y := by
  rw [← mem_winners_iff] at hx hy
  cases h with
  | fresh _ _ _ _ hwin => simp [hwin] at hx
  | publishing _ _ _ _ _ _ hwin => simp [hwin] at hx
  | published _ _ hwin =>
    rw [hwin, List.mem_singleton, Prod.mk.injEq] at hx hy
    rw [hx.1, hy.1]

theorem Phase.new : Phase (State.new : State T) :=
  Phase.fresh rfl rfl (fun _ => not_publishing_of_ne (by simp [State.new]))
    (by simp [State.new]) rfl

/-- A load outside the window returns the winner's value. -/
theorem Phase.value_wins (h : Phase s) (hpc : s.pc t = .getValue)
    (hnone : ∀ u, ¬ Publishing (s.pc u)) : (s.value, true) ∈ s.inits := by
  cases h with
  | fresh _ _ _ hget => exact absurd hpc (hget t)
  | publishing u val _ _ hpub => exact absurd ⟨val, hpub⟩ (hnone u)
  | published _ _ hwin =>
    rw [← mem_winners_iff, hwin]
    exact List.mem_singleton_self _

/-- While a winner publishes, no `init` has returned true yet. -/
theorem Phase.no_winner (h : Phase s) {u : T} (hu : Publishing (s.pc u)) (x : BitVec 32) :
    (x, true) ∉ s.inits := by
  rw [← mem_winners_iff]
  cases h with
  | fresh _ _ hnone => exact absurd hu (hnone u)
  | publishing _ _ _ _ _ _ hwin => simp [hwin]
  | published _ hnone => exact absurd hu (hnone u)

theorem GetsWinner.of_phase (hphase : Phase s)
    (hfrom : ∀ x, some x ∈ s.gets → (x, true) ∈ s.inits) : GetsWinner s where
  one_winner := hphase.winners_le
  from_winner := hfrom
  agree x y hx hy := hphase.winner_eq (hfrom x hx) (hfrom y hy)

variable [DecidableEq T]

theorem goto_pc (s : State T) (t u : T) (pc : Pc) :
    (s.goto t pc).pc u = if u = t then pc else s.pc u := by
  by_cases hu : u = t
  · subst u
    simp [State.goto]
  · simp [State.goto, hu]

theorem none_publishing_goto (hnone : ∀ u, ¬ Publishing (s.pc u)) {pc : Pc}
    (hpc : ∀ val, pc ≠ .initStore val) (u : T) : ¬ Publishing ((s.goto t pc).pc u) := by
  rw [goto_pc]
  split_ifs
  · exact not_publishing_of_ne hpc
  · exact hnone u

/-- A thread that is not publishing moves to a point that is not publishing either,
and the shared atomics and the winners stay. -/
theorem Phase.move (h : Phase s) {pc : Pc} (hold : ¬ Publishing (s.pc t))
    (hnew : ∀ val, pc ≠ .initStore val) (hget : s.initialized = false → pc ≠ .getValue)
    {inits : List (BitVec 32 × Bool)} (hinits : inits.filter Prod.snd = winners s)
    (gets : List (Option (BitVec 32))) :
    Phase { s.goto t pc with inits := inits, gets := gets } := by
  cases h with
  | fresh hflag hvalue hnone hnoGet hwin =>
    refine Phase.fresh hflag hvalue (none_publishing_goto hnone hnew) ?_ (hinits.trans hwin)
    intro u
    show (s.goto t pc).pc u ≠ .getValue
    rw [goto_pc]
    split_ifs
    · exact hget hflag
    · exact hnoGet u
  | publishing u val hflag hvalue hpc hother hwin =>
    have hut : u ≠ t := by
      rintro rfl
      exact hold ⟨val, hpc⟩
    refine Phase.publishing u val hflag hvalue ?_ ?_ (hinits.trans hwin)
    · show (s.goto t pc).pc u = .initStore val
      rw [goto_pc, if_neg hut]
      exact hpc
    · intro v hv
      show ¬ Publishing ((s.goto t pc).pc v)
      rw [goto_pc]
      split_ifs
      · exact not_publishing_of_ne hnew
      · exact hother v hv
  | published hflag hnone hwin =>
    exact Phase.published hflag (none_publishing_goto hnone hnew) (hinits.trans hwin)

/-- The winning exchange. -/
theorem Phase.win (h : Phase s) (hflag : s.initialized = false) (val : BitVec 32) :
    Phase { s.goto t (.initStore val) with initialized := true } := by
  cases h with
  | fresh _ hvalue hnone _ hwin =>
    refine Phase.publishing t val rfl hvalue ?_ ?_ hwin
    · show (s.goto t (.initStore val)).pc t = .initStore val
      rw [goto_pc, if_pos rfl]
    · intro u hu
      show ¬ Publishing ((s.goto t (.initStore val)).pc u)
      rw [goto_pc, if_neg hu]
      exact hnone u
  | publishing _ _ hset =>
    rw [hset] at hflag
    cases hflag
  | published hset =>
    rw [hset] at hflag
    cases hflag

/-- The store of the winner. -/
theorem Phase.store (h : Phase s) {val : BitVec 32} (hpc : s.pc t = .initStore val) :
    Phase (s.initStore t val) := by
  cases h with
  | fresh _ _ hnone => exact absurd ⟨val, hpc⟩ (hnone t)
  | publishing u _ hflag _ _ hother hwin =>
    refine Phase.published hflag ?_ ?_
    · intro v
      show ¬ Publishing ((s.goto t .idle).pc v)
      rw [goto_pc]
      split_ifs with hv
      · exact not_publishing_of_ne (by simp)
      · apply hother v
        rintro rfl
        have htv : t = v := by
          by_contra hne
          exact hother t hne ⟨val, hpc⟩
        exact hv htv.symm
    · show ((val, true) :: s.inits).filter Prod.snd = [(val, true)]
      rw [List.filter_cons_of_pos rfl]
      exact congrArg _ hwin
  | published _ hnone => exact absurd ⟨val, hpc⟩ (hnone t)

/-- What a step can do: move on without touching the atomics, win, store, or load the value. -/
inductive Effect (s : State T) : Action T → State T → Prop
  | move (a : Action T) (t : T) (pc : Pc) (hold : ¬ Publishing (s.pc t))
      (ha : ∀ u, a = .advance u → s.pc u ≠ .getValue)
      (hnew : ∀ val, pc ≠ .initStore val) (hget : s.initialized = false → pc ≠ .getValue)
      (inits : List (BitVec 32 × Bool)) (hsub : s.inits ⊆ inits)
      (hinits : inits.filter Prod.snd = winners s)
      (gets : List (Option (BitVec 32))) (hgets : ∀ x, some x ∈ gets → some x ∈ s.gets) :
      Effect s a { s.goto t pc with inits := inits, gets := gets }
  | win (t : T) (val : BitVec 32) (hpc : s.pc t = .initExchange val)
      (hflag : s.initialized = false) :
      Effect s (.advance t) { s.goto t (.initStore val) with initialized := true }
  | store (t : T) (val : BitVec 32) (hpc : s.pc t = .initStore val) :
      Effect s (.advance t) (s.initStore t val)
  | load (t : T) (hpc : s.pc t = .getValue) : Effect s (.advance t) (s.getValue t)

theorem advance_effect (h : s.advance t = some s') : Effect s (.advance t) s' := by
  unfold State.advance at h
  cases hpc : s.pc t with
  | idle => simp [hpc] at h
  | initExchange val =>
    simp only [hpc, Option.some.injEq] at h
    subst s'
    unfold State.initExchange
    split_ifs with hflag
    · exact Effect.win t val hpc hflag
    · refine Effect.move _ t .idle (not_publishing_of_ne (by simp [hpc])) (by simp [hpc]) (by simp)
        (by simp) ((val, false) :: s.inits) (List.subset_cons_self _ _) rfl s.gets (fun _ hx => hx)
  | initStore val =>
    simp only [hpc, Option.some.injEq] at h
    subst s'
    exact Effect.store t val hpc
  | getFlag =>
    simp only [hpc, Option.some.injEq] at h
    subst s'
    unfold State.getFlag
    split_ifs with hflag
    · exact Effect.move _ t .getValue (not_publishing_of_ne (by simp [hpc])) (by simp [hpc])
        (by simp) (by simp [hflag]) s.inits (List.Subset.refl _) rfl s.gets (fun _ hx => hx)
    · refine Effect.move _ t .idle (not_publishing_of_ne (by simp [hpc])) (by simp [hpc]) (by simp)
        (by simp) s.inits (List.Subset.refl _) rfl (none :: s.gets) ?_
      intro x hx
      simpa using hx
  | getValue =>
    simp only [hpc, Option.some.injEq] at h
    subst s'
    exact Effect.load t hpc

theorem step_cases {a : Action T} (h : step s a = some s') : Effect s a s' := by
  cases a with
  | beginInit t val =>
    obtain ⟨hpc, hout⟩ := Option.ite_none_right_eq_some.mp h
    cases hout
    exact Effect.move _ t (.initExchange val) (not_publishing_of_ne (by simp [hpc])) (by simp)
      (by simp) (by simp) s.inits (List.Subset.refl _) rfl s.gets (fun _ hx => hx)
  | beginGet t =>
    obtain ⟨hpc, hout⟩ := Option.ite_none_right_eq_some.mp h
    cases hout
    exact Effect.move _ t .getFlag (not_publishing_of_ne (by simp [hpc])) (by simp)
      (by simp) (by simp) s.inits (List.Subset.refl _) rfl s.gets (fun _ hx => hx)
  | advance t => exact advance_effect h

theorem Phase.step (h : Phase s) {a : Action T} (hs : step s a = some s') : Phase s' := by
  cases step_cases hs with
  | move _ t pc hold _ hnew hget inits _ hinits gets _ => exact h.move hold hnew hget hinits gets
  | win t val _ hflag => exact h.win hflag val
  | store t val hpc => exact h.store hpc
  | load t hpc =>
    exact h.move (not_publishing_of_ne (by simp [hpc])) (by simp) (by simp) rfl _

/-- One step keeps the property exactly where it does not load in the window. -/
theorem getsWinner_step_iff (hphase : Phase s) (h : GetsWinner s) {a : Action T}
    (hs : step s a = some s') : GetsWinner s' ↔ ValueStored s a := by
  have hphase' := hphase.step hs
  cases step_cases hs with
  | move _ t pc _ ha _ _ inits hsub _ gets hgets =>
    constructor
    · intro _ u hadvance hpc
      exact absurd hpc (ha u hadvance)
    · intro _
      apply GetsWinner.of_phase hphase'
      intro x hx
      exact hsub (h.from_winner x (hgets x hx))
  | win t val hpc _ =>
    constructor
    · intro _ u hadvance hget
      cases hadvance
      simp [hpc] at hget
    · intro _
      exact GetsWinner.of_phase hphase' h.from_winner
  | store t val hpc =>
    constructor
    · intro _ u hadvance hget
      cases hadvance
      simp [hpc] at hget
    · intro _
      apply GetsWinner.of_phase hphase'
      intro x hx
      exact List.mem_cons_of_mem _ (h.from_winner x hx)
  | load t hpc =>
    constructor
    · -- a load in the window returns before any `init` has returned true
      intro hwins v hadvance _ u hu
      have hmem : (s.value, true) ∈ s.inits := hwins.from_winner s.value List.mem_cons_self
      exact hphase.no_winner hu s.value hmem
    · intro hstored
      have hmem := hphase.value_wins hpc (hstored t rfl hpc)
      apply GetsWinner.of_phase hphase'
      intro x hx
      have hcases : some x = some s.value ∨ some x ∈ s.gets := List.mem_cons.mp hx
      rcases hcases with heq | hold
      · cases heq
        exact hmem
      · exact h.from_winner x hold

theorem phase_reach {ok : State T → Action T → Prop} (h : Reach step ok State.new s) : Phase s :=
  Reach.invariant Phase.new (fun _ _ _ hi _ hs => hi.step hs) h

/-- In every run without a load in the window, each `get` that returned `Some` got
the one winner's value; a load in the window breaks this at once. -/
theorem get_returns_winner (h : Reach step ValueStored (State.new : State T) s) :
    GetsWinner s ∧ ∀ a s', step s a = some s' → (GetsWinner s' ↔ ValueStored s a) := by
  have hnew : GetsWinner (State.new : State T) :=
    GetsWinner.of_phase Phase.new fun _ hx => nomatch hx
  have hwins : GetsWinner s := by
    refine (Reach.invariant (I := fun s => Phase s ∧ GetsWinner s) ⟨Phase.new, hnew⟩ ?_ h).2
    intro s a s' hi hok hs
    exact ⟨hi.1.step hs, (getsWinner_step_iff hi.1 hi.2 hs).mpr hok⟩
  exact ⟨hwins, fun a s' hs => getsWinner_step_iff (phase_reach h) hwins hs⟩

theorem get_returns_winner_after_store :
    let actions : List (Action (Fin 2)) := [.beginInit 0 7, .beginInit 1 9, .advance 0, .advance 1,
      .advance 0, .beginGet 1, .advance 1, .advance 1]
    ∃ s, run step State.new actions = some s ∧ s.gets = [some 7] ∧ GetsWinner s := by
  intro actions
  have hend : (run step (State.new : State (Fin 2)) actions).map State.gets = some [some 7] := by
    decide
  have hok : Admitted step ValueStored (State.new : State (Fin 2)) actions := by decide
  obtain ⟨s, hrun, hgets⟩ := Option.map_eq_some_iff.mp hend
  exact ⟨s, hrun, hgets, (get_returns_winner (Reach.init.run_of_admitted hok hrun)).1⟩

/-- The reader passes the flag and loads the value before the winner has stored it. -/
theorem get_observes_placeholder :
    let actions : List (Action (Fin 2)) := [.beginInit 0 7, .advance 0, .beginGet 1, .advance 1,
      .advance 1, .advance 0, .beginGet 1, .advance 1, .advance 1]
    ∃ s, run step State.new actions = some s ∧ s.inits = [(7, true)] ∧
      s.gets = [some 7, some 0] ∧ ¬ GetsWinner s := by
  intro actions
  have hend : (run step (State.new : State (Fin 2)) actions).map (fun s => (s.inits, s.gets)) =
      some ([(7, true)], [some 7, some 0]) := by decide
  obtain ⟨s, hrun, hs⟩ := Option.map_eq_some_iff.mp hend
  obtain ⟨hinits, hgets⟩ := Prod.mk.inj hs
  refine ⟨s, hrun, hinits, hgets, ?_⟩
  intro h
  have hagree := h.agree 7 0 (by simp [hgets]) (by simp [hgets])
  simp at hagree

end OsCamp.OnceCellWindow
