import OsCamp.OnceCellWindow

/-!
The once-cell over whole runs. The value is stored by winning calls of `init` only, so
it is stored at most once. As soon as a call of `init` has returned and no winner is
still before its store, the cell is settled: the winner, its value and the answer of
every `get` stay the same from then on.
-/

set_option autoImplicit false

namespace OsCamp.OnceCellSettled

open Execution OnceCell OnceCellWindow

variable {T : Type*} [DecidableEq T] {s s' : State T}

/-- What each step does, by the atomic operation it takes. -/
inductive Op (s : State T) : Action T → State T → Prop
  | beginInit (t : T) (val : BitVec 32) :
      Op s (.beginInit t val) (s.goto t (.initExchange val))
  | beginGet (t : T) : Op s (.beginGet t) (s.goto t .getFlag)
  | win (t : T) (val : BitVec 32) (hpc : s.pc t = .initExchange val)
      (hflag : s.initialized = false) :
      Op s (.advance t) { s.goto t (.initStore val) with initialized := true }
  | lose (t : T) (val : BitVec 32) (hpc : s.pc t = .initExchange val)
      (hflag : s.initialized = true) : Op s (.advance t) (s.returnInit t val false)
  | store (t : T) (val : BitVec 32) (hpc : s.pc t = .initStore val) :
      Op s (.advance t) (s.initStore t val)
  | pass (t : T) (hpc : s.pc t = .getFlag) (hflag : s.initialized = true) :
      Op s (.advance t) (s.goto t .getValue)
  | miss (t : T) (hpc : s.pc t = .getFlag) (hflag : s.initialized = false) :
      Op s (.advance t) (s.returnGet t none)
  | load (t : T) (hpc : s.pc t = .getValue) : Op s (.advance t) (s.getValue t)

theorem step_op {a : Action T} (hs : step s a = some s') : Op s a s' := by
  cases a with
  | beginInit t val =>
    obtain ⟨-, hout⟩ := Option.ite_none_right_eq_some.mp hs
    cases hout
    exact Op.beginInit t val
  | beginGet t =>
    obtain ⟨-, hout⟩ := Option.ite_none_right_eq_some.mp hs
    cases hout
    exact Op.beginGet t
  | advance t =>
    have hadvance : s.advance t = some s' := hs
    unfold State.advance at hadvance
    cases hpc : s.pc t with
    | idle => simp [hpc] at hadvance
    | initExchange val =>
      simp only [hpc, Option.some.injEq] at hadvance
      subst s'
      unfold State.initExchange
      split_ifs with hflag
      · exact Op.win t val hpc hflag
      · exact Op.lose t val hpc (Bool.not_eq_false _ ▸ hflag)
    | initStore val =>
      simp only [hpc, Option.some.injEq] at hadvance
      subst s'
      exact Op.store t val hpc
    | getFlag =>
      simp only [hpc, Option.some.injEq] at hadvance
      subst s'
      unfold State.getFlag
      split_ifs with hflag
      · exact Op.pass t hpc hflag
      · exact Op.miss t hpc (Bool.not_eq_true _ ▸ hflag)
    | getValue =>
      simp only [hpc, Option.some.injEq] at hadvance
      subst s'
      exact Op.load t hpc

/-- The value that the action stores into the cell, if it is a store. -/
def stored (s : State T) : Action T → Option (BitVec 32)
  | .advance t =>
    match s.pc t with
    | .initStore val => some val
    | _ => none
  | _ => none

omit [DecidableEq T] in
theorem stored_eq_none {t : T} (h : ∀ val, s.pc t ≠ .initStore val) :
    stored s (.advance t) = none := by
  cases hpc : s.pc t with
  | initStore val => exact absurd hpc (h val)
  | _ => simp only [stored, hpc]

/-- The stores into the value cell along the actions, in order. -/
def valueStores (s : State T) : List (Action T) → List (BitVec 32)
  | [] => []
  | a :: rest => (stored s a).toList ++ ((step s a).elim [] fun s' => valueStores s' rest)

theorem valueStores_cons {a : Action T} (hs : step s a = some s') (rest : List (Action T)) :
    valueStores s (a :: rest) = (stored s a).toList ++ valueStores s' rest := by
  rw [valueStores, hs]
  rfl

/-- The value changes by a store only, and every store is that of a winner. -/
theorem stored_spec {a : Action T} (hs : step s a = some s') :
    (stored s a = none ∧ s'.value = s.value ∧ winners s' = winners s) ∨
    ∃ val, stored s a = some val ∧ s'.value = val ∧ winners s' = (val, true) :: winners s := by
  cases step_op hs with
  | beginInit => exact Or.inl ⟨rfl, rfl, rfl⟩
  | beginGet => exact Or.inl ⟨rfl, rfl, rfl⟩
  | win t val hpc => exact Or.inl ⟨stored_eq_none (by simp [hpc]), rfl, rfl⟩
  | lose t val hpc => exact Or.inl ⟨stored_eq_none (by simp [hpc]), rfl, rfl⟩
  | store t val hpc =>
    refine Or.inr ⟨val, ?_, rfl, rfl⟩
    simp only [stored, hpc]
  | pass t hpc => exact Or.inl ⟨stored_eq_none (by simp [hpc]), rfl, rfl⟩
  | miss t hpc => exact Or.inl ⟨stored_eq_none (by simp [hpc]), rfl, rfl⟩
  | load t hpc => exact Or.inl ⟨stored_eq_none (by simp [hpc]), rfl, rfl⟩

/-- Along a run each store into the cell adds one winner. -/
theorem length_winners {l : List (Action T)} (hrun : run step s l = some s') :
    (winners s').length = (valueStores s l).length + (winners s).length := by
  induction l generalizing s with
  | nil =>
    cases hrun
    exact (Nat.zero_add _).symm
  | cons a rest ih =>
    obtain ⟨t, hs, hrest⟩ := Option.bind_eq_some_iff.mp hrun
    rw [valueStores_cons hs, ih hrest, List.length_append]
    rcases stored_spec hs with ⟨hnone, -, hwin⟩ | ⟨val, hsome, -, hwin⟩
    · rw [hnone, hwin, Option.toList_none, List.length_nil]
      omega
    · rw [hsome, hwin, Option.toList_some, List.length_singleton, List.length_cons]
      omega

/-- No call of `init` returns before the flag is set. -/
theorem returned_flag {a : Action T} (h : s.inits ≠ [] → s.initialized = true)
    (hpublishing : ∀ t, Publishing (s.pc t) → s.initialized = true) (hs : step s a = some s') :
    s'.inits ≠ [] → s'.initialized = true := by
  cases step_op hs with
  | beginInit => exact h
  | beginGet => exact h
  | win => exact fun _ => rfl
  | lose t val hpc hflag => exact fun _ => hflag
  | store t val hpc => exact fun _ => hpublishing t ⟨val, hpc⟩
  | pass => exact h
  | miss => exact h
  | load => exact h

omit [DecidableEq T] in
theorem flag_of_publishing {s : State T} (h : Phase s) {t : T}
    (ht : Publishing (s.pc t)) : s.initialized = true := by
  cases h with
  | fresh _ _ hnone => exact absurd ht (hnone t)
  | publishing _ _ hflag => exact hflag
  | published hflag => exact hflag

theorem reachable_returned_flag (h : Reachable step (State.new : State T) s) :
    Phase s ∧ (s.inits ≠ [] → s.initialized = true) := by
  refine h.invariant (I := fun s => Phase s ∧ (s.inits ≠ [] → s.initialized = true))
    ⟨Phase.new, fun hne => absurd rfl hne⟩ ?_
  intro s a s' ⟨hphase, hflag⟩ _ hs
  exact ⟨hphase.step hs, returned_flag hflag (fun t => flag_of_publishing hphase) hs⟩

/-- The call of `init` with value `w` has won and stored, and no other can win. -/
structure Settled (w : BitVec 32) (s : State T) : Prop where
  flag : s.initialized = true
  value : s.value = w
  stored : ∀ t, ¬ Publishing (s.pc t)
  winner : winners s = [(w, true)]

/-- The answers that `get` gave between the two states are all the winner's value. -/
def AnswersOnly (w : BitVec 32) (s s' : State T) : Prop :=
  ∃ new, s'.gets = new ++ s.gets ∧ ∀ r ∈ new, r = some w

omit [DecidableEq T] in
theorem AnswersOnly.same {w : BitVec 32} (h : s'.gets = s.gets) : AnswersOnly w s s' :=
  ⟨[], h, fun _ hr => absurd hr List.not_mem_nil⟩

omit [DecidableEq T] in
theorem AnswersOnly.trans {w : BitVec 32} {u : State T} (h : AnswersOnly w s s')
    (h' : AnswersOnly w s' u) : AnswersOnly w s u := by
  obtain ⟨new, hgets, hall⟩ := h
  obtain ⟨new', hgets', hall'⟩ := h'
  refine ⟨new' ++ new, by rw [hgets', hgets, List.append_assoc], fun r hr => ?_⟩
  rcases List.mem_append.mp hr with hr | hr
  · exact hall' r hr
  · exact hall r hr

theorem Settled.goto {w : BitVec 32} (h : Settled w s) {t : T} {pc : Pc}
    (hpc : ∀ val, pc ≠ .initStore val) : Settled w (s.goto t pc) :=
  ⟨h.flag, h.value, none_publishing_goto h.stored hpc, h.winner⟩

theorem Settled.step {w : BitVec 32} (h : Settled w s) {a : Action T} (hs : step s a = some s') :
    Settled w s' ∧ AnswersOnly w s s' := by
  have hidle : ∀ t, Settled w (s.goto t .idle) := fun t => h.goto (by simp)
  cases step_op hs with
  | beginInit t val => exact ⟨h.goto (by simp), .same rfl⟩
  | beginGet t => exact ⟨h.goto (by simp), .same rfl⟩
  | win t val hpc hflag =>
    rw [h.flag] at hflag
    cases hflag
  | lose t val hpc hflag => exact ⟨⟨h.flag, h.value, (hidle t).stored, h.winner⟩, .same rfl⟩
  | store t val hpc => exact absurd ⟨val, hpc⟩ (h.stored t)
  | pass t hpc hflag => exact ⟨h.goto (by simp), .same rfl⟩
  | miss t hpc hflag =>
    rw [h.flag] at hflag
    cases hflag
  | load t hpc =>
    refine ⟨⟨h.flag, h.value, (hidle t).stored, h.winner⟩, [some s.value], rfl, fun r hr => ?_⟩
    rw [List.mem_singleton.mp hr, h.value]

theorem Settled.run {w : BitVec 32} {l : List (Action T)} (h : Settled w s)
    (hrun : run OnceCell.step s l = some s') : Settled w s' ∧ AnswersOnly w s s' := by
  induction l generalizing s with
  | nil =>
    cases hrun
    exact ⟨h, .same rfl⟩
  | cons a rest ih =>
    obtain ⟨t, hs, hrest⟩ := Option.bind_eq_some_iff.mp hrun
    obtain ⟨hsettled, hfirst⟩ := h.step hs
    obtain ⟨hend, hlater⟩ := ih hsettled hrest
    exact ⟨hend, hfirst.trans hlater⟩

theorem settled_of_returned (h : Reachable OnceCell.step (State.new : State T) s)
    (hreturned : s.inits ≠ []) (hdone : ∀ t, ¬ Publishing (s.pc t)) : Settled s.value s := by
  obtain ⟨hphase, hflag⟩ := reachable_returned_flag h
  have hset := hflag hreturned
  cases hphase with
  | fresh hclear =>
    rw [hset] at hclear
    cases hclear
  | publishing t val _ _ hpc => exact absurd ⟨val, hpc⟩ (hdone t)
  | published _ _ hwin => exact ⟨hset, rfl, hdone, hwin⟩

end OsCamp.OnceCellSettled
