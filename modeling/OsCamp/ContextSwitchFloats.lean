import OsCamp.ContextSwitchRuns

/-!
The floating-point half of the calling convention. Under lp64d, the convention of
`riscv64gc-unknown-linux-gnu`, `fs0` to `fs11` are callee-saved like `sp` and `s0` to
`s11`. `switch_context` neither stores nor loads them, so a task is resumed with what the
task before it left there.
-/

set_option autoImplicit false

namespace OsCamp.ContextSwitchFloats

open RiscV ContextSwitch ContextSwitchRuns Execution

def fs0 : Fin 32 := ⟨8, by omega⟩
def fs1 : Fin 32 := ⟨9, by omega⟩
def fs2 : Fin 32 := ⟨18, by omega⟩
def fs3 : Fin 32 := ⟨19, by omega⟩
def fs4 : Fin 32 := ⟨20, by omega⟩
def fs5 : Fin 32 := ⟨21, by omega⟩
def fs6 : Fin 32 := ⟨22, by omega⟩
def fs7 : Fin 32 := ⟨23, by omega⟩
def fs8 : Fin 32 := ⟨24, by omega⟩
def fs9 : Fin 32 := ⟨25, by omega⟩
def fs10 : Fin 32 := ⟨26, by omega⟩
def fs11 : Fin 32 := ⟨27, by omega⟩

/-- The integer registers that a callee keeps under lp64d. -/
def lp64dInteger : List Reg := [sp, s0, s1, s2, s3, s4, s5, s6, s7, s8, s9, s10, s11]

/-- The floating-point registers that a callee keeps under lp64d. -/
def lp64dFloat : List (Fin 32) :=
  [fs0, fs1, fs2, fs3, fs4, fs5, fs6, fs7, fs8, fs9, fs10, fs11]

/-- Both machines have the same values in all callee-saved registers. -/
def SameCalleeSaved (m m' : Machine) : Prop :=
  (∀ r ∈ lp64dInteger, m'.x r = m.x r) ∧ ∀ r ∈ lp64dFloat, m'.f r = m.f r

variable {n : ℕ}

/-- A step that resumes a task gives it back the registers of its last call. -/
def ResumesIntact (crate : Crate) (C : Contexts n) (s : State n) : Action n → Prop
  | .compute _ => True
  | .switch new => ∀ s', step crate C s (.switch new) = some s' →
      ∀ m', s.lastCall new = some m' → SameCalleeSaved m' s'.machine

/-- A task that switches to one that has called before leaves the floating-point
registers as they were at that call. -/
def FloatsPutBack (s : State n) : Action n → Prop
  | .compute _ => True
  | .switch new => new ≠ s.current →
      ∀ m', s.lastCall new = some m' → ∀ r ∈ lp64dFloat, s.machine.f r = m'.f r

variable {crate : Crate} {C : Contexts n} {m : Machine} {s s' : State n}

theorem integer_of_calleeSaved {m m' : Machine} (h : calleeSaved m' = calleeSaved m) :
    ∀ r ∈ lp64dInteger, m'.x r = m.x r := by
  have hfields := congrArg TaskContext.fields h
  rw [fields_calleeSaved, fields_calleeSaved] at hfields
  have hsaved := List.map_inj_left.mp hfields
  have hsub : ∀ r ∈ lp64dInteger, r ∈ savedRegs := by decide
  intro r hr
  exact hsaved r (hsub r hr)

/-- No instruction of `switch_context` touches a floating-point register. -/
theorem switch_floats {new : Fin n} (hs : step crate C s (.switch new) = some s') :
    s'.machine.f = s.machine.f := by
  obtain ⟨hne, hres⟩ := Option.ite_none_right_eq_some.mp hs
  cases hres
  exact (switches_called crate hne).float_regs

theorem resumesIntact_iff {first : Fin n} (h : Reachable (step crate C) (initial m first) s)
    (a : Action n) : ResumesIntact crate C s a ↔ FloatsPutBack s a := by
  cases a with
  | compute m' => exact Iff.rfl
  | switch new =>
    constructor
    · intro hintact hne m' hcall r hr
      obtain ⟨s', hs, -, -⟩ := step_switch crate C s hne
      rw [← switch_floats hs]
      exact (hintact s' hs m' hcall).2 r hr
    · intro hback s' hs m' hcall
      have hne : new ≠ s.current := (Option.ite_none_right_eq_some.mp hs).1
      constructor
      · exact integer_of_calleeSaved ((switch_resumes h hs).1 m' hcall)
      · intro r hr
        rw [switch_floats hs]
        exact hback hne m' hcall r hr

/-- Along a run, every task is resumed with its callee-saved registers exactly where each
switch to a task that has called before finds the floating-point ones put back. -/
theorem calleeSaved_kept_iff (crate : Crate) (C : Contexts n) (m : Machine) (first : Fin n)
    (l : List (Action n)) :
    Admitted (step crate C) (ResumesIntact crate C) (initial m first) l ↔
      Admitted (step crate C) FloatsPutBack (initial m first) l :=
  admitted_congr (fun _ a h => resumesIntact_iff h a) Reach.init l

/-- A step that leaves the floating-point registers alone. -/
def KeepsFloats (s : State n) : Action n → Prop
  | .compute m' => ∀ r ∈ lp64dFloat, m'.f r = s.machine.f r
  | .switch _ => True

/-- The floating-point registers are those of every task's last call. -/
def FloatsUnchanged (s : State n) : Prop :=
  ∀ t m', s.lastCall t = some m' → ∀ r ∈ lp64dFloat, s.machine.f r = m'.f r

theorem FloatsUnchanged.compute (h : FloatsUnchanged s) {m' : Machine}
    (hkeep : ∀ r ∈ lp64dFloat, m'.f r = s.machine.f r) :
    FloatsUnchanged { s with machine := m' } := by
  intro t m₀ hcall r hr
  exact (hkeep r hr).trans (h t m₀ hcall r hr)

theorem FloatsUnchanged.switch (h : FloatsUnchanged s) {new : Fin n}
    (hs : step crate C s (.switch new) = some s') : FloatsUnchanged s' := by
  have hfloats := switch_floats hs
  obtain ⟨-, hres⟩ := Option.ite_none_right_eq_some.mp hs
  intro t m₀ hcall r hr
  rw [hfloats]
  by_cases ht : t = s.current
  · have hcaller : s'.lastCall t = some s.machine := by
      rw [← Option.some.inj hres, ht]
      exact Function.update_self _ _ _
    rw [Option.some.inj (hcall.symm.trans hcaller)]
  · have hother : s'.lastCall t = s.lastCall t := by
      rw [← Option.some.inj hres]
      exact Function.update_of_ne ht _ _
    exact h t m₀ (hother.symm.trans hcall) r hr

/-- Tasks that compute with integers only are resumed with all their callee-saved
registers. -/
theorem resumesIntact_of_keepsFloats (crate : Crate) (C : Contexts n) (m : Machine)
    (first : Fin n) (l : List (Action n))
    (h : Admitted (step crate C) KeepsFloats (initial m first) l) :
    Admitted (step crate C) (ResumesIntact crate C) (initial m first) l := by
  apply (admitted_congr (fun _ a hreach => resumesIntact_iff hreach a) Reach.init l).mpr
  have hinit : FloatsUnchanged (initial m first) := fun _ _ hcall => nomatch hcall
  refine h.imp ?_ ?_ hinit
  · intro s a s' hinv hok hs
    cases a with
    | compute m' =>
      obtain ⟨-, hres⟩ := Option.ite_none_right_eq_some.mp hs
      cases hres
      exact hinv.compute hok
    | switch new => exact hinv.switch hs
  · intro s a hinv hok
    cases a with
    | compute m' => trivial
    | switch new => exact fun _ m' hcall => hinv new m' hcall

/-- Task 0 switches to task 1, which sets a floating-point register and switches back:
task 0 finds the value of task 1. -/
theorem float_lost_there_and_back :
    ∃ s s' : State 2, Reachable (step .stackCoroutine twoContexts) (initial numbered 0) s ∧
      step .stackCoroutine twoContexts s (.switch 0) = some s' ∧
      s.lastCall 0 = some numbered ∧ numbered.f fs0 = 8 ∧ s'.machine.f fs0 = 7 ∧
      ¬ SameCalleeSaved numbered s'.machine := by
  obtain ⟨s₁, hthere, hcurrent, hcall⟩ := step_switch .stackCoroutine twoContexts
    (initial numbered 0) (show (1 : Fin 2) ≠ 0 by decide)
  obtain ⟨s₂, hs₂⟩ : ∃ s₂, s₂ = { s₁ with machine := { s₁.machine with f := fun _ => 7 } } :=
    ⟨_, rfl⟩
  have hcompute : step .stackCoroutine twoContexts s₁ (.compute s₂.machine) = some s₂ := by
    rw [hs₂]
    exact if_pos fun _ _ _ _ => rfl
  have hreach : Reachable (step .stackCoroutine twoContexts) (initial numbered 0) s₂ :=
    Reach.step _ (Reach.step _ Reach.init trivial hthere) trivial hcompute
  have hne : (0 : Fin 2) ≠ s₂.current := by
    rw [hs₂, hcurrent]
    decide
  have hcall₀ : s₂.lastCall 0 = some numbered := by
    rw [hs₂, hcall]
    exact Function.update_self _ _ _
  have hset : s₂.machine.f fs0 = 7 := by rw [hs₂]
  obtain ⟨s', hback, -, -⟩ := step_switch .stackCoroutine twoContexts s₂ hne
  have hfound : s'.machine.f fs0 = 7 := by
    rw [switch_floats hback]
    exact hset
  refine ⟨s₂, s', hreach, hback, hcall₀, rfl, hfound, fun hsame => ?_⟩
  have hkept : s'.machine.f fs0 = 8 := hsame.2 fs0 (List.mem_cons_self ..)
  rw [hfound] at hkept
  exact absurd hkept (by decide)

end OsCamp.ContextSwitchFloats
