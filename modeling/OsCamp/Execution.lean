import Mathlib.Data.List.Basic

/-!
Runs of a machine given by a partial step function: an action that is not
enabled has no successor. Interleavings are runs whose actions name the party
that moves. `Reach ok` restricts the runs to steps that meet a condition on
the state before them; the unrestricted case is `Reachable`.
-/

set_option autoImplicit false

namespace OsCamp.Execution

variable {S A : Type*}

/-- Take the listed actions in order. -/
def run (step : S → A → Option S) : S → List A → Option S
  | s, [] => some s
  | s, a :: rest => (step s a).bind fun s' => run step s' rest

inductive Reach (step : S → A → Option S) (ok : S → A → Prop) (init : S) : S → Prop
  | init : Reach step ok init init
  | step {s s' : S} (a : A) : Reach step ok init s → ok s a → step s a = some s' →
      Reach step ok init s'

abbrev Reachable (step : S → A → Option S) (init : S) : S → Prop :=
  Reach step (fun _ _ => True) init

variable {step : S → A → Option S} {ok : S → A → Prop} {init : S}

/-- What holds initially and is kept by every admitted step holds along every run. -/
theorem Reach.invariant {I : S → Prop} (hinit : I init)
    (hstep : ∀ s a s', I s → ok s a → step s a = some s' → I s') {s : S}
    (h : Reach step ok init s) : I s := by
  induction h with
  | init => exact hinit
  | step a _ hok hs ih => exact hstep _ a _ ih hok hs

/-- A condition may be replaced by one that it implies in the states met on the way. -/
theorem Reach.weaken {ok' : S → A → Prop} {I : S → Prop} (hinit : I init)
    (hstep : ∀ s a s', I s → ok' s a → step s a = some s' → I s')
    (himp : ∀ s a, I s → ok s a → ok' s a) {s : S} (h : Reach step ok init s) :
    Reach step ok' init s := by
  induction h with
  | init => exact Reach.init
  | step a _ hok hs ih => exact Reach.step a ih (himp _ a (ih.invariant hinit hstep) hok) hs

theorem run_append (s : S) (l l' : List A) :
    run step s (l ++ l') = (run step s l).bind fun s' => run step s' l' := by
  induction l generalizing s with
  | nil => rfl
  | cons a rest ih =>
    simp only [List.cons_append, run]
    cases step s a with
    | none => rfl
    | some s' => exact ih s'

/-- A run whose actions meet the condition in every state is an admitted run. -/
theorem Reach.run_of_forall {s s' : S} (h : Reach step ok init s) {l : List A}
    (hok : ∀ a ∈ l, ∀ s, ok s a) (hrun : Execution.run step s l = some s') :
    Reach step ok init s' := by
  induction l generalizing s with
  | nil =>
    cases hrun
    exact h
  | cons a rest ih =>
    obtain ⟨t, hs, hrest⟩ := Option.bind_eq_some_iff.mp hrun
    exact ih (Reach.step a h (hok a (List.mem_cons_self ..) s) hs)
      (fun b hb => hok b (List.mem_cons_of_mem _ hb)) hrest

/-- Every action of the list meets the condition where it is taken. -/
def Admitted (step : S → A → Option S) (ok : S → A → Prop) : S → List A → Prop
  | _, [] => True
  | s, a :: rest => ok s a ∧ ∀ s' ∈ step s a, Admitted step ok s' rest

instance decidableAdmitted [∀ s a, Decidable (ok s a)] :
    ∀ (s : S) (l : List A), Decidable (Admitted step ok s l)
  | _, [] => isTrue trivial
  | s, a :: rest =>
    have := fun s' => decidableAdmitted s' rest
    inferInstanceAs (Decidable (ok s a ∧ ∀ s' ∈ step s a, Admitted step ok s' rest))

theorem Reach.run_of_admitted {s s' : S} (h : Reach step ok init s) {l : List A}
    (hok : Admitted step ok s l) (hrun : Execution.run step s l = some s') :
    Reach step ok init s' := by
  induction l generalizing s with
  | nil =>
    cases hrun
    exact h
  | cons a rest ih =>
    obtain ⟨t, hs, hrest⟩ := Option.bind_eq_some_iff.mp hrun
    obtain ⟨hhead, htail⟩ := hok
    exact ih (Reach.step a h hhead hs) (htail t hs) hrest

/-- A condition may be replaced by one that it implies in the states met on the way. -/
theorem Admitted.imp {ok' : S → A → Prop} {I : S → Prop}
    (hstep : ∀ s a s', I s → ok s a → step s a = some s' → I s')
    (himp : ∀ s a, I s → ok s a → ok' s a) {s : S} (hs : I s) {l : List A}
    (h : Admitted step ok s l) : Admitted step ok' s l := by
  induction l generalizing s with
  | nil => trivial
  | cons a rest ih =>
    obtain ⟨hok, hrest⟩ := h
    exact ⟨himp s a hs hok, fun s' hs' => ih (hstep s a s' hs hok hs') (hrest s' hs')⟩

/-- Conditions that agree in the reachable states admit the same lists of actions. -/
theorem admitted_congr {ok' : S → A → Prop}
    (hiff : ∀ s a, Reachable step init s → (ok s a ↔ ok' s a)) {s : S}
    (h : Reachable step init s) (l : List A) :
    Admitted step ok s l ↔ Admitted step ok' s l := by
  induction l generalizing s with
  | nil => exact Iff.rfl
  | cons a rest ih =>
    have hhead := hiff s a h
    have htail : ∀ s' ∈ step s a, (Admitted step ok s' rest ↔ Admitted step ok' s' rest) :=
      fun s' hs => ih (Reach.step a h trivial hs)
    show (ok s a ∧ _) ↔ (ok' s a ∧ _)
    rw [hhead]
    exact and_congr_right fun _ => forall₂_congr htail

/-- Where the condition says which steps succeed, it says which runs do. -/
theorem run_isSome_iff {I : S → Prop}
    (hstep : ∀ s a s', I s → step s a = some s' → I s')
    (hiff : ∀ s a, I s → ((step s a).isSome = true ↔ ok s a)) {s : S} (hs : I s) (l : List A) :
    (Execution.run step s l).isSome = true ↔ Admitted step ok s l := by
  induction l generalizing s with
  | nil => exact iff_of_true rfl trivial
  | cons a rest ih =>
    rw [Execution.run, Admitted, ← hiff s a hs]
    cases hnext : step s a with
    | none => simp
    | some s' =>
      have hrest := ih (hstep s a s' hs hnext)
      simpa using hrest

/-- A successful run leads from a reachable state to a reachable state. -/
theorem Reach.run {s s' : S} (h : Reachable step init s) {l : List A}
    (hrun : Execution.run step s l = some s') : Reachable step init s' :=
  h.run_of_forall (fun _ _ _ => trivial) hrun

/-- Where every step lowers a measure, the measure bounds the length of a run. -/
theorem run_length_le {I : S → Prop} (measure : S → ℕ)
    (hstep : ∀ s a s', I s → step s a = some s' → I s' ∧ measure s' < measure s) {s s' : S}
    (hs : I s) {l : List A} (hrun : Execution.run step s l = some s') :
    l.length + measure s' ≤ measure s := by
  induction l generalizing s with
  | nil =>
    cases hrun
    simp
  | cons a rest ih =>
    obtain ⟨t, hfirst, hrest⟩ := Option.bind_eq_some_iff.mp hrun
    obtain ⟨ht, hlt⟩ := hstep s a t hs hfirst
    have hlen := ih ht hrest
    simp only [List.length_cons]
    omega

/-- Where every state is final or has a step, and every step lowers a measure, some
run ends in a final state. -/
theorem exists_run_final {I : S → Prop} (final : S → Prop) (measure : S → ℕ)
    (hstep : ∀ s a s', I s → step s a = some s' → I s' ∧ measure s' < measure s)
    (hprogress : ∀ s, I s → final s ∨ ∃ a s', step s a = some s') {s : S} (hs : I s) :
    ∃ l s', Execution.run step s l = some s' ∧ I s' ∧ final s' := by
  induction hm : measure s using Nat.strongRecOn generalizing s with
  | ind n ih =>
    rcases hprogress s hs with hfinal | ⟨a, t, ht⟩
    · exact ⟨[], s, rfl, hs, hfinal⟩
    · obtain ⟨hinv, hlt⟩ := hstep s a t hs ht
      obtain ⟨l, s', hrun, hinv', hfinal⟩ := ih (measure t) (hm ▸ hlt) hinv rfl
      refine ⟨a :: l, s', ?_, hinv', hfinal⟩
      rw [Execution.run, ht]
      exact hrun

end OsCamp.Execution
