import Mathlib.Data.List.Nodup

/-!
Linearizations of concurrent histories. A history lists the invocations and returns of
numbered calls as they happened. A linearization is one order of calls that a sequential
object could have served; it contains every call that has returned, and of the others
those that have already taken effect. It is built along a run by three rules: a call is
invoked, takes effect at the end of the order, and returns.
-/

set_option autoImplicit false

namespace OsCamp.Linearizability

/-- A sequential object: the effect and the answer of an operation. -/
structure SeqSpec (V Op Ans : Type*) where
  apply : Op → V → V
  answer : Op → V → Ans

inductive Event (Op Ans : Type*)
  | invoke (call : ℕ) (op : Op)
  | ret (call : ℕ) (answer : Ans)
  deriving DecidableEq

structure Entry (Op Ans : Type*) where
  call : ℕ
  op : Op
  answer : Ans
  deriving DecidableEq

variable {V Op Ans : Type*}

/-- The value after the operations of the order, one after the other. -/
def outcome (spec : SeqSpec V Op Ans) (init : V) (order : List (Entry Op Ans)) : V :=
  order.foldl (fun v e => spec.apply e.op v) init

def calls (order : List (Entry Op Ans)) : List ℕ := order.map Entry.call

/-- Call `c` had returned when call `d` was invoked. -/
def Precedes (history : List (Event Op Ans)) (c d : ℕ) : Prop :=
  ∃ earlier op later r, history = earlier ++ .invoke d op :: later ∧ .ret c r ∈ earlier

structure Linearization (spec : SeqSpec V Op Ans) (init : V) (history : List (Event Op Ans))
    (order : List (Entry Op Ans)) (final : V) : Prop where
  once : (calls order).Nodup
  invoked : ∀ e ∈ order, .invoke e.call e.op ∈ history
  completed : ∀ c r, .ret c r ∈ history → ∃ op, ⟨c, op, r⟩ ∈ order
  respects : ∀ c d, Precedes history c d → d ∈ calls order →
    ∃ l l', order = l ++ l' ∧ c ∈ calls l ∧ d ∈ calls l'
  answers : ∀ l e l', order = l ++ e :: l' → e.answer = spec.answer e.op (outcome spec init l)
  final_eq : final = outcome spec init order

variable {spec : SeqSpec V Op Ans} {init final : V} {history : List (Event Op Ans)}
  {order : List (Entry Op Ans)} {c d : ℕ} {op : Op} {r : Ans}

theorem outcome_append (l l' : List (Entry Op Ans)) :
    outcome spec init (l ++ l') = outcome spec (outcome spec init l) l' :=
  List.foldl_append

theorem mem_calls {e : Entry Op Ans} (he : e ∈ order) : e.call ∈ calls order :=
  List.mem_map_of_mem he

/-- Only the invocation of `d` puts a call before `d`. -/
theorem Precedes.of_append {last : Event Op Ans} (h : Precedes (history ++ [last]) c d) :
    Precedes history c d ∨ ∃ op, last = .invoke d op := by
  obtain ⟨earlier, op, later, r, heq, hret⟩ := h
  rcases List.eq_nil_or_concat later with rfl | ⟨later', last', rfl⟩
  · obtain ⟨-, hlast⟩ := List.append_inj' heq rfl
    exact Or.inr ⟨op, List.singleton_inj.mp hlast⟩
  · rw [List.concat_eq_append, ← List.cons_append, ← List.append_assoc] at heq
    obtain ⟨hhistory, -⟩ := List.append_inj' heq rfl
    exact Or.inl ⟨earlier, op, later', r, hhistory, hret⟩

theorem Precedes.returned (h : Precedes history c d) : ∃ r, .ret c r ∈ history := by
  obtain ⟨earlier, op, later, r, heq, hret⟩ := h
  rw [heq]
  exact ⟨r, List.mem_append_left _ hret⟩

namespace Linearization

theorem empty : Linearization spec init [] [] init where
  once := List.nodup_nil
  invoked _ he := nomatch he
  completed _ _ hr := nomatch hr
  respects _ _ _ hd := nomatch hd
  answers l _ _ h := by simp at h
  final_eq := rfl

/-- A new call is invoked. -/
theorem invoke (h : Linearization spec init history order final) (hnew : c ∉ calls order) :
    Linearization spec init (history ++ [.invoke c op]) order final := by
  refine { h with invoked := ?_, completed := ?_, respects := ?_ }
  · intro e he
    exact List.mem_append_left _ (h.invoked e he)
  · intro a r ha
    rcases List.mem_append.mp ha with ha | ha
    · exact h.completed a r ha
    · cases List.mem_singleton.mp ha
  · intro a d hprec hd
    rcases hprec.of_append with hprec | ⟨op', hlast⟩
    · exact h.respects a d hprec hd
    · cases hlast
      exact absurd hd hnew

/-- An invoked call takes effect. -/
theorem commit (h : Linearization spec init history order final)
    (hinvoked : .invoke c op ∈ history) (hnew : c ∉ calls order) :
    Linearization spec init history (order ++ [⟨c, op, spec.answer op final⟩])
      (spec.apply op final) where
  once := by
    rw [calls, List.map_append, List.map_singleton, ← List.concat_eq_append]
    exact h.once.concat hnew
  invoked e he := by
    rcases List.mem_append.mp he with he | he
    · exact h.invoked e he
    · rw [List.mem_singleton.mp he]
      exact hinvoked
  completed a r ha := by
    obtain ⟨op', hmem⟩ := h.completed a r ha
    exact ⟨op', List.mem_append_left _ hmem⟩
  respects a d hprec hd := by
    rw [calls, List.map_append] at hd
    rcases List.mem_append.mp hd with hd | hd
    · obtain ⟨l, l', horder, ha, hd'⟩ := h.respects a d hprec hd
      refine ⟨l, l' ++ [⟨c, op, spec.answer op final⟩], ?_, ha, ?_⟩
      · rw [horder, List.append_assoc]
      · rw [calls, List.map_append]
        exact List.mem_append_left _ hd'
    · obtain ⟨r, hret⟩ := hprec.returned
      obtain ⟨op', hmem⟩ := h.completed a r hret
      exact ⟨order, [⟨c, op, spec.answer op final⟩], rfl, mem_calls hmem, hd⟩
  answers l e l' heq := by
    rcases List.eq_nil_or_concat l' with rfl | ⟨l'', last, rfl⟩
    · obtain ⟨hl, hlast⟩ := List.append_inj' heq rfl
      rw [← List.singleton_inj.mp hlast, ← hl, ← h.final_eq]
    · rw [List.concat_eq_append, ← List.cons_append, ← List.append_assoc] at heq
      obtain ⟨hl, -⟩ := List.append_inj' heq rfl
      exact h.answers l e l'' hl
  final_eq := by
    rw [outcome_append, ← h.final_eq]
    rfl

/-- A call that has taken effect returns its answer. -/
theorem ret (h : Linearization spec init history order final)
    (hmem : (⟨c, op, r⟩ : Entry Op Ans) ∈ order) :
    Linearization spec init (history ++ [.ret c r]) order final := by
  refine { h with invoked := ?_, completed := ?_, respects := ?_ }
  · intro e he
    exact List.mem_append_left _ (h.invoked e he)
  · intro a r' ha
    rcases List.mem_append.mp ha with ha | ha
    · exact h.completed a r' ha
    · cases List.mem_singleton.mp ha
      exact ⟨op, hmem⟩
  · intro a d hprec hd
    rcases hprec.of_append with hprec | ⟨op', hlast⟩
    · exact h.respects a d hprec hd
    · cases hlast

end Linearization

end OsCamp.Linearizability
