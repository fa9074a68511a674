import OsCamp.Execution

/-!
`simple_send_recv` and `producer_consumer`: one producer sends the items one after
another, and the main task receives until the channel is closed. The bounded
channel has room for all items at once, so its sender never waits: it takes the
same runs as the unbounded one. Of the channels, of std and of tokio, this is
assumed: the items come in the order of the sends, none lost or doubled; a send
to a bounded channel waits only while the channel is full; the end is signalled
only when no item and no sender is left.
-/

set_option autoImplicit false

namespace OsCamp.ProducerConsumer

open Execution

/-- The items to send, and the capacity of the channel if it is bounded. -/
structure Program (α : Type*) where
  items : List α
  capacity : Option ℕ

def simpleSendRecv {α : Type*} (items : List α) : Program α := ⟨items, none⟩

def producerConsumer {α : Type*} (items : List α) : Program α := ⟨items, some (max items.length 1)⟩

inductive Producer (α : Type*)
  | unborn
  | sending (left : List α)
  | ended
  | panicked

inductive Main (α : Type*)
  | spawning
  | receiving
  | returned (result : List α)
  deriving DecidableEq

structure State (α : Type*) where
  main : Main α
  producer : Producer α
  queue : List α
  received : List α
  receiver : Bool

inductive Action
  | spawn
  | send
  | dropSender
  | recv
  | seeEnd

variable {α : Type*}

def initial (_ : Program α) : State α := ⟨.spawning, .unborn, [], [], true⟩

def step (P : Program α) (s : State α) : Action → Option (State α)
  | .spawn =>
    match s.main with
    | .spawning => some { s with main := .receiving, producer := .sending P.items }
    | _ => none
  | .send =>
    match s.producer with
    | .sending (item :: left) =>
      if s.receiver = false then some { s with producer := .panicked }
      else if P.capacity.all (s.queue.length < ·) then
        some { s with producer := .sending left, queue := s.queue ++ [item] }
      else none
    | _ => none
  | .dropSender =>
    match s.producer with
    | .sending [] => some { s with producer := .ended }
    | _ => none
  | .recv =>
    match s.main, s.queue with
    | .receiving, item :: queue =>
      some { s with queue := queue, received := s.received ++ [item] }
    | _, _ => none
  | .seeEnd =>
    match s.main, s.queue, s.producer with
    | .receiving, [], .ended => some { s with main := .returned s.received, receiver := false }
    | _, _, _ => none

/-- What each action does, and where it is enabled. -/
inductive Moved (P : Program α) (s : State α) : Action → State α → Prop
  | spawn (main : s.main = .spawning) :
      Moved P s .spawn { s with main := .receiving, producer := .sending P.items }
  | sendClosed {item : α} {left : List α} (producer : s.producer = .sending (item :: left))
      (closed : s.receiver = false) : Moved P s .send { s with producer := .panicked }
  | send {item : α} {left : List α} (producer : s.producer = .sending (item :: left))
      (room : P.capacity.all (s.queue.length < ·)) :
      Moved P s .send { s with producer := .sending left, queue := s.queue ++ [item] }
  | dropSender (producer : s.producer = .sending []) :
      Moved P s .dropSender { s with producer := .ended }
  | recv {item : α} {queue : List α} (main : s.main = .receiving)
      (items : s.queue = item :: queue) :
      Moved P s .recv { s with queue := queue, received := s.received ++ [item] }
  | seeEnd (main : s.main = .receiving) (empty : s.queue = []) (closed : s.producer = .ended) :
      Moved P s .seeEnd { s with main := .returned s.received, receiver := false }

variable {P : Program α} {s s' : State α} {a : Action} {items : List α} {l : List Action}

theorem step_moved (hs : step P s a = some s') : Moved P s a s' := by
  cases a with
  | spawn =>
    cases hmain : s.main <;> simp only [step, hmain] at hs
    case spawning =>
      cases hs
      exact .spawn hmain
    all_goals cases hs
  | send =>
    unfold step at hs
    simp only at hs
    split at hs
    · rename_i item left hproducer
      split_ifs at hs with hclosed hroom
      · cases hs
        exact .sendClosed hproducer hclosed
      · cases hs
        exact .send hproducer hroom
    · cases hs
  | dropSender =>
    unfold step at hs
    simp only at hs
    split at hs
    · rename_i hproducer
      cases hs
      exact .dropSender hproducer
    · cases hs
  | recv =>
    unfold step at hs
    simp only at hs
    split at hs
    · rename_i item queue hmain hqueue
      cases hs
      exact .recv hmain hqueue
    · cases hs
  | seeEnd =>
    unfold step at hs
    simp only at hs
    split at hs
    · rename_i hmain hqueue hproducer
      cases hs
      exact .seeEnd hmain hqueue hproducer
    · cases hs

/-- The items that the producer still has. -/
def Producer.left (items : List α) : Producer α → List α
  | .unborn => items
  | .sending left => left
  | .ended => []
  | .panicked => []

/-- The items stand in order: received, in the channel, and with the producer. -/
structure Inv (items : List α) (s : State α) : Prop where
  flow : s.received ++ s.queue ++ s.producer.left items = items
  sound : s.producer ≠ .panicked
  spawning : s.main = .spawning ↔ s.producer = .unborn
  receiver : s.receiver = false ↔ ∃ result, s.main = .returned result
  returned : ∀ result, s.main = .returned result →
    result = s.received ∧ s.queue = [] ∧ s.producer = .ended

namespace Inv

theorem new (P : Program α) : Inv P.items (initial P) where
  flow := rfl
  sound h := nomatch h
  spawning := iff_of_true rfl rfl
  receiver := iff_of_false (fun h => nomatch h) fun h => nomatch h.choose_spec
  returned _ h := nomatch h

theorem spawn (h : Inv P.items s) (hmain : s.main = .spawning) :
    Inv P.items { s with main := .receiving, producer := .sending P.items } where
  flow := by
    have hflow := h.flow
    rw [h.spawning.mp hmain] at hflow
    exact hflow
  sound hp := nomatch hp
  spawning := iff_of_false (fun hm => nomatch hm) fun hp => nomatch hp
  receiver := by
    refine h.receiver.trans (iff_of_false ?_ fun hr => nomatch hr.choose_spec)
    intro hr
    rw [hmain] at hr
    exact nomatch hr.choose_spec
  returned _ hm := nomatch hm

/-- The main task stays in its loop while the producer runs. -/
theorem open_of_sending (h : Inv items s) {left : List α} (hproducer : s.producer = .sending left) :
    s.receiver = true ∧ s.main = .receiving := by
  have hnot : ∀ result, s.main ≠ .returned result := by
    intro result hmain
    have hended := (h.returned result hmain).2.2
    rw [hproducer] at hended
    exact nomatch hended
  constructor
  · apply eq_true_of_ne_false
    intro hclosed
    obtain ⟨result, hmain⟩ := h.receiver.mp hclosed
    exact hnot result hmain
  · cases hmain : s.main with
    | spawning =>
      have hunborn := h.spawning.mp hmain
      rw [hproducer] at hunborn
      exact nomatch hunborn
    | receiving => rfl
    | returned result => exact absurd hmain (hnot result)

theorem send (h : Inv items s) {item : α} {left : List α}
    (hproducer : s.producer = .sending (item :: left)) :
    Inv items { s with producer := .sending left, queue := s.queue ++ [item] } := by
  obtain ⟨hopen, hmain⟩ := h.open_of_sending hproducer
  refine ⟨?_, (fun hp => nomatch hp), ?_, h.receiver, ?_⟩
  · have hflow := h.flow
    rw [hproducer] at hflow
    simpa [Producer.left] using hflow
  · rw [hmain]
    exact iff_of_false (fun hm => nomatch hm) fun hp => nomatch hp
  · intro result hm
    rw [hmain] at hm
    exact nomatch hm

theorem dropSender (h : Inv items s) (hproducer : s.producer = .sending []) :
    Inv items { s with producer := .ended } := by
  obtain ⟨hopen, hmain⟩ := h.open_of_sending hproducer
  refine ⟨?_, (fun hp => nomatch hp), ?_, h.receiver, ?_⟩
  · have hflow := h.flow
    rw [hproducer] at hflow
    exact hflow
  · rw [hmain]
    exact iff_of_false (fun hm => nomatch hm) fun hp => nomatch hp
  · intro result hm
    rw [hmain] at hm
    exact nomatch hm

theorem recv (h : Inv items s) {item : α} {queue : List α} (hmain : s.main = .receiving)
    (hqueue : s.queue = item :: queue) :
    Inv items { s with queue := queue, received := s.received ++ [item] } := by
  refine ⟨?_, h.sound, h.spawning, h.receiver, ?_⟩
  · have hflow := h.flow
    rw [hqueue] at hflow
    simpa using hflow
  · intro result hm
    rw [hmain] at hm
    exact nomatch hm

theorem seeEnd (h : Inv items s) (hqueue : s.queue = []) (hproducer : s.producer = .ended) :
    Inv items { s with main := .returned s.received, receiver := false } := by
  refine ⟨h.flow, h.sound, ?_, iff_of_true rfl ⟨s.received, rfl⟩, ?_⟩
  · rw [hproducer]
    exact iff_of_false (fun hm => nomatch hm) fun hp => nomatch hp
  · intro result hm
    cases hm
    exact ⟨rfl, hqueue, hproducer⟩

theorem step (h : Inv P.items s) (hs : ProducerConsumer.step P s a = some s') :
    Inv P.items s' := by
  cases step_moved hs with
  | spawn hmain => exact h.spawn hmain
  | sendClosed hproducer hclosed =>
    have hopen := (h.open_of_sending hproducer).1
    exact absurd (hclosed.symm.trans hopen) Bool.false_ne_true
  | send hproducer hroom => exact h.send hproducer
  | dropSender hproducer => exact h.dropSender hproducer
  | recv hmain hqueue => exact h.recv hmain hqueue
  | seeEnd hmain hqueue hproducer => exact h.seeEnd hqueue hproducer

theorem run (hrun : Execution.run (ProducerConsumer.step P) (initial P) l = some s) :
    Inv P.items s :=
  (Reach.init.run hrun).invariant (new P) fun _ _ _ hinv _ hs => hinv.step hs

end Inv

/-- The channel never holds all the items while one is still to send. -/
theorem queue_length_lt (h : Inv items s) {item : α} {left : List α}
    (hproducer : s.producer = .sending (item :: left)) : s.queue.length < items.length := by
  have hflow := congrArg List.length h.flow
  rw [hproducer] at hflow
  simp only [Producer.left, List.length_append, List.length_cons] at hflow
  omega

theorem room (h : Inv items s) {item : α} {left : List α}
    (hproducer : s.producer = .sending (item :: left)) :
    (producerConsumer items).capacity.all (s.queue.length < ·) = true := by
  have hlt := queue_length_lt h hproducer
  have hmax := Nat.le_max_left items.length 1
  exact decide_eq_true (Nat.lt_of_lt_of_le hlt hmax)

/-- A send is possible as soon as there is an item to send. -/
theorem send_isSome (h : Inv items s) {item : α} {left : List α}
    (hproducer : s.producer = .sending (item :: left)) :
    (step (producerConsumer items) s .send).isSome = true := by
  have hopen := (h.open_of_sending hproducer).1
  have hroom := room h hproducer
  simp only [step, hproducer, hopen, hroom]
  rfl

theorem step_eq (h : Inv items s) (a : Action) :
    step (producerConsumer items) s a = step (simpleSendRecv items) s a := by
  cases a with
  | spawn => rfl
  | send =>
    cases hproducer : s.producer with
    | unborn => simp only [step, hproducer]
    | ended => simp only [step, hproducer]
    | panicked => simp only [step, hproducer]
    | sending left =>
      cases left with
      | nil => simp only [step, hproducer]
      | cons item left =>
        have hroom := room h hproducer
        have hfree : (simpleSendRecv items).capacity.all (s.queue.length < ·) = true := rfl
        simp only [step, hproducer, hroom, hfree]
  | dropSender => rfl
  | recv => rfl
  | seeEnd => rfl

/-- The bounded channel takes the runs of the unbounded one. -/
theorem run_eq (h : Inv items s) (l : List Action) :
    run (step (producerConsumer items)) s l = run (step (simpleSendRecv items)) s l := by
  induction l generalizing s with
  | nil => rfl
  | cons a rest ih =>
    rw [run, run, step_eq h a]
    cases hs : step (simpleSendRecv items) s a with
    | none => rfl
    | some t =>
      have ht : Inv (simpleSendRecv items).items t := Inv.step h hs
      exact ih ht

theorem progress (h : Inv items s) :
    (∃ result, s.main = .returned result) ∨ ∃ a s', step (simpleSendRecv items) s a = some s' := by
  cases hmain : s.main with
  | spawning =>
    refine Or.inr ⟨.spawn, { s with main := .receiving, producer := .sending items }, ?_⟩
    simp only [step, hmain]
    rfl
  | returned result => exact Or.inl ⟨result, rfl⟩
  | receiving =>
    right
    cases hqueue : s.queue with
    | cons item queue =>
      refine ⟨.recv, { s with queue := queue, received := s.received ++ [item] }, ?_⟩
      simp only [step, hmain, hqueue]
    | nil =>
      cases hproducer : s.producer with
      | unborn =>
        have hspawning := h.spawning.mpr hproducer
        exact nomatch hmain.symm.trans hspawning
      | panicked => exact absurd hproducer h.sound
      | ended =>
        refine ⟨.seeEnd, { s with main := .returned s.received, receiver := false }, ?_⟩
        simp only [step, hmain, hqueue, hproducer]
      | sending left =>
        cases left with
        | nil =>
          refine ⟨.dropSender, { s with producer := .ended }, ?_⟩
          simp only [step, hproducer]
        | cons item left =>
          have hsend := send_isSome h hproducer
          rw [step_eq h] at hsend
          obtain ⟨s', hs⟩ := Option.isSome_iff_exists.mp hsend
          exact ⟨.send, s', hs⟩

/-- An item has a send and a receive before it. -/
def producerWeight (items : List α) : Producer α → ℕ
  | .unborn => 2 * items.length + 1
  | .sending left => 2 * left.length + 1
  | .ended => 0
  | .panicked => 0

def mainWeight : Main α → ℕ
  | .spawning => 2
  | .receiving => 1
  | .returned _ => 0

def measure (items : List α) (s : State α) : ℕ :=
  mainWeight s.main + producerWeight items s.producer + s.queue.length

theorem measure_lt (h : Inv P.items s) (hs : step P s a = some s') :
    measure P.items s' < measure P.items s := by
  unfold measure
  cases step_moved hs with
  | spawn hmain =>
    rw [hmain, h.spawning.mp hmain]
    simp only [mainWeight, producerWeight]
    omega
  | sendClosed hproducer hclosed =>
    have hopen := (h.open_of_sending hproducer).1
    exact absurd (hclosed.symm.trans hopen) Bool.false_ne_true
  | send hproducer hroom =>
    rw [hproducer]
    simp only [producerWeight, List.length_append, List.length_cons, List.length_nil]
    omega
  | dropSender hproducer =>
    rw [hproducer]
    simp only [producerWeight]
    omega
  | recv hmain hqueue =>
    rw [hqueue]
    simp only [List.length_cons]
    omega
  | seeEnd hmain hqueue hproducer =>
    rw [hmain]
    simp only [mainWeight]
    omega

theorem run_length (hrun : run (step P) (initial P) l = some s) :
    l.length ≤ 2 * P.items.length + 3 := by
  have hlength := run_length_le (I := Inv P.items) (measure P.items)
    (fun s a s' hinv hs => ⟨hinv.step hs, measure_lt hinv hs⟩) (Inv.new P) hrun
  have hinitial : measure P.items (initial P) = 2 + (2 * P.items.length + 1) + 0 := rfl
  omega

/-- Both programs take the same runs; in each of them the sender never waits, nothing is
stuck before the end, and the items come back in their order. -/
theorem items_in_order (items : List α) (l : List Action) :
    run (step (producerConsumer items)) (initial (producerConsumer items)) l =
        run (step (simpleSendRecv items)) (initial (simpleSendRecv items)) l ∧
      ∀ s, run (step (simpleSendRecv items)) (initial (simpleSendRecv items)) l = some s →
        ((∃ result, s.main = .returned result) ∨
          ∃ a s', step (simpleSendRecv items) s a = some s') ∧
        l.length ≤ 2 * items.length + 3 ∧
        (∀ item left, s.producer = .sending (item :: left) →
          (step (producerConsumer items) s .send).isSome = true) ∧
        s.producer ≠ .panicked ∧
        (∀ result, s.main = .returned result → result = items ∧ s.producer = .ended) := by
  refine ⟨run_eq (Inv.new (simpleSendRecv items)) l, ?_⟩
  intro s hrun
  have h : Inv items s := Inv.run hrun
  refine ⟨progress h, run_length hrun, fun item left => send_isSome h, h.sound, ?_⟩
  intro result hmain
  obtain ⟨hresult, hqueue, hproducer⟩ := h.returned result hmain
  have hflow := h.flow
  rw [hqueue, hproducer, List.append_nil] at hflow
  rw [hresult]
  exact ⟨(List.append_nil _).symm.trans hflow, hproducer⟩

end OsCamp.ProducerConsumer
