import Mathlib.Data.List.Nodup
import Mathlib.Data.String.Basic
import OsCamp.Execution
import OsCamp.Weights

/-!
`multi_producer` and `fan_in`: producers that each send one message through a clone of one
sender, and a main task that drops the original, receives until the channel is closed, and
sorts. Of the channels, of std and of tokio, this is assumed: no message is lost or doubled; a
receive takes a message of any sender, and each sender has only one; the end is signalled when
no message and no sender is left; a send to a bounded channel waits while the channel is full.
A send after the receiver is gone panics in its `unwrap`.
-/

set_option autoImplicit false

namespace OsCamp.Channels

open Execution

/-- The messages, and the capacity of the channel if it is bounded. -/
structure Program where
  producers : ℕ
  message : ℕ → String
  capacity : Option ℕ
  capacity_pos : ∀ c ∈ capacity, 1 ≤ c

def multiProducer (nProducers : ℕ) : Program where
  producers := nProducers
  message i := "msg from " ++ toString i
  capacity := none
  capacity_pos _ h := nomatch h

def fanIn (nProducers : ℕ) : Program where
  producers := nProducers
  message i := "producer " ++ toString i ++ ": message"
  capacity := some (max nProducers 1)
  capacity_pos _ h := Option.some.inj h ▸ Nat.le_max_right _ _

inductive Producer
  | unborn
  | cloned
  | ready
  | sent
  | ended
  | panicked
  deriving DecidableEq

def Producer.holdsSender : Producer → Bool
  | .cloned => true
  | .ready => true
  | .sent => true
  | _ => false

/-- The main task stands before round `i` of its loop, between the clone and the spawn of
that round, in the receive loop, or behind it. -/
inductive Main
  | spawning (i : ℕ)
  | handingOver (i : ℕ)
  | receiving
  | returned (result : List String)
  deriving DecidableEq

structure State where
  main : Main
  producer : ℕ → Producer
  queue : List String
  received : List String
  receiver : Bool

inductive Action
  | clone
  | spawn
  | dropOriginal
  | send (i : ℕ)
  | dropClone (i : ℕ)
  /-- The message at place `k` of the queue is received. -/
  | recv (k : ℕ)
  | seeEnd

def initial : State := ⟨.spawning 0, fun _ => .unborn, [], [], true⟩

/-- `sort` of a vector of strings. -/
def sort (l : List String) : List String := l.mergeSort fun a b => decide (a ≤ b)

def State.setProducer (s : State) (i : ℕ) (p : Producer) : State :=
  { s with producer := Function.update s.producer i p }

def step (P : Program) (s : State) : Action → Option State
  | .clone =>
    match s.main with
    | .spawning i =>
      if i < P.producers then some { s.setProducer i .cloned with main := .handingOver i } else none
    | _ => none
  | .spawn =>
    match s.main with
    | .handingOver i => some { s.setProducer i .ready with main := .spawning (i + 1) }
    | _ => none
  | .dropOriginal =>
    match s.main with
    | .spawning i => if i < P.producers then none else some { s with main := .receiving }
    | _ => none
  | .send i =>
    if s.producer i = .ready then
      if s.receiver = false then some (s.setProducer i .panicked)
      else if P.capacity.all (s.queue.length < ·) then
        some { s.setProducer i .sent with queue := s.queue ++ [P.message i] }
      else none
    else none
  | .dropClone i => if s.producer i = .sent then some (s.setProducer i .ended) else none
  | .recv k =>
    if s.main = .receiving then
      (s.queue[k]?).map fun m =>
        { s with queue := s.queue.eraseIdx k, received := s.received ++ [m] }
    else none
  | .seeEnd =>
    if s.main = .receiving ∧ s.queue = [] ∧
        ∀ i < P.producers, (s.producer i).holdsSender = false then
      some { s with main := .returned (sort s.received), receiver := false }
    else none

/-- What each action does, and where it is enabled. -/
inductive Moved (P : Program) (s : State) : Action → State → Prop
  | clone {i : ℕ} (main : s.main = .spawning i) (lt : i < P.producers) :
      Moved P s .clone { s.setProducer i .cloned with main := .handingOver i }
  | spawn {i : ℕ} (main : s.main = .handingOver i) :
      Moved P s .spawn { s.setProducer i .ready with main := .spawning (i + 1) }
  | dropOriginal {i : ℕ} (main : s.main = .spawning i) (ge : ¬ i < P.producers) :
      Moved P s .dropOriginal { s with main := .receiving }
  | sendClosed {i : ℕ} (ready : s.producer i = .ready) (closed : s.receiver = false) :
      Moved P s (.send i) (s.setProducer i .panicked)
  | send {i : ℕ} (ready : s.producer i = .ready) (room : P.capacity.all (s.queue.length < ·)) :
      Moved P s (.send i) { s.setProducer i .sent with queue := s.queue ++ [P.message i] }
  | dropClone {i : ℕ} (sent : s.producer i = .sent) :
      Moved P s (.dropClone i) (s.setProducer i .ended)
  | recv {k : ℕ} {m : String} (main : s.main = .receiving) (queue : s.queue[k]? = some m) :
      Moved P s (.recv k)
        { s with queue := s.queue.eraseIdx k, received := s.received ++ [m] }
  | seeEnd (main : s.main = .receiving) (queue : s.queue = [])
      (senders : ∀ i < P.producers, (s.producer i).holdsSender = false) :
      Moved P s .seeEnd { s with main := .returned (sort s.received), receiver := false }

theorem step_moved {P : Program} {s s' : State} {a : Action} (hs : step P s a = some s') :
    Moved P s a s' := by
  cases a with
  | clone =>
    cases hmain : s.main <;> simp only [step, hmain] at hs
    case spawning i =>
      obtain ⟨hi, hres⟩ := Option.ite_none_right_eq_some.mp hs
      cases hres
      exact .clone hmain hi
    all_goals cases hs
  | spawn =>
    cases hmain : s.main <;> simp only [step, hmain] at hs
    case handingOver i =>
      cases hs
      exact .spawn hmain
    all_goals cases hs
  | dropOriginal =>
    cases hmain : s.main <;> simp only [step, hmain] at hs
    case spawning i =>
      obtain ⟨hi, hres⟩ := Option.ite_none_left_eq_some.mp hs
      cases hres
      exact .dropOriginal hmain hi
    all_goals cases hs
  | send i =>
    obtain ⟨hready, hres⟩ := Option.ite_none_right_eq_some.mp hs
    split_ifs at hres with hclosed hroom
    · cases hres
      exact .sendClosed hready hclosed
    · cases hres
      exact .send hready hroom
  | dropClone i =>
    obtain ⟨hsent, hres⟩ := Option.ite_none_right_eq_some.mp hs
    cases hres
    exact .dropClone hsent
  | recv k =>
    obtain ⟨hmain, hres⟩ := Option.ite_none_right_eq_some.mp hs
    obtain ⟨m, hqueue, hs'⟩ := Option.map_eq_some_iff.mp hres
    cases hs'
    exact .recv hmain hqueue
  | seeEnd =>
    obtain ⟨⟨hmain, hqueue, hsenders⟩, hres⟩ := Option.ite_none_right_eq_some.mp hs
    cases hres
    exact .seeEnd hmain hqueue hsenders

theorem sort_perm (l : List String) : (sort l).Perm l := List.mergeSort_perm _ _

theorem sort_pairwise (l : List String) : (sort l).Pairwise (· ≤ ·) := by
  have h : (sort l).Pairwise fun a b => decide (a ≤ b) = true := by
    apply List.pairwise_mergeSort
    · intro a b c hab hbc
      exact decide_eq_true (le_trans (of_decide_eq_true hab) (of_decide_eq_true hbc))
    · intro a b
      simpa using le_total a b
  exact h.imp fun hab => of_decide_eq_true hab

/-- The order in which messages arrive does not matter. -/
theorem sort_eq_of_perm {l l' : List String} (h : l.Perm l') : sort l = sort l' := by
  refine List.Perm.eq_of_pairwise ?_ (sort_pairwise l) (sort_pairwise l') ?_
  · exact fun a b _ _ => le_antisymm
  · exact (sort_perm l).trans (h.trans (sort_perm l').symm)

/-- How many producers have been spawned. -/
def born (P : Program) : Main → ℕ
  | .spawning i => i
  | .handingOver i => i
  | _ => P.producers

def Producer.HasSent (p : Producer) : Prop := p = .sent ∨ p = .ended

/-- Where a producer may stand, as seen from the main task. -/
inductive Placed (P : Program) (main : Main) (i : ℕ) : Producer → Prop
  | cloned (handing : main = .handingOver i) : Placed P main i .cloned
  | running {p : Producer} (lt : i < born P main) (run : p = .ready ∨ p.HasSent) :
      Placed P main i p
  | unborn (le : born P main ≤ i) (handing : main ≠ .handingOver i) : Placed P main i .unborn

/-- What was received and what is queued are the messages of the producers that have sent,
here in the order of the sends. -/
structure Flow (P : Program) (s : State) (order : List ℕ) : Prop where
  messages : (s.received ++ s.queue).Perm (order.map P.message)
  nodup : order.Nodup
  mem_order : ∀ i, i ∈ order ↔ (s.producer i).HasSent

structure Staged (P : Program) (main : Main) (producer : ℕ → Producer) : Prop where
  placed : ∀ i, Placed P main i (producer i)
  born_le : born P main ≤ P.producers
  handing_lt : ∀ i, main = .handingOver i → i < P.producers

/-- The receiver stays until the main task returns, and then nobody else is left. -/
structure Closing (P : Program) (s : State) : Prop where
  receiver : (∀ result, s.main ≠ .returned result) → s.receiver = true
  returned : ∀ result, s.main = .returned result → result = sort s.received ∧ s.queue = [] ∧
    ∀ i < P.producers, s.producer i = .ended

structure Inv (P : Program) (s : State) (order : List ℕ) : Prop where
  flow : Flow P s order
  staged : Staged P s.main s.producer
  closing : Closing P s

variable {P : Program} {s s' : State} {order : List ℕ} {i : ℕ} {p : Producer}
  {producer : ℕ → Producer}

theorem Flow.setProducer (h : Flow P s order) (hp : p.HasSent ↔ (s.producer i).HasSent) :
    Flow P (s.setProducer i p) order where
  messages := h.messages
  nodup := h.nodup
  mem_order j := by
    show _ ↔ (Function.update s.producer i p j).HasSent
    by_cases hj : j = i
    · rw [hj, Function.update_self, hp, h.mem_order]
    · rw [Function.update_of_ne hj, h.mem_order]

/-- A producer that has not sent puts its message at the end of the queue. -/
theorem Flow.send (h : Flow P s order) (hp : ¬ (s.producer i).HasSent) :
    Flow P { s.setProducer i .sent with queue := s.queue ++ [P.message i] } (order ++ [i]) where
  messages := by
    show (s.received ++ (s.queue ++ [P.message i])).Perm _
    rw [← List.append_assoc, List.map_append]
    exact h.messages.append_right [P.message i]
  nodup := by
    rw [← List.concat_eq_append]
    exact h.nodup.concat fun hmem => hp ((h.mem_order i).mp hmem)
  mem_order j := by
    show _ ↔ (Function.update s.producer i .sent j).HasSent
    rw [List.mem_append, List.mem_singleton]
    by_cases hj : j = i
    · rw [hj, Function.update_self]
      exact iff_of_true (Or.inr rfl) (Or.inl rfl)
    · rw [Function.update_of_ne hj, h.mem_order]
      exact or_iff_left hj

theorem Staged.running (h : Staged P s.main s.producer)
    (hi : s.producer i = .ready ∨ s.producer i = .sent) : i < born P s.main := by
  have hplaced := h.placed i
  generalize s.producer i = p at hplaced hi
  cases hplaced with
  | cloned handing => rcases hi with hi | hi <;> cases hi
  | running lt run => exact lt
  | unborn le handing => rcases hi with hi | hi <;> cases hi

theorem Staged.not_sent {main : Main} (h : Staged P main producer) (hi : born P main ≤ i) :
    ¬ (producer i).HasSent := by
  have hplaced := h.placed i
  generalize producer i = p at hplaced
  cases hplaced with
  | cloned handing => rintro (h | h) <;> cases h
  | running lt run => exact absurd lt (Nat.not_lt.mpr hi)
  | unborn le handing => rintro (h | h) <;> cases h

theorem Staged.not_panicked {main : Main} (h : Staged P main producer) (i : ℕ) :
    producer i ≠ .panicked := by
  have hplaced := h.placed i
  intro hpanicked
  rw [hpanicked] at hplaced
  cases hplaced with
  | running lt run => rcases run with hrun | hrun | hrun <;> cases hrun

/-- The producer of the next round has not been born. -/
theorem Staged.next_unborn (h : Staged P (.spawning i) producer) : producer i = .unborn := by
  have hplaced := h.placed i
  generalize producer i = p at hplaced
  cases hplaced with
  | cloned handing => cases handing
  | running lt run => exact absurd lt (Nat.lt_irrefl i)
  | unborn le handing => rfl

/-- The clone of the sender waits for its producer. -/
theorem Staged.handed_cloned (h : Staged P (.handingOver i) producer) : producer i = .cloned := by
  have hplaced := h.placed i
  generalize producer i = p at hplaced
  cases hplaced with
  | cloned handing => rfl
  | running lt run => exact absurd lt (Nat.lt_irrefl i)
  | unborn le handing => exact absurd rfl handing

/-- A running producer goes on. -/
theorem Staged.advance (h : Staged P s.main s.producer)
    (hi : s.producer i = .ready ∨ s.producer i = .sent) (hp : p.HasSent) :
    Staged P s.main (s.setProducer i p).producer where
  placed j := by
    show Placed P s.main j (Function.update s.producer i p j)
    by_cases hj : j = i
    · rw [hj, Function.update_self]
      exact Placed.running (h.running hi) (Or.inr hp)
    · rw [Function.update_of_ne hj]
      exact h.placed j
  born_le := h.born_le
  handing_lt := h.handing_lt

theorem Staged.clone (h : Staged P (.spawning i) producer) (hi : i < P.producers) :
    Staged P (.handingOver i) (Function.update producer i .cloned) where
  placed j := by
    by_cases hj : j = i
    · rw [hj, Function.update_self]
      exact Placed.cloned rfl
    · have hplaced := h.placed j
      rw [Function.update_of_ne hj]
      generalize producer j = p at hplaced
      cases hplaced with
      | cloned handing => cases handing
      | running lt run => exact Placed.running lt run
      | unborn le handing =>
        refine Placed.unborn le fun hmain => hj ?_
        exact (Main.handingOver.inj hmain).symm
  born_le := h.born_le
  handing_lt j hj := by
    cases hj
    exact hi

theorem Staged.spawn (h : Staged P (.handingOver i) producer) :
    Staged P (.spawning (i + 1)) (Function.update producer i .ready) where
  placed j := by
    by_cases hj : j = i
    · rw [hj, Function.update_self]
      exact Placed.running (Nat.lt_succ_self i) (Or.inl rfl)
    · have hplaced := h.placed j
      rw [Function.update_of_ne hj]
      generalize producer j = p at hplaced
      cases hplaced with
      | cloned handing => exact absurd (Main.handingOver.inj handing).symm hj
      | running lt run => exact Placed.running (Nat.lt_succ_of_lt lt) run
      | unborn le handing =>
        have hle : i ≤ j := le
        have hlt : i + 1 ≤ j := by omega
        exact Placed.unborn hlt fun hmain => nomatch hmain
  born_le := h.handing_lt i rfl
  handing_lt j hj := nomatch hj

theorem Staged.receive (h : Staged P (.spawning i) producer) (hi : ¬ i < P.producers) :
    Staged P .receiving producer where
  placed j := by
    have hle : i ≤ P.producers := h.born_le
    have heq : born P .receiving = born P (.spawning i) := by
      show P.producers = i
      omega
    have hplaced := h.placed j
    generalize producer j = p at hplaced
    cases hplaced with
    | cloned handing => cases handing
    | running lt run => exact Placed.running (heq ▸ lt) run
    | unborn le handing => exact Placed.unborn (heq ▸ le) fun hmain => nomatch hmain
  born_le := Nat.le_refl _
  handing_lt j hj := nomatch hj

/-- The receive loop ends with every producer at its end. -/
theorem Staged.all_ended (h : Staged P .receiving producer)
    (hsenders : ∀ i < P.producers, (producer i).holdsSender = false) :
    ∀ i < P.producers, producer i = .ended := by
  intro i hi
  have hplaced := h.placed i
  have hheld := hsenders i hi
  generalize producer i = p at hplaced hheld
  cases hplaced with
  | cloned handing => cases handing
  | running lt run =>
    rcases run with rfl | rfl | rfl
    · cases hheld
    · cases hheld
    · rfl
  | unborn le handing => exact absurd hi (Nat.not_lt.mpr le)

theorem Staged.returned (h : Staged P .receiving producer) (result : List String) :
    Staged P (.returned result) producer where
  placed j := by
    have hplaced := h.placed j
    generalize producer j = p at hplaced
    cases hplaced with
    | cloned handing => cases handing
    | running lt run => exact Placed.running lt run
    | unborn le handing => exact Placed.unborn le fun hmain => nomatch hmain
  born_le := Nat.le_refl _
  handing_lt j hj := nomatch hj

theorem Closing.of_open (hmain : ∀ result, s.main ≠ .returned result)
    (hreceiver : s.receiver = true) : Closing P s where
  receiver _ := hreceiver
  returned result hreturned := absurd hreturned (hmain result)

/-- A producer that runs is one the main task waits for. -/
theorem Inv.open_of_running (h : Inv P s order)
    (hi : s.producer i = .ready ∨ s.producer i = .sent) :
    (∀ result, s.main ≠ .returned result) ∧ s.receiver = true := by
  have hopen : ∀ result, s.main ≠ .returned result := by
    intro result hreturned
    have hlt := Nat.lt_of_lt_of_le (h.staged.running hi) h.staged.born_le
    have hended := (h.closing.returned result hreturned).2.2 i hlt
    rw [hended] at hi
    rcases hi with hi | hi <;> cases hi
  exact ⟨hopen, h.closing.receiver hopen⟩

theorem Inv.not_closed (h : Inv P s order) (hready : s.producer i = .ready)
    (hclosed : s.receiver = false) : False := by
  have hreceiver := (h.open_of_running (Or.inl hready)).2
  rw [hreceiver] at hclosed
  cases hclosed

namespace Inv

theorem new (P : Program) : Inv P initial [] where
  flow :=
    { messages := List.Perm.refl []
      nodup := List.nodup_nil
      mem_order := fun i =>
        iff_of_false List.not_mem_nil fun h => by rcases h with h | h <;> cases h }
  staged :=
    { placed := fun i => Placed.unborn (Nat.zero_le i) fun h => nomatch h
      born_le := Nat.zero_le _
      handing_lt := fun _ h => nomatch h }
  closing := Closing.of_open (fun _ h => nomatch h) rfl

theorem clone (h : Inv P s order) (hmain : s.main = .spawning i) (hi : i < P.producers) :
    Inv P { s.setProducer i .cloned with main := .handingOver i } order := by
  obtain ⟨hflow, hstaged, hclosing⟩ := h
  rw [hmain] at hstaged
  have hflow' := hflow.setProducer (i := i) (p := .cloned)
    (iff_of_false (fun h => by rcases h with h | h <;> cases h) (hstaged.not_sent (Nat.le_refl i)))
  refine ⟨⟨hflow'.messages, hflow'.nodup, hflow'.mem_order⟩, hstaged.clone hi, ?_⟩
  refine Closing.of_open (fun result hreturned => nomatch hreturned) ?_
  exact hclosing.receiver fun result hreturned => by cases hmain.symm.trans hreturned

theorem spawn (h : Inv P s order) (hmain : s.main = .handingOver i) :
    Inv P { s.setProducer i .ready with main := .spawning (i + 1) } order := by
  obtain ⟨hflow, hstaged, hclosing⟩ := h
  rw [hmain] at hstaged
  have hflow' := hflow.setProducer (i := i) (p := .ready)
    (iff_of_false (fun h => by rcases h with h | h <;> cases h) (hstaged.not_sent (Nat.le_refl i)))
  refine ⟨⟨hflow'.messages, hflow'.nodup, hflow'.mem_order⟩, hstaged.spawn, ?_⟩
  refine Closing.of_open (fun result hreturned => nomatch hreturned) ?_
  exact hclosing.receiver fun result hreturned => by cases hmain.symm.trans hreturned

theorem dropOriginal (h : Inv P s order) (hmain : s.main = .spawning i)
    (hi : ¬ i < P.producers) : Inv P { s with main := .receiving } order := by
  obtain ⟨hflow, hstaged, hclosing⟩ := h
  rw [hmain] at hstaged
  refine ⟨⟨hflow.messages, hflow.nodup, hflow.mem_order⟩, hstaged.receive hi, ?_⟩
  refine Closing.of_open (fun result hreturned => nomatch hreturned) ?_
  exact hclosing.receiver fun result hreturned => by cases hmain.symm.trans hreturned

theorem send (h : Inv P s order) (hready : s.producer i = .ready) :
    Inv P { s.setProducer i .sent with queue := s.queue ++ [P.message i] } (order ++ [i]) := by
  have hopen := h.open_of_running (Or.inl hready)
  refine ⟨h.flow.send ?_, h.staged.advance (Or.inl hready) (Or.inl rfl), ?_⟩
  · rw [hready]
    rintro (hsent | hsent) <;> cases hsent
  · exact Closing.of_open hopen.1 hopen.2

theorem dropClone (h : Inv P s order) (hsent : s.producer i = .sent) :
    Inv P (s.setProducer i .ended) order := by
  have hopen := h.open_of_running (Or.inr hsent)
  refine ⟨h.flow.setProducer ?_, h.staged.advance (Or.inr hsent) (Or.inr rfl), ?_⟩
  · exact iff_of_true (Or.inr rfl) (Or.inl hsent)
  · exact Closing.of_open hopen.1 hopen.2

theorem recv (h : Inv P s order) (hmain : s.main = .receiving) {k : ℕ} {m : String}
    (hqueue : s.queue[k]? = some m) :
    Inv P { s with queue := s.queue.eraseIdx k, received := s.received ++ [m] } order := by
  have hopen : ∀ result, s.main ≠ .returned result :=
    fun result hreturned => by cases hmain.symm.trans hreturned
  have htaken : (m :: s.queue.eraseIdx k).Perm s.queue := by
    obtain ⟨hk, rfl⟩ := List.getElem?_eq_some_iff.mp hqueue
    exact List.getElem_cons_eraseIdx_perm hk
  refine ⟨⟨?_, h.flow.nodup, h.flow.mem_order⟩, h.staged, ?_⟩
  · show ((s.received ++ [m]) ++ s.queue.eraseIdx k).Perm _
    rw [List.append_assoc]
    exact (htaken.append_left s.received).trans h.flow.messages
  · exact Closing.of_open hopen (h.closing.receiver hopen)

theorem seeEnd (h : Inv P s order) (hmain : s.main = .receiving) (hqueue : s.queue = [])
    (hsenders : ∀ i < P.producers, (s.producer i).holdsSender = false) :
    Inv P { s with main := .returned (sort s.received), receiver := false } order := by
  obtain ⟨hflow, hstaged, -⟩ := h
  rw [hmain] at hstaged
  refine ⟨⟨hflow.messages, hflow.nodup, hflow.mem_order⟩, hstaged.returned _, ?_, ?_⟩
  · exact fun hopen => absurd rfl (hopen _)
  · intro result hreturned
    cases hreturned
    exact ⟨rfl, hqueue, hstaged.all_ended hsenders⟩

theorem step (h : Inv P s order) {a : Action} (hs : Channels.step P s a = some s') :
    ∃ order', Inv P s' order' := by
  cases step_moved hs with
  | clone hmain hi => exact ⟨order, h.clone hmain hi⟩
  | spawn hmain => exact ⟨order, h.spawn hmain⟩
  | dropOriginal hmain hi => exact ⟨order, h.dropOriginal hmain hi⟩
  | sendClosed hready hclosed => exact (h.not_closed hready hclosed).elim
  | @send i hready hroom => exact ⟨order ++ [i], h.send hready⟩
  | dropClone hsent => exact ⟨order, h.dropClone hsent⟩
  | recv hmain hqueue => exact ⟨order, h.recv hmain hqueue⟩
  | seeEnd hmain hqueue hsenders => exact ⟨order, h.seeEnd hmain hqueue hsenders⟩

end Inv

/-- With an empty queue some sender can go on. -/
theorem sender_progress (h : Inv P s order) (hmain : s.main = .receiving) (hqueue : s.queue = [])
    (hsender : (s.producer i).holdsSender ≠ false) : ∃ a s', step P s a = some s' := by
  have hopen : s.receiver = true :=
    h.closing.receiver fun result hreturned => by cases hmain.symm.trans hreturned
  have hroom : (P.capacity.all fun c => decide (s.queue.length < c)) = true := by
    rw [hqueue]
    cases hcapacity : P.capacity with
    | none => rfl
    | some c => exact decide_eq_true (P.capacity_pos c hcapacity)
  cases hproducer : s.producer i with
  | unborn => exact absurd (by rw [hproducer]; rfl) hsender
  | cloned =>
    have hplaced := h.staged.placed i
    rw [hproducer, hmain] at hplaced
    cases hplaced with
    | cloned handing => cases handing
    | running lt run => rcases run with hrun | hrun | hrun <;> cases hrun
  | ready =>
    refine ⟨.send i,
      { s.setProducer i .sent with queue := s.queue ++ [P.message i] }, ?_⟩
    rw [step, if_pos hproducer, hopen, if_neg (fun h => nomatch h), if_pos hroom]
  | sent => exact ⟨.dropClone i, _, if_pos hproducer⟩
  | ended => exact absurd (by rw [hproducer]; rfl) hsender
  | panicked => exact absurd (by rw [hproducer]; rfl) hsender

theorem progress (h : Inv P s order) :
    (∃ result, s.main = .returned result) ∨ ∃ a s', step P s a = some s' := by
  cases hmain : s.main with
  | spawning i =>
    right
    by_cases hi : i < P.producers
    · refine ⟨.clone, { s.setProducer i .cloned with main := .handingOver i }, ?_⟩
      simp only [step, hmain]
      exact if_pos hi
    · refine ⟨.dropOriginal, { s with main := .receiving }, ?_⟩
      simp only [step, hmain]
      exact if_neg hi
  | handingOver i =>
    right
    refine ⟨.spawn, { s.setProducer i .ready with main := .spawning (i + 1) }, ?_⟩
    simp only [step, hmain]
  | returned result => exact Or.inl ⟨result, rfl⟩
  | receiving =>
    right
    cases hqueue : s.queue with
    | cons m rest =>
      have hfirst : s.queue[0]? = some m := by
        rw [hqueue]
        rfl
      exact ⟨.recv 0, _, (if_pos hmain).trans (congrArg _ hfirst)⟩
    | nil =>
      by_cases hsenders : ∀ i < P.producers, (s.producer i).holdsSender = false
      · exact ⟨.seeEnd, _, if_pos ⟨hmain, hqueue, hsenders⟩⟩
      · push Not at hsenders
        obtain ⟨i, -, hsender⟩ := hsenders
        exact sender_progress h hmain hqueue hsender

/-- How many steps a producer has before it, a message in the queue counted as one. -/
def weight : Producer → ℕ
  | .unborn => 5
  | .cloned => 4
  | .ready => 3
  | .sent => 1
  | .ended => 0
  | .panicked => 0

def mainWeight : Main → ℕ
  | .spawning _ => 2
  | .handingOver _ => 2
  | .receiving => 1
  | .returned _ => 0

def measure (P : Program) (s : State) : ℕ :=
  mainWeight s.main + Weights.total (fun _ => weight) P.producers s.producer + s.queue.length

/-- A producer goes on by a step that takes more off its weight than the queue grows. -/
theorem measure_lt_of_producer (main : Main) (queue : List String) (hi : i < P.producers)
    (hmain : mainWeight main = mainWeight s.main)
    (hlt : weight p + queue.length < weight (s.producer i) + s.queue.length) :
    measure P { s.setProducer i p with main := main, queue := queue } < measure P s := by
  have hsum := Weights.total_update (fun _ => weight) s.producer hi p
  show mainWeight main + Weights.total (fun _ => weight) P.producers
    (Function.update s.producer i p) + queue.length < _
  unfold measure
  omega

theorem measure_lt (h : Inv P s order) {a : Action} (hs : step P s a = some s') :
    measure P s' < measure P s := by
  have hstaged := h.staged
  have hborn := hstaged.born_le
  cases step_moved hs with
  | @clone i hmain hi =>
    rw [hmain] at hstaged
    apply measure_lt_of_producer _ s.queue hi
    · rw [hmain]
      rfl
    · rw [hstaged.next_unborn]
      simp only [weight]
      omega
  | @spawn i hmain =>
    have hi := hstaged.handing_lt i hmain
    rw [hmain] at hstaged
    apply measure_lt_of_producer _ s.queue hi
    · rw [hmain]
      rfl
    · rw [hstaged.handed_cloned]
      simp only [weight]
      omega
  | sendClosed hready hclosed => exact (h.not_closed hready hclosed).elim
  | @send i hready hroom =>
    have hi := hstaged.running (Or.inl hready)
    apply measure_lt_of_producer s.main _ (Nat.lt_of_lt_of_le hi hborn) rfl
    rw [hready, List.length_append, List.length_singleton]
    simp only [weight]
    omega
  | @dropClone i hsent =>
    have hi := hstaged.running (Or.inr hsent)
    apply measure_lt_of_producer s.main s.queue (Nat.lt_of_lt_of_le hi hborn) rfl
    rw [hsent]
    simp only [weight]
    omega
  | dropOriginal hmain hi =>
    simp only [measure, hmain, mainWeight]
    omega
  | @recv k m hmain hqueue =>
    obtain ⟨hk, -⟩ := List.getElem?_eq_some_iff.mp hqueue
    simp only [measure, List.length_eraseIdx_of_lt hk]
    omega
  | seeEnd hmain hqueue hsenders =>
    simp only [measure, hmain, mainWeight]
    omega

def messages (P : Program) : List String := (List.range P.producers).map P.message

theorem received_perm (h : Inv P s order) {result : List String}
    (hmain : s.main = .returned result) : s.received.Perm (messages P) := by
  obtain ⟨-, hqueue, hended⟩ := h.closing.returned result hmain
  have hmessages := h.flow.messages
  rw [hqueue, List.append_nil] at hmessages
  have horder : order.Perm (List.range P.producers) := by
    apply (List.perm_ext_iff_of_nodup h.flow.nodup List.nodup_range).mpr
    intro i
    rw [h.flow.mem_order, List.mem_range]
    constructor
    · intro hsent
      by_contra hge
      apply h.staged.not_sent _ hsent
      rw [hmain]
      exact Nat.le_of_not_lt hge
    · exact fun hi => Or.inr (hended i hi)
  exact hmessages.trans (horder.map P.message)

/-- In every interleaving a state is the last one or has a step, every run is finite, no send
panics, and the receive loop is left only with each message received once. -/
theorem program_collects {n : ℕ} {text : ℕ → String}
    (htext : messages P = (List.range n).map text) (h : Reachable (step P) initial s) :
    ((∃ result, s.main = .returned result) ∨ ∃ a s', step P s a = some s') ∧
    (∀ l s', run (step P) s l = some s' → l.length ≤ measure P s) ∧
    (∀ i, s.producer i ≠ .panicked) ∧
    ∀ result, s.main = .returned result →
      s.received.Perm ((List.range n).map text) ∧ result = sort ((List.range n).map text) ∧
        result.Pairwise (· ≤ ·) := by
  have hkept : ∀ s a s', (∃ order, Inv P s order) → step P s a = some s' →
      ∃ order, Inv P s' order := fun _ _ _ ⟨_, hinv⟩ hs => hinv.step hs
  have hinv : ∃ order, Inv P s order :=
    Reach.invariant (I := fun s => ∃ order, Inv P s order) ⟨[], Inv.new P⟩
      (fun s a s' hi _ hs => hkept s a s' hi hs) h
  refine ⟨?_, ?_, ?_, ?_⟩
  · obtain ⟨order, hinv⟩ := hinv
    exact progress hinv
  · intro l s' hrun
    have hbound := run_length_le (I := fun s => ∃ order, Inv P s order) (measure P)
      (fun s a s' hi hs => ⟨hkept s a s' hi hs, hi.elim fun _ hi => measure_lt hi hs⟩) hinv hrun
    omega
  · obtain ⟨order, hinv⟩ := hinv
    exact hinv.staged.not_panicked
  · intro result hmain
    obtain ⟨order, hinv⟩ := hinv
    have hperm := received_perm hinv hmain
    have hresult := (hinv.closing.returned result hmain).1
    rw [htext] at hperm
    rw [hresult]
    exact ⟨hperm, sort_eq_of_perm hperm, sort_pairwise _⟩

/-- The two functions end, from every interleaving, with each of the `n` messages received
once, and return them sorted. -/
theorem reachable_collects (n : ℕ) :
    ∀ p ∈ [(multiProducer n, fun i : ℕ => "msg from " ++ toString i),
      (fanIn n, fun i : ℕ => "producer " ++ toString i ++ ": message")], ∀ s,
    Reachable (step p.1) initial s →
    ((∃ result, s.main = .returned result) ∨ ∃ a s', step p.1 s a = some s') ∧
    (∀ l s', run (step p.1) s l = some s' → l.length ≤ measure p.1 s) ∧
    (∀ i, s.producer i ≠ .panicked) ∧
    ∀ result, s.main = .returned result →
      s.received.Perm ((List.range n).map p.2) ∧ result = sort ((List.range n).map p.2) ∧
        result.Pairwise (· ≤ ·) := by
  intro p hp s h
  rw [List.mem_pair] at hp
  rcases hp with rfl | rfl
  · exact program_collects rfl h
  · exact program_collects rfl h

/-- Producer 1 sends while the main task still holds its own sender; the message of producer 0,
sent later, is received first. -/
theorem reachable_collects_two_producers :
    ∃ s : State, run (step (fanIn 2)) initial [.clone, .spawn, .clone, .spawn, .send 1,
        .dropOriginal, .send 0, .recv 1, .dropClone 1, .dropClone 0, .recv 0, .seeEnd] = some s ∧
      s.received = ["producer 0: message", "producer 1: message"] ∧
      ∃ result, s.main = .returned result ∧
        result = sort ["producer 0: message", "producer 1: message"] := by
  obtain ⟨s, hrun, hmain, hreceived⟩ : ∃ s : State,
      run (step (fanIn 2)) initial [.clone, .spawn, .clone, .spawn, .send 1,
        .dropOriginal, .send 0, .recv 1, .dropClone 1, .dropClone 0, .recv 0, .seeEnd] = some s ∧
      s.main = .returned (sort s.received) ∧
      s.received = ["producer 0: message", "producer 1: message"] := ⟨_, rfl, rfl, rfl⟩
  obtain ⟨-, -, -, hend⟩ := reachable_collects 2
    (fanIn 2, fun i : ℕ => "producer " ++ toString i ++ ": message")
    (List.mem_cons_of_mem _ (List.mem_cons_self ..)) s (Reach.init.run hrun)
  obtain ⟨-, hresult, -⟩ := hend _ hmain
  exact ⟨s, hrun, hreceived, _, hmain, hresult⟩

end OsCamp.Channels
