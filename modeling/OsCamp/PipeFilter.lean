import Mathlib.Data.List.Induction
import OsCamp.Execution

/-!
A filter process between two bounded pipes, whose owner writes its whole input,
closes the pipe, and only then reads the output. Bytes move in chunks of any size
that fits; a writer waits while its pipe is full, a reader while it is empty and
the other end is open. The filter is an arbitrary byte transducer. Such a system
never stops halfway exactly where the filter's output cannot fill its pipe while
more input is left than the other pipe holds.
-/

set_option autoImplicit false

namespace OsCamp.PipeFilter

open Execution

variable {α σ : Type*}

/-- `feed` is what the filter puts out for one byte, `finish` what it adds at the end. -/
structure Filter (α σ : Type*) where
  start : σ
  feed : σ → α → σ × List α
  finish : σ → List α

namespace Filter

def consume (F : Filter α σ) : σ → List α → σ × List α
  | q, [] => (q, [])
  | q, b :: rest =>
    let fed := F.feed q b
    let later := F.consume fed.1 rest
    (later.1, fed.2 ++ later.2)

def stateAfter (F : Filter α σ) (l : List α) : σ := (F.consume F.start l).1

/-- The output for the bytes consumed so far. -/
def output (F : Filter α σ) (l : List α) : List α := (F.consume F.start l).2

/-- The output for a whole input. -/
def total (F : Filter α σ) (l : List α) : List α := F.output l ++ F.finish (F.stateAfter l)

variable {F : Filter α σ}

theorem consume_append (q : σ) (l l' : List α) :
    F.consume q (l ++ l') = ((F.consume (F.consume q l).1 l').1,
      (F.consume q l).2 ++ (F.consume (F.consume q l).1 l').2) := by
  induction l generalizing q with
  | nil => rfl
  | cons b rest ih => simp only [List.cons_append, consume, ih, List.append_assoc]

theorem stateAfter_append (l l' : List α) :
    F.stateAfter (l ++ l') = (F.consume (F.stateAfter l) l').1 := by
  simp only [stateAfter, consume_append]

theorem output_append (l l' : List α) :
    F.output (l ++ l') = F.output l ++ (F.consume (F.stateAfter l) l').2 := by
  simp only [output, stateAfter, consume_append]

theorem output_snoc (l : List α) (b : α) :
    F.output (l ++ [b]) = F.output l ++ (F.feed (F.stateAfter l) b).2 := by
  rw [output_append]
  simp only [consume, List.append_nil]

theorem stateAfter_snoc (l : List α) (b : α) :
    F.stateAfter (l ++ [b]) = (F.feed (F.stateAfter l) b).1 := by
  rw [stateAfter_append]
  rfl

theorem output_prefix_total (l l' : List α) : F.output l <+: F.total (l ++ l') := by
  unfold total
  rw [output_append, List.append_assoc]
  exact List.prefix_append _ _

end Filter

/-- The filter, the capacities of the pipes to and from it, and its read buffer. -/
structure Setup (α σ : Type*) where
  filter : Filter α σ
  inCap : ℕ
  outCap : ℕ
  buffer : ℕ
  inCap_pos : 1 ≤ inCap
  outCap_pos : 1 ≤ outCap
  buffer_pos : 1 ≤ buffer

inductive Owner
  | writing
  | reading
  | waiting
  | returned
  deriving DecidableEq

inductive Child
  | running
  | finishing
  | exited
  deriving DecidableEq

/-- `toWrite` is what the owner has not written yet, `pending` what the filter has
computed but not written, `received` what the owner has read. -/
structure State (α σ : Type*) where
  owner : Owner
  toWrite : List α
  inPipe : List α
  child : Child
  filterState : σ
  pending : List α
  outPipe : List α
  received : List α

inductive Action
  | write (n : ℕ)
  | close
  | fetch (n : ℕ)
  | seeEnd
  | emit (n : ℕ)
  | exit
  | read (n : ℕ)
  | readEnd
  | wait
  deriving DecidableEq

variable (P : Setup α σ)

def initial (input : List α) : State α σ :=
  ⟨.writing, input, [], .running, P.filter.start, [], [], []⟩

def step (s : State α σ) : Action → Option (State α σ)
  | .write n =>
    if s.owner = .writing ∧ 1 ≤ n ∧ n ≤ s.toWrite.length ∧ s.inPipe.length + n ≤ P.inCap then
      some { s with toWrite := s.toWrite.drop n, inPipe := s.inPipe ++ s.toWrite.take n }
    else none
  | .close =>
    if s.owner = .writing ∧ s.toWrite = [] then some { s with owner := .reading } else none
  | .fetch n =>
    if s.child = .running ∧ s.pending = [] ∧ 1 ≤ n ∧ n ≤ P.buffer ∧ n ≤ s.inPipe.length then
      let fed := P.filter.consume s.filterState (s.inPipe.take n)
      some { s with inPipe := s.inPipe.drop n, filterState := fed.1, pending := fed.2 }
    else none
  | .seeEnd =>
    if s.child = .running ∧ s.pending = [] ∧ s.inPipe = [] ∧ s.owner ≠ .writing then
      some { s with child := .finishing, pending := P.filter.finish s.filterState }
    else none
  | .emit n =>
    if s.child ≠ .exited ∧ 1 ≤ n ∧ n ≤ s.pending.length ∧ s.outPipe.length + n ≤ P.outCap then
      some { s with pending := s.pending.drop n, outPipe := s.outPipe ++ s.pending.take n }
    else none
  | .exit =>
    if s.child = .finishing ∧ s.pending = [] then some { s with child := .exited } else none
  | .read n =>
    if s.owner = .reading ∧ 1 ≤ n ∧ n ≤ s.outPipe.length then
      some { s with outPipe := s.outPipe.drop n, received := s.received ++ s.outPipe.take n }
    else none
  | .readEnd =>
    if s.owner = .reading ∧ s.outPipe = [] ∧ s.child = .exited then
      some { s with owner := .waiting }
    else none
  | .wait =>
    if s.owner = .waiting ∧ s.child = .exited then some { s with owner := .returned } else none

variable {P} {input : List α} {s s' : State α σ}

/-- Where the input is: consumed, in the pipe, or not yet written; and where the
output is: received, in the pipe, or pending. -/
structure Inv (P : Setup α σ) (input : List α) (s : State α σ) : Prop where
  split : ∃ consumed, input = consumed ++ (s.inPipe ++ s.toWrite) ∧
    s.filterState = P.filter.stateAfter consumed ∧
    (s.child = .running →
      P.filter.output consumed = s.received ++ (s.outPipe ++ s.pending))
  ended : s.child ≠ .running → s.owner ≠ .writing ∧ s.inPipe = [] ∧
    P.filter.total input = s.received ++ (s.outPipe ++ s.pending)
  exited : s.child = .exited → s.pending = []
  written : s.owner ≠ .writing → s.toWrite = []
  unread : s.owner = .writing → s.received = []
  finished : s.owner = .waiting ∨ s.owner = .returned → s.child = .exited ∧ s.outPipe = []
  inPipe_le : s.inPipe.length ≤ P.inCap
  outPipe_le : s.outPipe.length ≤ P.outCap

namespace Inv

theorem initial (input : List α) : Inv P input (initial P input) where
  split := ⟨[], rfl, rfl, fun _ => rfl⟩
  ended := fun h => absurd rfl h
  exited := fun h => nomatch h
  written := fun h => absurd rfl h
  unread := fun _ => rfl
  finished := fun h => by rcases h with h | h <;> cases h
  inPipe_le := Nat.zero_le _
  outPipe_le := Nat.zero_le _

/-- The output so far is a prefix of the whole output. -/
theorem length_le (h : Inv P input s) :
    s.received.length + s.outPipe.length + s.pending.length ≤ (P.filter.total input).length := by
  by_cases hchild : s.child = .running
  · obtain ⟨consumed, hinput, -, hout⟩ := h.split
    have hprefix := (P.filter.output_prefix_total consumed (s.inPipe ++ s.toWrite)).length_le
    rw [hout hchild, ← hinput] at hprefix
    simp only [List.length_append] at hprefix
    omega
  · have htotal := congrArg List.length (h.ended hchild).2.2
    simp only [List.length_append] at htotal
    omega

theorem running (h : Inv P input s) (howner : s.owner = .writing) : s.child = .running := by
  by_contra hchild
  exact (h.ended hchild).1 howner

theorem received_eq_total (h : Inv P input s) (hreturned : s.owner = .returned) :
    s.received = P.filter.total input := by
  obtain ⟨hexited, hempty⟩ := h.finished (Or.inr hreturned)
  have hne : s.child ≠ .running := by simp [hexited]
  have htotal := (h.ended hne).2.2
  rw [hempty, h.exited hexited] at htotal
  simpa using htotal.symm

theorem write (h : Inv P input s) {n : ℕ} (howner : s.owner = .writing)
    (hn : n ≤ s.toWrite.length) (hfit : s.inPipe.length + n ≤ P.inCap) :
    Inv P input
      { s with toWrite := s.toWrite.drop n, inPipe := s.inPipe ++ s.toWrite.take n } := by
  obtain ⟨consumed, hinput, hstate, hout⟩ := h.split
  refine { h with split := ⟨consumed, ?_, hstate, hout⟩, ended := ?_, written := ?_,
                  inPipe_le := ?_ }
  · rw [hinput, List.append_assoc s.inPipe, List.take_append_drop]
  · exact fun hchild => absurd (h.running howner) hchild
  · exact fun hne => absurd howner hne
  · show (s.inPipe ++ s.toWrite.take n).length ≤ P.inCap
    simp only [List.length_append, List.length_take]
    omega

theorem close (h : Inv P input s) (howner : s.owner = .writing) (hempty : s.toWrite = []) :
    Inv P input { s with owner := .reading } := by
  refine { h with ended := ?_, written := fun _ => hempty, unread := ?_, finished := ?_ }
  · exact fun hchild => absurd (h.running howner) hchild
  · exact fun hreading => nomatch hreading
  · exact fun hdone => by simp at hdone

theorem fetch (h : Inv P input s) {n : ℕ} (hrun : s.child = .running)
    (hpending : s.pending = []) :
    Inv P input
      { s with
        inPipe := s.inPipe.drop n
        filterState := (P.filter.consume s.filterState (s.inPipe.take n)).1
        pending := (P.filter.consume s.filterState (s.inPipe.take n)).2 } := by
  obtain ⟨consumed, hinput, hstate, hout⟩ := h.split
  refine { h with split := ⟨consumed ++ s.inPipe.take n, ?_, ?_, ?_⟩, ended := ?_,
                  exited := ?_, inPipe_le := ?_ }
  · rw [hinput, List.append_assoc, ← List.append_assoc (s.inPipe.take n),
      List.take_append_drop]
  · rw [Filter.stateAfter_append, hstate]
  · intro _
    show P.filter.output (consumed ++ s.inPipe.take n) = _
    rw [Filter.output_append, hout hrun, hpending, hstate, List.append_nil, List.append_assoc]
  · exact fun hchild => absurd hrun hchild
  · intro hexit
    simp [hrun] at hexit
  · show (s.inPipe.drop n).length ≤ P.inCap
    have hle := h.inPipe_le
    simp only [List.length_drop]
    omega

theorem seeEnd (h : Inv P input s) (hrun : s.child = .running) (hpending : s.pending = [])
    (hempty : s.inPipe = []) (howner : s.owner ≠ .writing) :
    Inv P input { s with child := .finishing, pending := P.filter.finish s.filterState } := by
  obtain ⟨consumed, hinput, hstate, hout⟩ := h.split
  have hall : input = consumed := by
    rw [hinput, hempty, h.written howner]
    simp
  refine { h with split := ⟨consumed, hinput, hstate, ?_⟩, ended := ?_, exited := ?_,
                  finished := ?_ }
  · exact fun hchild => nomatch hchild
  · intro _
    refine ⟨howner, hempty, ?_⟩
    show P.filter.total input = s.received ++ (s.outPipe ++ P.filter.finish s.filterState)
    unfold Filter.total
    rw [hall, hout hrun, hpending, hstate, List.append_nil, List.append_assoc]
  · exact fun hexit => nomatch hexit
  · intro hdone
    have hexited := (h.finished hdone).1
    simp [hrun] at hexited

theorem emit (h : Inv P input s) {n : ℕ} (hchild : s.child ≠ .exited)
    (hn : n ≤ s.pending.length) (hfit : s.outPipe.length + n ≤ P.outCap) :
    Inv P input
      { s with pending := s.pending.drop n, outPipe := s.outPipe ++ s.pending.take n } := by
  obtain ⟨consumed, hinput, hstate, hout⟩ := h.split
  have hmove : s.outPipe ++ s.pending.take n ++ s.pending.drop n = s.outPipe ++ s.pending := by
    rw [List.append_assoc, List.take_append_drop]
  refine { h with split := ⟨consumed, hinput, hstate, ?_⟩, ended := ?_, exited := ?_,
                  finished := ?_, outPipe_le := ?_ }
  · intro hrun
    rw [hmove]
    exact hout hrun
  · intro hne
    rw [hmove]
    exact h.ended hne
  · exact fun hexit => absurd hexit hchild
  · exact fun hdone => absurd (h.finished hdone).1 hchild
  · show (s.outPipe ++ s.pending.take n).length ≤ P.outCap
    simp only [List.length_append, List.length_take]
    omega

theorem exit (h : Inv P input s) (hchild : s.child = .finishing) (hpending : s.pending = []) :
    Inv P input { s with child := .exited } := by
  obtain ⟨consumed, hinput, hstate, -⟩ := h.split
  have hne : s.child ≠ .running := by simp [hchild]
  refine { h with split := ⟨consumed, hinput, hstate, fun hrun => nomatch hrun⟩,
                  ended := fun _ => h.ended hne, exited := fun _ => hpending, finished := ?_ }
  exact fun hdone => ⟨rfl, (h.finished hdone).2⟩

theorem read (h : Inv P input s) {n : ℕ} (howner : s.owner = .reading) :
    Inv P input
      { s with outPipe := s.outPipe.drop n, received := s.received ++ s.outPipe.take n } := by
  obtain ⟨consumed, hinput, hstate, hout⟩ := h.split
  have hmove : s.received ++ s.outPipe.take n ++ (s.outPipe.drop n ++ s.pending) =
      s.received ++ (s.outPipe ++ s.pending) := by
    rw [List.append_assoc, ← List.append_assoc (s.outPipe.take n), List.take_append_drop]
  refine { h with split := ⟨consumed, hinput, hstate, ?_⟩, ended := ?_, unread := ?_,
                  finished := ?_, outPipe_le := ?_ }
  · intro hrun
    rw [hmove]
    exact hout hrun
  · intro hne
    rw [hmove]
    exact h.ended hne
  · intro hwriting
    simp [howner] at hwriting
  · intro hdone
    simp [howner] at hdone
  · show (s.outPipe.drop n).length ≤ P.outCap
    have hle := h.outPipe_le
    simp only [List.length_drop]
    omega

/-- The owner has seen the end, and waits for the child or returns. -/
theorem leave (h : Inv P input s) {owner : Owner} (hopen : s.owner ≠ .writing)
    (howner : owner ≠ .writing) (hexit : s.child = .exited) (hempty : s.outPipe = []) :
    Inv P input { s with owner := owner } :=
  { h with
    ended := fun hne => ⟨howner, (h.ended hne).2⟩
    written := fun _ => h.written hopen
    unread := fun heq => absurd heq howner
    finished := fun _ => ⟨hexit, hempty⟩ }

theorem step (h : Inv P input s) {a : Action} (hs : step P s a = some s') : Inv P input s' := by
  cases a with
  | write n =>
    obtain ⟨⟨howner, -, hn, hfit⟩, hres⟩ := Option.ite_none_right_eq_some.mp hs
    cases hres
    exact h.write howner hn hfit
  | close =>
    obtain ⟨⟨howner, hempty⟩, hres⟩ := Option.ite_none_right_eq_some.mp hs
    cases hres
    exact h.close howner hempty
  | fetch n =>
    obtain ⟨⟨hrun, hpending, -⟩, hres⟩ := Option.ite_none_right_eq_some.mp hs
    cases hres
    exact h.fetch hrun hpending
  | seeEnd =>
    obtain ⟨⟨hrun, hpending, hempty, howner⟩, hres⟩ := Option.ite_none_right_eq_some.mp hs
    cases hres
    exact h.seeEnd hrun hpending hempty howner
  | emit n =>
    obtain ⟨⟨hchild, -, hn, hfit⟩, hres⟩ := Option.ite_none_right_eq_some.mp hs
    cases hres
    exact h.emit hchild hn hfit
  | exit =>
    obtain ⟨⟨hchild, hpending⟩, hres⟩ := Option.ite_none_right_eq_some.mp hs
    cases hres
    exact h.exit hchild hpending
  | read n =>
    obtain ⟨⟨howner, -⟩, hres⟩ := Option.ite_none_right_eq_some.mp hs
    cases hres
    exact h.read howner
  | readEnd =>
    obtain ⟨⟨howner, hempty, hexit⟩, hres⟩ := Option.ite_none_right_eq_some.mp hs
    cases hres
    exact h.leave (by simp [howner]) (by simp) hexit hempty
  | wait =>
    obtain ⟨⟨howner, hexit⟩, hres⟩ := Option.ite_none_right_eq_some.mp hs
    cases hres
    exact h.leave (by simp [howner]) (by simp) hexit (h.finished (Or.inl howner)).2

end Inv

theorem reachable_inv (h : Reachable (step P) (initial P input) s) : Inv P input s :=
  h.invariant (Inv.initial input) fun _ _ _ hinv _ hs => hinv.step hs

def Owner.rank : Owner → ℕ
  | .writing => 3
  | .reading => 2
  | .waiting => 1
  | .returned => 0

def Child.rank : Child → ℕ
  | .running => 2
  | .finishing => 1
  | .exited => 0

/-- A byte of input has two moves to make, and so has a byte of output. -/
def work (P : Setup α σ) (input : List α) (s : State α σ) : ℕ :=
  2 * s.toWrite.length + s.inPipe.length +
    2 * ((P.filter.total input).length - s.received.length - s.outPipe.length) +
    s.outPipe.length + s.owner.rank + s.child.rank

theorem work_lt (h : Inv P input s) {a : Action} (hs : step P s a = some s') :
    work P input s' < work P input s := by
  have hle := h.length_le
  cases a with
  | write n =>
    obtain ⟨⟨-, hpos, hn, -⟩, hres⟩ := Option.ite_none_right_eq_some.mp hs
    cases hres
    simp only [work, List.length_append, List.length_take, List.length_drop]
    omega
  | close =>
    obtain ⟨⟨howner, -⟩, hres⟩ := Option.ite_none_right_eq_some.mp hs
    cases hres
    simp only [work, howner, Owner.rank]
    omega
  | fetch n =>
    obtain ⟨⟨-, -, hpos, -, hn⟩, hres⟩ := Option.ite_none_right_eq_some.mp hs
    cases hres
    simp only [work, List.length_drop]
    omega
  | seeEnd =>
    obtain ⟨⟨hrun, -⟩, hres⟩ := Option.ite_none_right_eq_some.mp hs
    cases hres
    simp only [work, hrun, Child.rank]
    omega
  | emit n =>
    obtain ⟨⟨-, hpos, hn, -⟩, hres⟩ := Option.ite_none_right_eq_some.mp hs
    cases hres
    simp only [work, List.length_append, List.length_take]
    omega
  | exit =>
    obtain ⟨⟨hchild, -⟩, hres⟩ := Option.ite_none_right_eq_some.mp hs
    cases hres
    simp only [work, hchild, Child.rank]
    omega
  | read n =>
    obtain ⟨⟨-, hpos, hn⟩, hres⟩ := Option.ite_none_right_eq_some.mp hs
    cases hres
    simp only [work, List.length_append, List.length_take, List.length_drop]
    omega
  | readEnd =>
    obtain ⟨⟨howner, -⟩, hres⟩ := Option.ite_none_right_eq_some.mp hs
    cases hres
    simp only [work, howner, Owner.rank]
    omega
  | wait =>
    obtain ⟨⟨howner, -⟩, hres⟩ := Option.ite_none_right_eq_some.mp hs
    cases hres
    simp only [work, howner, Owner.rank]
    omega

theorem write_enabled (howner : s.owner = .writing) (hleft : s.toWrite ≠ [])
    (hroom : s.inPipe.length < P.inCap) : ∃ a s', step P s a = some s' := by
  have hpos := List.length_pos_iff.mpr hleft
  exact ⟨.write 1, _, if_pos ⟨howner, Nat.le_refl 1, hpos, hroom⟩⟩

theorem fetch_enabled (hchild : s.child = .running) (hpending : s.pending = [])
    (hfull : s.inPipe ≠ []) : ∃ a s', step P s a = some s' := by
  have hpos := List.length_pos_iff.mpr hfull
  exact ⟨.fetch 1, _, if_pos ⟨hchild, hpending, Nat.le_refl 1, P.buffer_pos, hpos⟩⟩

theorem emit_enabled (hchild : s.child ≠ .exited) (hpending : s.pending ≠ [])
    (hroom : s.outPipe.length < P.outCap) : ∃ a s', step P s a = some s' := by
  have hpos := List.length_pos_iff.mpr hpending
  exact ⟨.emit 1, _, if_pos ⟨hchild, Nat.le_refl 1, hpos, hroom⟩⟩

theorem read_enabled (howner : s.owner = .reading) (hfull : s.outPipe ≠ []) :
    ∃ a s', step P s a = some s' := by
  have hpos := List.length_pos_iff.mpr hfull
  exact ⟨.read 1, _, if_pos ⟨howner, Nat.le_refl 1, hpos⟩⟩

/-- While the filter has put out more than its pipe holds, no more input is left than
the other pipe holds. -/
def Roomy (P : Setup α σ) (input : List α) : Prop :=
  ∀ pre post, input = pre ++ post → P.outCap < (P.filter.output pre).length →
    post.length ≤ P.inCap

/-- Once the owner has closed its end, somebody can always move. -/
theorem progress_reading (howner : s.owner = .reading) :
    ∃ a s', step P s a = some s' := by
  by_cases hout : s.outPipe = []
  swap
  · exact read_enabled howner hout
  have hroom : s.outPipe.length < P.outCap := by
    rw [hout]
    exact P.outCap_pos
  have hopen : s.owner ≠ .writing := by simp [howner]
  cases hchild : s.child with
  | running =>
    by_cases hpending : s.pending = []
    · by_cases hin : s.inPipe = []
      · exact ⟨.seeEnd, _, if_pos ⟨hchild, hpending, hin, hopen⟩⟩
      · exact fetch_enabled hchild hpending hin
    · exact emit_enabled (by simp [hchild]) hpending hroom
  | finishing =>
    by_cases hpending : s.pending = []
    · exact ⟨.exit, _, if_pos ⟨hchild, hpending⟩⟩
    · exact emit_enabled (by simp [hchild]) hpending hroom
  | exited => exact ⟨.readEnd, _, if_pos ⟨howner, hout, hchild⟩⟩

theorem progress (h : Inv P input s) (hroomy : Roomy P input) :
    s.owner = .returned ∨ ∃ a s', step P s a = some s' := by
  cases howner : s.owner with
  | writing =>
    right
    have hrun := h.running howner
    by_cases hleft : s.toWrite = []
    · exact ⟨.close, _, if_pos ⟨howner, hleft⟩⟩
    by_cases hroom : s.inPipe.length < P.inCap
    · exact write_enabled howner hleft hroom
    have hin : s.inPipe ≠ [] := by
      intro hempty
      have hcap := P.inCap_pos
      simp only [hempty, List.length_nil] at hroom
      omega
    by_cases hpending : s.pending = []
    · exact fetch_enabled hrun hpending hin
    by_cases hfree : s.outPipe.length < P.outCap
    · exact emit_enabled (by simp [hrun]) hpending hfree
    -- Both writers wait: then the input was not roomy.
    obtain ⟨consumed, hinput, -, hout⟩ := h.split
    have hpos := List.length_pos_iff.mpr hpending
    have hmore := List.length_pos_iff.mpr hleft
    have hover : P.outCap < (P.filter.output consumed).length := by
      rw [hout hrun]
      simp only [List.length_append]
      omega
    have hfit := hroomy consumed _ hinput hover
    simp only [List.length_append] at hfit
    omega
  | reading => exact Or.inr (progress_reading howner)
  | waiting => exact Or.inr ⟨.wait, _, if_pos ⟨howner, (h.finished (Or.inl howner)).1⟩⟩
  | returned => exact Or.inl rfl

/-- The filter has consumed `pre` and put all of its output into the pipe. -/
def drained (P : Setup α σ) (pre rest : List α) : State α σ :=
  ⟨.writing, rest, [], .running, P.filter.stateAfter pre, [], P.filter.output pre, []⟩

/-- The filter has also consumed `b`, and holds what it has to put out for it. -/
def holding (P : Setup α σ) (pre : List α) (b : α) (rest : List α) : State α σ :=
  ⟨.writing, rest, [], .running, P.filter.stateAfter (pre ++ [b]),
    (P.filter.feed (P.filter.stateAfter pre) b).2, P.filter.output pre, []⟩

theorem reachable_holding {pre rest : List α} {b : α}
    (h : Reachable (step P) (initial P input) (drained P pre (b :: rest))) :
    Reachable (step P) (initial P input) (holding P pre b rest) := by
  have hwrite : step P (drained P pre (b :: rest)) (.write 1) =
      some { drained P pre (b :: rest) with toWrite := rest, inPipe := [b] } :=
    if_pos ⟨rfl, Nat.le_refl 1, by simp [drained], P.inCap_pos⟩
  have hfetch : step P { drained P pre (b :: rest) with toWrite := rest, inPipe := [b] }
      (.fetch 1) = some (holding P pre b rest) := by
    apply (if_pos ⟨rfl, rfl, Nat.le_refl 1, P.buffer_pos, Nat.le_refl 1⟩).trans
    simp only [drained, holding, Filter.stateAfter_append, Filter.consume, List.take_one,
      List.head?_cons, Option.toList_some, List.drop_one, List.tail_cons, List.append_nil]
  exact Reach.step _ (Reach.step _ h trivial hwrite) trivial hfetch

/-- The filter may put any part of what it holds into the pipe, none of it included. -/
theorem reachable_emit {n : ℕ} (h : Reachable (step P) (initial P input) s)
    (hchild : s.child = .running) (hn : n ≤ s.pending.length)
    (hfit : s.outPipe.length + n ≤ P.outCap) :
    Reachable (step P) (initial P input)
      { s with pending := s.pending.drop n, outPipe := s.outPipe ++ s.pending.take n } := by
  by_cases hzero : n = 0
  · subst hzero
    simpa using h
  · have hpos : 1 ≤ n := by omega
    exact Reach.step (.emit n) h trivial (if_pos ⟨by simp [hchild], hpos, hn, hfit⟩)

theorem reachable_write {n : ℕ} (h : Reachable (step P) (initial P input) s)
    (howner : s.owner = .writing) (hpos : 1 ≤ n) (hn : n ≤ s.toWrite.length)
    (hfit : s.inPipe.length + n ≤ P.inCap) :
    Reachable (step P) (initial P input)
      { s with toWrite := s.toWrite.drop n, inPipe := s.inPipe ++ s.toWrite.take n } :=
  Reach.step (.write n) h trivial (if_pos ⟨howner, hpos, hn, hfit⟩)

theorem reachable_drained {pre rest : List α} (hinput : input = pre ++ rest)
    (hfit : (P.filter.output pre).length ≤ P.outCap) :
    Reachable (step P) (initial P input) (drained P pre rest) := by
  induction pre using List.reverseRecOn generalizing rest with
  | nil =>
    rw [List.nil_append] at hinput
    subst hinput
    exact Reach.init
  | append_singleton pre b ih =>
    rw [Filter.output_snoc, List.length_append] at hfit
    have hbefore : Reachable (step P) (initial P input) (drained P pre (b :: rest)) :=
      ih (by simpa using hinput) (by omega)
    have hemit := reachable_emit (reachable_holding hbefore) rfl (Nat.le_refl _) hfit
    simpa only [holding, drained, List.drop_length, List.take_length, ← Filter.output_snoc]
      using hemit

/-- Neither can move: the owner has bytes left for a full pipe, and so has the filter. -/
theorem stuck_of_full (howner : s.owner = .writing) (hleft : s.toWrite ≠ [])
    (hin : s.inPipe.length = P.inCap) (hpending : s.pending ≠ [])
    (hout : s.outPipe.length = P.outCap) (a : Action) : step P s a = none := by
  cases a with
  | write n =>
    apply if_neg
    rintro ⟨-, hpos, -, hfit⟩
    omega
  | close => exact if_neg fun hguard => hleft hguard.2
  | fetch n => exact if_neg fun hguard => hpending hguard.2.1
  | seeEnd => exact if_neg fun hguard => hpending hguard.2.1
  | emit n =>
    apply if_neg
    rintro ⟨-, hpos, -, hfit⟩
    omega
  | exit => exact if_neg fun hguard => hpending hguard.2
  | read n =>
    apply if_neg
    rintro ⟨hreading, -⟩
    simp [howner] at hreading
  | readEnd =>
    apply if_neg
    rintro ⟨hreading, -⟩
    simp [howner] at hreading
  | wait =>
    apply if_neg
    rintro ⟨hwaiting, -⟩
    simp [howner] at hwaiting

/-- The shortest part of the input whose output no longer fits. -/
theorem exists_first_overflow {F : Filter α σ} {cap : ℕ} (l : List α)
    (hover : cap < (F.output l).length) :
    ∃ pre b rest, l = pre ++ b :: rest ∧ (F.output pre).length ≤ cap ∧
      cap < (F.output (pre ++ [b])).length := by
  induction l using List.reverseRecOn with
  | nil => exact absurd hover (Nat.not_lt_zero _)
  | append_singleton l b ih =>
    by_cases hearlier : cap < (F.output l).length
    · obtain ⟨pre, c, rest, hl, hfit, hfirst⟩ := ih hearlier
      refine ⟨pre, c, rest ++ [b], ?_, hfit, hfirst⟩
      rw [hl]
      simp
    · exact ⟨l, b, [], rfl, by omega, hover⟩

theorem exists_stuck (hroomy : ¬ Roomy P input) :
    ∃ s, Reachable (step P) (initial P input) s ∧ s.owner = .writing ∧
      ∀ a, step P s a = none := by
  simp only [Roomy, not_forall] at hroomy
  obtain ⟨whole, post, hinput, hover, hlong⟩ := hroomy
  obtain ⟨pre, b, rest, hwhole, hfit, hfirst⟩ := exists_first_overflow whole hover
  have hinput' : input = pre ++ b :: (rest ++ post) := by
    rw [hinput, hwhole]
    simp
  have hholding := reachable_holding (reachable_drained hinput' hfit)
  rw [Filter.output_snoc, List.length_append] at hfirst
  have hlong' : P.inCap < (rest ++ post).length := by
    rw [List.length_append]
    omega
  -- The filter fills its pipe and keeps at least one byte.
  have hfull := reachable_emit (n := P.outCap - (P.filter.output pre).length) hholding rfl
    (by simp only [holding]; omega) (by simp only [holding]; omega)
  have hwrite := reachable_write (n := P.inCap) hfull rfl P.inCap_pos
    (by simp only [holding]; omega) (by simp [holding])
  refine ⟨_, hwrite, rfl, stuck_of_full rfl ?_ ?_ ?_ ?_⟩
  · apply List.ne_nil_of_length_pos
    simp only [holding, List.length_drop]
    omega
  · simp only [holding, List.nil_append, List.length_take]
    omega
  · apply List.ne_nil_of_length_pos
    simp only [holding, List.length_drop]
    omega
  · simp only [holding, List.length_append, List.length_take]
    omega

theorem deadlock_free_iff :
    (∀ s, Reachable (step P) (initial P input) s →
      s.owner = .returned ∨ ∃ a s', step P s a = some s') ↔ Roomy P input := by
  constructor
  · intro hfree
    by_contra hroomy
    obtain ⟨s, hreach, howner, hstuck⟩ := exists_stuck hroomy
    rcases hfree s hreach with hreturned | ⟨a, s', hs⟩
    · rw [howner] at hreturned
      cases hreturned
    · rw [hstuck a] at hs
      cases hs
  · exact fun hroomy s hreach => progress (reachable_inv hreach) hroomy

theorem run_length_le_work {l : List Action}
    (hrun : Execution.run (step P) (initial P input) l = some s) :
    l.length ≤ work P input (initial P input) := by
  have hle := run_length_le (work P input) (I := Inv P input)
    (fun _ _ _ hinv hs => ⟨hinv.step hs, work_lt hinv hs⟩) (Inv.initial input) hrun
  omega

theorem exists_returned (hroomy : Roomy P input) :
    ∃ s, Reachable (step P) (initial P input) s ∧ s.owner = .returned := by
  obtain ⟨l, s, hrun, -, hreturned⟩ := exists_run_final (fun s => s.owner = .returned)
    (work P input) (I := Inv P input)
    (fun _ _ _ hinv hs => ⟨hinv.step hs, work_lt hinv hs⟩)
    (fun _ hinv => progress hinv hroomy) (Inv.initial input)
  exact ⟨s, Reach.init.run hrun, hreturned⟩

end OsCamp.PipeFilter
