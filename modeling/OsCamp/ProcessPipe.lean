import OsCamp.PipeFilter

/-!
`pipe_through_cat` and `pipe_through_grep`. The parent writes the whole input to the
child's standard input, drops that end, and only then reads the child's standard
output to its end and waits. The pipes hold any positive number of bytes. The child
programs are filters: `cat` copies what it reads; `grep` is any filter whose output
for a whole input is that of a pattern that matches every line, however it buffers.
-/

set_option autoImplicit false

namespace OsCamp.ProcessPipe

open Execution PipeFilter

/-- What `input.as_bytes()` hands to `write_all`. -/
def asBytes (input : String) : List UInt8 := input.toByteArray.data.toList

/-- `read_to_string` on everything the child wrote; it fails on bytes that are not UTF-8. -/
def readToString (received : List UInt8) : Option String :=
  String.fromUTF8? ⟨received.toArray⟩

theorem readToString_eq_some (received : List UInt8) (s : String) :
    readToString received = some s ↔ received = asBytes s := by
  unfold readToString String.fromUTF8? asBytes
  constructor
  · intro h
    obtain ⟨hvalid, hres⟩ := (Option.dite_none_right_eq_some.mp h)
    cases hres
    rfl
  · intro h
    have hbytes : (⟨received.toArray⟩ : ByteArray) = s.toByteArray := by
      rw [h]
    rw [hbytes]
    exact dif_pos s.isValidUTF8

/-- Sizes of the child's standard input and output pipes, and of its read buffer. -/
structure Pipes where
  stdin : ℕ
  stdout : ℕ
  buffer : ℕ
  stdin_pos : 1 ≤ stdin := by decide
  stdout_pos : 1 ≤ stdout := by decide
  buffer_pos : 1 ≤ buffer := by decide

variable {σ : Type*}

/-- Spawn the program with both ends piped. -/
def Pipes.spawn (K : Pipes) (program : Filter UInt8 σ) : Setup UInt8 σ where
  filter := program
  inCap := K.stdin
  outCap := K.stdout
  buffer := K.buffer
  inCap_pos := K.stdin_pos
  outCap_pos := K.stdout_pos
  buffer_pos := K.buffer_pos

/-- The call ends with `expected` however the two processes are scheduled. -/
structure Completes (P : Setup UInt8 σ) (input expected : String) : Prop where
  never_stuck : ∀ s, Reachable (step P) (initial P (asBytes input)) s →
    s.owner = .returned ∨ ∃ a s', step P s a = some s'
  ends : ∃ n, ∀ l s, run (step P) (initial P (asBytes input)) l = some s → l.length ≤ n
  output : ∀ s, Reachable (step P) (initial P (asBytes input)) s → s.owner = .returned →
    readToString s.received = some expected

theorem completes_iff_roomy (P : Setup UInt8 σ) (input expected : String) :
    Completes P input expected ↔
      Roomy P (asBytes input) ∧ P.filter.total (asBytes input) = asBytes expected := by
  constructor
  · intro h
    have hroomy := deadlock_free_iff.mp h.never_stuck
    refine ⟨hroomy, ?_⟩
    obtain ⟨s, hreach, hreturned⟩ := exists_returned hroomy
    rw [← (reachable_inv hreach).received_eq_total hreturned]
    exact (readToString_eq_some _ _).mp (h.output s hreach hreturned)
  · rintro ⟨hroomy, htotal⟩
    constructor
    · exact deadlock_free_iff.mpr hroomy
    · exact ⟨_, fun _ _ hrun => run_length_le_work hrun⟩
    · intro s hreach hreturned
      apply (readToString_eq_some _ _).mpr
      rw [(reachable_inv hreach).received_eq_total hreturned]
      exact htotal

def cat : Filter UInt8 Unit where
  start := ()
  feed _ b := ((), [b])
  finish _ := []

theorem cat_output (l : List UInt8) : cat.output l = l := by
  induction l using List.reverseRecOn with
  | nil => rfl
  | append_singleton l b ih =>
    rw [Filter.output_snoc, ih]
    rfl

theorem cat_total (l : List UInt8) : cat.total l = l := by
  show cat.output l ++ [] = l
  rw [List.append_nil, cat_output]

def pipeThroughCat (K : Pipes) : Setup UInt8 Unit := K.spawn cat

theorem cat_roomy_iff (K : Pipes) (l : List UInt8) :
    Roomy (pipeThroughCat K) l ↔ l.length ≤ K.stdin + K.stdout + 1 := by
  constructor
  · intro h
    by_contra hlong
    have hover : K.stdout < (cat.output (l.take (K.stdout + 1))).length := by
      rw [cat_output, List.length_take]
      omega
    have hfit : (l.drop (K.stdout + 1)).length ≤ K.stdin :=
      h _ _ (List.take_append_drop (K.stdout + 1) l).symm hover
    rw [List.length_drop] at hfit
    omega
  · rintro h pre post rfl hover
    have hover' : K.stdout < pre.length := by
      simpa only [pipeThroughCat, Pipes.spawn, cat_output] using hover
    show post.length ≤ K.stdin
    rw [List.length_append] at h
    omega

def newline : UInt8 := 10

/-- The text is empty or its last line is terminated. -/
def EndsLine (l : List UInt8) : Prop := l = [] ∨ l.getLast? = some newline

instance (l : List UInt8) : Decidable (EndsLine l) :=
  inferInstanceAs (Decidable (_ ∨ _))

/-- The pattern selects every line: the output is the input, its last line terminated. -/
def MatchesEveryLine (program : Filter UInt8 σ) : Prop :=
  ∀ l, program.total l = if EndsLine l then l else l ++ [newline]

def pipeThroughGrep (K : Pipes) (grep : String → Filter UInt8 σ) (pattern : String) :
    Setup UInt8 σ :=
  K.spawn (grep pattern)

theorem MatchesEveryLine.total_eq_self_iff {program : Filter UInt8 σ}
    (h : MatchesEveryLine program) (l : List UInt8) : program.total l = l ↔ EndsLine l := by
  rw [h l]
  constructor
  · intro heq
    by_contra hends
    rw [if_neg hends] at heq
    simpa using congrArg List.length heq
  · exact fun hends => if_pos hends

/-- A `grep` that puts each selected line out when it has read its end. -/
def lineGrep (selects : List UInt8 → Bool) : Filter UInt8 (List UInt8) where
  start := []
  feed line b :=
    if b = newline then ([], if selects line then line ++ [newline] else [])
    else (line ++ [b], [])
  finish line := if line ≠ [] ∧ selects line then line ++ [newline] else []

section Everything

variable {selects : List UInt8 → Bool} (hall : ∀ line, selects line = true)

include hall

/-- The lines put out and the line being read make up the input; none is being read
exactly where the text ends a line. -/
theorem lineGrep_consumed (l : List UInt8) :
    (lineGrep selects).output l ++ (lineGrep selects).stateAfter l = l ∧
      EndsLine ((lineGrep selects).output l) ∧
      (EndsLine l ↔ (lineGrep selects).stateAfter l = []) := by
  induction l using List.reverseRecOn with
  | nil => exact ⟨rfl, Or.inl rfl, fun _ => rfl, fun _ => Or.inl rfl⟩
  | append_singleton l b ih =>
    obtain ⟨hsplit, hends, -⟩ := ih
    rw [Filter.output_snoc, Filter.stateAfter_snoc]
    by_cases hnl : b = newline
    · have hfeed : (lineGrep selects).feed ((lineGrep selects).stateAfter l) b =
          ([], (lineGrep selects).stateAfter l ++ [newline]) := by
        simp [lineGrep, hnl, hall]
      rw [hfeed, ← List.append_assoc, hsplit, hnl]
      simp [EndsLine]
    · have hfeed : (lineGrep selects).feed ((lineGrep selects).stateAfter l) b =
          ((lineGrep selects).stateAfter l ++ [b], []) := by
        simp [lineGrep, hnl]
      rw [hfeed, List.append_nil, ← List.append_assoc, hsplit]
      refine ⟨rfl, hends, ?_⟩
      simp [EndsLine, hnl]

theorem lineGrep_matchesEveryLine : MatchesEveryLine (lineGrep selects) := by
  intro l
  obtain ⟨hsplit, -, hends⟩ := lineGrep_consumed hall l
  show (lineGrep selects).output l ++ (if _ then _ else _) = _
  by_cases hline : EndsLine l
  · have hempty := hends.mp hline
    rw [hempty, List.append_nil] at hsplit
    simp [hempty, hsplit, hline]
  · have hrest : (lineGrep selects).stateAfter l ≠ [] := fun h => hline (hends.mpr h)
    simp only [hrest, hall, ne_eq, not_false_eq_true, and_self, if_true, hline, if_false]
    rw [← List.append_assoc, hsplit]

/-- Line by line, what counts is each line end from which on the output no longer fits. -/
theorem lineGrep_roomy_iff (K : Pipes) (l : List UInt8) :
    Roomy (K.spawn (lineGrep selects)) l ↔
      ∀ pre post, l = pre ++ newline :: post → K.stdout ≤ pre.length →
        post.length ≤ K.stdin := by
  constructor
  · rintro h pre post rfl hlong
    have hends : EndsLine (pre ++ [newline]) := Or.inr (by simp)
    obtain ⟨hsplit, -, hstate⟩ := lineGrep_consumed hall (pre ++ [newline])
    rw [hstate.mp hends, List.append_nil] at hsplit
    apply h (pre ++ [newline]) post (by simp)
    show K.stdout < ((lineGrep selects).output (pre ++ [newline])).length
    rw [hsplit, List.length_append, List.length_singleton]
    omega
  · rintro h pre post rfl hover
    obtain ⟨hsplit, hends, -⟩ := lineGrep_consumed hall pre
    have hover' : K.stdout < ((lineGrep selects).output pre).length := hover
    have hpos : (lineGrep selects).output pre ≠ [] := by
      apply List.ne_nil_of_length_pos
      omega
    obtain ⟨done, hdone⟩ := List.getLast?_eq_some_iff.mp (hends.resolve_left hpos)
    rw [hdone, List.length_append, List.length_singleton] at hover'
    rw [hdone, List.append_assoc] at hsplit
    have hpost := h done ((lineGrep selects).stateAfter pre ++ post)
      (by rw [← List.cons_append, ← List.append_assoc]; exact congrArg (· ++ post) hsplit.symm)
      (by omega)
    show post.length ≤ K.stdin
    rw [List.length_append] at hpost
    omega

end Everything

/-- `pipe_through_cat` returns its input from every interleaving exactly where the pipes
and one more byte hold the whole of it. `pipe_through_grep` does exactly where the input
ends a line and `grep` never has more output than its pipe holds while more input is
left than the other pipe holds. -/
theorem pipe_through_completes_iff (K : Pipes) (input : String)
    (grep : String → Filter UInt8 σ) (pattern : String)
    (hgrep : MatchesEveryLine (grep pattern)) :
    (Completes (pipeThroughCat K) input input ↔
      (asBytes input).length ≤ K.stdin + K.stdout + 1) ∧
    (Completes (pipeThroughGrep K grep pattern) input input ↔
      EndsLine (asBytes input) ∧
        ∀ pre post, asBytes input = pre ++ post →
          K.stdout < ((grep pattern).output pre).length → post.length ≤ K.stdin) := by
  constructor
  · rw [completes_iff_roomy, cat_roomy_iff]
    exact and_iff_left (cat_total (asBytes input))
  · rw [completes_iff_roomy, and_comm]
    exact and_congr (hgrep.total_eq_self_iff (asBytes input)) Iff.rfl

theorem pipe_through_completes_iff_two_lines :
    Completes (pipeThroughCat { stdin := 2, stdout := 2, buffer := 1 }) "a\nb\n" "a\nb\n" ∧
    Completes (pipeThroughGrep { stdin := 2, stdout := 2, buffer := 1 }
      (fun _ => lineGrep fun _ => true) "") "a\nb\n" "a\nb\n" := by
  have hbytes : asBytes "a\nb\n" = [97, 10, 98, 10] := by decide
  obtain ⟨hcat, hgrep⟩ := pipe_through_completes_iff { stdin := 2, stdout := 2, buffer := 1 }
    "a\nb\n" (fun _ => lineGrep fun _ => true) "" (lineGrep_matchesEveryLine fun _ => rfl)
  rw [hbytes] at hcat hgrep
  constructor
  · exact hcat.mpr (by decide)
  · apply hgrep.mpr
    refine ⟨by decide, ?_⟩
    intro pre post hsplit hover
    have hlen := congrArg List.length hsplit
    have hover' : 2 < ((lineGrep fun _ => true).output pre).length := hover
    have hall : ∀ line : List UInt8, (fun _ => true : List UInt8 → Bool) line = true :=
      fun _ => rfl
    have hout := congrArg List.length (lineGrep_consumed hall pre).1
    simp only [List.length_append, List.length_cons, List.length_nil] at hlen hout
    show post.length ≤ 2
    omega

/-- Pipes of one byte: the child holds a byte that its pipe cannot take, and the parent
waits with a byte for the pipe that the child does not read. -/
theorem pipe_through_cat_deadlocks :
    ¬ Completes (pipeThroughCat { stdin := 1, stdout := 1, buffer := 1 }) "abcd" "abcd" := by
  intro h
  have hrun : ∃ s, run (step (pipeThroughCat { stdin := 1, stdout := 1, buffer := 1 }))
      (initial (pipeThroughCat { stdin := 1, stdout := 1, buffer := 1 }) (asBytes "abcd"))
      [.write 1, .fetch 1, .emit 1, .write 1, .fetch 1, .write 1] = some s ∧
      s.owner = .writing ∧
      ∀ a, step (pipeThroughCat { stdin := 1, stdout := 1, buffer := 1 }) s a = none :=
    ⟨_, rfl, rfl, stuck_of_full rfl (by decide) rfl (by decide) rfl⟩
  obtain ⟨s, hs, howner, hstuck⟩ := hrun
  rcases h.never_stuck s (Reach.init.run hs) with hreturned | ⟨a, s', hnext⟩
  · rw [howner] at hreturned
    cases hreturned
  · rw [hstuck a] at hnext
    cases hnext

end OsCamp.ProcessPipe
