import OsCamp.BitFields
import OsCamp.Execution
import Mathlib.Logic.Function.Basic

/-!
The writer-priority lock as a machine over one 32-bit word. Every atomic
operation of `read`, `write` and the guard drops is one step; the local tests
between two operations belong to the step before them. Threads are the elements
of an arbitrary type. A live guard may be dropped by any thread that is not
inside a call, since guards can be moved. The protected value is left out.
-/

set_option autoImplicit false

namespace OsCamp.RwLock

def readerMask : BitVec 32 := (1#32 <<< 30) - 1#32
def writerHolding : BitVec 32 := 1#32 <<< 30
def writerWaiting : BitVec 32 := 1#32 <<< 31

/-- The next atomic operation of a thread, with the value its last load returned. -/
inductive Pc
  | idle
  | readLoad
  | readCas (s : BitVec 32)
  | writeAnnounce
  | writeLoad
  | writeCasWaiting (s : BitVec 32)
  | writeCasFree
  deriving DecidableEq

structure State (T : Type*) where
  word : BitVec 32
  pc : T → Pc
  readGuards : ℕ
  writeGuards : ℕ

inductive Action (T : Type*)
  | beginRead (t : T)
  | beginWrite (t : T)
  | advance (t : T)
  | dropRead (t : T)
  | dropWrite (t : T)

variable {T : Type*} [DecidableEq T]

namespace State

def new : State T := ⟨0, fun _ => .idle, 0, 0⟩

def goto (s : State T) (t : T) (pc : Pc) : State T := { s with pc := Function.update s.pc t pc }

def acquireRead (s : State T) (t : T) (word : BitVec 32) : State T :=
  { s.goto t .idle with word := word, readGuards := s.readGuards + 1 }

def acquireWrite (s : State T) (t : T) : State T :=
  { s.goto t .idle with word := writerHolding, writeGuards := s.writeGuards + 1 }

/-- The load of the loop in `read` with the two tests that follow it. -/
def readLoad (s : State T) (t : T) : State T :=
  if s.word &&& (writerHolding ||| writerWaiting) ≠ 0 then s
  else if s.word &&& readerMask = readerMask then s
  else s.goto t (.readCas s.word)

/-- `compare_exchange(s, s + 1)`. -/
def readCas (s : State T) (t : T) (seen : BitVec 32) : State T :=
  if s.word = seen then s.acquireRead t (seen + 1) else s.goto t .readLoad

/-- `fetch_or(WRITER_WAITING)`. -/
def writeAnnounce (s : State T) (t : T) : State T :=
  { s.goto t .writeLoad with word := s.word ||| writerWaiting }

def writeLoad (s : State T) (t : T) : State T :=
  if s.word &&& (readerMask ||| writerHolding) ≠ 0 then s
  else s.goto t (.writeCasWaiting s.word)

/-- `compare_exchange(s | WRITER_WAITING, WRITER_HOLDING)`. -/
def writeCasWaiting (s : State T) (t : T) (seen : BitVec 32) : State T :=
  if s.word = seen ||| writerWaiting then s.acquireWrite t else s.goto t .writeCasFree

/-- `compare_exchange(0, WRITER_HOLDING)`. -/
def writeCasFree (s : State T) (t : T) : State T :=
  if s.word = 0 then s.acquireWrite t else s.goto t .writeLoad

/-- One atomic operation of the call that `t` is in. -/
def advance (s : State T) (t : T) : Option (State T) :=
  match s.pc t with
  | .idle => none
  | .readLoad => some (s.readLoad t)
  | .readCas seen => some (s.readCas t seen)
  | .writeAnnounce => some (s.writeAnnounce t)
  | .writeLoad => some (s.writeLoad t)
  | .writeCasWaiting seen => some (s.writeCasWaiting t seen)
  | .writeCasFree => some (s.writeCasFree t)

/-- `fetch_sub(1)`. -/
def dropRead (s : State T) : State T :=
  { s with word := s.word - 1, readGuards := s.readGuards - 1 }

/-- `fetch_and(!(WRITER_HOLDING | WRITER_WAITING))`. -/
def dropWrite (s : State T) : State T :=
  { s with
    word := s.word &&& ~~~(writerHolding ||| writerWaiting)
    writeGuards := s.writeGuards - 1 }

end State

def step (s : State T) : Action T → Option (State T)
  | .beginRead t => if s.pc t = .idle then some (s.goto t .readLoad) else none
  | .beginWrite t => if s.pc t = .idle then some (s.goto t .writeAnnounce) else none
  | .advance t => s.advance t
  | .dropRead t => if s.pc t = .idle ∧ 0 < s.readGuards then some s.dropRead else none
  | .dropWrite t => if s.pc t = .idle ∧ 0 < s.writeGuards then some s.dropWrite else none

end OsCamp.RwLock
