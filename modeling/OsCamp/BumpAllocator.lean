import OsCamp.FreeListAllocator
import Mathlib.Logic.Function.Basic

/-!
The bump allocator, alone and shared by threads. Among threads the load and each
exchange of `next` are one step, and so is a call of `reset`; the computation of
the block belongs to the step that obtained `prev_next`. A weak exchange may fail
although the values agree. `dealloc` does nothing and is left out.
-/

set_option autoImplicit false

namespace OsCamp.BumpAllocator

open CoreAlloc
open FreeListAllocator (bumpRange)

/-- The block for a request as computed from `prev_next`; the expression is that of
the free-list allocator's bump path, without its minimum size and alignment. -/
def allocRange (profile : Profile) (heapEnd prevNext : ℕ) (layout : Layout) :
    Option (Option (ℕ × ℕ)) :=
  bumpRange profile heapEnd prevNext layout.size layout.align

/-- A call that runs alone: the returned pointer (0 for null) and the new `next`. -/
def alloc (profile : Profile) (heapEnd next : ℕ) (layout : Layout) : Option (ℕ × ℕ) :=
  (allocRange profile heapEnd next layout).map fun
    | some (allocStart, allocEnd) => (allocStart, allocEnd)
    | none => (0, next)

/-- The next atomic operation of a thread, with its local variables. -/
inductive Pc
  | idle
  | load (layout : Layout)
  | exchange (layout : Layout) (prevNext allocStart allocEnd : ℕ)
  deriving DecidableEq

structure Block where
  ptr : ℕ
  layout : Layout
  deriving DecidableEq

/-- `granted n` lists the blocks whose exchange succeeded after exactly `n` resets. -/
structure State (T : Type*) where
  heapStart : ℕ
  heapEnd : ℕ
  next : ℕ
  pc : T → Pc
  resets : ℕ
  granted : ℕ → List Block

inductive Action (T : Type*)
  | beginAlloc (t : T) (layout : Layout)
  | load (t : T)
  | exchange (t : T) (spurious : Bool)
  | reset

variable {T : Type*} [DecidableEq T]

namespace State

def new (heapStart heapEnd : ℕ) : State T :=
  ⟨heapStart, heapEnd, heapStart, fun _ => .idle, 0, fun _ => []⟩

def goto (s : State T) (t : T) (pc : Pc) : State T := { s with pc := Function.update s.pc t pc }

/-- One round of the loop up to its exchange, or up to the returned null. -/
def attempt (profile : Profile) (s : State T) (t : T) (layout : Layout) : Option (State T) :=
  (allocRange profile s.heapEnd s.next layout).map fun
    | some (allocStart, allocEnd) => s.goto t (.exchange layout s.next allocStart allocEnd)
    | none => s.goto t .idle

/-- The exchange succeeds and the call returns the block. -/
def grant (s : State T) (t : T) (block : Block) (allocEnd : ℕ) : State T :=
  { s.goto t .idle with
    next := allocEnd
    granted := Function.update s.granted s.resets (block :: s.granted s.resets) }

/-- `compare_exchange_weak(prev_next, alloc_end)`; a failure returns the current value. -/
def exchange (profile : Profile) (s : State T) (t : T) (spurious : Bool) : Option (State T) :=
  match s.pc t with
  | .exchange layout prevNext allocStart allocEnd =>
    if s.next = prevNext ∧ spurious = false then some (s.grant t ⟨allocStart, layout⟩ allocEnd)
    else s.attempt profile t layout
  | _ => none

def load (profile : Profile) (s : State T) (t : T) : Option (State T) :=
  match s.pc t with
  | .load layout => s.attempt profile t layout
  | _ => none

def reset (s : State T) : State T := { s with next := s.heapStart, resets := s.resets + 1 }

end State

def step (profile : Profile) (s : State T) : Action T → Option (State T)
  | .beginAlloc t layout => if s.pc t = .idle then some (s.goto t (.load layout)) else none
  | .load t => s.load profile t
  | .exchange t spurious => s.exchange profile t spurious
  | .reset => some s.reset

end OsCamp.BumpAllocator
