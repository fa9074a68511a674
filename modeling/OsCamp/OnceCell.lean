import Mathlib.Logic.Function.Basic

/-!
The once-cell as a machine over its two atomics. Each load, store and exchange is
one sequentially consistent step; the memory orders of the source are weaker or
equal. Threads are the elements of an arbitrary type, and a thread may make any
number of calls. The results of the calls that returned are kept, latest first.
-/

set_option autoImplicit false

namespace OsCamp.OnceCell

/-- The next atomic operation of a thread. -/
inductive Pc
  | idle
  | initExchange (val : BitVec 32)
  | initStore (val : BitVec 32)
  | getFlag
  | getValue
  deriving DecidableEq

structure State (T : Type*) where
  initialized : Bool
  value : BitVec 32
  pc : T → Pc
  inits : List (BitVec 32 × Bool)
  gets : List (Option (BitVec 32))

inductive Action (T : Type*)
  | beginInit (t : T) (val : BitVec 32)
  | beginGet (t : T)
  | advance (t : T)
  deriving DecidableEq

variable {T : Type*} [DecidableEq T]

namespace State

def new : State T := ⟨false, 0, fun _ => .idle, [], []⟩

def goto (s : State T) (t : T) (pc : Pc) : State T := { s with pc := Function.update s.pc t pc }

def returnInit (s : State T) (t : T) (val : BitVec 32) (result : Bool) : State T :=
  { s.goto t .idle with inits := (val, result) :: s.inits }

def returnGet (s : State T) (t : T) (result : Option (BitVec 32)) : State T :=
  { s.goto t .idle with gets := result :: s.gets }

/-- `initialized.compare_exchange(false, true)`. -/
def initExchange (s : State T) (t : T) (val : BitVec 32) : State T :=
  if s.initialized = false then { s.goto t (.initStore val) with initialized := true }
  else s.returnInit t val false

/-- `value.store(val)`, after which `init` returns true. -/
def initStore (s : State T) (t : T) (val : BitVec 32) : State T :=
  { s.returnInit t val true with value := val }

/-- `initialized.load()`. -/
def getFlag (s : State T) (t : T) : State T :=
  if s.initialized = true then s.goto t .getValue else s.returnGet t none

/-- `value.load()`. -/
def getValue (s : State T) (t : T) : State T := s.returnGet t (some s.value)

def advance (s : State T) (t : T) : Option (State T) :=
  match s.pc t with
  | .idle => none
  | .initExchange val => some (s.initExchange t val)
  | .initStore val => some (s.initStore t val)
  | .getFlag => some (s.getFlag t)
  | .getValue => some (s.getValue t)

end State

def step (s : State T) : Action T → Option (State T)
  | .beginInit t val => if s.pc t = .idle then some (s.goto t (.initExchange val)) else none
  | .beginGet t => if s.pc t = .idle then some (s.goto t .getFlag) else none
  | .advance t => s.advance t

end OsCamp.OnceCell
