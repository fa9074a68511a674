import OsCamp.FreeListRuns
import Mathlib.Logic.Function.Basic

/-!
The free-list allocator shared by threads. One step is one access to the list
head, to a field of a node, or to `bump_next`; the local tests between two
accesses belong to the step before them. Any thread outside a call may give
back a live block, since blocks can be handed over, and may write into one.
-/

set_option autoImplicit false

namespace OsCamp.FreeListThreads

open ByteMemory CoreAlloc FreeListAllocator FreeListRuns

/-- The next access of a thread, with the local variables that it still uses. -/
inductive Pc
  | idle
  | allocHead (layout : Layout)
  | readSize (layout : Layout) (prev curr : ℕ)
  | readNext (layout : Layout) (curr : ℕ)
  | takeNext (layout : Layout) (prev curr : ℕ)
  | unlink (layout : Layout) (prev curr next : ℕ)
  | bumpLoad (layout : Layout)
  | exchange (layout : Layout) (seen allocStart allocEnd : ℕ)
  | freeHead (block : Block)
  | freeSize (block : Block) (head : ℕ)
  | freeNext (block : Block) (head : ℕ)
  | freeSet (block : Block)
  deriving DecidableEq

/-- The block that a call of `dealloc` is giving back. -/
def Pc.block : Pc → Option Block
  | .idle => none
  | .allocHead _ => none
  | .readSize _ _ _ => none
  | .readNext _ _ => none
  | .takeNext _ _ _ => none
  | .unlink _ _ _ _ => none
  | .bumpLoad _ => none
  | .exchange _ _ _ _ => none
  | .freeHead block => some block
  | .freeSize block _ => some block
  | .freeNext block _ => some block
  | .freeSet block => some block

/-- Where the list loop goes on with `prev_ptr` and `curr`: the test of the address
comes before the read of the size. -/
def visit (layout : Layout) (prev curr : ℕ) : Pc :=
  if curr = 0 then .bumpLoad layout
  else if curr % blockAlign layout = 0 then .readSize layout prev curr
  else .readNext layout curr

/-- The heap with every thread's position. `freeing` holds the blocks inside a call
of `dealloc`, `freed` the addresses whose call of `dealloc` has returned. -/
structure Machine (T : Type*) where
  heap : State
  pc : T → Pc
  live : List Block
  freeing : List (T × Block)
  freed : List ℕ

inductive Action (T : Type*)
  | beginAlloc (t : T) (layout : Layout)
  | beginDealloc (t : T) (block : Block)
  | advance (t : T)
  | write (block : Block) (offset : ℕ) (byte : BitVec 8)

variable {T : Type*} [DecidableEq T]

namespace Machine

def new (heapStart heapEnd : ℕ) (memory : Memory) : Machine T :=
  ⟨State.new heapStart heapEnd memory, fun _ => .idle, [], [], []⟩

def goto (m : Machine T) (t : T) (pc : Pc) : Machine T :=
  { m with pc := Function.update m.pc t pc }

/-- Return from `alloc`; a null pointer is no allocation. -/
def grant (m : Machine T) (t : T) (heap : State) (block : Block) : Machine T :=
  { m.goto t .idle with
    heap := heap
    live := if block.ptr = 0 then m.live else block :: m.live }

/-- One round of the bump loop up to its exchange. -/
def attempt (profile : Profile) (m : Machine T) (t : T) (layout : Layout) : Option (Machine T) :=
  (bumpRange profile m.heap.heapEnd m.heap.bumpNext (blockSize layout) (blockAlign layout)).map fun
    | some (allocStart, allocEnd) => m.goto t (.exchange layout m.heap.bumpNext allocStart allocEnd)
    | none => m.goto t .idle

/-- The exchange of `bump_next`. -/
def exchange (profile : Profile) (m : Machine T) (t : T) (layout : Layout)
    (seen allocStart allocEnd : ℕ) : Option (Machine T) :=
  if m.heap.bumpNext = seen then
    some (m.grant t { m.heap with bumpNext := allocEnd } ⟨allocStart, layout⟩)
  else m.attempt profile t layout

def readSize (m : Machine T) (t : T) (layout : Layout) (prev curr : ℕ) : Machine T :=
  if blockSize layout ≤ m.heap.size curr then m.goto t (.takeNext layout prev curr)
  else m.goto t (.readNext layout curr)

def unlink (m : Machine T) (t : T) (layout : Layout) (prev curr next : ℕ) : Machine T :=
  m.grant t (m.heap.writeLink prev next) ⟨curr, layout⟩

def freeSize (m : Machine T) (t : T) (block : Block) (head : ℕ) : Machine T :=
  { m.goto t (.freeNext block head) with
    heap := m.heap.writeSize block.ptr (blockSize block.layout) }

def freeNext (m : Machine T) (t : T) (block : Block) (head : ℕ) : Machine T :=
  { m.goto t (.freeSet block) with heap := m.heap.writeNext block.ptr head }

/-- The last access of `dealloc`: the block becomes the list head. -/
def freeSet (m : Machine T) (t : T) (block : Block) : Machine T :=
  { m.goto t .idle with
    heap := m.heap.setFreeListHead block.ptr
    freeing := m.freeing.erase (t, block)
    freed := block.ptr :: m.freed }

def advance (profile : Profile) (m : Machine T) (t : T) : Option (Machine T) :=
  match m.pc t with
  | .idle => none
  | .allocHead layout => some (m.goto t (visit layout 0 m.heap.freeList))
  | .readSize layout prev curr => some (m.readSize t layout prev curr)
  | .readNext layout curr => some (m.goto t (visit layout curr (m.heap.next curr)))
  | .takeNext layout prev curr => some (m.goto t (.unlink layout prev curr (m.heap.next curr)))
  | .unlink layout prev curr next => some (m.unlink t layout prev curr next)
  | .bumpLoad layout => m.attempt profile t layout
  | .exchange layout seen allocStart allocEnd =>
    m.exchange profile t layout seen allocStart allocEnd
  | .freeHead block => some (m.goto t (.freeSize block m.heap.freeList))
  | .freeSize block head => some (m.freeSize t block head)
  | .freeNext block head => some (m.freeNext t block head)
  | .freeSet block => some (m.freeSet t block)

/-- A call of `dealloc` takes its block from the clients at once. -/
def beginDealloc (m : Machine T) (t : T) (block : Block) : Machine T :=
  { m.goto t (.freeHead block) with
    live := m.live.erase block
    freeing := (t, block) :: m.freeing }

end Machine

def step (profile : Profile) (m : Machine T) : Action T → Option (Machine T)
  | .beginAlloc t layout => if m.pc t = .idle then some (m.goto t (.allocHead layout)) else none
  | .beginDealloc t block =>
    if m.pc t = .idle ∧ block ∈ m.live then some (m.beginDealloc t block) else none
  | .advance t => m.advance profile t
  | .write block offset byte =>
    if block ∈ m.live ∧ offset < blockSize block.layout then
      some { m with heap := writeByte m.heap (block.ptr + offset) byte }
    else none

end OsCamp.FreeListThreads
