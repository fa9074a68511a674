import OsCamp.ByteMemory
import OsCamp.CoreAlloc

/-!
The free-list allocator with the memory it manages. A free block carries its
header, `size` and then `next`, in its own first 16 bytes; the null pointer is 0.
A call that panics, or whose walk of the list never ends, returns `none`. The
calls here run alone, so the exchange of `bump_next` succeeds at once.
-/

set_option autoImplicit false

namespace OsCamp.FreeListAllocator

open ByteMemory CoreAlloc

/-- `size_of::<FreeBlock>()`. -/
def headerSize : ℕ := 16

/-- `align_of::<FreeBlock>()`. -/
def headerAlign : ℕ := 8

def blockSize (layout : Layout) : ℕ := max layout.size headerSize
def blockAlign (layout : Layout) : ℕ := max layout.align headerAlign

structure State where
  heapStart : ℕ
  heapEnd : ℕ
  bumpNext : ℕ
  freeList : ℕ
  memory : Memory

/-- The block that `alloc` cuts from `prev_next`; `some none` stands for the
returned null, `none` for the panic of the alignment sum. -/
def bumpRange (profile : Profile) (heapEnd prevNext size align : ℕ) :
    Option (Option (ℕ × ℕ)) := do
  let allocStart ← alignUp profile prevNext align
  match checkedAdd allocStart size with
  | some allocEnd => if allocEnd ≤ heapEnd then return some (allocStart, allocEnd) else return none
  | none => return none

namespace State

def new (heapStart heapEnd : ℕ) (memory : Memory) : State :=
  ⟨heapStart, heapEnd, heapStart, 0, memory⟩

def size (s : State) (node : ℕ) : ℕ := load s.memory node 8
def next (s : State) (node : ℕ) : ℕ := load s.memory (node + 8) 8

def writeSize (s : State) (node v : ℕ) : State := { s with memory := store s.memory node 8 v }
def writeNext (s : State) (node v : ℕ) : State := { s with memory := store s.memory (node + 8) 8 v }

def setFreeListHead (s : State) (head : ℕ) : State := { s with freeList := head }

/-- The write that removes the node after `prev`: to the list head where `prev` is null. -/
def writeLink (s : State) (prev v : ℕ) : State :=
  if prev = 0 then s.setFreeListHead v else s.writeNext prev v

abbrev Fits (s : State) (size align curr : ℕ) : Prop := curr % align = 0 ∧ size ≤ s.size curr

/-- The list loop of `alloc`; its result is `prev_ptr` and `curr` where the loop is
left, with `curr` null at the end of the list. A longer walk than there are
addresses repeats a node, and the loop writes nothing, so it never ends. -/
def search (s : State) (size align : ℕ) : ℕ → ℕ → ℕ → Option (ℕ × ℕ)
  | 0, _, _ => none
  | fuel + 1, prev, curr =>
    if curr = 0 then some (prev, 0)
    else if s.Fits size align curr then some (prev, curr)
    else search s size align fuel curr (s.next curr)

def walk (s : State) (layout : Layout) : Option (ℕ × ℕ) :=
  s.search (blockSize layout) (blockAlign layout) (2 ^ 64) 0 s.freeList

def bump (profile : Profile) (s : State) (layout : Layout) : Option (ℕ × State) :=
  (bumpRange profile s.heapEnd s.bumpNext (blockSize layout) (blockAlign layout)).map fun
    | some (allocStart, allocEnd) => (allocStart, { s with bumpNext := allocEnd })
    | none => (0, s)

def alloc (profile : Profile) (s : State) (layout : Layout) : Option (ℕ × State) := do
  let (prev, curr) ← s.walk layout
  if curr = 0 then s.bump profile layout
  else return (curr, s.writeLink prev (s.next curr))

def dealloc (s : State) (ptr : ℕ) (layout : Layout) : State :=
  if ptr = 0 then s
  else ((s.writeSize ptr (blockSize layout)).writeNext ptr s.freeList).setFreeListHead ptr

end State

end OsCamp.FreeListAllocator
