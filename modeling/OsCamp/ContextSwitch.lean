import OsCamp.BitFields
import OsCamp.RiscV

/-!
`TaskContext` and `switch_context` of the two crates, instruction by instruction. Both
declare the same fields in the same order, and `repr(C)` puts each of them eight bytes
behind the one before it. One call stores the callee-saved integer registers in the old
context and loads them from the new one.
-/

set_option autoImplicit false

namespace OsCamp.ContextSwitch

open ByteMemory RiscV

structure TaskContext where
  sp : BitVec 64
  ra : BitVec 64
  s0 : BitVec 64
  s1 : BitVec 64
  s2 : BitVec 64
  s3 : BitVec 64
  s4 : BitVec 64
  s5 : BitVec 64
  s6 : BitVec 64
  s7 : BitVec 64
  s8 : BitVec 64
  s9 : BitVec 64
  s10 : BitVec 64
  s11 : BitVec 64
  deriving DecidableEq

namespace TaskContext

def empty : TaskContext := ⟨0, 0, 0, 0, 0, 0, 0, 0, 0, 0, 0, 0, 0, 0⟩

def init (self : TaskContext) (stackTop entry : BitVec 64) : TaskContext :=
  { self with sp := stackTop &&& ~~~0xF, ra := entry }

theorem init_sp_aligned (self : TaskContext) (stackTop entry : BitVec 64) :
    (self.init stackTop entry).sp.toNat % 16 = 0 := by
  show (stackTop &&& ~~~0xF).toNat % 16 = 0
  rw [BitFields.toNat_and_not_mask stackTop 0xF 4 rfl]
  exact Nat.mul_mod_left _ _

/-- `size_of::<TaskContext>()` -/
def size : ℕ := 112

/-- The context at an address, each field at its `repr(C)` offset. -/
def read (mem : Memory) (a : ℕ) : TaskContext where
  sp := word mem a
  ra := word mem (a + 8)
  s0 := word mem (a + 16)
  s1 := word mem (a + 24)
  s2 := word mem (a + 32)
  s3 := word mem (a + 40)
  s4 := word mem (a + 48)
  s5 := word mem (a + 56)
  s6 := word mem (a + 64)
  s7 := word mem (a + 72)
  s8 := word mem (a + 80)
  s9 := word mem (a + 88)
  s10 := word mem (a + 96)
  s11 := word mem (a + 104)

/-- The fields in the order of their declaration. -/
def fields (c : TaskContext) : List (BitVec 64) :=
  [c.sp, c.ra, c.s0, c.s1, c.s2, c.s3, c.s4, c.s5, c.s6, c.s7, c.s8, c.s9, c.s10, c.s11]

theorem fields_injective {c c' : TaskContext} (h : c.fields = c'.fields) : c = c' := by
  cases c
  cases c'
  simpa [fields] using h

theorem fields_read (mem : Memory) (a : ℕ) : (read mem a).fields = words mem a 14 := rfl

theorem read_congr {mem mem' : Memory} {a : ℕ} (h : SameOn mem mem' a size) :
    read mem' a = read mem a := by
  apply fields_injective
  rw [fields_read, fields_read]
  exact words_congr h

end TaskContext

/-- The registers that a context is about. -/
def savedRegs : List Reg := [sp, ra, s0, s1, s2, s3, s4, s5, s6, s7, s8, s9, s10, s11]

/-- Their values in a machine. -/
def calleeSaved (m : Machine) : TaskContext where
  sp := m.x sp
  ra := m.x ra
  s0 := m.x s0
  s1 := m.x s1
  s2 := m.x s2
  s3 := m.x s3
  s4 := m.x s4
  s5 := m.x s5
  s6 := m.x s6
  s7 := m.x s7
  s8 := m.x s8
  s9 := m.x s9
  s10 := m.x s10
  s11 := m.x s11

theorem fields_calleeSaved (m : Machine) : (calleeSaved m).fields = savedRegs.map m.x := rfl

inductive Crate
  | stackCoroutine
  | greenThreads
  deriving DecidableEq

/-- `switch_context(_old, _new)`, with `_old` in `a0` and `_new` in `a1`. -/
def switchContext : Crate → List Instr
  | .stackCoroutine =>
    [.sd sp 0 a0,
     .sd ra 8 a0,
     .sd s0 16 a0,
     .sd s1 24 a0,
     .sd s2 32 a0,
     .sd s3 40 a0,
     .sd s4 48 a0,
     .sd s5 56 a0,
     .sd s6 64 a0,
     .sd s7 72 a0,
     .sd s8 80 a0,
     .sd s9 88 a0,
     .sd s10 96 a0,
     .sd s11 104 a0,
     .ld sp 0 a1,
     .ld ra 8 a1,
     .ld s0 16 a1,
     .ld s1 24 a1,
     .ld s2 32 a1,
     .ld s3 40 a1,
     .ld s4 48 a1,
     .ld s5 56 a1,
     .ld s6 64 a1,
     .ld s7 72 a1,
     .ld s8 80 a1,
     .ld s9 88 a1,
     .ld s10 96 a1,
     .ld s11 104 a1,
     .li a0 0,
     .li a1 0,
     .ret]
  | .greenThreads =>
    [.sd sp 0 a0,
     .sd ra 8 a0,
     .sd s0 16 a0,
     .sd s1 24 a0,
     .sd s2 32 a0,
     .sd s3 40 a0,
     .sd s4 48 a0,
     .sd s5 56 a0,
     .sd s6 64 a0,
     .sd s7 72 a0,
     .sd s8 80 a0,
     .sd s9 88 a0,
     .sd s10 96 a0,
     .sd s11 104 a0,
     .ld sp 0 a1,
     .ld ra 8 a1,
     .ld s0 16 a1,
     .ld s1 24 a1,
     .ld s2 32 a1,
     .ld s3 40 a1,
     .ld s4 48 a1,
     .ld s5 56 a1,
     .ld s6 64 a1,
     .ld s7 72 a1,
     .ld s8 80 a1,
     .ld s9 88 a1,
     .ld s10 96 a1,
     .ld s11 104 a1,
     .li a0 0,
     .li a1 0,
     .ret]

/-- Stores and loads run through the same registers and offsets. -/
theorem switchContext_eq (crate : Crate) :
    switchContext crate =
      saveBlock a0 0 savedRegs ++ loadBlock a1 0 savedRegs ++ [.li a0 0, .li a1 0, .ret] := by
  cases crate <;> rfl

/-- What one call does to a machine, for the contexts at `old` and `new`. -/
structure Switches (m m' : Machine) (old new : ℕ) : Prop where
  saved : TaskContext.read m'.mem old = calleeSaved m
  restored : calleeSaved m' = TaskContext.read m.mem new
  cleared : m'.x a0 = 0 ∧ m'.x a1 = 0
  resumed : m'.pc = (TaskContext.read m.mem new).ra &&& ~~~1
  other_regs : ∀ k, k ∉ savedRegs → k ≠ a0 → k ≠ a1 → m'.x k = m.x k
  float_regs : m'.f = m.f
  elsewhere : ∀ b n, b + n ≤ old ∨ old + TaskContext.size ≤ b → SameOn m.mem m'.mem b n

/-- The end of the code keeps every register but its two operands. -/
theorem cleared_other (m : Machine) {k : Reg} (hk0 : k ≠ a0) (hk1 : k ≠ a1) :
    (m.execAll [.li a0 0, .li a1 0, .ret]).x k = m.x k :=
  (Machine.setX_ne hk1).trans (Machine.setX_ne hk0)

theorem calleeSaved_congr {m m' : Machine} (h : ∀ k, k ≠ a0 → k ≠ a1 → m'.x k = m.x k) :
    calleeSaved m' = calleeSaved m := by
  apply TaskContext.fields_injective
  rw [fields_calleeSaved, fields_calleeSaved]
  apply List.map_congr_left
  intro k hk
  have hoperands : a0 ∉ savedRegs ∧ a1 ∉ savedRegs := by decide
  apply h k
  · rintro rfl
    exact hoperands.1 hk
  · rintro rfl
    exact hoperands.2 hk

/-- The stores fill the old context and change nothing else. -/
theorem save_effect (m : Machine) (hold : (m.x a0).toNat + TaskContext.size ≤ 2 ^ 64) :
    ∃ mem, m.execAll (saveBlock a0 0 savedRegs) = { m with mem := mem } ∧
      TaskContext.read mem (m.x a0).toNat = calleeSaved m ∧
      ∀ b n, b + n ≤ (m.x a0).toNat ∨ (m.x a0).toNat + TaskContext.size ≤ b →
        SameOn m.mem mem b n := by
  have hsave := execAll_saveBlock m a0 savedRegs 0 hold
  rw [Nat.add_zero] at hsave
  refine ⟨_, hsave, ?_, ?_⟩
  · apply TaskContext.fields_injective
    rw [fields_calleeSaved, TaskContext.fields_read]
    exact words_storeWords _
  · intro b n hdisj
    exact sameOn_storeWords hdisj

/-- The loads set the saved registers from the new context. -/
theorem load_effect (m : Machine) (hnew : (m.x a1).toNat + TaskContext.size ≤ 2 ^ 64) :
    calleeSaved (m.execAll (loadBlock a1 0 savedRegs)) =
        TaskContext.read m.mem (m.x a1).toNat ∧
      (∀ k, k ∉ savedRegs → (m.execAll (loadBlock a1 0 savedRegs)).x k = m.x k) ∧
      (m.execAll (loadBlock a1 0 savedRegs)).f = m.f ∧
      (m.execAll (loadBlock a1 0 savedRegs)).mem = m.mem := by
  obtain ⟨hregs, hother, hf, hmem⟩ := execAll_loadBlock m a1 savedRegs 0 (by decide) (by decide)
    (by decide) hnew
  rw [Nat.add_zero] at hregs
  exact ⟨TaskContext.fields_injective hregs, hother, hf, hmem⟩

theorem switchContext_switches (crate : Crate) (m : Machine)
    (hold : (m.x a0).toNat + TaskContext.size ≤ 2 ^ 64)
    (hnew : (m.x a1).toNat + TaskContext.size ≤ 2 ^ 64)
    (hapart : (m.x a1).toNat + TaskContext.size ≤ (m.x a0).toNat ∨
      (m.x a0).toNat + TaskContext.size ≤ (m.x a1).toNat) :
    Switches m (m.execAll (switchContext crate)) (m.x a0).toNat (m.x a1).toNat := by
  obtain ⟨mem, hstored, hread, helsewhere⟩ := save_effect m hold
  obtain ⟨hregs, hother, hf, hmem⟩ := load_effect { m with mem := mem } hnew
  obtain ⟨loaded, hloaded⟩ :
      ∃ loaded, loaded = Machine.execAll { m with mem := mem } (loadBlock a1 0 savedRegs) :=
    ⟨_, rfl⟩
  rw [← hloaded] at hregs hother hf hmem
  have hend : m.execAll (switchContext crate) =
      loaded.execAll [.li a0 0, .li a1 0, .ret] := by
    rw [switchContext_eq, Machine.execAll_append, Machine.execAll_append, hstored, ← hloaded]
  -- The stores have left the new context as it was.
  have hrestored : calleeSaved loaded = TaskContext.read m.mem (m.x a1).toNat :=
    hregs.trans (TaskContext.read_congr (helsewhere _ _ hapart))
  rw [hend]
  constructor
  · show TaskContext.read loaded.mem _ = _
    rw [hmem]
    exact hread
  · exact (calleeSaved_congr fun k => cleared_other loaded).trans hrestored
  · exact ⟨rfl, rfl⟩
  · have hra : loaded.x ra = (TaskContext.read m.mem (m.x a1).toNat).ra :=
      congrArg TaskContext.ra hrestored
    rw [← hra]
    rfl
  · intro k hk hk0 hk1
    exact (cleared_other loaded hk0 hk1).trans (hother k hk)
  · exact hf
  · intro b n hdisj
    show SameOn m.mem loaded.mem b n
    rw [hmem]
    exact helsewhere b n hdisj

end OsCamp.ContextSwitch
