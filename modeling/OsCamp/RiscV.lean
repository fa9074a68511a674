import Mathlib.Data.List.Nodup
import OsCamp.ByteMemory

/-!
A fragment of RV64: doubleword stores and loads relative to a register, load
immediate, and return. A block of stores saves a list of registers in consecutive
doublewords, a block of loads sets them from there.
-/

set_option autoImplicit false

namespace OsCamp.RiscV

open ByteMemory

abbrev Reg := Fin 32

def ra : Reg := 1
def sp : Reg := 2
def s0 : Reg := 8
def s1 : Reg := 9
def a0 : Reg := 10
def a1 : Reg := 11
def s2 : Reg := 18
def s3 : Reg := 19
def s4 : Reg := 20
def s5 : Reg := 21
def s6 : Reg := 22
def s7 : Reg := 23
def s8 : Reg := 24
def s9 : Reg := 25
def s10 : Reg := 26
def s11 : Reg := 27

/-- The integer and floating-point registers, the program counter, and memory. -/
structure Machine where
  x : Reg → BitVec 64
  f : Fin 32 → BitVec 64
  pc : BitVec 64
  mem : Memory

/-- The offsets are those that fit the instructions without a sign. -/
inductive Instr
  | sd (rs : Reg) (offset : ℕ) (base : Reg)
  | ld (rd : Reg) (offset : ℕ) (base : Reg)
  | li (rd : Reg) (imm : BitVec 64)
  | ret
  deriving DecidableEq

def word (mem : Memory) (a : ℕ) : BitVec 64 := BitVec.ofNat 64 (load mem a 8)

namespace Machine

/-- A write to `x0` is dropped. -/
def setX (m : Machine) (r : Reg) (v : BitVec 64) : Machine :=
  { m with x := fun k => if k = r ∧ r ≠ 0 then v else m.x k }

def address (m : Machine) (base : Reg) (offset : ℕ) : ℕ :=
  (m.x base + BitVec.ofNat 64 offset).toNat

/-- `ret` jumps to `ra` with the lowest bit cleared. -/
def exec (m : Machine) : Instr → Machine
  | .sd rs offset base => { m with mem := store m.mem (m.address base offset) 8 (m.x rs).toNat }
  | .ld rd offset base => m.setX rd (word m.mem (m.address base offset))
  | .li rd imm => m.setX rd imm
  | .ret => { m with pc := m.x ra &&& ~~~1 }

/-- Straight-line code; of the program counter only what a return leaves there is kept. -/
def execAll (m : Machine) (code : List Instr) : Machine := code.foldl exec m

variable {m : Machine} {r k : Reg} {v : BitVec 64}

theorem setX_self (hr : r ≠ 0) : (m.setX r v).x r = v := if_pos ⟨rfl, hr⟩

theorem setX_ne (hk : k ≠ r) : (m.setX r v).x k = m.x k := if_neg fun h => hk h.1

theorem execAll_append (code code' : List Instr) :
    m.execAll (code ++ code') = (m.execAll code).execAll code' :=
  List.foldl_append

theorem address_eq {base : Reg} {offset : ℕ} (hfit : (m.x base).toNat + offset < 2 ^ 64) :
    m.address base offset = (m.x base).toNat + offset := by
  unfold address
  rw [BitVec.toNat_add, BitVec.toNat_ofNat, Nat.add_mod_mod, Nat.mod_eq_of_lt hfit]

end Machine

def words (mem : Memory) (a : ℕ) : ℕ → List (BitVec 64)
  | 0 => []
  | n + 1 => word mem a :: words mem (a + 8) n

def storeWords (mem : Memory) (a : ℕ) : List (BitVec 64) → Memory
  | [] => mem
  | v :: rest => storeWords (store mem a 8 v.toNat) (a + 8) rest

variable {mem mem' : Memory} {a b n : ℕ}

theorem word_congr (h : SameOn mem mem' a 8) : word mem' a = word mem a :=
  congrArg (BitVec.ofNat 64) (load_congr h)

theorem words_congr (h : SameOn mem mem' a (8 * n)) : words mem' a n = words mem a n := by
  induction n generalizing a with
  | zero => rfl
  | succ n ih =>
    have hhead : SameOn mem mem' a 8 := h.mono (Nat.le_refl a) (by omega)
    have htail : SameOn mem mem' (a + 8) (8 * n) := h.mono (by omega) (by omega)
    rw [words, words, word_congr hhead, ih htail]

theorem sameOn_storeWords {vs : List (BitVec 64)} (hdisj : b + n ≤ a ∨ a + 8 * vs.length ≤ b) :
    SameOn mem (storeWords mem a vs) b n := by
  induction vs generalizing mem a with
  | nil => exact fun x _ _ => rfl
  | cons v rest ih =>
    rw [List.length_cons] at hdisj
    have hrest : SameOn (store mem a 8 v.toNat)
        (storeWords (store mem a 8 v.toNat) (a + 8) rest) b n := ih (by omega)
    have hfirst : SameOn mem (store mem a 8 v.toNat) b n := sameOn_store (by omega)
    exact fun x hlo hhi => (hrest x hlo hhi).trans (hfirst x hlo hhi)

theorem word_store (v : BitVec 64) : word (store mem a 8 v.toNat) a = v := by
  have hfit : v.toNat < 256 ^ 8 := v.isLt
  unfold word
  rw [load_store mem a hfit, BitVec.ofNat_toNat, BitVec.setWidth_eq]

/-- What was stored is read back. -/
theorem words_storeWords (vs : List (BitVec 64)) :
    words (storeWords mem a vs) a vs.length = vs := by
  induction vs generalizing mem a with
  | nil => rfl
  | cons v rest ih =>
    have hkept : SameOn (store mem a 8 v.toNat) (storeWords mem a (v :: rest)) a 8 :=
      sameOn_storeWords (Or.inl (Nat.le_refl _))
    rw [List.length_cons, words, word_congr hkept, word_store]
    exact congrArg (v :: ·) ih

def saveBlock (base : Reg) : ℕ → List Reg → List Instr
  | _, [] => []
  | offset, r :: rest => .sd r offset base :: saveBlock base (offset + 8) rest

def loadBlock (base : Reg) : ℕ → List Reg → List Instr
  | _, [] => []
  | offset, r :: rest => .ld r offset base :: loadBlock base (offset + 8) rest

theorem execAll_saveBlock (m : Machine) (base : Reg) (regs : List Reg) (offset : ℕ)
    (hfit : (m.x base).toNat + offset + 8 * regs.length ≤ 2 ^ 64) :
    m.execAll (saveBlock base offset regs) =
      { m with mem := storeWords m.mem ((m.x base).toNat + offset) (regs.map m.x) } := by
  induction regs generalizing m offset with
  | nil => rfl
  | cons r rest ih =>
    rw [List.length_cons] at hfit
    have haddress : m.address base offset = (m.x base).toNat + offset :=
      Machine.address_eq (by omega)
    have hrest := ih (m.exec (.sd r offset base)) (offset + 8) (by
      show (m.x base).toNat + (offset + 8) + 8 * rest.length ≤ 2 ^ 64
      omega)
    have hmem : storeWords (store m.mem (m.address base offset) 8 (m.x r).toNat)
        ((m.x base).toNat + (offset + 8)) (rest.map m.x) =
        storeWords m.mem ((m.x base).toNat + offset) ((r :: rest).map m.x) := by
      rw [haddress, ← Nat.add_assoc]
      rfl
    refine hrest.trans ?_
    rw [← hmem]
    rfl

/-- What a block of loads does to the registers; `base` is not one of them. -/
theorem execAll_loadBlock (m : Machine) (base : Reg) (regs : List Reg) (offset : ℕ)
    (hbase : base ∉ regs) (hzero : (0 : Reg) ∉ regs) (hnodup : regs.Nodup)
    (hfit : (m.x base).toNat + offset + 8 * regs.length ≤ 2 ^ 64) :
    regs.map (m.execAll (loadBlock base offset regs)).x =
        words m.mem ((m.x base).toNat + offset) regs.length ∧
      (∀ k ∉ regs, (m.execAll (loadBlock base offset regs)).x k = m.x k) ∧
      (m.execAll (loadBlock base offset regs)).f = m.f ∧
      (m.execAll (loadBlock base offset regs)).mem = m.mem := by
  induction regs generalizing m offset with
  | nil => exact ⟨rfl, fun k _ => rfl, rfl, rfl⟩
  | cons r rest ih =>
    rw [List.length_cons] at hfit
    simp only [List.mem_cons, not_or] at hbase hzero
    obtain ⟨hr, hnodup⟩ := List.nodup_cons.mp hnodup
    have haddress : m.address base offset = (m.x base).toNat + offset :=
      Machine.address_eq (by omega)
    have hbase' : (m.exec (.ld r offset base)).x base = m.x base := Machine.setX_ne hbase.1
    obtain ⟨hmap, hother, hf, hmem⟩ := ih (m.exec (.ld r offset base)) (offset + 8)
      hbase.2 hzero.2 hnodup (by rw [hbase']; omega)
    have hself : (m.exec (.ld r offset base)).x r = word m.mem (m.address base offset) :=
      Machine.setX_self (Ne.symm hzero.1)
    refine ⟨?_, ?_, hf, hmem⟩
    · have hhead := (hother r hr).trans hself
      rw [haddress] at hhead
      rw [hbase', ← Nat.add_assoc] at hmap
      exact List.cons_eq_cons.mpr ⟨hhead, hmap⟩
    · intro k hk
      simp only [List.mem_cons, not_or] at hk
      exact (hother k hk.2).trans (Machine.setX_ne hk.1)

end OsCamp.RiscV
