import Mathlib.Data.List.Basic

/-!
The simulated TLB and the MMU in front of its page table. A call that panics (an
index out of bounds, or a remainder by zero) returns `none`. The hit and miss
counters are `u64` words and wrap around, as in a release build; `hit_rate`, a
floating-point number that no other function reads, is left out.
-/

set_option autoImplicit false

namespace OsCamp.TlbSim

structure TlbEntry where
  valid : Bool
  asid : BitVec 16
  vpn : BitVec 64
  ppn : BitVec 64
  flags : BitVec 64
  deriving DecidableEq

def TlbEntry.empty : TlbEntry := ⟨false, 0, 0, 0, 0⟩

/-- `entry.valid && entry.vpn == vpn && entry.asid == asid`. -/
abbrev TlbEntry.Matches (e : TlbEntry) (vpn : BitVec 64) (asid : BitVec 16) : Prop :=
  e.valid = true ∧ e.vpn = vpn ∧ e.asid = asid

structure TlbStats where
  hits : BitVec 64
  misses : BitVec 64
  deriving DecidableEq

structure Tlb where
  entries : List TlbEntry
  capacity : ℕ
  fifoPtr : ℕ
  stats : TlbStats
  deriving DecidableEq

/-- The loop of `insert`: the first matching entry gets the new values, in place. -/
def updateFirst (vpn ppn : BitVec 64) (asid : BitVec 16) (flags : BitVec 64) :
    List TlbEntry → Option (List TlbEntry)
  | [] => none
  | e :: rest =>
    if e.Matches vpn asid then some ({ e with ppn := ppn, flags := flags } :: rest)
    else (updateFirst vpn ppn asid flags rest).map (e :: ·)

namespace Tlb

def new (capacity : ℕ) : Tlb := ⟨List.replicate capacity TlbEntry.empty, capacity, 0, ⟨0, 0⟩⟩

def countHit (t : Tlb) : Tlb := { t with stats := { t.stats with hits := t.stats.hits + 1 } }
def countMiss (t : Tlb) : Tlb := { t with stats := { t.stats with misses := t.stats.misses + 1 } }

def lookup (t : Tlb) (vpn : BitVec 64) (asid : BitVec 16) : Option (BitVec 64) × Tlb :=
  match t.entries.find? fun e => e.Matches vpn asid with
  | some e => (some e.ppn, t.countHit)
  | none => (none, t.countMiss)

def insert (t : Tlb) (vpn ppn : BitVec 64) (asid : BitVec 16) (flags : BitVec 64) : Option Tlb :=
  match updateFirst vpn ppn asid flags t.entries with
  | some entries => some { t with entries := entries }
  | none =>
    if t.fifoPtr < t.entries.length then
      if t.capacity = 0 then none
      else some { t with
        entries := t.entries.set t.fifoPtr ⟨true, asid, vpn, ppn, flags⟩
        fifoPtr := (t.fifoPtr + 1) % t.capacity }
    else none

/-- The three flushes differ in the entries they name. -/
def invalidate (t : Tlb) (named : TlbEntry → Bool) : Tlb :=
  { t with entries := t.entries.map fun e => if named e then { e with valid := false } else e }

def flushAll (t : Tlb) : Tlb := t.invalidate fun _ => true
def flushByVpn (t : Tlb) (vpn : BitVec 64) : Tlb := t.invalidate fun e => e.vpn == vpn
def flushByAsid (t : Tlb) (asid : BitVec 16) : Tlb := t.invalidate fun e => e.asid == asid

def validCount (t : Tlb) : ℕ := (t.entries.filter TlbEntry.valid).length

inductive Call
  | insert (vpn ppn : BitVec 64) (asid : BitVec 16) (flags : BitVec 64)
  | lookup (vpn : BitVec 64) (asid : BitVec 16)
  | flushAll
  | flushByVpn (vpn : BitVec 64)
  | flushByAsid (asid : BitVec 16)
  deriving DecidableEq

def step (t : Tlb) : Call → Option Tlb
  | .insert vpn ppn asid flags => t.insert vpn ppn asid flags
  | .lookup vpn asid => some (t.lookup vpn asid).2
  | .flushAll => some t.flushAll
  | .flushByVpn vpn => some (t.flushByVpn vpn)
  | .flushByAsid asid => some (t.flushByAsid asid)

end Tlb

structure PageMapping where
  vpn : BitVec 64
  ppn : BitVec 64
  flags : BitVec 64
  deriving DecidableEq

structure Mmu where
  tlb : Tlb
  pageTable : List (BitVec 16 × PageMapping)
  currentAsid : BitVec 16
  deriving DecidableEq

/-- The linear search of `translate` through the page table. -/
def walk (pageTable : List (BitVec 16 × PageMapping)) (asid : BitVec 16) (vpn : BitVec 64) :
    Option (BitVec 16 × PageMapping) :=
  pageTable.find? fun p => p.1 == asid && p.2.vpn == vpn

namespace Mmu

def new (tlbCapacity : ℕ) : Mmu := ⟨Tlb.new tlbCapacity, [], 0⟩

def addMapping (m : Mmu) (asid : BitVec 16) (vpn ppn flags : BitVec 64) : Mmu :=
  { m with pageTable := m.pageTable ++ [(asid, ⟨vpn, ppn, flags⟩)] }

def switchAsid (m : Mmu) (newAsid : BitVec 16) : Mmu := { m with currentAsid := newAsid }

/-- The result is the returned value (`none` is the page fault) with the new state. -/
def translate (m : Mmu) (vpn : BitVec 64) : Option (Option (BitVec 64) × Mmu) :=
  match m.tlb.lookup vpn m.currentAsid with
  | (some ppn, tlb) => some (some ppn, { m with tlb := tlb })
  | (none, tlb) =>
    match walk m.pageTable m.currentAsid vpn with
    | some (_, mapping) =>
      (tlb.insert mapping.vpn mapping.ppn m.currentAsid mapping.flags).map fun tlb' =>
        (some mapping.ppn, { m with tlb := tlb' })
    | none => some (none, { m with tlb := tlb })

inductive Call
  | addMapping (asid : BitVec 16) (vpn ppn flags : BitVec 64)
  | switchAsid (newAsid : BitVec 16)
  | translate (vpn : BitVec 64)
  | tlb (call : Tlb.Call)
  deriving DecidableEq

def step (m : Mmu) : Call → Option Mmu
  | .addMapping asid vpn ppn flags => some (m.addMapping asid vpn ppn flags)
  | .switchAsid newAsid => some (m.switchAsid newAsid)
  | .translate vpn => (m.translate vpn).map Prod.snd
  | .tlb call => (m.tlb.step call).map fun tlb => { m with tlb := tlb }

end Mmu

end OsCamp.TlbSim
