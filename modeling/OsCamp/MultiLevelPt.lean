import OsCamp.BitFields
import Mathlib.Logic.Function.Basic

/-!
The simulated SV39 page table. Page-table pages live in a map from physical
page numbers to nodes of 512 entries; a result `none` is a panic of the source
(an `unwrap` of a missing node, a failed `assert_eq!`, an overflowing `+= 1`).
An index produced by `extractVpn` is below 512 by its type, so array accesses
cannot fail.
-/

set_option autoImplicit false

namespace OsCamp.MultiLevelPt

open BitFields

def pageSize : ℕ := 4096

abbrev ptEntries : ℕ := 512

/-- 2MB. -/
def megaSize : BitVec 64 := BitVec.ofNat 64 (pageSize * ptEntries)

def pteV : BitVec 64 := 1#64 <<< 0
def pteR : BitVec 64 := 1#64 <<< 1
def pteW : BitVec 64 := 1#64 <<< 2
def pteX : BitVec 64 := 1#64 <<< 3

def ppnShift : ℕ := 10

structure PageTableNode where
  entries : Fin ptEntries → BitVec 64

namespace PageTableNode

def new : PageTableNode := ⟨fun _ => 0⟩

def set (node : PageTableNode) (vpn : Fin ptEntries) (pte : BitVec 64) : PageTableNode :=
  ⟨Function.update node.entries vpn pte⟩

end PageTableNode

structure Sv39PageTable where
  nodes : BitVec 64 → Option PageTableNode
  rootPpn : BitVec 64
  nextPpn : BitVec 64

inductive TranslateResult
  | ok (pa : BitVec 64)
  | pageFault
  deriving DecidableEq

/-- Bits [12 + 9·level, 20 + 9·level] of the address; the mask bounds the index. -/
def extractVpn (va : BitVec 64) (level : ℕ) : Fin ptEntries :=
  ⟨((va >>> (12 + level * 9)) &&& 0x1FF#64).toNat, by
    rw [toNat_field va 0x1FF#64 (12 + level * 9) 9 rfl]
    exact Nat.mod_lt _ (by decide)⟩

namespace Sv39PageTable

def new : Sv39PageTable where
  nodes := Function.update (fun _ => none) 0x80000#64 (some PageTableNode.new)
  rootPpn := 0x80000#64
  nextPpn := 0x80001#64

/-- `self.nodes.get(&ppn).unwrap().entries[vpn]`. -/
def getEntry (pt : Sv39PageTable) (ppn : BitVec 64) (vpn : Fin ptEntries) :
    Option (BitVec 64) :=
  (pt.nodes ppn).map fun node => node.entries vpn

/-- `self.nodes.get_mut(&ppn).unwrap().entries[vpn] = pte`. -/
def setEntry (pt : Sv39PageTable) (ppn : BitVec 64) (vpn : Fin ptEntries) (pte : BitVec 64) :
    Option Sv39PageTable :=
  (pt.nodes ppn).map fun node =>
    { pt with nodes := Function.update pt.nodes ppn (some (node.set vpn pte)) }

def allocNode (pt : Sv39PageTable) : Option (BitVec 64 × Sv39PageTable) :=
  let ppn := pt.nextPpn
  if ppn = BitVec.allOnes 64 then none
  else some (ppn, { pt with
    nodes := Function.update pt.nodes ppn (some PageTableNode.new)
    nextPpn := pt.nextPpn + 1 })

/-- One iteration of the loop over the intermediate levels: follow a valid
entry, or allocate the missing node and link it with V alone. -/
def descendLevel (va : BitVec 64) (s : Sv39PageTable × BitVec 64) (level : ℕ) :
    Option (Sv39PageTable × BitVec 64) := do
  let (pt, currPpn) := s
  let vpn := extractVpn va level
  let pte ← pt.getEntry currPpn vpn
  if pte &&& pteV = 0 then
    let (newPpn, pt) ← pt.allocNode
    let pt ← pt.setEntry currPpn vpn ((newPpn <<< ppnShift) ||| pteV)
    some (pt, newPpn)
  else
    -- no leaf test here: any valid entry counts as a pointer
    some (pt, pte >>> ppnShift)

/-- The descent of `map_page` to the node that holds the level-0 entry. -/
def descend (pt : Sv39PageTable) (va : BitVec 64) : Option (Sv39PageTable × BitVec 64) :=
  [2, 1].foldlM (descendLevel va) (pt, pt.rootPpn)

def mapPage (pt : Sv39PageTable) (va pa flags : BitVec 64) : Option Sv39PageTable := do
  let (pt, currPpn) ← pt.descend va
  pt.setEntry currPpn (extractVpn va 0) (((pa >>> 12) <<< ppnShift) ||| flags ||| pteV)

/-- The walk of `translate` over the remaining levels. -/
def walk (pt : Sv39PageTable) (va : BitVec 64) : List ℕ → BitVec 64 → TranslateResult
  | [], _ => .pageFault
  | level :: rest, currPpn =>
    match pt.getEntry currPpn (extractVpn va level) with
    | none => .pageFault
    | some pte =>
      if pte &&& pteV = 0 then .pageFault
      else if pte &&& (pteR ||| pteW ||| pteX) ≠ 0 then
        let basePpn := pte >>> ppnShift
        if level > 0 then
          let mask := (1#64 <<< (12 + level * 9)) - 1#64
          .ok ((basePpn <<< 12) ||| (va &&& mask))
        else .ok ((basePpn <<< 12) ||| (va &&& 0xFFF#64))
      else walk pt va rest (pte >>> ppnShift)

def translate (pt : Sv39PageTable) (va : BitVec 64) : TranslateResult :=
  pt.walk va [2, 1, 0] pt.rootPpn

/-- The first half of `map_superpage`: find or create the level-1 table. -/
def descendSuperpage (pt : Sv39PageTable) (va : BitVec 64) :
    Option (Sv39PageTable × BitVec 64) := do
  let vpn2 := extractVpn va 2
  let pte2 ← pt.getEntry pt.rootPpn vpn2
  if pte2 &&& pteV = 0 then
    let (currPpn, pt) ← pt.allocNode
    -- the link goes to the node numbered one below the fresh one
    let pt ← pt.setEntry (currPpn - 1) vpn2 ((currPpn <<< ppnShift) ||| pteV)
    some (pt, currPpn)
  else some (pt, pte2 >>> ppnShift)

def mapSuperpage (pt : Sv39PageTable) (va pa flags : BitVec 64) : Option Sv39PageTable := do
  if va % megaSize ≠ 0 then none
  else if pa % megaSize ≠ 0 then none
  else
    let (pt, currPpn) ← pt.descendSuperpage va
    pt.setEntry currPpn (extractVpn va 1) (((pa >>> 12) <<< ppnShift) ||| flags ||| pteV)

end Sv39PageTable

end OsCamp.MultiLevelPt
