import OsCamp.FrameAliasing
import OsCamp.PageTableRefinement

/-!
The single-level page table and the Sv39 table side by side, on the mappings that
both can hold: 20-bit pages in 20-bit frames. A read has the same answer from both,
as long as the entry is valid exactly where it has R, W or X. The single-level table
asks for V alone, and the Sv39 table sets V itself and asks for R, W or X.
-/

set_option autoImplicit false

namespace OsCamp.PageTablesAgree

open BitFields Execution FlatPageMap FrameAliasing MultiLevelPt PageTableEntries PageTableLayout
  PageTableRefinement

/-- A mapping that both tables can hold. -/
structure Call where
  vpn : BitVec 20
  ppn : BitVec 20
  flags : BitVec 8
  deriving DecidableEq

/-- The call of `SingleLevelPageTable::map`. -/
def Call.op (c : Call) : PageTableWalk.Op := .map c.vpn.toNat (c.ppn.setWidth 32) c.flags

/-- The call of `Sv39PageTable::map_page`. -/
def Call.mapCall (c : Call) : MapCall where
  va := c.vpn.setWidth 64 <<< 12
  pa := c.ppn.setWidth 64 <<< 12
  flags := c.flags.setWidth 64
  flags_lt := by
    have hflags := c.flags.isLt
    rw [BitVec.toNat_setWidth]
    omega

/-- The same answer to a read, with the address of 32 bits in 64. -/
def Same : PageTableWalk.TranslateResult → TranslateResult → Prop
  | .ok pa, .ok pa' => pa' = pa.setWidth 64
  | .pageFault, .pageFault => True
  | _, _ => False

/-- The last call for the page of `va`. -/
def lastFor (calls : List Call) (va : BitVec 32) : Option Call :=
  calls.reverse.find? fun c => c.vpn.toNat = PageTableWalk.vaToVpn va

/-- R, W and X of an entry of eight bits. -/
def leafFlags : BitVec 8 := 0x0E#8

/-- The entry is valid for the one table exactly where it is a leaf for the other. -/
def Call.Agrees (c : Call) : Prop :=
  c.flags &&& PageTableWalk.pteValid ≠ 0#8 ↔ c.flags &&& leafFlags ≠ 0#8

variable {c : Call} {va : BitVec 32} {calls : List Call}

theorem lastOp_map (calls : List Call) (va : BitVec 32) :
    PageTableWalk.lastOp (calls.map Call.op) (PageTableWalk.vaToVpn va) =
      (lastFor calls va).map Call.op := by
  unfold PageTableWalk.lastOp lastFor
  rw [← List.map_reverse, List.find?_map]
  rfl

theorem toNat_va (c : Call) : c.mapCall.va.toNat = c.vpn.toNat * 2 ^ 12 := by
  have hvpn := c.vpn.isLt
  have hwide : (c.vpn.setWidth 64).toNat = c.vpn.toNat := BitVec.toNat_setWidth_of_le (by decide)
  have hshift := toNat_shiftLeft_of_lt (c.vpn.setWidth 64) 12 (by omega)
  rw [hwide] at hshift
  exact hshift

theorem toNat_pa (c : Call) : c.mapCall.pa.toNat = c.ppn.toNat * 2 ^ 12 := by
  have hppn := c.ppn.isLt
  have hwide : (c.ppn.setWidth 64).toNat = c.ppn.toNat := BitVec.toNat_setWidth_of_le (by decide)
  have hshift := toNat_shiftLeft_of_lt (c.ppn.setWidth 64) 12 (by omega)
  rw [hwide] at hshift
  exact hshift

theorem toNat_wide (va : BitVec 32) : (va.setWidth 64).toNat = va.toNat :=
  BitVec.toNat_setWidth_of_le (by decide)

theorem pageNumber_eq (c : Call) (va : BitVec 32) :
    pageNumber c.mapCall.va = pageNumber (va.setWidth 64) ↔
      c.vpn.toNat = PageTableWalk.vaToVpn va := by
  have hvpn := c.vpn.isLt
  have hva := va.isLt
  rw [← BitVec.toNat_inj, pageNumber_toNat, pageNumber_toNat, toNat_va, toNat_wide, vaToVpn_eq]
  unfold PageTableWalk.pageOffsetBits
  omega

theorem lastCall_map (calls : List Call) (va : BitVec 32) :
    lastCall (calls.map Call.mapCall) (va.setWidth 64) = (lastFor calls va).map Call.mapCall := by
  unfold lastCall lastFor
  rw [← List.map_reverse, List.find?_map]
  congr 2
  funext c
  exact decide_eq_decide.mpr (pageNumber_eq c va)

theorem isLeaf_iff (c : Call) : IsLeaf c.mapCall.flags ↔ c.flags &&& leafFlags ≠ 0#8 := by
  have hbits : leafBits = leafFlags.setWidth 64 := by decide
  have hmask : c.mapCall.flags &&& leafBits = (c.flags &&& leafFlags).setWidth 64 := by
    rw [hbits, BitVec.setWidth_and]
    rfl
  unfold IsLeaf
  rw [hmask]
  apply not_congr
  rw [← BitVec.toNat_inj, ← BitVec.toNat_inj, BitVec.toNat_setWidth_of_le (by decide)]
  rfl

/-- Both tables put the same frame before the offset. -/
theorem address_eq (c : Call) (va : BitVec 32) :
    (c.mapCall.pa &&& ~~~0xFFF#64) ||| (va.setWidth 64 &&& 0xFFF#64) =
      (PageTableWalk.makePa (c.ppn.setWidth 32) (PageTableWalk.vaToOffset va)).setWidth 64 := by
  have hppn := c.ppn.isLt
  have hframe : (c.ppn.setWidth 32).toNat = c.ppn.toNat := BitVec.toNat_setWidth_of_le (by decide)
  have hbase : (c.mapCall.pa &&& ~~~0xFFF#64).toNat = c.ppn.toNat * 2 ^ 12 := by
    rw [toNat_and_not_mask _ _ 12 rfl, toNat_pa]
    omega
  have hoffset : (va.setWidth 64 &&& 0xFFF#64).toNat = va.toNat % 2 ^ 12 := by
    rw [toNat_and_of_mask _ _ 12 rfl, toNat_wide]
  have hfits : (c.ppn.setWidth 32).toNat < 2 ^ 20 := by omega
  have hflat := PageTableWalk.toNat_makePa hfits (toNat_vaToOffset_lt va)
  rw [hframe, PageTableWalk.toNat_vaToOffset] at hflat
  have hdvd : 2 ^ 12 ∣ (c.mapCall.pa &&& ~~~0xFFF#64).toNat := hbase ▸ Nat.dvd_mul_left _ _
  apply BitVec.eq_of_toNat_eq
  rw [toNat_or_of_dvd _ _ 12 hdvd (by omega), hbase, hoffset, toNat_wide, hflat]
  rfl

/-- A read of the single-level table, by the last call for the page. -/
theorem flat_read {pt : PageTableWalk.SingleLevelPageTable}
    (hlookup : pt.lookup (PageTableWalk.vaToVpn va) =
      some (((lastFor calls va).map Call.op).bind PageTableWalk.Op.slot)) :
    pt.translate va false = some (match lastFor calls va with
      | some c =>
        if c.flags &&& PageTableWalk.pteValid = 0#8 then .pageFault
        else .ok (PageTableWalk.makePa (c.ppn.setWidth 32) (PageTableWalk.vaToOffset va))
      | none => .pageFault) := by
  unfold PageTableWalk.SingleLevelPageTable.translate
  cases hlast : lastFor calls va with
  | none =>
    rw [hlast] at hlookup
    simp only [hlookup]
    rfl
  | some c =>
    rw [hlast] at hlookup
    have hentry : pt.lookup (PageTableWalk.vaToVpn va) =
        some (some ⟨c.ppn.setWidth 32, c.flags⟩) := hlookup
    simp only [hentry]
    split_ifs with hvalid hwrite
    · rfl
    · exact hwrite.1.elim
    · rfl

/-- A read of the Sv39 table, by the last call for the page. -/
theorem sv39_read {pt : Sv39PageTable} {loc : Placement}
    (h : Refines pt loc noBig (insertAll empty (calls.map Call.mapCall))) (va : BitVec 32) :
    pt.translate (va.setWidth 64) = match lastFor calls va with
      | some c =>
        if c.flags &&& leafFlags = 0#8 then .pageFault
        else
          .ok ((PageTableWalk.makePa (c.ppn.setWidth 32) (PageTableWalk.vaToOffset va)).setWidth 64)
      | none => .pageFault := by
  rw [translate_eq h]
  simp only [noBig, FlatPageMap.translate, insertAll_apply, lastCall_map]
  cases lastFor calls va with
  | none => rfl
  | some c =>
    simp only [Option.map_some]
    by_cases hleaf : c.flags &&& leafFlags = 0#8
    · rw [if_pos hleaf, if_neg fun h => (isLeaf_iff c).mp h hleaf]
    · rw [if_neg hleaf, if_pos ((isLeaf_iff c).mpr hleaf), address_eq]

theorem same_iff (c : Call) (pa : BitVec 32) :
    Same (if c.flags &&& PageTableWalk.pteValid = 0#8 then .pageFault else .ok pa)
        (if c.flags &&& leafFlags = 0#8 then .pageFault else .ok (pa.setWidth 64)) ↔
      c.Agrees := by
  unfold Call.Agrees
  by_cases hvalid : c.flags &&& PageTableWalk.pteValid = 0#8
  · by_cases hleaf : c.flags &&& leafFlags = 0#8
    · rw [if_pos hvalid, if_pos hleaf]
      exact iff_of_true trivial (iff_of_false (not_not_intro hvalid) (not_not_intro hleaf))
    · rw [if_pos hvalid, if_neg hleaf]
      exact iff_of_false id fun h => h.mpr hleaf hvalid
  · by_cases hleaf : c.flags &&& leafFlags = 0#8
    · rw [if_neg hvalid, if_pos hleaf]
      exact iff_of_false id fun h => h.mp hvalid hleaf
    · rw [if_neg hvalid, if_neg hleaf]
      exact iff_of_true rfl (iff_of_true hvalid hleaf)

/-- After the same calls, neither of which panics, a read has the same answer from both
tables exactly where the last mapping of the page has V as well as one of R, W and X, or
none of the four, or where there is none. -/
theorem reads_agree_iff (calls : List Call) :
    ∃ flat sv39, run PageTableWalk.step (.new (2 ^ 20)) (calls.map Call.op) = some flat ∧
      mapPages Sv39PageTable.new (calls.map Call.mapCall) = some sv39 ∧
      ∀ va : BitVec 32, ∃ r, flat.translate va false = some r ∧
        (Same r (sv39.translate (va.setWidth 64)) ↔ ∀ c ∈ lastFor calls va, c.Agrees) := by
  have hrange : ∀ op ∈ calls.map Call.op, op.vpn < 2 ^ 20 := by
    intro op hop
    obtain ⟨c, -, rfl⟩ := List.mem_map.mp hop
    exact c.vpn.isLt
  obtain ⟨flat, hflat, -, hlookup⟩ := PageTableWalk.run_new_lookup hrange
  obtain ⟨sv39, loc, hsv39, hrefines⟩ :=
    mapPages_refines new_refines (calls.map Call.mapCall) fun _ _ => rfl
  refine ⟨flat, sv39, hflat, hsv39, ?_⟩
  intro va
  have hentry := hlookup _ (vaToVpn_lt va)
  rw [lastOp_map] at hentry
  refine ⟨_, flat_read hentry, ?_⟩
  rw [sv39_read hrefines]
  cases lastFor calls va with
  | none => exact iff_of_true trivial fun c hc => nomatch hc
  | some c =>
    refine (same_iff c _).trans ⟨?_, fun h => h c rfl⟩
    intro h d hd
    cases hd
    exact h

end OsCamp.PageTablesAgree
