import OsCamp.MultiLevelPt

/-!
The two kinds of page-table entries that are ever written, and the reads and
writes of single entries. A pointer entry carries only V; a leaf entry carries
the caller's flags. The walker's three tests are evaluated on both kinds, so
later modules never unfold an entry again.
-/

set_option autoImplicit false

namespace OsCamp.PageTableEntries

open BitFields MultiLevelPt

/-- The bits that make a valid entry a leaf. -/
def leafBits : BitVec 64 := pteR ||| pteW ||| pteX

/-- Some of R, W and X is set. -/
def IsLeaf (flags : BitVec 64) : Prop := flags &&& leafBits ≠ 0

instance (flags : BitVec 64) : Decidable (IsLeaf flags) := by
  unfold IsLeaf
  infer_instance

def pointerPte (ppn : BitVec 64) : BitVec 64 := (ppn <<< ppnShift) ||| pteV

def leafPte (pa flags : BitVec 64) : BitVec 64 :=
  ((pa >>> 12) <<< ppnShift) ||| flags ||| pteV

theorem pointerPte_valid (ppn : BitVec 64) : pointerPte ppn &&& pteV ≠ 0 := by
  unfold pointerPte
  rw [shiftLeft_or_and ppn pteV pteV ppnShift (by decide)]
  decide

theorem pointerPte_not_leaf (ppn : BitVec 64) : pointerPte ppn &&& leafBits = 0 := by
  unfold pointerPte
  rw [shiftLeft_or_and ppn pteV leafBits ppnShift (by decide)]
  decide

/-- The page number survives the shift as long as it has at most 54 bits. -/
theorem pointerPte_ppn (ppn : BitVec 64) (h : ppn.toNat < 2 ^ 54) :
    pointerPte ppn >>> ppnShift = ppn :=
  shiftLeft_or_ushiftRight ppn pteV ppnShift (by simp only [ppnShift]; omega) (by decide)

theorem leafPte_eq (pa flags : BitVec 64) :
    leafPte pa flags = ((pa >>> 12) <<< ppnShift) ||| (flags ||| pteV) :=
  BitVec.or_assoc _ _ _

theorem leafPte_valid (pa flags : BitVec 64) : leafPte pa flags &&& pteV ≠ 0 := by
  have hbit : (flags ||| pteV) &&& pteV = pteV := by
    ext i
    simp only [BitVec.getElem_and, BitVec.getElem_or]
    cases pteV[i] <;> simp
  rw [leafPte_eq, shiftLeft_or_and _ _ pteV ppnShift (by decide), hbit]
  decide

/-- The V bit that `map_page` adds does not change the leaf test. -/
theorem leafPte_and_leafBits (pa flags : BitVec 64) :
    leafPte pa flags &&& leafBits = flags &&& leafBits := by
  have hdisj : (flags ||| pteV) &&& leafBits = (flags &&& leafBits) ||| (pteV &&& leafBits) := by
    ext i
    simp only [BitVec.getElem_and, BitVec.getElem_or]
    cases flags[i] <;> cases pteV[i] <;> simp
  have hzero : pteV &&& leafBits = 0#64 := by decide
  rw [leafPte_eq, shiftLeft_or_and _ _ leafBits ppnShift (by decide), hdisj, hzero, BitVec.or_zero]

theorem leafPte_ppn (pa flags : BitVec 64) (hf : flags.toNat < 2 ^ 10) :
    leafPte pa flags >>> ppnShift = pa >>> 12 := by
  rw [leafPte_eq]
  apply shiftLeft_or_ushiftRight _ _ ppnShift
  · have hpa := pa.isLt
    rw [BitVec.toNat_ushiftRight, Nat.shiftRight_eq_div_pow]
    simp only [ppnShift]
    omega
  · exact toNat_or_lt flags pteV 10 hf (by decide)

/-- The page base stored in a leaf is the address with its low 12 bits cleared. -/
theorem page_base (pa : BitVec 64) : (pa >>> 12) <<< 12 = pa &&& ~~~0xFFF#64 := by
  apply BitVec.eq_of_toNat_eq
  rw [toNat_ushiftRight_shiftLeft, toNat_and_not_mask pa 0xFFF#64 12 rfl]

/-- Bits 38..12 of an address, the page it belongs to. -/
def pageNumber (va : BitVec 64) : BitVec 27 := va.extractLsb' 12 27

theorem pageNumber_toNat (va : BitVec 64) :
    (pageNumber va).toNat = va.toNat / 2 ^ 12 % 2 ^ 27 := by
  rw [pageNumber, BitVec.extractLsb'_toNat, Nat.shiftRight_eq_div_pow]

theorem extractVpn_val (va : BitVec 64) (level : ℕ) :
    (extractVpn va level).val = va.toNat / 2 ^ (12 + level * 9) % 2 ^ 9 :=
  toNat_field va 0x1FF#64 (12 + level * 9) 9 rfl

/-- A page number is the three VPN fields put together. -/
theorem pageNumber_eq_iff (a b : BitVec 64) :
    pageNumber a = pageNumber b ↔
      extractVpn a 2 = extractVpn b 2 ∧ extractVpn a 1 = extractVpn b 1 ∧
        extractVpn a 0 = extractVpn b 0 := by
  rw [← BitVec.toNat_inj, pageNumber_toNat, pageNumber_toNat, Fin.ext_iff, Fin.ext_iff,
    Fin.ext_iff]
  simp only [extractVpn_val]
  omega

section Access

variable {pt pt' : Sv39PageTable} {ppn : BitVec 64} {vpn : Fin ptEntries} {pte : BitVec 64}

/-- A write succeeds exactly on the nodes that can be read, and changes one entry. -/
theorem setEntry_spec (h : (pt.getEntry ppn vpn).isSome) (pte : BitVec 64) :
    ∃ pt', pt.setEntry ppn vpn pte = some pt' ∧ pt'.rootPpn = pt.rootPpn ∧
      pt'.nextPpn = pt.nextPpn ∧ ∀ q u, pt'.getEntry q u =
        if q = ppn ∧ u = vpn then some pte else pt.getEntry q u := by
  obtain ⟨node, hnode⟩ : ∃ node, pt.nodes ppn = some node := by
    cases hn : pt.nodes ppn with
    | none => simp [Sv39PageTable.getEntry, hn] at h
    | some node => exact ⟨node, rfl⟩
  refine ⟨{ pt with nodes := Function.update pt.nodes ppn (some (node.set vpn pte)) },
    by simp [Sv39PageTable.setEntry, hnode], rfl, rfl, ?_⟩
  intro q u
  by_cases hq : q = ppn
  · subst q
    by_cases hu : u = vpn
    · subst u
      simp [Sv39PageTable.getEntry, PageTableNode.set]
    · simp [Sv39PageTable.getEntry, PageTableNode.set, hu, hnode]
  · simp [Sv39PageTable.getEntry, hq]

/-- A missing node makes every write to it a failed unwrap. -/
theorem setEntry_eq_none (h : pt.getEntry ppn vpn = none) : pt.setEntry ppn vpn pte = none := by
  cases hn : pt.nodes ppn with
  | none => simp [Sv39PageTable.setEntry, hn]
  | some node => simp [Sv39PageTable.getEntry, hn] at h

theorem getEntry_setEntry (h : pt.setEntry ppn vpn pte = some pt') (q : BitVec 64)
    (u : Fin ptEntries) :
    pt'.getEntry q u = if q = ppn ∧ u = vpn then some pte else pt.getEntry q u := by
  cases hg : pt.getEntry ppn vpn with
  | none => simp [setEntry_eq_none hg] at h
  | some old =>
    have hsome : (pt.getEntry ppn vpn).isSome := by rw [hg]; rfl
    obtain ⟨pt'', hset, -, -, hget⟩ := setEntry_spec hsome pte
    rw [h, Option.some.injEq] at hset
    subst pt''
    exact hget q u

theorem rootPpn_setEntry (h : pt.setEntry ppn vpn pte = some pt') : pt'.rootPpn = pt.rootPpn := by
  obtain ⟨node, -, rfl⟩ := Option.map_eq_some_iff.mp h
  rfl

theorem nextPpn_setEntry (h : pt.setEntry ppn vpn pte = some pt') : pt'.nextPpn = pt.nextPpn := by
  obtain ⟨node, -, rfl⟩ := Option.map_eq_some_iff.mp h
  rfl

/-- The fresh node is all zero, and no other node changes. -/
theorem allocNode_spec (h : pt.nextPpn ≠ BitVec.allOnes 64) :
    ∃ pt', pt.allocNode = some (pt.nextPpn, pt') ∧ pt'.rootPpn = pt.rootPpn ∧
      pt'.nextPpn = pt.nextPpn + 1 ∧ ∀ q u, pt'.getEntry q u =
        if q = pt.nextPpn then some 0 else pt.getEntry q u := by
  refine ⟨{ pt with
    nodes := Function.update pt.nodes pt.nextPpn (some PageTableNode.new)
    nextPpn := pt.nextPpn + 1 }, by rw [Sv39PageTable.allocNode, if_neg h], rfl, rfl, ?_⟩
  intro q u
  by_cases hq : q = pt.nextPpn
  · subst q
    simp [Sv39PageTable.getEntry, PageTableNode.new]
  · simp [Sv39PageTable.getEntry, hq]

end Access

end OsCamp.PageTableEntries
