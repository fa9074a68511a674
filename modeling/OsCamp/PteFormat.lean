import OsCamp.Execution
import OsCamp.PageTableSuperpage
import OsCamp.PteFlags

/-!
The entries of the simulated page table in the format of the `01_pte_flags` exercise. A call
writes the entry of its page, and above it links to the nodes that it allocates. Both kinds
of entries are built as `make_pte` builds them, as long as the node numbers fit in 44 bits.
They may outgrow them: a superpage may map the page of the root table, `map_page` does not ask
whether an entry is a leaf, and so it writes into the root below such a superpage and turns a
populated root slot over to an empty node again and again.
-/

set_option autoImplicit false

namespace OsCamp.PteFormat

open Execution MultiLevelPt PageTableEntries PageTableSuperpage
open PteFlags (makePte extractPpn isValid isLeaf ReservedClear)

inductive Call
  | mapPage (va pa flags : BitVec 64)
  | mapSuperpage (va pa flags : BitVec 64)
  deriving DecidableEq

namespace Call

def pa : Call → BitVec 64
  | .mapPage _ pa _ => pa
  | .mapSuperpage _ pa _ => pa

def flags : Call → BitVec 64
  | .mapPage _ _ flags => flags
  | .mapSuperpage _ _ flags => flags

/-- The index of the entry that the call writes last. -/
def lastVpn : Call → Fin ptEntries
  | .mapPage va _ _ => extractVpn va 0
  | .mapSuperpage va _ _ => extractVpn va 1

end Call

def step (pt : Sv39PageTable) : Call → Option Sv39PageTable
  | .mapPage va pa flags => pt.mapPage va pa flags
  | .mapSuperpage va pa flags => pt.mapSuperpage va pa flags

/-- The address has at most 56 bits, the flags have at most 8, and a superpage is mapped
below a root slot that is populated. -/
def Admissible (pt : Sv39PageTable) (c : Call) : Prop :=
  c.pa.toNat < 2 ^ 56 ∧ c.flags.toNat < 2 ^ 8 ∧
    ∀ va pa flags, c = .mapSuperpage va pa flags → RootSlotPopulated pt va

/-- The three tests of the walk on an entry are those of the other exercise. -/
structure WalkerAgrees (pte : BitVec 64) : Prop where
  valid : pte &&& pteV = 0 ↔ isValid pte = false
  leaf : pte &&& (pteR ||| pteW ||| pteX) ≠ 0 ↔ isLeaf pte = true
  ppn : pte >>> ppnShift = extractPpn pte

/-- The node numbers given out between the two tables. -/
def Fresh (pt pt' : Sv39PageTable) (ppn : BitVec 64) : Prop :=
  pt.nextPpn.toNat ≤ ppn.toNat ∧ ppn.toNat < pt'.nextPpn.toNat

/-- From one table to the other nodes were allocated and linked, and nothing else. -/
structure Linked (pt pt' : Sv39PageTable) : Prop where
  next_le : pt.nextPpn.toNat ≤ pt'.nextPpn.toNat
  entry : ∀ ppn vpn pte, pt'.getEntry ppn vpn = some pte →
    pt.getEntry ppn vpn = some pte ∨ (pte = 0 ∧ Fresh pt pt' ppn) ∨
      ∃ child, Fresh pt pt' child ∧ pte = pointerPte child

/-- Every entry is zero, a leaf of a call, or a link to a node. -/
def Formatted (pt : Sv39PageTable) : Prop :=
  ∀ ppn vpn pte, pt.getEntry ppn vpn = some pte →
    pte = 0 ∨
    (∃ pa flags : BitVec 64, pa.toNat < 2 ^ 56 ∧ flags.toNat < 2 ^ 8 ∧ pte = leafPte pa flags) ∨
    ∃ child : BitVec 64, child.toNat < pt.nextPpn.toNat ∧ pte = pointerPte child

variable {pt pt' : Sv39PageTable} {c : Call} {va pa flags ppn q : BitVec 64} {vpn : Fin ptEntries}

theorem and_flagsMask_of_lt {x : BitVec 64} (h : x.toNat < 2 ^ 8) : x &&& 0xFF#64 = x := by
  apply BitVec.eq_of_toNat_eq
  rw [PteFlags.toNat_and_flagsMask, Nat.mod_eq_of_lt h]

theorem and_ppnMask_of_lt {x : BitVec 64} (h : x.toNat < 2 ^ 44) : x &&& PteFlags.ppnMask = x := by
  apply BitVec.eq_of_toNat_eq
  rw [PteFlags.toNat_and_ppnMask, Nat.mod_eq_of_lt h]

theorem leafPte_eq_makePte (hpa : pa.toNat < 2 ^ 56) (hflags : flags.toNat < 2 ^ 8) :
    leafPte pa flags = makePte (pa >>> 12) (flags ||| PteFlags.pteV) := by
  have hppn : (pa >>> 12).toNat < 2 ^ 44 := by
    rw [BitVec.toNat_ushiftRight, Nat.shiftRight_eq_div_pow]
    omega
  have hlow : (flags ||| PteFlags.pteV).toNat < 2 ^ 8 :=
    BitFields.toNat_or_lt flags PteFlags.pteV 8 hflags (by decide)
  rw [leafPte_eq, makePte, and_ppnMask_of_lt hppn, and_flagsMask_of_lt hlow]
  rfl

theorem pointerPte_eq_makePte {child : BitVec 64} (h : child.toNat < 2 ^ 44) :
    pointerPte child = makePte child PteFlags.pteV := by
  have hlow : PteFlags.pteV &&& 0xFF#64 = PteFlags.pteV := by decide
  rw [makePte, and_ppnMask_of_lt h, hlow]
  rfl

theorem walkerAgrees_of_clear {pte : BitVec 64} (h : ReservedClear pte) : WalkerAgrees pte where
  valid := by
    unfold isValid
    rw [bne_eq_false_iff_eq]
    rfl
  leaf := by
    unfold isLeaf
    rw [bne_iff_ne]
    rfl
  ppn := PteFlags.ushiftRight_eq_extractPpn h

theorem Linked.refl (pt : Sv39PageTable) : Linked pt pt where
  next_le := Nat.le_refl _
  entry _ _ _ h := Or.inl h

theorem Fresh.mono {mid : Sv39PageTable} (h : Fresh pt mid ppn)
    (hle : mid.nextPpn.toNat ≤ pt'.nextPpn.toNat) : Fresh pt pt' ppn :=
  ⟨h.1, Nat.lt_of_lt_of_le h.2 hle⟩

theorem Fresh.earlier {mid : Sv39PageTable} (h : Fresh mid pt' ppn)
    (hle : pt.nextPpn.toNat ≤ mid.nextPpn.toNat) : Fresh pt pt' ppn :=
  ⟨Nat.le_trans hle h.1, h.2⟩

theorem Linked.trans {mid : Sv39PageTable} (h : Linked pt mid) (h' : Linked mid pt') :
    Linked pt pt' where
  next_le := Nat.le_trans h.next_le h'.next_le
  entry ppn vpn pte hget := by
    rcases h'.entry ppn vpn pte hget with hmid | ⟨hzero, hfresh⟩ | ⟨child, hfresh, hpte⟩
    · rcases h.entry ppn vpn pte hmid with hold | ⟨hzero, hfresh⟩ | ⟨child, hfresh, hpte⟩
      · exact Or.inl hold
      · exact Or.inr (Or.inl ⟨hzero, hfresh.mono h'.next_le⟩)
      · exact Or.inr (Or.inr ⟨child, hfresh.mono h'.next_le, hpte⟩)
    · exact Or.inr (Or.inl ⟨hzero, hfresh.earlier h.next_le⟩)
    · exact Or.inr (Or.inr ⟨child, hfresh.earlier h.next_le, hpte⟩)

/-- Allocating a node and writing a pointer to it anywhere. -/
theorem linked_of_alloc {mid : Sv39PageTable} {child : BitVec 64}
    (halloc : pt.allocNode = some (child, mid))
    (hset : mid.setEntry q vpn (pointerPte child) = some pt') : Linked pt pt' := by
  have hne : pt.nextPpn ≠ BitVec.allOnes 64 := by
    intro heq
    simp [Sv39PageTable.allocNode, heq] at halloc
  obtain ⟨mid', halloc', -, hnext, hget⟩ := allocNode_spec hne
  cases halloc.symm.trans halloc'
  have hnext' : pt'.nextPpn = pt.nextPpn + 1 := by
    rw [nextPpn_setEntry hset, hnext]
  have hsucc : pt'.nextPpn.toNat = pt.nextPpn.toNat + 1 := by
    have hlast : pt.nextPpn.toNat ≠ 2 ^ 64 - 1 := by
      intro heq
      apply hne
      apply BitVec.eq_of_toNat_eq
      rw [heq, BitVec.toNat_allOnes]
    have hone : (1 : BitVec 64).toNat = 1 := rfl
    rw [hnext', BitVec.toNat_add, hone]
    omega
  have hfresh : Fresh pt pt' pt.nextPpn := ⟨Nat.le_refl _, by omega⟩
  refine ⟨by omega, ?_⟩
  intro ppn u pte hentry
  rw [getEntry_setEntry hset, hget] at hentry
  split_ifs at hentry with hlink hnode
  · cases hentry
    exact Or.inr (Or.inr ⟨_, hfresh, rfl⟩)
  · cases hentry
    rw [hnode]
    exact Or.inr (Or.inl ⟨rfl, hfresh⟩)
  · exact Or.inl hentry

theorem descendLevel_linked {level : ℕ} {out : Sv39PageTable × BitVec 64}
    (h : Sv39PageTable.descendLevel va (pt, q) level = some out) : Linked pt out.1 := by
  unfold Sv39PageTable.descendLevel at h
  obtain ⟨pte, -, h⟩ := Option.bind_eq_some_iff.mp h
  split_ifs at h with hvalid
  · obtain ⟨⟨child, mid⟩, halloc, h⟩ := Option.bind_eq_some_iff.mp h
    obtain ⟨pt', hset, h⟩ := Option.bind_eq_some_iff.mp h
    cases h
    exact linked_of_alloc halloc hset
  · cases h
    exact Linked.refl pt

theorem descend_linked {out : Sv39PageTable × BitVec 64} (h : pt.descend va = some out) :
    Linked pt out.1 := by
  obtain ⟨mid, hfirst, h⟩ := Option.bind_eq_some_iff.mp h
  obtain ⟨out', hsecond, h⟩ := Option.bind_eq_some_iff.mp h
  cases h
  exact (descendLevel_linked hfirst).trans (descendLevel_linked hsecond)

theorem descendSuperpage_linked {out : Sv39PageTable × BitVec 64}
    (h : pt.descendSuperpage va = some out) : Linked pt out.1 := by
  unfold Sv39PageTable.descendSuperpage at h
  obtain ⟨pte, -, h⟩ := Option.bind_eq_some_iff.mp h
  split_ifs at h with hvalid
  · obtain ⟨⟨child, mid⟩, halloc, h⟩ := Option.bind_eq_some_iff.mp h
    obtain ⟨pt', hset, h⟩ := Option.bind_eq_some_iff.mp h
    cases h
    exact linked_of_alloc halloc hset
  · cases h
    exact Linked.refl pt

/-- A call links nodes and then writes its leaf into one entry. -/
theorem step_writes (hs : step pt c = some pt') :
    ∃ mid q, Linked pt mid ∧ mid.setEntry q c.lastVpn (leafPte c.pa c.flags) = some pt' := by
  cases c with
  | mapPage va pa flags =>
    obtain ⟨⟨mid, q⟩, hdescend, hset⟩ := Option.bind_eq_some_iff.mp hs
    exact ⟨mid, q, descend_linked hdescend, hset⟩
  | mapSuperpage va pa flags =>
    simp only [step, Sv39PageTable.mapSuperpage, ne_eq, Option.bind_eq_bind, ite_eq_iff,
      reduceCtorEq, and_false, false_or, Option.bind_eq_some_iff] at hs
    obtain ⟨-, -, ⟨mid, q⟩, hdescend, hset⟩ := hs
    exact ⟨mid, q, descendSuperpage_linked hdescend, hset⟩

/-- The leaf that a call has written, and how every other entry came about. -/
theorem step_entries (hs : step pt c = some pt') :
    ∃ q, pt'.getEntry q c.lastVpn = some (leafPte c.pa c.flags) ∧
      pt.nextPpn.toNat ≤ pt'.nextPpn.toNat ∧
      ∀ ppn vpn pte, ¬ (ppn = q ∧ vpn = c.lastVpn) → pt'.getEntry ppn vpn = some pte →
        pt.getEntry ppn vpn = some pte ∨ (pte = 0 ∧ Fresh pt pt' ppn) ∨
          ∃ child, Fresh pt pt' child ∧ pte = pointerPte child := by
  obtain ⟨mid, q, hlinked, hset⟩ := step_writes hs
  have hget := getEntry_setEntry hset
  have hnext := congrArg BitVec.toNat (nextPpn_setEntry hset)
  have hle := hlinked.next_le
  refine ⟨q, by rw [hget, if_pos ⟨rfl, rfl⟩], by omega, ?_⟩
  intro ppn vpn pte hother hentry
  rw [hget, if_neg hother] at hentry
  have hkept : ∀ {p}, Fresh pt mid p → Fresh pt pt' p := fun h => h.mono (by omega)
  rcases hlinked.entry ppn vpn pte hentry with hold | ⟨hzero, hfresh⟩ | ⟨child, hfresh, hpte⟩
  · exact Or.inl hold
  · exact Or.inr (Or.inl ⟨hzero, hkept hfresh⟩)
  · exact Or.inr (Or.inr ⟨child, hkept hfresh, hpte⟩)

theorem formatted_new : Formatted Sv39PageTable.new := by
  intro ppn vpn pte hentry
  rw [PageTableRefinement.getEntry_new] at hentry
  split_ifs at hentry
  cases hentry
  exact Or.inl rfl

theorem Formatted.step (h : Formatted pt) (hok : Admissible pt c)
    (hs : PteFormat.step pt c = some pt') : Formatted pt' := by
  obtain ⟨q, hleaf, hle, hother⟩ := step_entries hs
  intro ppn vpn pte hentry
  by_cases hlast : ppn = q ∧ vpn = c.lastVpn
  · rw [hlast.1, hlast.2, hleaf] at hentry
    cases hentry
    exact Or.inr (Or.inl ⟨c.pa, c.flags, hok.1, hok.2.1, rfl⟩)
  · rcases hother ppn vpn pte hlast hentry with hold | ⟨hzero, -⟩ | ⟨child, hfresh, hpte⟩
    · rcases h ppn vpn pte hold with hzero | hleaf | ⟨child, hlt, hpte⟩
      · exact Or.inl hzero
      · exact Or.inr (Or.inl hleaf)
      · exact Or.inr (Or.inr ⟨child, by omega, hpte⟩)
    · exact Or.inl hzero
    · exact Or.inr (Or.inr ⟨child, hfresh.2, hpte⟩)

theorem reachable_formatted (h : Reach step Admissible Sv39PageTable.new pt) : Formatted pt :=
  h.invariant formatted_new fun _ _ _ hi hok hs => hi.step hok hs

/-- An entry in the format of `make_pte` is read alike by both crates. -/
theorem Formatted.reservedClear (h : Formatted pt) (hnext : pt.nextPpn.toNat ≤ 2 ^ 44)
    {pte : BitVec 64} (hentry : pt.getEntry ppn vpn = some pte) : ReservedClear pte := by
  rcases h ppn vpn pte hentry with hzero | ⟨pa, flags, hpa, hflags, hpte⟩ | ⟨child, hlt, hpte⟩
  · intro i _
    rw [hzero]
    exact BitVec.getLsbD_zero
  · rw [hpte, leafPte_eq_makePte hpa hflags]
    exact PteFlags.reservedClear_makePte _ _
  · rw [hpte, pointerPte_eq_makePte (by omega)]
    exact PteFlags.reservedClear_makePte _ _

/-- The address below whose root slot a link is added to an ever new node. -/
def tipVa : BitVec 64 := 0x40001000#64

/-- The address below the superpage that maps the root table; its last entry is the root slot
of `tipVa`. -/
def backVa : BitVec 64 := 0x201000#64

def node (n : ℕ) : BitVec 64 := BitVec.ofNat 64 n

def grow : Call := .mapPage tipVa 0 0

def redirect (n : ℕ) : Call := .mapPage backVa (node n <<< 12) 0

/-- The root slot of `tipVa` holds the node numbered last, whose entry for it is empty. -/
structure Pumped (pt : Sv39PageTable) (n : ℕ) : Prop where
  root_ppn : pt.rootPpn = 0x80000#64
  next_ppn : pt.nextPpn = node n
  first : pt.getEntry 0x80000#64 (extractVpn backVa 2) = some (pointerPte 0x80001#64)
  back : pt.getEntry 0x80001#64 (extractVpn backVa 1) = some (pointerPte 0x80000#64)
  tip : pt.getEntry 0x80000#64 (extractVpn tipVa 2) = some (pointerPte (node (n - 1)))
  empty : pt.getEntry (node (n - 1)) (extractVpn tipVa 1) = some 0

variable {n level : ℕ}

theorem toNat_node (h : n ≤ 2 ^ 44) : (node n).toNat = n := by
  rw [node, BitVec.toNat_ofNat]
  omega

theorem node_ne {m : ℕ} (hn : n ≤ 2 ^ 44) (hm : m ≤ 2 ^ 44) (h : n ≠ m) : node n ≠ node m := by
  intro heq
  have hnat := congrArg BitVec.toNat heq
  rw [toNat_node hn, toNat_node hm] at hnat
  exact h hnat

/-- A leaf without flags is the pointer to the page that it maps. -/
theorem leafPte_node (h : n ≤ 2 ^ 44) : leafPte (node n <<< 12) 0 = pointerPte (node n) := by
  have hshift : (node n <<< 12) >>> 12 = node n := by
    apply BitVec.eq_of_toNat_eq
    have hleft := BitFields.toNat_shiftLeft_of_lt (node n) 12 (by rw [toNat_node h]; omega)
    rw [BitVec.toNat_ushiftRight, hleft, toNat_node h, Nat.shiftRight_eq_div_pow]
    omega
  have hflags : (node n <<< ppnShift) ||| 0 = node n <<< ppnShift := BitVec.or_zero
  rw [leafPte, hshift, hflags, pointerPte]

theorem descendLevel_pointer {child : BitVec 64}
    (hget : pt.getEntry q (extractVpn va level) = some (pointerPte child))
    (hlt : child.toNat < 2 ^ 54) :
    Sv39PageTable.descendLevel va (pt, q) level = some (pt, child) := by
  simp only [Sv39PageTable.descendLevel, hget, Option.bind_eq_bind, Option.bind_some,
    if_neg (pointerPte_valid child), pointerPte_ppn child hlt]

theorem descendLevel_empty (hget : pt.getEntry q (extractVpn va level) = some 0)
    (hlast : pt.nextPpn ≠ BitVec.allOnes 64) (hq : q ≠ pt.nextPpn) :
    ∃ pt', Sv39PageTable.descendLevel va (pt, q) level = some (pt', pt.nextPpn) ∧
      pt'.rootPpn = pt.rootPpn ∧ pt'.nextPpn = pt.nextPpn + 1 ∧ ∀ r u, pt'.getEntry r u =
        if r = q ∧ u = extractVpn va level then some (pointerPte pt.nextPpn)
        else if r = pt.nextPpn then some 0 else pt.getEntry r u := by
  obtain ⟨mid, halloc, hroot, hnext, hmid⟩ := allocNode_spec hlast
  have hpresent : (mid.getEntry q (extractVpn va level)).isSome := by
    rw [hmid, if_neg hq, hget]
    rfl
  obtain ⟨pt', hset, hroot', hnext', hentry⟩ := setEntry_spec hpresent (pointerPte pt.nextPpn)
  have hzero : (0 : BitVec 64) &&& pteV = 0 := BitVec.zero_and
  refine ⟨pt', ?_, hroot'.trans hroot, hnext'.trans hnext, ?_⟩
  · simp only [Sv39PageTable.descendLevel, hget, Option.bind_eq_bind, Option.bind_some,
      if_pos hzero, halloc]
    rw [← pointerPte, hset]
    rfl
  · intro r u
    rw [hentry, hmid]

theorem mapPage_of_levels {mid last : Sv39PageTable} {p r : BitVec 64}
    (hfirst : Sv39PageTable.descendLevel va (pt, pt.rootPpn) 2 = some (mid, p))
    (hsecond : Sv39PageTable.descendLevel va (mid, p) 1 = some (last, r)) :
    pt.mapPage va pa flags = last.setEntry r (extractVpn va 0) (leafPte pa flags) := by
  simp only [Sv39PageTable.mapPage, Sv39PageTable.descend, List.foldlM_cons, List.foldlM_nil,
    hfirst, hsecond, Option.bind_eq_bind, Option.bind_some, Option.pure_def]
  rfl

namespace Pumped

/-- The root slot of `tipVa` leads to the last node, where a link to a new node is missing. -/
theorem grow_spec (h : Pumped pt n) (hlo : 0x80003 ≤ n) (hhi : n ≤ 2 ^ 44) :
    ∃ pt', PteFormat.step pt grow = some pt' ∧ pt'.rootPpn = 0x80000#64 ∧
      pt'.nextPpn = node (n + 1) ∧
      pt'.getEntry (node (n - 1)) (extractVpn tipVa 1) = some (pointerPte (node n)) ∧
      pt'.getEntry (node n) (extractVpn tipVa 1) = some 0 ∧
      ∀ m u, m < n - 1 → pt'.getEntry (node m) u = pt.getEntry (node m) u := by
  have htip : (node (n - 1)).toNat < 2 ^ 54 := by
    rw [toNat_node (by omega)]
    omega
  have hne : node (n - 1) ≠ node n := node_ne (by omega) hhi (by omega)
  have hlast : pt.nextPpn ≠ BitVec.allOnes 64 := by
    intro heq
    have hnat := congrArg BitVec.toNat heq
    rw [h.next_ppn, toNat_node hhi, BitVec.toNat_allOnes] at hnat
    omega
  have hfirst := descendLevel_pointer h.tip htip
  rw [← h.root_ppn] at hfirst
  obtain ⟨mid, hsecond, hroot, hnext, hmid⟩ :=
    descendLevel_empty h.empty hlast (h.next_ppn ▸ hne)
  rw [h.next_ppn] at hsecond hnext hmid
  have hpresent : (mid.getEntry (node n) (extractVpn tipVa 0)).isSome := by
    rw [hmid, if_neg (fun hlink => hne hlink.1.symm), if_pos rfl]
    rfl
  obtain ⟨pt', hset, hroot', hnext', hentry⟩ := setEntry_spec hpresent (leafPte 0 0)
  have hother : extractVpn tipVa 1 ≠ extractVpn tipVa 0 := by decide
  refine ⟨pt', (mapPage_of_levels hfirst hsecond).trans hset, ?_, ?_, ?_, ?_, ?_⟩
  · rw [hroot', hroot, h.root_ppn]
  · rw [hnext', hnext, node, node, BitVec.ofNat_add]
    rfl
  · rw [hentry, if_neg (fun hleaf => hne hleaf.1), hmid, if_pos ⟨rfl, rfl⟩]
  · rw [hentry, if_neg (fun hleaf => hother hleaf.2), hmid, if_neg (fun hlink => hne hlink.1.symm),
      if_pos rfl]
  · intro m u hm
    have hmn : node m ≠ node n := node_ne (by omega) hhi (by omega)
    have hmt : node m ≠ node (n - 1) := node_ne (by omega) (by omega) (by omega)
    rw [hentry, if_neg (fun hleaf => hmn hleaf.1), hmid, if_neg (fun hlink => hmt hlink.1),
      if_neg hmn]

/-- Writing below the superpage turns the root slot over to the new node. -/
theorem redirect_spec (hhi : n ≤ 2 ^ 44) (hlo : 0x80003 ≤ n) (hroot : pt.rootPpn = 0x80000#64)
    (hnext : pt.nextPpn = node (n + 1))
    (hfirst : pt.getEntry 0x80000#64 (extractVpn backVa 2) = some (pointerPte 0x80001#64))
    (hback : pt.getEntry 0x80001#64 (extractVpn backVa 1) = some (pointerPte 0x80000#64))
    (hempty : pt.getEntry (node n) (extractVpn tipVa 1) = some 0)
    (htip : (pt.getEntry 0x80000#64 (extractVpn tipVa 2)).isSome) :
    ∃ pt', PteFormat.step pt (redirect n) = some pt' ∧ Pumped pt' (n + 1) := by
  have hslot : extractVpn backVa 0 = extractVpn tipVa 2 := by decide
  have hother : extractVpn backVa 2 ≠ extractVpn tipVa 2 := by decide
  have hdistinct : (0x80001#64) ≠ 0x80000#64 := by decide
  have hnode : node n ≠ 0x80000#64 := node_ne (m := 0x80000) hhi (by omega) (by omega)
  have hlevel := descendLevel_pointer hfirst (by decide)
  rw [← hroot] at hlevel
  have hlevel' := descendLevel_pointer hback (by decide)
  obtain ⟨pt', hset, hroot', hnext', hentry⟩ := setEntry_spec htip (leafPte (node n <<< 12) 0)
  rw [leafPte_node hhi] at hentry
  refine ⟨pt', ?_, ?_⟩
  · have hcall : pt.mapPage backVa (node n <<< 12) 0 = _ := mapPage_of_levels hlevel hlevel'
    rw [hslot, hset] at hcall
    exact hcall
  · refine ⟨hroot'.trans hroot, hnext'.trans hnext, ?_, ?_, ?_, ?_⟩
    · rw [hentry, if_neg (fun heq => hother heq.2), hfirst]
    · rw [hentry, if_neg (fun heq => hdistinct heq.1), hback]
    · rw [hentry, if_pos ⟨rfl, rfl⟩, Nat.add_sub_cancel]
    · rw [hentry, Nat.add_sub_cancel, if_neg (fun heq => hnode heq.1), hempty]

end Pumped

theorem admissible_mapPage (hpa : pa.toNat < 2 ^ 56) : Admissible pt (.mapPage va pa 0) :=
  ⟨hpa, Nat.two_pow_pos 8, fun _ _ _ heq => nomatch heq⟩

/-- A page, and beside it a superpage that maps the root table. -/
theorem exists_pumped_first :
    ∃ pt, Reach step Admissible Sv39PageTable.new pt ∧ Pumped pt 0x80003 := by
  have hslot : ((step Sv39PageTable.new (.mapPage 0x1000#64 0 0)).bind fun pt =>
      pt.getEntry pt.rootPpn (extractVpn 0x200000#64 2)) = some (pointerPte 0x80001#64) := by
    decide
  have hend : (run step Sv39PageTable.new [.mapPage 0x1000#64 0 0,
      .mapSuperpage 0x200000#64 0x80000000#64 0, redirect 0x80002]).map (fun pt =>
        (pt.rootPpn, pt.nextPpn, pt.getEntry 0x80000#64 (extractVpn backVa 2),
          pt.getEntry 0x80001#64 (extractVpn backVa 1),
          pt.getEntry 0x80000#64 (extractVpn tipVa 2),
          pt.getEntry (node 0x80002) (extractVpn tipVa 1))) =
      some (0x80000#64, node 0x80003, some (pointerPte 0x80001#64), some (pointerPte 0x80000#64),
        some (pointerPte (node 0x80002)), some 0) := by rfl
  obtain ⟨pt, hrun, hfields⟩ := Option.map_eq_some_iff.mp hend
  simp only [Prod.mk.injEq] at hfields
  obtain ⟨hroot, hnext, hfirst, hback, htip, hempty⟩ := hfields
  refine ⟨pt, ?_, hroot, hnext, hfirst, hback, htip, hempty⟩
  obtain ⟨pt₁, h₁, hrest⟩ := Option.bind_eq_some_iff.mp hrun
  obtain ⟨pt₂, h₂, hrest'⟩ := Option.bind_eq_some_iff.mp hrest
  obtain ⟨pt₃, h₃, hnil⟩ := Option.bind_eq_some_iff.mp hrest'
  cases hnil
  rw [h₁, Option.bind_some] at hslot
  have hsuper : Admissible pt₁ (.mapSuperpage 0x200000#64 0x80000000#64 0) := by
    refine ⟨by decide, by decide, ?_⟩
    intro va pa flags heq
    cases heq
    exact ⟨_, hslot, pointerPte_valid _⟩
  have hreach₁ := Reach.step _ Reach.init (admissible_mapPage (by decide)) h₁
  exact Reach.step _ (Reach.step _ hreach₁ hsuper h₂) (admissible_mapPage (by decide)) h₃

/-- Two calls add one more node, and may be repeated. -/
theorem exists_pumped (hlo : 0x80003 ≤ n) (hhi : n ≤ 2 ^ 44) :
    ∃ pt, Reach step Admissible Sv39PageTable.new pt ∧ Pumped pt n := by
  induction n, hlo using Nat.le_induction with
  | base => exact exists_pumped_first
  | succ n hlo ih =>
    obtain ⟨pt, hreach, h⟩ := ih (by omega)
    obtain ⟨pt₁, h₁, hroot, hnext, -, hempty, hkept⟩ := h.grow_spec hlo (by omega)
    have hfirst := (hkept 0x80000 (extractVpn backVa 2) (by omega)).trans h.first
    have hback := (hkept 0x80001 (extractVpn backVa 1) (by omega)).trans h.back
    have htip := (hkept 0x80000 (extractVpn tipVa 2) (by omega)).trans h.tip
    have hpresent : (pt₁.getEntry 0x80000#64 (extractVpn tipVa 2)).isSome :=
      Option.isSome_iff_exists.mpr ⟨_, htip⟩
    obtain ⟨pt₂, h₂, hpumped⟩ :=
      Pumped.redirect_spec (by omega) hlo hroot hnext hfirst hback hempty hpresent
    have hpa : (node n <<< 12).toNat < 2 ^ 56 := by
      have hnat := toNat_node (show n ≤ 2 ^ 44 by omega)
      rw [BitFields.toNat_shiftLeft_of_lt (node n) 12 (by omega)]
      omega
    have hreach₁ := Reach.step _ hreach (admissible_mapPage (by decide)) h₁
    exact ⟨pt₂, Reach.step _ hreach₁ (admissible_mapPage hpa) h₂, hpumped⟩

/-- As long as the node numbers fit in 44 bits, every entry of a table reached is read by the
walk as by the other exercise; a call writes the entry of its page as `make_pte` builds it,
and every other entry that it changes is an empty one of a new node or the link to one, built
by `make_pte` from the node's number and V. -/
theorem pte_format_agrees (h : Reach step Admissible Sv39PageTable.new pt)
    (hnext : pt.nextPpn.toNat ≤ 2 ^ 44) :
    (∀ ppn vpn pte, pt.getEntry ppn vpn = some pte → WalkerAgrees pte) ∧
    ∀ c pt', Admissible pt c → step pt c = some pt' → pt'.nextPpn.toNat ≤ 2 ^ 44 →
      ∃ q, pt'.getEntry q c.lastVpn =
          some (makePte (c.pa >>> 12) (c.flags ||| PteFlags.pteV)) ∧
        ∀ ppn vpn pte, ¬ (ppn = q ∧ vpn = c.lastVpn) → pt'.getEntry ppn vpn = some pte →
          pt.getEntry ppn vpn = some pte ∨ (pte = 0 ∧ Fresh pt pt' ppn) ∨
            ∃ child, Fresh pt pt' child ∧ pte = makePte child PteFlags.pteV := by
  refine ⟨?_, ?_⟩
  · intro ppn vpn pte hentry
    exact walkerAgrees_of_clear ((reachable_formatted h).reservedClear hnext hentry)
  · intro c pt' hok hs hnext'
    obtain ⟨q, hleaf, -, hother⟩ := step_entries hs
    rw [leafPte_eq_makePte hok.1 hok.2.1] at hleaf
    refine ⟨q, hleaf, ?_⟩
    intro ppn vpn pte hlast hentry
    rcases hother ppn vpn pte hlast hentry with hold | hzero | ⟨child, hfresh, hpte⟩
    · exact Or.inl hold
    · exact Or.inr (Or.inl hzero)
    · have hlt := hfresh.2
      rw [pointerPte_eq_makePte (by omega)] at hpte
      exact Or.inr (Or.inr ⟨child, hfresh, hpte⟩)

/-- Page 1 is mapped, and then page 512 below the same root slot: a new table at level 0,
whose link stands beside the link to that of page 1. -/
theorem pte_format_agrees_first_page :
    ∃ pt pt' q, run step Sv39PageTable.new [.mapPage 0x1000#64 0x80001000#64 7#64] = some pt ∧
      pt.getEntry 0x80002#64 1 = some (makePte 0x80001#64 7#64) ∧
      WalkerAgrees (makePte 0x80001#64 7#64) ∧
      step pt (.mapPage 0x200000#64 0x80200000#64 3#64) = some pt' ∧
      pt'.getEntry q (extractVpn 0x200000#64 0) = some (makePte 0x80200#64 3#64) := by
  have hfirst : (run step Sv39PageTable.new [.mapPage 0x1000#64 0x80001000#64 7#64]).map
      (fun pt => (pt.nextPpn, pt.getEntry 0x80002#64 1)) =
      some (0x80003#64, some (makePte 0x80001#64 7#64)) := by rfl
  have hsecond : (run step Sv39PageTable.new [.mapPage 0x1000#64 0x80001000#64 7#64,
      .mapPage 0x200000#64 0x80200000#64 3#64]).map Sv39PageTable.nextPpn =
      some 0x80004#64 := by rfl
  obtain ⟨pt, hrun, hfields⟩ := Option.map_eq_some_iff.mp hfirst
  simp only [Prod.mk.injEq] at hfields
  obtain ⟨hnext, hleaf⟩ := hfields
  obtain ⟨pt', hrun', hnext'⟩ := Option.map_eq_some_iff.mp hsecond
  have hs : step pt (.mapPage 0x200000#64 0x80200000#64 3#64) = some pt' := by
    rw [← List.singleton_append, run_append, hrun, Option.bind_some] at hrun'
    obtain ⟨_, hs, hnil⟩ := Option.bind_eq_some_iff.mp hrun'
    cases hnil
    exact hs
  have hok : ∀ va pa flags s, pa.toNat < 2 ^ 56 → flags.toNat < 2 ^ 8 →
      Admissible s (.mapPage va pa flags) :=
    fun _ _ _ _ hpa hflags => ⟨hpa, hflags, fun _ _ _ heq => nomatch heq⟩
  have hreach : Reach step Admissible Sv39PageTable.new pt := by
    apply Reach.init.run_of_forall _ hrun
    intro c hc s
    rw [List.mem_singleton] at hc
    subst hc
    exact hok _ _ _ s (by decide) (by decide)
  obtain ⟨hwalker, hcall⟩ := pte_format_agrees hreach (by rw [hnext]; decide)
  obtain ⟨q, hnew, -⟩ := hcall _ pt' (hok _ _ _ pt (by decide) (by decide)) hs
    (by rw [hnext']; decide)
  exact ⟨pt, pt', q, hrun, hleaf, hwalker _ _ _ hleaf, hs, hnew⟩

/-- After enough calls the next node has the number 2^44. The link to it reaches a reserved
bit, and `make_pte` and `extract_ppn` would cut that bit off. -/
theorem pte_format_overflows :
    ∃ pt pt' ppn vpn child, Reach step Admissible Sv39PageTable.new pt ∧ Admissible pt grow ∧
      step pt grow = some pt' ∧ pt'.getEntry ppn vpn = some (pointerPte child) ∧
      child = pt.nextPpn ∧ child = 0x100000000000#64 ∧
      pointerPte child ≠ makePte child PteFlags.pteV ∧ ¬ WalkerAgrees (pointerPte child) := by
  obtain ⟨pt, hreach, h⟩ := exists_pumped (show 0x80003 ≤ 2 ^ 44 by omega) (Nat.le_refl _)
  obtain ⟨pt', hs, -, -, hlink, -, -⟩ := h.grow_spec (by omega) (Nat.le_refl _)
  refine ⟨pt, pt', _, _, _, hreach, admissible_mapPage (by decide), hs, hlink, h.next_ppn.symm,
    rfl, by decide, ?_⟩
  intro hagrees
  have hppn :
      pointerPte (node (2 ^ 44)) >>> ppnShift ≠ extractPpn (pointerPte (node (2 ^ 44))) := by
    decide
  exact hppn hagrees.ppn

end OsCamp.PteFormat
