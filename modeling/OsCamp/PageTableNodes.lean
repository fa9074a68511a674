import OsCamp.PageTableRefinement
import Mathlib.Data.Set.Card
import Mathlib.Order.Interval.Finset.Nat

/-!
The memory a page table takes. The nodes that exist are those on the paths of the
mapped addresses, each linked from one entry, and their page numbers follow each other
from the root's on. An entry of a table at level 2 or 1 refers to a node; one at level 0
maps a page and refers to none.
-/

set_option autoImplicit false

namespace OsCamp.PageTableNodes

open MultiLevelPt PageTableEntries PageTableLayout PageTableRefinement
open FlatPageMap (PageMap MapCall)

/-- The nodes have the page numbers from the root's up to the next one to allocate. -/
structure Contiguous (pt : Sv39PageTable) : Prop where
  root_lt : pt.rootPpn.toNat < pt.nextPpn.toNat
  isSome_iff : ∀ ppn, (pt.nodes ppn).isSome ↔
    pt.rootPpn.toNat ≤ ppn.toNat ∧ ppn.toNat < pt.nextPpn.toNat

namespace Contiguous

variable {pt pt' : Sv39PageTable} {ppn q pte : BitVec 64} {vpn : Fin ptEntries}

theorem new : Contiguous Sv39PageTable.new where
  root_lt := by decide
  isSome_iff ppn := by
    have hroot : Sv39PageTable.new.rootPpn.toNat = 0x80000 := rfl
    have hnext : Sv39PageTable.new.nextPpn.toNat = 0x80001 := rfl
    rw [hroot, hnext]
    by_cases heq : ppn = 0x80000#64
    · subst heq
      exact iff_of_true rfl ⟨Nat.le_refl _, Nat.lt_succ_self _⟩
    · have hnode : Sv39PageTable.new.nodes ppn = none := by
        show Function.update (fun _ => none) 0x80000#64 (some PageTableNode.new) ppn = none
        rw [Function.update_of_ne heq]
      have hne : ppn.toNat ≠ 0x80000 := fun h => heq (BitVec.eq_of_toNat_eq h)
      rw [hnode]
      refine iff_of_false Bool.false_ne_true ?_
      omega

theorem setEntry (h : Contiguous pt) (hs : pt.setEntry ppn vpn pte = some pt') :
    Contiguous pt' := by
  obtain ⟨node, hnode, rfl⟩ := Option.map_eq_some_iff.mp hs
  refine ⟨h.root_lt, fun r => ?_⟩
  show (Function.update pt.nodes ppn _ r).isSome ↔ _
  rw [← h.isSome_iff r]
  by_cases heq : r = ppn
  · rw [heq, Function.update_self, hnode]
    exact Iff.rfl
  · rw [Function.update_of_ne heq]

theorem allocNode (h : Contiguous pt) (hs : pt.allocNode = some (ppn, pt')) :
    Contiguous pt' := by
  have hroot := h.root_lt
  by_cases hfull : pt.nextPpn = BitVec.allOnes 64
  · rw [Sv39PageTable.allocNode, if_pos hfull] at hs
    cases hs
  rw [Sv39PageTable.allocNode, if_neg hfull] at hs
  cases hs
  have hsucc : (pt.nextPpn + 1).toNat = pt.nextPpn.toNat + 1 := by
    have hne : pt.nextPpn.toNat ≠ 2 ^ 64 - 1 := fun heq =>
      hfull (BitVec.eq_of_toNat_eq (heq.trans (BitVec.toNat_allOnes).symm))
    have hlt := pt.nextPpn.isLt
    have hone : (1 : BitVec 64).toNat = 1 := rfl
    rw [BitVec.toNat_add, hone]
    omega
  constructor
  · show pt.rootPpn.toNat < (pt.nextPpn + 1).toNat
    omega
  · intro r
    show (Function.update pt.nodes pt.nextPpn _ r).isSome ↔
      pt.rootPpn.toNat ≤ r.toNat ∧ r.toNat < (pt.nextPpn + 1).toNat
    rw [hsucc]
    by_cases heq : r = pt.nextPpn
    · rw [heq, Function.update_self]
      refine iff_of_true rfl ?_
      omega
    · have hne : r.toNat ≠ pt.nextPpn.toNat := fun h => heq (BitVec.eq_of_toNat_eq h)
      rw [Function.update_of_ne heq, h.isSome_iff]
      omega

theorem descendLevel (h : Contiguous pt) {va : BitVec 64} {level : ℕ}
    (hs : Sv39PageTable.descendLevel va (pt, ppn) level = some (pt', q)) : Contiguous pt' := by
  simp only [Sv39PageTable.descendLevel, Option.bind_eq_bind] at hs
  obtain ⟨pte, -, hs⟩ := Option.bind_eq_some_iff.mp hs
  split at hs
  · obtain ⟨⟨new, pt₁⟩, halloc, hs⟩ := Option.bind_eq_some_iff.mp hs
    obtain ⟨pt₂, hset, hs⟩ := Option.bind_eq_some_iff.mp hs
    cases hs
    exact (h.allocNode halloc).setEntry hset
  · cases hs
    exact h

theorem mapPage (h : Contiguous pt) {va pa flags : BitVec 64}
    (hs : pt.mapPage va pa flags = some pt') : Contiguous pt' := by
  simp only [Sv39PageTable.mapPage, Sv39PageTable.descend, List.foldlM_cons, List.foldlM_nil,
    Option.bind_eq_bind] at hs
  obtain ⟨⟨pt₂, q₂⟩, hdesc, hset⟩ := Option.bind_eq_some_iff.mp hs
  obtain ⟨⟨pt₁, q₁⟩, hstep₁, hrest⟩ := Option.bind_eq_some_iff.mp hdesc
  obtain ⟨⟨pt₃, q₃⟩, hstep₂, hlast⟩ := Option.bind_eq_some_iff.mp hrest
  cases hlast
  exact ((h.descendLevel hstep₁).descendLevel hstep₂).setEntry hset

theorem mapPages {calls : List MapCall} (h : Contiguous pt)
    (hs : PageTableRefinement.mapPages pt calls = some pt') : Contiguous pt' := by
  induction calls generalizing pt with
  | nil =>
    cases hs
    exact h
  | cons c rest ih =>
    simp only [PageTableRefinement.mapPages, List.foldlM_cons, Option.bind_eq_bind] at hs
    obtain ⟨pt₁, hfirst, hrest⟩ := Option.bind_eq_some_iff.mp hs
    exact ih (h.mapPage hfirst) hrest

theorem ncard_nodes (h : Contiguous pt) :
    Set.ncard {ppn | (pt.nodes ppn).isSome} = pt.nextPpn.toNat - pt.rootPpn.toNat := by
  have himage : BitVec.toNat '' {ppn | (pt.nodes ppn).isSome} =
      ↑(Finset.Ico pt.rootPpn.toNat pt.nextPpn.toNat) := by
    ext n
    simp only [Set.mem_image, Set.mem_ofPred_eq, h.isSome_iff, Finset.coe_Ico, Set.mem_Ico]
    constructor
    · rintro ⟨ppn, hrange, rfl⟩
      exact hrange
    · intro hrange
      have hlt := pt.nextPpn.isLt
      have hn : (BitVec.ofNat 64 n).toNat = n := by
        rw [BitVec.toNat_ofNat, Nat.mod_eq_of_lt (by omega)]
      exact ⟨BitVec.ofNat 64 n, by rw [hn]; exact hrange, hn⟩
  have hinj : Function.Injective (BitVec.toNat (w := 64)) := fun _ _ => BitVec.eq_of_toNat_eq
  rw [← Set.ncard_image_of_injective _ hinj, himage, Set.ncard_coe_finset, Nat.card_Ico]

end Contiguous

/-- The tables that the walk may find at level 2 and at level 1. -/
def IsPointerTable (pt : Sv39PageTable) (ppn : BitVec 64) : Prop :=
  ppn = pt.rootPpn ∨ ∃ vpn pte, pt.getEntry pt.rootPpn vpn = some pte ∧ pte &&& pteV ≠ 0 ∧
    pte >>> ppnShift = ppn

/-- Entry `vpn` of the table `ppn` is valid and refers to the node `q`. -/
def References (pt : Sv39PageTable) (ppn : BitVec 64) (vpn : Fin ptEntries) (q : BitVec 64) :
    Prop :=
  IsPointerTable pt ppn ∧ ∃ pte, pt.getEntry ppn vpn = some pte ∧ pte &&& pteV ≠ 0 ∧
    pte >>> ppnShift = q

section Refs

variable {pt : Sv39PageTable} {loc : Placement} {pages : PageMap}

theorem linkEntry_valid {o : Option (BitVec 64)} (h : linkEntry none o &&& pteV ≠ 0) :
    ∃ q, o = some q := by
  cases o with
  | none => exact absurd BitVec.zero_and h
  | some q => exact ⟨q, rfl⟩

/-- An entry of a placed table above the last level refers to the node placed below it. -/
theorem entry_iff (h : Refines pt loc noBig pages) {a c : Place} {ppn q : BitVec 64}
    {vpn : Fin ptEntries} (ha : loc a = some ppn) (hchild : a.child vpn = some c) :
    (∃ pte, pt.getEntry ppn vpn = some pte ∧ pte &&& pteV ≠ 0 ∧ pte >>> ppnShift = q) ↔
      loc c = some q := by
  have hentry := h.link a ppn vpn c ha hchild
  constructor
  · rintro ⟨pte, hget, hvalid, rfl⟩
    rw [hentry] at hget
    cases hget
    obtain ⟨r, hr⟩ := linkEntry_valid hvalid
    have hpointer : linkEntry (noBig c) (loc c) = pointerPte r := by
      rw [hr]
      rfl
    rw [hpointer, h.pointer_ppn hr, hr]
  · intro hc
    have hpointer : linkEntry (noBig c) (loc c) = pointerPte q := by
      rw [hc]
      rfl
    rw [hpointer] at hentry
    exact ⟨_, hentry, pointerPte_valid q, h.pointer_ppn hc⟩

theorem isPointerTable_iff (h : Refines pt loc noBig pages) {ppn : BitVec 64} :
    IsPointerTable pt ppn ↔ loc .root = some ppn ∨ ∃ vpn, loc (.mid vpn) = some ppn := by
  have hroot : loc .root = some ppn ↔ ppn = pt.rootPpn := by
    rw [h.root_loc, Option.some.injEq]
    exact eq_comm
  have hmid : ∀ vpn, (∃ pte, pt.getEntry pt.rootPpn vpn = some pte ∧ pte &&& pteV ≠ 0 ∧
      pte >>> ppnShift = ppn) ↔ loc (.mid vpn) = some ppn :=
    fun vpn => entry_iff h h.root_loc rfl
  unfold IsPointerTable
  rw [hroot]
  exact or_congr_right (exists_congr hmid)

theorem references_iff (h : Refines pt loc noBig pages) {ppn q : BitVec 64}
    {vpn : Fin ptEntries} :
    References pt ppn vpn q ↔
      ∃ a c, loc a = some ppn ∧ a.child vpn = some c ∧ loc c = some q := by
  unfold References
  rw [isPointerTable_iff h]
  constructor
  · rintro ⟨hroot | ⟨vpn2, hmid⟩, hentry⟩
    · exact ⟨.root, .mid vpn, hroot, rfl, (entry_iff h hroot rfl).mp hentry⟩
    · exact ⟨.mid vpn2, .last vpn2 vpn, hmid, rfl, (entry_iff h hmid rfl).mp hentry⟩
  · rintro ⟨a, c, ha, hchild, hc⟩
    refine ⟨?_, (entry_iff h ha hchild).mpr hc⟩
    cases a with
    | root => exact Or.inl ha
    | mid vpn2 => exact Or.inr ⟨vpn2, ha⟩
    | last vpn2 vpn1 => cases hchild

/-- A node other than the root is linked from one entry of one table. -/
theorem references_unique (h : Refines pt loc noBig pages) {q : BitVec 64}
    (hnode : (pt.nodes q).isSome) (hroot : q ≠ pt.rootPpn) :
    ∃! e : BitVec 64 × Fin ptEntries, References pt e.1 e.2 q := by
  obtain ⟨node, hq⟩ := Option.isSome_iff_exists.mp hnode
  have hentry : (pt.getEntry q ⟨0, by decide⟩).isSome := by
    rw [Sv39PageTable.getEntry, hq]
    rfl
  obtain ⟨c, hc⟩ := h.placed q _ hentry
  obtain ⟨a, vpn, hchild⟩ : ∃ a vpn, Place.child a vpn = some c := by
    cases c with
    | root =>
      have heq := hc.symm.trans h.root_loc
      exact absurd (Option.some.inj heq) hroot
    | mid vpn2 => exact ⟨.root, vpn2, rfl⟩
    | last vpn2 vpn1 => exact ⟨.mid vpn2, vpn1, rfl⟩
  obtain ⟨ppn, ha⟩ : ∃ ppn, loc a = some ppn := by
    apply Option.ne_none_iff_exists'.mp
    intro hnone
    have hlost := h.parent a vpn c hchild hnone
    rw [hc] at hlost
    cases hlost
  refine ⟨(ppn, vpn), (references_iff h).mpr ⟨a, c, ha, hchild, hc⟩, ?_⟩
  rintro ⟨ppn', vpn'⟩ href
  obtain ⟨a', c', ha', hchild', hc'⟩ := (references_iff h).mp href
  have hsame : c' = c := h.inj c' c q hc' hc
  subst hsame
  obtain ⟨rfl, rfl⟩ := Place.child_injective hchild' hchild
  rw [ha] at ha'
  cases ha'
  rfl

end Refs

/-- The different VPN[2] of the addresses. -/
def vpn2s (calls : List MapCall) : Finset (Fin ptEntries) :=
  (calls.map fun c => extractVpn c.va 2).toFinset

/-- The different pairs (VPN[2], VPN[1]) of the addresses. -/
def vpnPairs (calls : List MapCall) : Finset (Fin ptEntries × Fin ptEntries) :=
  (calls.map fun c => (extractVpn c.va 2, extractVpn c.va 1)).toFinset

section Count

variable {loc : Placement} {calls : List MapCall}

theorem used_eq (hplaced : ∀ b, (loc b).isSome ↔
      (rootOnly b).isSome ∨ ∃ c ∈ calls, OnPath c.va b) :
    used loc = insert .root
      ((vpn2s calls).image .mid ∪ (vpnPairs calls).image fun p => .last p.1 p.2) := by
  ext b
  have hroot : (rootOnly b).isSome ↔ b = .root := by
    rw [← mem_used, used_rootOnly, Finset.mem_singleton]
  rw [mem_used, hplaced, hroot, Finset.mem_insert, Finset.mem_union]
  simp only [OnPath, vpn2s, vpnPairs, lastPlace, Finset.mem_image, List.mem_toFinset, List.mem_map]
  constructor
  · rintro (hb | ⟨c, hc, rfl | rfl⟩)
    · exact Or.inl hb
    · exact Or.inr (Or.inl ⟨_, ⟨c, hc, rfl⟩, rfl⟩)
    · exact Or.inr (Or.inr ⟨_, ⟨c, hc, rfl⟩, rfl⟩)
  · rintro (hb | ⟨_, ⟨c, hc, rfl⟩, rfl⟩ | ⟨_, ⟨c, hc, rfl⟩, rfl⟩)
    · exact Or.inl hb
    · exact Or.inr ⟨c, hc, Or.inl rfl⟩
    · exact Or.inr ⟨c, hc, Or.inr rfl⟩

theorem card_used (hplaced : ∀ b, (loc b).isSome ↔
      (rootOnly b).isSome ∨ ∃ c ∈ calls, OnPath c.va b) :
    (used loc).card = 1 + (vpn2s calls).card + (vpnPairs calls).card := by
  have hroot : Place.root ∉ (vpn2s calls).image Place.mid ∪
      (vpnPairs calls).image fun p => Place.last p.1 p.2 := by
    simp
  have hdisj : Disjoint ((vpn2s calls).image Place.mid)
      ((vpnPairs calls).image fun p => Place.last p.1 p.2) := by
    rw [Finset.disjoint_left]
    simp
  have hmid : Function.Injective Place.mid := fun _ _ h => Place.mid.inj h
  have hlast : Function.Injective fun p : Fin ptEntries × Fin ptEntries => Place.last p.1 p.2 :=
    fun p p' h => Prod.ext (Place.last.inj h).1 (Place.last.inj h).2
  rw [used_eq hplaced, Finset.card_insert_of_notMem hroot, Finset.card_union_of_disjoint hdisj,
    Finset.card_image_of_injective _ hmid, Finset.card_image_of_injective _ hlast]
  omega

end Count

/-- After any `map_page` calls the nodes are those the addresses need: one for the root, one
for each VPN[2] and one for each pair of VPN[2] and VPN[1]. -/
theorem mapPages_nodes (calls : List MapCall) :
    ∃ pt, mapPages Sv39PageTable.new calls = some pt ∧
      Set.ncard {ppn | (pt.nodes ppn).isSome} = 1 + (vpn2s calls).card + (vpnPairs calls).card ∧
      (∀ ppn, (pt.nodes ppn).isSome ↔
        pt.rootPpn.toNat ≤ ppn.toNat ∧ ppn.toNat < pt.nextPpn.toNat) ∧
      (∀ q, (pt.nodes q).isSome → q ≠ pt.rootPpn →
        ∃! e : BitVec 64 × Fin ptEntries, References pt e.1 e.2 q) ∧
      (∀ c : MapCall, (extractVpn c.va 2, extractVpn c.va 1) ∈ vpnPairs calls →
        ∃ pt', pt.mapPage c.va c.pa c.flags = some pt' ∧ pt'.nextPpn = pt.nextPpn ∧
          ∀ ppn, (pt'.nodes ppn).isSome ↔ (pt.nodes ppn).isSome) ∧
      Set.ncard {ppn | (pt.nodes ppn).isSome} ≤ 1 + 512 + 512 * 512 := by
  obtain ⟨pt, loc, hrun, h, hplaced⟩ := mapPages_placed new_refines calls (fun _ _ => rfl)
  have hcontiguous := Contiguous.new.mapPages hrun
  have hcount : Set.ncard {ppn | (pt.nodes ppn).isSome} = (used loc).card := by
    have hroot : pt.rootPpn.toNat = 0x80000 := congrArg BitVec.toNat h.root_ppn
    rw [hcontiguous.ncard_nodes, h.count, hroot]
    omega
  refine ⟨pt, hrun, hcount.trans (card_used hplaced), hcontiguous.isSome_iff,
    fun q => references_unique h, ?_, hcount ▸ card_used_le loc⟩
  intro c hc
  obtain ⟨pt', loc', hmap, h', hplaced'⟩ := mapPage_refines h c.va c.pa c.flags c.flags_lt rfl
  -- The path of the address has its nodes already.
  have hsame : used loc' = used loc := by
    obtain ⟨d, hd, heq⟩ := List.mem_map.mp (List.mem_toFinset.mp hc)
    have hvpn2 : extractVpn d.va 2 = extractVpn c.va 2 := congrArg Prod.fst heq
    have hvpn1 : extractVpn d.va 1 = extractVpn c.va 1 := congrArg Prod.snd heq
    ext b
    rw [mem_used, mem_used, hplaced', hplaced]
    refine ⟨?_, Or.inl⟩
    rintro (hb | hb)
    · exact hb
    · refine Or.inr ⟨d, hd, ?_⟩
      unfold OnPath lastPlace at hb ⊢
      rw [hvpn2, hvpn1]
      exact hb
  have hnext : pt'.nextPpn = pt.nextPpn := by
    apply BitVec.eq_of_toNat_eq
    rw [h'.count, h.count, hsame]
  refine ⟨pt', hmap, hnext, fun ppn => ?_⟩
  rw [(hcontiguous.mapPage hmap).isSome_iff, hcontiguous.isSome_iff, hnext, h'.root_ppn,
    h.root_ppn]

/-- Two pages of one table, one of another gigabyte, and the first page again. -/
def sampleCalls : List MapCall :=
  [⟨0#64, 0x5000#64, 3#64, by decide⟩, ⟨0x1000#64, 0x6000#64, 3#64, by decide⟩,
    ⟨0x40000000#64, 0x7000#64, 3#64, by decide⟩, ⟨0#64, 0x8000#64, 7#64, by decide⟩]

theorem mapPages_nodes_sample :
    ∃ pt, mapPages Sv39PageTable.new sampleCalls = some pt ∧
      Set.ncard {ppn | (pt.nodes ppn).isSome} = 5 ∧
      ∃ e : BitVec 64 × Fin ptEntries, References pt e.1 e.2 0x80002#64 := by
  obtain ⟨pt, hrun, hcount, hrange, href, -⟩ := mapPages_nodes sampleCalls
  obtain ⟨pt₀, hrun₀, hroot, hnext⟩ : ∃ pt₀, mapPages Sv39PageTable.new sampleCalls = some pt₀ ∧
      pt₀.rootPpn = 0x80000#64 ∧ pt₀.nextPpn = 0x80005#64 := ⟨_, rfl, rfl, rfl⟩
  cases hrun.symm.trans hrun₀
  have hnode : (pt.nodes 0x80002#64).isSome := by
    rw [hrange, hroot, hnext]
    decide
  have hne : 0x80002#64 ≠ pt.rootPpn := by
    rw [hroot]
    decide
  obtain ⟨e, he, -⟩ := href _ hnode hne
  have hcards : (vpn2s sampleCalls).card = 2 ∧ (vpnPairs sampleCalls).card = 2 := by decide
  rw [hcards.1, hcards.2] at hcount
  exact ⟨pt, hrun, hcount, e, he⟩

end OsCamp.PageTableNodes
