import OsCamp.PageTableSuperpage

/-!
A small page mapped inside a superpage. The descent of `map_page` takes every
valid entry for a pointer, so at the level-1 leaf it goes on to the page number
of the superpage's data. Usually no node has that number and the call panics;
at physical address 0x80000000 it is the root, whose entry is overwritten.
-/
set_option autoImplicit false

namespace OsCamp.SuperpageOverlap

open BitFields MultiLevelPt PageTableEntries PageTableLayout PageTableRefinement
open PageTableSuperpage
open FlatPageMap (PageMap MapCall Mapping)

/-- What `map_page` promises inside a superpage: no panic, the new page is
translated, and every address outside the 4KB page translates as before. -/
def SmallPageMapped (pt : Sv39PageTable) (v p f : BitVec 64) : Prop :=
  ∃ pt', pt.mapPage v p f = some pt' ∧
    pt'.translate v = .ok ((p &&& ~~~0xFFF#64) ||| (v &&& 0xFFF#64)) ∧
    ∀ x, pageNumber x ≠ pageNumber v → pt'.translate x = pt.translate x

/-- The descent does not end at the page number of the superpage's data. -/
def DataNotWalked (pt : Sv39PageTable) (pa v : BitVec 64) : Prop :=
  ∀ pt' ppn, pt.descend v = some (pt', ppn) → ppn ≠ pa >>> 12

section Overlap

variable {pt : Sv39PageTable} {loc big : Placement} {pages : PageMap}

/-- Inside a superpage the descent reads the leaf as a pointer. -/
theorem descend_into_leaf (h : Refines pt loc big pages) {v pa flags : BitVec 64}
    (hf : flags.toNat < 2 ^ 10) (hbig : big (lastPlace v) = some (leafPte pa flags)) :
    pt.descend v = some (pt, pa >>> 12) := by
  have hroot := rootEntry h v
  obtain ⟨vpn2, vpn1, hplace, hmid, -⟩ := h.big_last _ _ hbig
  simp only [lastPlace, Place.last.injEq] at hplace
  obtain ⟨q, hq⟩ := Option.isSome_iff_exists.mp (hplace.1 ▸ hmid)
  have hleaf := h.link (.mid (extractVpn v 2)) q (extractVpn v 1) (lastPlace v) hq rfl
  rw [hq] at hroot
  rw [hbig] at hleaf
  have hstep₂ : Sv39PageTable.descendLevel v (pt, pt.rootPpn) 2 = some (pt, q) := by
    simp only [Sv39PageTable.descendLevel, hroot, linkEntry, Option.bind_eq_bind,
      Option.bind_some, if_neg (pointerPte_valid q), h.pointer_ppn hq]
  have hstep₁ : Sv39PageTable.descendLevel v (pt, q) 1 = some (pt, pa >>> 12) := by
    simp only [Sv39PageTable.descendLevel, hleaf, linkEntry, Option.bind_eq_bind,
      Option.bind_some, if_neg (leafPte_valid pa flags), leafPte_ppn pa flags hf]
  simp only [Sv39PageTable.descend, List.foldlM_cons, List.foldlM_nil, Option.bind_eq_bind,
    hstep₂, hstep₁, Option.bind_some, Option.pure_def]

theorem mapPage_into_leaf (h : Refines pt loc big pages) {v pa flags : BitVec 64}
    (hf : flags.toNat < 2 ^ 10) (hbig : big (lastPlace v) = some (leafPte pa flags))
    (p f : BitVec 64) :
    pt.mapPage v p f = pt.setEntry (pa >>> 12) (extractVpn v 0) (leafPte p f) := by
  simp only [Sv39PageTable.mapPage, descend_into_leaf h hf hbig, Option.bind_eq_bind,
    Option.bind_some]
  rfl

/-- Where the data page number is no node, the call is a failed unwrap. -/
theorem mapPage_into_leaf_eq_none (h : Refines pt loc big pages) {v pa flags : BitVec 64}
    (hf : flags.toNat < 2 ^ 10) (hbig : big (lastPlace v) = some (leafPte pa flags))
    (hno : ∀ a, loc a ≠ some (pa >>> 12)) (p f : BitVec 64) : pt.mapPage v p f = none := by
  rw [mapPage_into_leaf h hf hbig]
  apply setEntry_eq_none
  cases hget : pt.getEntry (pa >>> 12) (extractVpn v 0) with
  | none => rfl
  | some pte =>
    obtain ⟨a, ha⟩ := h.placed (pa >>> 12) (extractVpn v 0) (by rw [hget]; rfl)
    exact absurd ha (hno a)

/-- A data page at the root number: the root gets a leaf, which answers for a
whole gigabyte that was not mapped. -/
theorem not_smallPageMapped_of_root (h : Refines pt loc big pages) {v pa flags : BitVec 64}
    (hf : flags.toNat < 2 ^ 10) (hbig : big (lastPlace v) = some (leafPte pa flags))
    (hroot : pa >>> 12 = pt.rootPpn) (p : BitVec 64) {f : BitVec 64} (hleaf : IsLeaf f)
    {x : BitVec 64} (hx : extractVpn x 2 = extractVpn v 0) (hpage : pageNumber x ≠ pageNumber v)
    (hfault : pt.translate x = .pageFault) : ¬ SmallPageMapped pt v p f := by
  intro hmapped
  obtain ⟨pt', hmap, -, hframe⟩ := hmapped
  rw [mapPage_into_leaf h hf hbig, hroot] at hmap
  have hget : pt'.getEntry pt'.rootPpn (extractVpn x 2) = some (leafPte p f) := by
    rw [rootPpn_setEntry hmap, getEntry_setEntry hmap, if_pos ⟨rfl, hx⟩]
  have hsame := hframe x hpage
  rw [hfault, Sv39PageTable.translate, walk_big hget (leafPte_valid p f)
    (isLeaf_leafPte hleaf) (by decide)] at hsame
  cases hsame

end Overlap

/-- An address whose walk starts at root entry `vpn2` and leaves the region of `va`. -/
def strayAddress (vpn2 : Fin ptEntries) (va : BitVec 64) : BitVec 64 :=
  BitVec.ofNat 64 (vpn2.val * 2 ^ 30 + ((extractVpn va 1).val + 1) % 512 * 2 ^ 21)

theorem extractVpn_stray (vpn2 : Fin ptEntries) (va : BitVec 64) :
    extractVpn (strayAddress vpn2 va) 2 = vpn2 ∧
      extractVpn (strayAddress vpn2 va) 1 ≠ extractVpn va 1 := by
  have hlt : vpn2.val < 512 := vpn2.isLt
  have hlt' : (extractVpn va 1).val < 512 := (extractVpn va 1).isLt
  have hmod := Nat.mod_lt ((extractVpn va 1).val + 1) (show 512 > 0 by decide)
  rw [Fin.ext_iff, Ne, Fin.ext_iff, extractVpn_val (strayAddress vpn2 va) 2,
    extractVpn_val (strayAddress vpn2 va) 1, strayAddress, BitVec.toNat_ofNat]
  constructor <;> omega

section FirstCall

variable {va pa flags : BitVec 64}

/-- The table after `map_superpage` as the first call: two nodes, one leaf. -/
theorem firstSuperpage (hva : va % megaSize = 0) (hpa : pa % megaSize = 0)
    (hleaf : IsLeaf flags) :
    ∃ pt, Sv39PageTable.new.mapSuperpage va pa flags = some pt ∧
      Refines pt (place Sv39PageTable.new rootOnly (.mid (extractVpn va 2)))
        (Function.update noBig (lastPlace va) (some (leafPte pa flags))) FlatPageMap.empty := by
  obtain ⟨pt, loc, hsuper, h, rfl⟩ := mapSuperpage_fresh new_refines hva hpa hleaf rfl rfl
  exact ⟨pt, hsuper, h⟩

/-- An aligned data page number is the root's or no node's. -/
theorem dataPpn_cases (hpa : pa % megaSize = 0) {vpn2 : Fin ptEntries} {a : Place}
    (ha : place Sv39PageTable.new rootOnly (.mid vpn2) a = some (pa >>> 12)) :
    pa >>> 12 = 0x80000#64 := by
  have halign := aligned_toNat hpa
  rcases place_cases ha with ⟨-, hmid⟩ | ⟨-, hroot⟩
  · have hnat := congrArg BitVec.toNat hmid
    rw [BitVec.toNat_ushiftRight, Nat.shiftRight_eq_div_pow] at hnat
    have hnext : Sv39PageTable.new.nextPpn.toNat = 0x80001 := rfl
    omega
  · exact (rootOnly_eq_some hroot).2

/-- Right after the superpage was installed, the small page is never mapped as
promised: the call panics, or it changes addresses far away. -/
theorem not_smallPageMapped_first (hva : va % megaSize = 0) (hpa : pa % megaSize = 0)
    (hf : flags.toNat < 2 ^ 10) (hleaf : IsLeaf flags) {pt : Sv39PageTable}
    (hsuper : Sv39PageTable.new.mapSuperpage va pa flags = some pt) {v : BitVec 64}
    (hv : lastPlace v = lastPlace va) (p : BitVec 64) {f : BitVec 64} (hfleaf : IsLeaf f) :
    ¬ SmallPageMapped pt v p f := by
  obtain ⟨pt₀, hsuper₀, h⟩ := firstSuperpage hva hpa hleaf
  rw [hsuper, Option.some.injEq] at hsuper₀
  subst pt₀
  have hbig : Function.update noBig (lastPlace va) (some (leafPte pa flags)) (lastPlace v) =
      some (leafPte pa flags) := by
    rw [hv, Function.update_self]
  by_cases hdata : ∃ a, place Sv39PageTable.new rootOnly (.mid (extractVpn va 2)) a =
      some (pa >>> 12)
  · obtain ⟨a, ha⟩ := hdata
    have hroot := dataPpn_cases hpa ha
    obtain ⟨hx2, hx1⟩ := extractVpn_stray (extractVpn v 0) v
    have hlast : lastPlace (strayAddress (extractVpn v 0) v) ≠ lastPlace v := by
      intro heq
      simp only [lastPlace, Place.last.injEq] at heq
      exact hx1 heq.2
    refine not_smallPageMapped_of_root h hf hbig (by rw [hroot, h.root_ppn]) p hfleaf hx2
      (fun hpage => hlast (lastPlace_eq_of_pageNumber hpage)) ?_
    rw [translate_eq h, Function.update_of_ne (hv ▸ hlast)]
    rfl
  · intro hmapped
    obtain ⟨pt', hmap, -⟩ := hmapped
    rw [mapPage_into_leaf_eq_none h hf hbig (fun a ha => hdata ⟨a, ha⟩)] at hmap
    cases hmap

/-- In every run that starts with a superpage and keeps `map_page` outside it,
a `map_page` inside it walks the superpage's data; and directly after the
superpage it either panics or disturbs other addresses. -/
theorem smallPage_in_superpage_never (va pa flags : BitVec 64) (hva : va % megaSize = 0)
    (hpa : pa % megaSize = 0) (hf : flags.toNat < 2 ^ 10) (hleaf : IsLeaf flags)
    (later : List MapCall) (hlater : ∀ c ∈ later, ¬ InRegion va c.va)
    (v p f : BitVec 64) (hv : InRegion va v) (hfleaf : IsLeaf f) :
    ∃ pt₀ pt, Sv39PageTable.new.mapSuperpage va pa flags = some pt₀ ∧
      mapPages pt₀ later = some pt ∧
      ¬ (SmallPageMapped pt v p f ∧ DataNotWalked pt pa v) ∧
      (later = [] → ¬ SmallPageMapped pt v p f) := by
  obtain ⟨pt₀, hsuper, h₀⟩ := firstSuperpage hva hpa hleaf
  have hplace := (inRegion_iff hva v).mp hv
  have hbig : ∀ c ∈ later, Function.update noBig (lastPlace va) (some (leafPte pa flags))
      (lastPlace c.va) = none := by
    intro c hc
    rw [Function.update_of_ne (fun heq => hlater c hc ((inRegion_iff hva c.va).mpr heq))]
    rfl
  obtain ⟨pt, loc, hrun, h⟩ := mapPages_refines h₀ later hbig
  refine ⟨pt₀, pt, hsuper, hrun, ?_, ?_⟩
  · intro hfree
    obtain ⟨-, hdata⟩ := hfree
    have hdesc := descend_into_leaf h (v := v) hf (by rw [hplace, Function.update_self])
    exact hdata pt (pa >>> 12) hdesc rfl
  · intro heq
    subst heq
    simp only [mapPages, List.foldlM_nil, Option.pure_def, Option.some.injEq] at hrun
    subst pt
    exact not_smallPageMapped_first hva hpa hf hleaf hsuper hplace p hfleaf

end FirstCall

theorem smallPage_in_superpage_never_at_root :
    ∃ pt₀ pt, Sv39PageTable.new.mapSuperpage 0x200000#64 0x80000000#64 3#64 = some pt₀ ∧
      mapPages pt₀ [] = some pt ∧
      ¬ (SmallPageMapped pt 0x201000#64 0x90000000#64 3#64 ∧
        DataNotWalked pt 0x80000000#64 0x201000#64) ∧
      (([] : List MapCall) = [] → ¬ SmallPageMapped pt 0x201000#64 0x90000000#64 3#64) :=
  smallPage_in_superpage_never _ _ _ (by decide) (by decide) (by decide) (by decide) []
    (by simp) _ _ _ (by unfold InRegion; decide) (by decide)

/-- A page mapped into a superpage over ordinary memory panics. -/
theorem smallPage_in_superpage_panics :
    ∃ pt, Sv39PageTable.new.mapSuperpage 0x200000#64 0x80200000#64 3#64 = some pt ∧
      pt.mapPage 0x201000#64 0x90000000#64 3#64 = none ∧
      ¬ SmallPageMapped pt 0x201000#64 0x90000000#64 3#64 := by
  obtain ⟨pt, hsuper⟩ :
      ∃ pt, Sv39PageTable.new.mapSuperpage 0x200000#64 0x80200000#64 3#64 = some pt :=
    Option.isSome_iff_exists.mp (by decide)
  have hpanic : (Sv39PageTable.new.mapSuperpage 0x200000#64 0x80200000#64 3#64).map
      (fun pt => (pt.mapPage 0x201000#64 0x90000000#64 3#64).isNone) = some true := by decide
  rw [hsuper, Option.map_some, Option.some.injEq, Option.isNone_iff_eq_none] at hpanic
  refine ⟨pt, hsuper, hpanic, ?_⟩
  intro hmapped
  obtain ⟨pt', hmap, -⟩ := hmapped
  rw [hpanic] at hmap
  cases hmap

end OsCamp.SuperpageOverlap
