import OsCamp.PageTableRefinement

/-!
Superpages. Where the root slot is populated, one level-1 leaf answers every
address as 512 small pages do. Where it is empty, `map_superpage` links the
fresh table from the node numbered just below it, which is the root only while
no other node exists: the mapping is lost after any earlier `map_page`.
-/

set_option autoImplicit false

namespace OsCamp.PageTableSuperpage

open BitFields MultiLevelPt PageTableEntries PageTableLayout PageTableRefinement
open FlatPageMap (PageMap MapCall Mapping)

/-- The root slot of the address holds no valid entry. -/
def RootSlotEmpty (pt : Sv39PageTable) (va : BitVec 64) : Prop :=
  ∃ pte, pt.getEntry pt.rootPpn (extractVpn va 2) = some pte ∧ pte &&& pteV = 0

def RootSlotPopulated (pt : Sv39PageTable) (va : BitVec 64) : Prop :=
  ∃ pte, pt.getEntry pt.rootPpn (extractVpn va 2) = some pte ∧ pte &&& pteV ≠ 0

/-- The low 39 bits of `x` lie in the 2MB region that starts at `va`. -/
def InRegion (va x : BitVec 64) : Prop :=
  va.toNat % 2 ^ 39 ≤ x.toNat % 2 ^ 39 ∧ x.toNat % 2 ^ 39 < va.toNat % 2 ^ 39 + 2 ^ 21

theorem aligned_toNat {x : BitVec 64} (h : x % megaSize = 0) : x.toNat % 2 ^ 21 = 0 := by
  have htoNat := congrArg BitVec.toNat h
  rwa [BitVec.toNat_umod] at htoNat

theorem lastPlace_eq_iff (x y : BitVec 64) :
    lastPlace x = lastPlace y ↔ x.toNat / 2 ^ 21 % 2 ^ 18 = y.toNat / 2 ^ 21 % 2 ^ 18 := by
  simp only [lastPlace, Place.last.injEq, Fin.ext_iff, extractVpn_val]
  omega

/-- An address is in the region exactly when the walk ends in the same node. -/
theorem inRegion_iff {va : BitVec 64} (hva : va % megaSize = 0) (x : BitVec 64) :
    InRegion va x ↔ lastPlace x = lastPlace va := by
  have halign := aligned_toNat hva
  rw [lastPlace_eq_iff, InRegion]
  omega

/-- The wide offset of a level-1 leaf stays inside the aligned 2MB frame. -/
theorem wide_offset {pa : BitVec 64} (hpa : pa % megaSize = 0) (x : BitVec 64) :
    (((pa >>> 12) <<< 12) ||| (x &&& ((1#64 <<< 21) - 1#64))).toNat =
      pa.toNat + x.toNat % 2 ^ 21 := by
  have halign := aligned_toNat hpa
  have hbase : ((pa >>> 12) <<< 12).toNat = pa.toNat := by
    rw [toNat_ushiftRight_shiftLeft]
    omega
  have hoff : (x &&& ((1#64 <<< 21) - 1#64)).toNat = x.toNat % 2 ^ 21 :=
    toNat_and_of_mask _ _ 21 (toNat_shiftLeft_sub_one 21 (by omega))
  rw [toNat_or_of_dvd _ _ 21, hbase, hoff]
  · rw [hbase]
    exact Nat.dvd_of_mod_eq_zero halign
  · rw [hoff]
    exact Nat.mod_lt _ (by omega)

/-- Inside the region the leaf answers `pa + (x - va)`. -/
theorem superpage_pa {va pa : BitVec 64} (hva : va % megaSize = 0) (hpa : pa % megaSize = 0)
    {x : BitVec 64} (hlo : va.toNat ≤ x.toNat) (hhi : x.toNat < va.toNat + 2 ^ 21) :
    ((pa >>> 12) <<< 12) ||| (x &&& ((1#64 <<< 21) - 1#64)) = pa + (x - va) := by
  apply BitVec.eq_of_toNat_eq
  have hva' := aligned_toNat hva
  have hpa' := aligned_toNat hpa
  have hlt := pa.isLt
  rw [wide_offset hpa, BitVec.toNat_add, BitVec.toNat_sub_of_le (BitVec.le_def.mpr hlo)]
  omega

section Install

variable {pt : Sv39PageTable} {loc big : Placement} {pages : PageMap}

/-- Writing a leaf at level 1 keeps the layout and records the superpage. -/
theorem setBig_refines (h : Refines pt loc big pages) {p : BitVec 64} {vpn2 : Fin ptEntries}
    (hp : loc (.mid vpn2) = some p) (vpn1 : Fin ptEntries) {pte : BitVec 64}
    (hvalid : pte &&& pteV ≠ 0) (hleaf : IsLeaf pte) :
    ∃ pt', pt.setEntry p vpn1 pte = some pt' ∧
      Refines pt' loc (Function.update big (.last vpn2 vpn1) (some pte)) pages := by
  have hold := h.link (.mid vpn2) p vpn1 (.last vpn2 vpn1) hp rfl
  obtain ⟨pt', hset, hroot, hnext, hget⟩ := setEntry_spec (by rw [hold]; rfl) pte
  refine ⟨pt', hset, {
    root_ppn := by rw [hroot, h.root_ppn]
    root_loc := by rw [hroot, h.root_loc]
    inj := h.inj
    parent := h.parent
    ppn_lt := by rw [hnext]; exact h.ppn_lt
    count := by rw [hnext, h.count]
    placed := h.placed_of_set hp hget
    link := ?_
    leaf := ?_
    unmapped := h.unmapped
    flags_lt := h.flags_lt
    big_last := ?_
  }⟩
  · intro b r u d hb hd
    rw [hget]
    by_cases hru : r = p ∧ u = vpn1
    · obtain ⟨rfl, rfl⟩ := hru
      obtain rfl := h.inj b _ r hb hp
      simp only [Place.child, Option.some.injEq] at hd
      subst d
      rw [if_pos ⟨rfl, rfl⟩, Function.update_self]
      rfl
    · have hne : d ≠ .last vpn2 vpn1 := by
        intro heq
        subst heq
        obtain ⟨rfl, rfl⟩ := Place.child_injective hd (b := .mid vpn2) (v := vpn1) rfl
        rw [hp, Option.some.injEq] at hb
        exact hru ⟨hb.symm, rfl⟩
      rw [if_neg hru, Function.update_of_ne hne]
      exact h.link b r u d hb hd
  · intro x r hr
    have hplace : lastPlace x ≠ .mid vpn2 := by
      intro heq
      cases heq
    have hne : r ≠ p := h.ppn_ne hp hr hplace
    rw [hget, if_neg (fun hru => hne hru.1)]
    exact h.leaf x r hr
  · intro d x hd
    by_cases hdc : d = .last vpn2 vpn1
    · subst d
      rw [Function.update_self, Option.some.injEq] at hd
      subst x
      exact ⟨vpn2, vpn1, rfl, by rw [hp]; rfl, hvalid, hleaf⟩
    · rw [Function.update_of_ne hdc] at hd
      exact h.big_last d x hd

theorem isLeaf_leafPte {pa flags : BitVec 64} (hleaf : IsLeaf flags) :
    IsLeaf (leafPte pa flags) := by
  rw [IsLeaf, leafPte_and_leafBits]
  exact hleaf

theorem rootEntry (h : Refines pt loc big pages) (va : BitVec 64) :
    pt.getEntry pt.rootPpn (extractVpn va 2) =
      some (linkEntry none (loc (.mid (extractVpn va 2)))) := by
  have hroot := h.link .root _ (extractVpn va 2) _ h.root_loc rfl
  rwa [h.big_mid] at hroot

theorem rootSlotEmpty_iff (h : Refines pt loc big pages) (va : BitVec 64) :
    RootSlotEmpty pt va ↔ loc (.mid (extractVpn va 2)) = none := by
  have hroot := rootEntry h va
  cases hmid : loc (.mid (extractVpn va 2)) with
  | none =>
    rw [hmid] at hroot
    simp only [iff_true]
    exact ⟨0, hroot, BitVec.zero_and⟩
  | some p =>
    rw [hmid] at hroot
    simp only [reduceCtorEq, iff_false]
    intro hempty
    obtain ⟨pte, hpte, hzero⟩ := hempty
    rw [hroot, Option.some.injEq] at hpte
    subst pte
    exact pointerPte_valid p hzero

theorem rootSlotPopulated_iff (h : Refines pt loc big pages) (va : BitVec 64) :
    RootSlotPopulated pt va ↔ (loc (.mid (extractVpn va 2))).isSome := by
  have hroot := rootEntry h va
  cases hmid : loc (.mid (extractVpn va 2)) with
  | none =>
    rw [hmid] at hroot
    simp only [Option.isSome_none, Bool.false_eq_true, iff_false]
    intro hpopulated
    obtain ⟨pte, hpte, hvalid⟩ := hpopulated
    rw [hroot, Option.some.injEq] at hpte
    subst pte
    exact hvalid BitVec.zero_and
  | some p =>
    rw [hmid] at hroot
    simp only [Option.isSome_some, iff_true]
    exact ⟨pointerPte p, hroot, pointerPte_valid p⟩

/-- With the level-1 table in place, `map_superpage` records its leaf. -/
theorem mapSuperpage_populated (h : Refines pt loc big pages) {va pa flags : BitVec 64}
    (hva : va % megaSize = 0) (hpa : pa % megaSize = 0) (hleaf : IsLeaf flags)
    (hmid : (loc (.mid (extractVpn va 2))).isSome) :
    ∃ pt', pt.mapSuperpage va pa flags = some pt' ∧
      Refines pt' loc (Function.update big (lastPlace va) (some (leafPte pa flags))) pages := by
  obtain ⟨p, hp⟩ := Option.isSome_iff_exists.mp hmid
  have hroot := rootEntry h va
  rw [hp] at hroot
  obtain ⟨pt', hset, h'⟩ := setBig_refines h hp (extractVpn va 1) (leafPte_valid pa flags)
    (isLeaf_leafPte hleaf)
  refine ⟨pt', ?_, h'⟩
  have hdesc : pt.descendSuperpage va = some (pt, p) := by
    simp only [Sv39PageTable.descendSuperpage, hroot, linkEntry, Option.bind_eq_bind,
      Option.bind_some, if_neg (pointerPte_valid p), h.pointer_ppn hp]
  simp only [Sv39PageTable.mapSuperpage, hva, hpa, ne_eq, not_true_eq_false, if_false, hdesc,
    Option.bind_eq_bind, Option.bind_some]
  exact hset

/-- While the root is the only node, the fresh table is linked from the root. -/
theorem mapSuperpage_fresh (h : Refines pt loc big pages) {va pa flags : BitVec 64}
    (hva : va % megaSize = 0) (hpa : pa % megaSize = 0) (hleaf : IsLeaf flags)
    (hmid : loc (.mid (extractVpn va 2)) = none) (hnext : pt.nextPpn - 1 = pt.rootPpn) :
    ∃ pt' loc', pt.mapSuperpage va pa flags = some pt' ∧
      Refines pt' loc' (Function.update big (lastPlace va) (some (leafPte pa flags))) pages ∧
      loc' = place pt loc (.mid (extractVpn va 2)) := by
  have hroot := rootEntry h va
  rw [hmid] at hroot
  have hsome : (pt.getEntry pt.rootPpn (extractVpn va 2)).isSome := by
    rw [hroot]
    rfl
  obtain ⟨pt₁, pt₂, halloc, hlink, hg⟩ := exists_grown h h.root_loc hsome
  have h₂ := hg.refines h h.root_loc (c := .mid (extractVpn va 2)) rfl (h.big_mid _) hmid
  obtain ⟨pt', hset, h'⟩ := setBig_refines h₂ place_self (extractVpn va 1)
    (leafPte_valid pa flags) (isLeaf_leafPte hleaf)
  refine ⟨pt', _, ?_, h', rfl⟩
  have hzero : (0 : BitVec 64) &&& pteV = 0 := BitVec.zero_and
  have hdesc : pt.descendSuperpage va = some (pt₂, pt.nextPpn) := by
    simp only [Sv39PageTable.descendSuperpage, hroot, linkEntry, Option.bind_eq_bind,
      Option.bind_some, if_pos hzero, halloc, hnext]
    rw [← pointerPte, hlink]
    rfl
  simp only [Sv39PageTable.mapSuperpage, hva, hpa, ne_eq, not_true_eq_false, if_false, hdesc,
    Option.bind_eq_bind, Option.bind_some]
  exact hset

/-- With other nodes around, the link lands elsewhere and the root slot stays empty. -/
theorem mapSuperpage_lost (h : Refines pt loc big pages) {va pa flags : BitVec 64}
    (hmid : loc (.mid (extractVpn va 2)) = none) (hnext : pt.nextPpn - 1 ≠ pt.rootPpn)
    {pt' : Sv39PageTable} (hrun : pt.mapSuperpage va pa flags = some pt') :
    pt'.translate va = .pageFault := by
  have hentry := rootEntry h va
  rw [hmid] at hentry
  have hzero : (0 : BitVec 64) &&& pteV = 0 := BitVec.zero_and
  have hfresh : pt.rootPpn ≠ pt.nextPpn := h.ne_nextPpn h.root_loc
  obtain ⟨pt₁, halloc, hroot₁, -, hget₁⟩ := allocNode_spec h.nextPpn_ne
  simp only [Sv39PageTable.mapSuperpage, ne_eq, Option.bind_eq_bind, ite_eq_iff, reduceCtorEq,
    and_false, false_or, Option.bind_eq_some_iff] at hrun
  obtain ⟨-, -, ⟨pt₃, ppn⟩, hdesc, hset⟩ := hrun
  simp only [Sv39PageTable.descendSuperpage, hentry, linkEntry, Option.bind_eq_bind,
    Option.bind_some, if_pos hzero, halloc, Option.bind_eq_some_iff, Option.some.injEq,
    Prod.mk.injEq] at hdesc
  obtain ⟨pt₂, hlink, rfl, rfl⟩ := hdesc
  -- neither write reaches the root
  have hget : pt'.getEntry pt.rootPpn (extractVpn va 2) = some 0 := by
    rw [getEntry_setEntry hset, if_neg (fun hq => hfresh hq.1), getEntry_setEntry hlink,
      if_neg (fun hq => hnext hq.1.symm), hget₁, if_neg hfresh, hentry]
    rfl
  have hroot : pt'.rootPpn = pt.rootPpn := by
    rw [rootPpn_setEntry hset, rootPpn_setEntry hlink, hroot₁]
  rw [Sv39PageTable.translate, hroot, walk_zero hget]

/-- Only the root is placed when the counter stands right above it. -/
theorem nextPpn_sub_one_ne (h : Refines pt loc big pages) {a : Place} (ha : a ≠ .root)
    (hsome : (loc a).isSome) : pt.nextPpn - 1 ≠ pt.rootPpn := by
  have hsub : ({.root, a} : Finset Place) ⊆ used loc := by
    simp [Finset.insert_subset_iff, mem_used, h.root_loc, hsome]
  have hpair : ({.root, a} : Finset Place).card = 2 := Finset.card_pair (Ne.symm ha)
  have hcard := Finset.card_le_card hsub
  have hcount := h.count
  have hle := h.nextPpn_le
  intro heq
  have hnat := congrArg BitVec.toNat heq
  have hone : (1 : BitVec 64).toNat = 1 := rfl
  rw [BitVec.toNat_sub_of_le (BitVec.le_def.mpr (by omega)), h.root_ppn, hone] at hnat
  have hroot : (0x80000#64).toNat = 0x80000 := rfl
  omega

end Install

/-- What `map_superpage` promises: the region translates with its wide offset,
and every address outside it translates as before. -/
def SuperpageMapped (pt : Sv39PageTable) (va pa flags : BitVec 64) : Prop :=
  ∃ pt', pt.mapSuperpage va pa flags = some pt' ∧
    (∀ x : BitVec 64, va.toNat ≤ x.toNat → x.toNat < va.toNat + 2 ^ 21 →
      pt'.translate x = .ok (pa + (x - va))) ∧
    ∀ y, ¬ InRegion va y → pt'.translate y = pt.translate y

theorem superpageMapped_of_refines {pt pt' : Sv39PageTable} {loc loc' big : Placement}
    {pages : PageMap} {va pa flags : BitVec 64} (hva : va % megaSize = 0)
    (hpa : pa % megaSize = 0) (hf : flags.toNat < 2 ^ 10) (h : Refines pt loc big pages)
    (hrun : pt.mapSuperpage va pa flags = some pt')
    (h' : Refines pt' loc' (Function.update big (lastPlace va) (some (leafPte pa flags))) pages) :
    SuperpageMapped pt va pa flags := by
  refine ⟨pt', hrun, ?_, ?_⟩
  · intro x hlo hhi
    have hplace : lastPlace x = lastPlace va := by
      have halign := aligned_toNat hva
      rw [lastPlace_eq_iff]
      omega
    rw [translate_eq h', hplace, Function.update_self]
    simp only [leafPte_ppn pa flags hf, superpage_pa hva hpa hlo hhi]
  · intro y hy
    rw [translate_eq h', translate_eq h,
      Function.update_of_ne (fun hplace => hy ((inRegion_iff hva y).mpr hplace))]

/-- On an empty root slot the superpage is mapped exactly when no `map_page`
came before, that is, when the root is still the only node. -/
theorem superpageMapped_emptySlot_iff (calls : List MapCall) (pt : Sv39PageTable)
    (hrun : mapPages Sv39PageTable.new calls = some pt) (va pa flags : BitVec 64)
    (hva : va % megaSize = 0) (hpa : pa % megaSize = 0) (hf : flags.toNat < 2 ^ 10)
    (hleaf : IsLeaf flags) (hslot : RootSlotEmpty pt va) :
    SuperpageMapped pt va pa flags ↔ calls = [] := by
  obtain ⟨pt₀, loc, hrun₀, h⟩ := mapPages_refines new_refines calls (fun _ _ => rfl)
  rw [hrun, Option.some.injEq] at hrun₀
  subst pt₀
  have hmid := (rootSlotEmpty_iff h va).mp hslot
  constructor
  · intro hmapped
    obtain ⟨pt', hsuper, hregion, -⟩ := hmapped
    by_contra hne
    obtain ⟨c, hc⟩ := List.exists_mem_of_ne_nil calls hne
    have hlast : (loc (lastPlace c.va)).isSome := by
      rw [Option.isSome_iff_ne_none]
      intro hnone
      exact FlatPageMap.insertAll_ne_none _ hc (h.unmapped c.va hnone)
    have hlost := mapSuperpage_lost h hmid
      (nextPpn_sub_one_ne h (by simp [lastPlace]) hlast) hsuper
    have hok := hregion va (Nat.le_refl _) (by omega)
    rw [hlost] at hok
    cases hok
  · intro heq
    subst heq
    simp only [mapPages, List.foldlM_nil, Option.pure_def, Option.some.injEq] at hrun
    subst pt
    obtain ⟨pt', loc', hsuper, h', -⟩ := mapSuperpage_fresh new_refines hva hpa hleaf rfl rfl
    exact superpageMapped_of_refines hva hpa hf new_refines hsuper h'

theorem superpageMapped_emptySlot_new :
    SuperpageMapped Sv39PageTable.new 0x40000000#64 0x80200000#64 3#64 :=
  (superpageMapped_emptySlot_iff [] Sv39PageTable.new rfl _ _ _ (by decide) (by decide)
    (by decide) (by decide) ⟨0, rfl, by decide⟩).mpr rfl

/-- After one `map_page` elsewhere, the superpage for an empty root slot is
linked from that page's last-level node, and its first address faults. -/
theorem superpage_lost_after_mapPage :
    ∃ pt, mapPages Sv39PageTable.new [⟨0x1000#64, 0x80001000#64, 3#64, by decide⟩] = some pt ∧
      RootSlotEmpty pt 0x40000000#64 ∧ 0x40000000#64 % megaSize = 0 ∧
      0x80200000#64 % megaSize = 0 ∧ IsLeaf 3#64 ∧
      ¬ SuperpageMapped pt 0x40000000#64 0x80200000#64 3#64 := by
  let calls : List MapCall := [⟨0x1000#64, 0x80001000#64, 3#64, by decide⟩]
  obtain ⟨pt, hrun⟩ : ∃ pt, mapPages Sv39PageTable.new calls = some pt :=
    Option.isSome_iff_exists.mp (by decide)
  have hslot : ((mapPages Sv39PageTable.new calls).bind fun pt =>
      pt.getEntry pt.rootPpn (extractVpn 0x40000000#64 2)) = some 0 := by decide
  have hfault : ((mapPages Sv39PageTable.new calls).bind fun pt =>
      (pt.mapSuperpage 0x40000000#64 0x80200000#64 3#64).map fun pt' =>
        pt'.translate 0x40000000#64) = some .pageFault := by decide
  rw [hrun, Option.bind_some] at hslot hfault
  refine ⟨pt, hrun, ⟨0, hslot, by decide⟩, by decide, by decide, by decide, ?_⟩
  intro hmapped
  obtain ⟨pt', hsuper, hregion, -⟩ := hmapped
  have hok := hregion 0x40000000#64 (Nat.le_refl _) (by decide)
  rw [hsuper, Option.map_some, hok] at hfault
  cases hfault

section SmallPages

variable (va pa flags : BitVec 64) (hf : flags.toNat < 2 ^ 10)

/-- The 512 calls that map the region page by page. -/
def smallPages : List MapCall :=
  (List.range 512).map fun i =>
    ⟨va + BitVec.ofNat 64 (4096 * i), pa + BitVec.ofNat 64 (4096 * i), flags, hf⟩

variable {va pa}

theorem toNat_add_page {x : BitVec 64} (hx : x % megaSize = 0) {i : ℕ} (hi : i < 512) :
    (x + BitVec.ofNat 64 (4096 * i)).toNat = x.toNat + 4096 * i := by
  have halign := aligned_toNat hx
  have hlt := x.isLt
  rw [BitVec.toNat_add, BitVec.toNat_ofNat]
  omega

theorem pageNumber_add_page (hva : va % megaSize = 0) {i : ℕ} (hi : i < 512) (x : BitVec 64) :
    pageNumber (va + BitVec.ofNat 64 (4096 * i)) = pageNumber x ↔
      lastPlace x = lastPlace va ∧ i = x.toNat / 2 ^ 12 % 2 ^ 9 := by
  have halign := aligned_toNat hva
  rw [← BitVec.toNat_inj, pageNumber_toNat, pageNumber_toNat, toNat_add_page hva hi,
    lastPlace_eq_iff]
  omega

/-- Mapped page by page, an address inside the region gets the page at its own distance. -/
theorem insertAll_smallPages (pages : PageMap) (hva : va % megaSize = 0) {x : BitVec 64}
    (hx : lastPlace x = lastPlace va) :
    FlatPageMap.insertAll pages (smallPages va pa flags hf) (pageNumber x) =
      some ⟨pa + BitVec.ofNat 64 (4096 * (x.toNat / 2 ^ 12 % 2 ^ 9)), flags⟩ := by
  have hlt : x.toNat / 2 ^ 12 % 2 ^ 9 < 512 := Nat.mod_lt _ (by omega)
  apply FlatPageMap.insertAll_of_unique
  · refine ⟨_, List.mem_map_of_mem (List.mem_range.mpr hlt), ?_⟩
    exact (pageNumber_add_page hva hlt x).mpr ⟨hx, rfl⟩
  · intro c hc hpage
    obtain ⟨i, hi, rfl⟩ := List.mem_map.mp hc
    obtain ⟨-, hidx⟩ := (pageNumber_add_page hva (List.mem_range.mp hi) x).mp hpage
    rw [hidx]
    exact ⟨rfl, rfl⟩

theorem insertAll_smallPages_of_ne (pages : PageMap) (hva : va % megaSize = 0) {x : BitVec 64}
    (hx : lastPlace x ≠ lastPlace va) :
    FlatPageMap.insertAll pages (smallPages va pa flags hf) (pageNumber x) =
      pages (pageNumber x) := by
  apply FlatPageMap.insertAll_of_notMem
  intro c hc hpage
  obtain ⟨i, hi, rfl⟩ := List.mem_map.mp hc
  exact hx ((pageNumber_add_page hva (List.mem_range.mp hi) x).mp hpage).1

/-- A small page at its distance and the wide offset of the leaf agree. -/
theorem small_pa_eq_wide (hpa : pa % megaSize = 0) (x : BitVec 64) :
    ((pa + BitVec.ofNat 64 (4096 * (x.toNat / 2 ^ 12 % 2 ^ 9))) &&& ~~~0xFFF#64) |||
        (x &&& 0xFFF#64) =
      ((pa >>> 12) <<< 12) ||| (x &&& ((1#64 <<< 21) - 1#64)) := by
  have halign := aligned_toNat hpa
  have hsum := toNat_add_page hpa (i := x.toNat / 2 ^ 12 % 2 ^ 9) (Nat.mod_lt _ (by omega))
  have hbase := toNat_and_not_mask
    (pa + BitVec.ofNat 64 (4096 * (x.toNat / 2 ^ 12 % 2 ^ 9))) 0xFFF#64 12 rfl
  have hoff := toNat_and_of_mask x 0xFFF#64 12 rfl
  apply BitVec.eq_of_toNat_eq
  rw [wide_offset hpa, toNat_or_of_dvd _ _ 12, hbase, hoff, hsum]
  · omega
  · rw [hbase]
    exact Nat.dvd_mul_left _ _
  · rw [hoff]
    exact Nat.mod_lt _ (by omega)

end SmallPages

/-- On a populated root slot one superpage call and the 512 small calls lead to
tables that translate every address alike, whatever the region held before. -/
theorem mapSuperpage_eq_smallPages (calls : List MapCall) (pt : Sv39PageTable)
    (hrun : mapPages Sv39PageTable.new calls = some pt) (va pa flags : BitVec 64)
    (hva : va % megaSize = 0) (hpa : pa % megaSize = 0) (hf : flags.toNat < 2 ^ 10)
    (hleaf : IsLeaf flags) (hslot : RootSlotPopulated pt va) :
    ∃ pt₁ pt₂, pt.mapSuperpage va pa flags = some pt₁ ∧
      mapPages pt (smallPages va pa flags hf) = some pt₂ ∧
      ∀ x, pt₁.translate x = pt₂.translate x := by
  obtain ⟨pt₀, loc, hrun₀, h⟩ := mapPages_refines new_refines calls (fun _ _ => rfl)
  rw [hrun, Option.some.injEq] at hrun₀
  subst pt₀
  obtain ⟨pt₁, hsuper, h₁⟩ :=
    mapSuperpage_populated h hva hpa hleaf ((rootSlotPopulated_iff h va).mp hslot)
  obtain ⟨pt₂, loc₂, hsmall, h₂⟩ :=
    mapPages_refines h (smallPages va pa flags hf) (fun _ _ => rfl)
  refine ⟨pt₁, pt₂, hsuper, hsmall, fun x => ?_⟩
  rw [translate_eq h₁, translate_eq h₂]
  by_cases hx : lastPlace x = lastPlace va
  · rw [hx, Function.update_self]
    simp only [noBig, FlatPageMap.translate, insertAll_smallPages flags hf _ hva hx,
      leafPte_ppn pa flags hf, if_pos hleaf, small_pa_eq_wide hpa x]
  · rw [Function.update_of_ne hx]
    simp only [noBig, FlatPageMap.translate, insertAll_smallPages_of_ne flags hf _ hva hx]

theorem mapSuperpage_eq_smallPages_first_region :
    ∃ pt pt₁ pt₂, mapPages Sv39PageTable.new [⟨0x1000#64, 0x80001000#64, 3#64, by decide⟩] =
        some pt ∧ pt.mapSuperpage 0x200000#64 0x80200000#64 3#64 = some pt₁ ∧
      mapPages pt (smallPages 0x200000#64 0x80200000#64 3#64 (by decide)) = some pt₂ ∧
      ∀ x, pt₁.translate x = pt₂.translate x := by
  let calls : List MapCall := [⟨0x1000#64, 0x80001000#64, 3#64, by decide⟩]
  obtain ⟨pt, hrun⟩ : ∃ pt, mapPages Sv39PageTable.new calls = some pt :=
    Option.isSome_iff_exists.mp (by decide)
  have hslot : ((mapPages Sv39PageTable.new calls).bind fun pt =>
      pt.getEntry pt.rootPpn (extractVpn 0x200000#64 2)) =
        some (pointerPte 0x80001#64) := by decide
  rw [hrun, Option.bind_some] at hslot
  obtain ⟨pt₁, pt₂, h₁, h₂, heq⟩ := mapSuperpage_eq_smallPages calls pt hrun 0x200000#64
    0x80200000#64 3#64 (by decide) (by decide) (by decide) (by decide)
    ⟨_, hslot, pointerPte_valid _⟩
  exact ⟨pt, pt₁, pt₂, hrun, h₁, h₂, heq⟩

end OsCamp.PageTableSuperpage
