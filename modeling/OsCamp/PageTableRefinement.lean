import OsCamp.PageTableLayout

/-!
The three-level walk refines a flat page map. Any sequence of `map_page` calls
from the empty table succeeds, and afterwards `translate` answers as the map
that remembers, for each page number, the last call made for it.
-/

set_option autoImplicit false

namespace OsCamp.PageTableRefinement

open MultiLevelPt PageTableEntries PageTableLayout
open FlatPageMap (PageMap MapCall lastCall leafEntry)

def noBig : Placement := fun _ => none

def rootOnly : Placement := Function.update (fun _ => none) .root (some 0x80000#64)

theorem getEntry_new (ppn : BitVec 64) (vpn : Fin ptEntries) :
    Sv39PageTable.new.getEntry ppn vpn = if ppn = 0x80000#64 then some 0 else none := by
  by_cases hp : ppn = 0x80000#64
  · subst ppn
    rfl
  · simp [Sv39PageTable.getEntry, Sv39PageTable.new, hp]

theorem rootOnly_eq_some {a : Place} {ppn : BitVec 64} (h : rootOnly a = some ppn) :
    a = .root ∧ ppn = 0x80000#64 := by
  by_cases ha : a = .root
  · subst a
    simp only [rootOnly, Function.update_self, Option.some.injEq] at h
    exact ⟨rfl, h.symm⟩
  · simp [rootOnly, ha] at h

theorem used_rootOnly : used rootOnly = {.root} := by
  ext a
  rw [mem_used, Finset.mem_singleton]
  by_cases ha : a = .root
  · subst a
    simp [rootOnly]
  · simp [rootOnly, ha]

theorem new_refines : Refines Sv39PageTable.new rootOnly noBig FlatPageMap.empty where
  root_ppn := rfl
  root_loc := rfl
  inj a b ppn ha hb := (rootOnly_eq_some ha).1.trans (rootOnly_eq_some hb).1.symm
  parent a vpn c hc _ := by
    cases hloc : rootOnly c with
    | none => rfl
    | some ppn =>
      obtain ⟨rfl, -⟩ := rootOnly_eq_some hloc
      cases a <;> simp [Place.child] at hc
  ppn_lt a ppn ha := by
    rw [(rootOnly_eq_some ha).2]
    decide
  count := by
    rw [used_rootOnly]
    rfl
  placed ppn vpn h := by
    by_cases hp : ppn = 0x80000#64
    · exact ⟨.root, by rw [hp]; rfl⟩
    · simp [getEntry_new, hp] at h
  link a ppn vpn c ha hc := by
    obtain ⟨rfl, rfl⟩ := rootOnly_eq_some ha
    simp only [Place.child, Option.some.injEq] at hc
    subst c
    rw [getEntry_new, if_pos rfl]
    rfl
  leaf va ppn h := by
    obtain ⟨hroot, -⟩ := rootOnly_eq_some h
    cases hroot
  unmapped va _ := rfl
  flags_lt n m h := by cases h
  big_last c pte h := by cases h

section MapPage

variable {pt pt' : Sv39PageTable} {loc big : Placement} {pages : PageMap}

/-- The nodes that a mapping of the address needs besides the root. -/
def OnPath (va : BitVec 64) (b : Place) : Prop := b = .mid (extractVpn va 2) ∨ b = lastPlace va

/-- The descent of `map_page` ends at the placed last-level node of the page. -/
theorem descend_refines (h : Refines pt loc big pages) (va : BitVec 64)
    (hbig : big (lastPlace va) = none) :
    ∃ pt' loc' q, pt.descend va = some (pt', q) ∧ Refines pt' loc' big pages ∧
      loc' (lastPlace va) = some q ∧ ∀ b, (loc' b).isSome ↔ (loc b).isSome ∨ OnPath va b := by
  obtain ⟨pt₁, loc₁, q₁, hstep₁, h₁, hq₁, -, hplaced₁⟩ :=
    descendLevel_refines h va 2 h.root_loc rfl (h.big_mid _)
  obtain ⟨pt₂, loc₂, q₂, hstep₂, h₂, hq₂, -, hplaced₂⟩ :=
    descendLevel_refines h₁ va 1 hq₁ (c := lastPlace va) rfl hbig
  refine ⟨pt₂, loc₂, q₂, ?_, h₂, hq₂, ?_⟩
  · simp only [Sv39PageTable.descend, List.foldlM_cons, List.foldlM_nil, Option.bind_eq_bind,
      hstep₁, hstep₂, Option.bind_some, Option.pure_def]
  · intro b
    rw [hplaced₂, hplaced₁, or_assoc]
    rfl

theorem pageNumber_eq_of_lastPlace {x va : BitVec 64} (hplace : lastPlace x = lastPlace va)
    (hvpn : extractVpn x 0 = extractVpn va 0) : pageNumber x = pageNumber va := by
  simp only [lastPlace, Place.last.injEq] at hplace
  exact (pageNumber_eq_iff x va).mpr ⟨hplace.1, hplace.2, hvpn⟩

theorem lastPlace_eq_of_pageNumber {x va : BitVec 64} (h : pageNumber x = pageNumber va) :
    lastPlace x = lastPlace va := by
  obtain ⟨h2, h1, -⟩ := (pageNumber_eq_iff x va).mp h
  rw [lastPlace, lastPlace, h2, h1]

/-- Writing the level-0 entry inserts the page into the flat map. -/
theorem setLeaf_refines (h : Refines pt loc big pages) (va pa flags : BitVec 64)
    (hf : flags.toNat < 2 ^ 10) {q : BitVec 64} (hq : loc (lastPlace va) = some q) :
    ∃ pt', pt.setEntry q (extractVpn va 0) (leafPte pa flags) = some pt' ∧
      Refines pt' loc big (FlatPageMap.insert pages va ⟨pa, flags⟩) := by
  have hsome : (pt.getEntry q (extractVpn va 0)).isSome := by
    rw [h.leaf va q hq]
    rfl
  obtain ⟨pt', hset, hroot, hnext, hget⟩ := setEntry_spec hsome (leafPte pa flags)
  refine ⟨pt', hset, {
    root_ppn := by rw [hroot, h.root_ppn]
    root_loc := by rw [hroot, h.root_loc]
    inj := h.inj
    parent := h.parent
    ppn_lt := by rw [hnext]; exact h.ppn_lt
    count := by rw [hnext, h.count]
    placed := h.placed_of_set hq hget
    link := ?_
    leaf := ?_
    unmapped := ?_
    flags_lt := FlatPageMap.insert_flags_lt h.flags_lt va hf
    big_last := h.big_last
  }⟩
  · intro b r u d hb hd
    have hplace : b ≠ lastPlace va := by
      intro heq
      rw [heq] at hd
      simp [lastPlace, Place.child] at hd
    have hne : r ≠ q := h.ppn_ne hq hb hplace
    rw [hget, if_neg (fun hru => hne hru.1)]
    exact h.link b r u d hb hd
  · intro x r hr
    rw [hget]
    by_cases hru : r = q ∧ extractVpn x 0 = extractVpn va 0
    · have hplace := h.inj _ _ q (hru.1 ▸ hr) hq
      rw [if_pos hru, FlatPageMap.insert_self _ _ _ (pageNumber_eq_of_lastPlace hplace hru.2)]
      rfl
    · have hpage : pageNumber x ≠ pageNumber va := by
        intro heq
        rw [lastPlace_eq_of_pageNumber heq, hq, Option.some.injEq] at hr
        exact hru ⟨hr.symm, ((pageNumber_eq_iff x va).mp heq).2.2⟩
      rw [if_neg hru, FlatPageMap.insert_of_ne _ _ _ hpage]
      exact h.leaf x r hr
  · intro x hx
    have hpage : pageNumber x ≠ pageNumber va := by
      intro heq
      rw [lastPlace_eq_of_pageNumber heq, hq] at hx
      cases hx
    rw [FlatPageMap.insert_of_ne _ _ _ hpage]
    exact h.unmapped x hx

/-- `map_page` outside every superpage succeeds and inserts its page. -/
theorem mapPage_refines (h : Refines pt loc big pages) (va pa flags : BitVec 64)
    (hf : flags.toNat < 2 ^ 10) (hbig : big (lastPlace va) = none) :
    ∃ pt' loc', pt.mapPage va pa flags = some pt' ∧
      Refines pt' loc' big (FlatPageMap.insert pages va ⟨pa, flags⟩) ∧
      ∀ b, (loc' b).isSome ↔ (loc b).isSome ∨ OnPath va b := by
  obtain ⟨pt₁, loc₁, q, hdesc, h₁, hq, hplaced⟩ := descend_refines h va hbig
  obtain ⟨pt', hset, h'⟩ := setLeaf_refines h₁ va pa flags hf hq
  refine ⟨pt', loc₁, ?_, h', hplaced⟩
  simp only [Sv39PageTable.mapPage, hdesc, Option.bind_eq_bind, Option.bind_some]
  exact hset

end MapPage

section Translate

variable {pt : Sv39PageTable} {va ppn : BitVec 64} {level : ℕ} {rest : List ℕ}

theorem walk_zero (h : pt.getEntry ppn (extractVpn va level) = some 0) :
    pt.walk va (level :: rest) ppn = .pageFault := by
  have hzero : (0 : BitVec 64) &&& pteV = 0 := BitVec.zero_and
  simp only [Sv39PageTable.walk, h, if_pos hzero]

theorem walk_pointer {q : BitVec 64}
    (h : pt.getEntry ppn (extractVpn va level) = some (pointerPte q)) :
    pt.walk va (level :: rest) ppn = pt.walk va rest (pointerPte q >>> ppnShift) := by
  have hleaf : ¬ pointerPte q &&& (pteR ||| pteW ||| pteX) ≠ 0 :=
    not_not.mpr (pointerPte_not_leaf q)
  simp only [Sv39PageTable.walk, h, if_neg (pointerPte_valid q), if_neg hleaf]

/-- A leaf above level 0 answers with the wide offset of its level. -/
theorem walk_big {pte : BitVec 64} (h : pt.getEntry ppn (extractVpn va level) = some pte)
    (hvalid : pte &&& pteV ≠ 0) (hleaf : IsLeaf pte) (hlevel : level > 0) :
    pt.walk va (level :: rest) ppn =
      .ok (((pte >>> ppnShift) <<< 12) ||| (va &&& ((1#64 <<< (12 + level * 9)) - 1#64))) := by
  have hleaf' : pte &&& (pteR ||| pteW ||| pteX) ≠ 0 := hleaf
  simp only [Sv39PageTable.walk, h, if_neg hvalid, if_pos hleaf', if_pos hlevel]

/-- The last level answers as the mapping stored in its entry. -/
theorem walk_last {pages : PageMap}
    (h : pt.getEntry ppn (extractVpn va 0) = some (leafEntry (pages (pageNumber va))))
    (hf : ∀ m, pages (pageNumber va) = some m → m.flags.toNat < 2 ^ 10) :
    pt.walk va [0] ppn = FlatPageMap.translate pages va := by
  unfold FlatPageMap.translate
  cases hm : pages (pageNumber va) with
  | none =>
    rw [hm] at h
    exact walk_zero h
  | some m =>
    rw [hm] at h
    have hvalid := leafPte_valid m.pa m.flags
    have hbits : leafPte m.pa m.flags &&& (pteR ||| pteW ||| pteX) = m.flags &&& leafBits :=
      leafPte_and_leafBits m.pa m.flags
    simp only [leafEntry] at h
    simp only [Sv39PageTable.walk, h, if_neg hvalid, hbits, leafPte_ppn m.pa m.flags (hf m hm),
      page_base, IsLeaf, gt_iff_lt, Nat.lt_irrefl, if_false]

end Translate

/-- Translation of a laid-out table, by the level-1 leaf over the address if
there is one and by the flat map otherwise. -/
theorem translate_eq {pt : Sv39PageTable} {loc big : Placement} {pages : PageMap}
    (h : Refines pt loc big pages) (va : BitVec 64) :
    pt.translate va = match big (lastPlace va) with
      | some pte => .ok (((pte >>> ppnShift) <<< 12) ||| (va &&& ((1#64 <<< 21) - 1#64)))
      | none => FlatPageMap.translate pages va := by
  have hroot := h.link .root _ (extractVpn va 2) _ h.root_loc rfl
  rw [h.big_mid] at hroot
  unfold Sv39PageTable.translate
  cases hmid : loc (.mid (extractVpn va 2)) with
  | none =>
    have hlast : loc (lastPlace va) = none :=
      h.parent (.mid (extractVpn va 2)) (extractVpn va 1) (lastPlace va) rfl hmid
    have hchild : Place.child (.mid (extractVpn va 2)) (extractVpn va 1) =
      some (lastPlace va) := rfl
    have hlbig : big (lastPlace va) = none := h.big_eq_none hchild hmid
    rw [hmid] at hroot
    rw [walk_zero hroot, hlbig, FlatPageMap.translate, h.unmapped va hlast]
  | some p =>
    rw [hmid] at hroot
    rw [walk_pointer hroot, h.pointer_ppn hmid]
    have hlink := h.link (.mid (extractVpn va 2)) p (extractVpn va 1) (lastPlace va) hmid rfl
    cases hb : big (lastPlace va) with
    | some pte =>
      obtain ⟨-, -, -, -, hvalid, hleaf⟩ := h.big_last _ pte hb
      rw [hb] at hlink
      exact walk_big hlink hvalid hleaf (by decide)
    | none =>
      rw [hb] at hlink
      cases hlast : loc (lastPlace va) with
      | none =>
        rw [hlast] at hlink
        rw [walk_zero hlink, FlatPageMap.translate, h.unmapped va hlast]
      | some q =>
        rw [hlast] at hlink
        rw [walk_pointer hlink, h.pointer_ppn hlast]
        exact walk_last (h.leaf va q hlast) (fun m => h.flags_lt _ m)

def mapPages (pt : Sv39PageTable) (calls : List MapCall) : Option Sv39PageTable :=
  calls.foldlM (fun pt c => pt.mapPage c.va c.pa c.flags) pt

/-- A run of `map_page` calls that avoids every superpage succeeds, and places the nodes
on the paths of its addresses. -/
theorem mapPages_placed {pt : Sv39PageTable} {loc big : Placement} {pages : PageMap}
    (h : Refines pt loc big pages) (calls : List MapCall)
    (hbig : ∀ c ∈ calls, big (lastPlace c.va) = none) :
    ∃ pt' loc', mapPages pt calls = some pt' ∧
      Refines pt' loc' big (FlatPageMap.insertAll pages calls) ∧
      ∀ b, (loc' b).isSome ↔ (loc b).isSome ∨ ∃ c ∈ calls, OnPath c.va b := by
  induction calls generalizing pt loc pages with
  | nil => exact ⟨pt, loc, rfl, h, fun b => by simp⟩
  | cons c rest ih =>
    obtain ⟨pt₁, loc₁, hmap, h₁, hplaced₁⟩ :=
      mapPage_refines h c.va c.pa c.flags c.flags_lt (hbig c (List.mem_cons_self ..))
    obtain ⟨pt', loc', hrest, h', hplaced'⟩ :=
      ih h₁ (fun d hd => hbig d (List.mem_cons_of_mem _ hd))
    refine ⟨pt', loc', ?_, h', ?_⟩
    · simp only [mapPages, List.foldlM_cons, hmap, Option.bind_eq_bind, Option.bind_some]
      exact hrest
    · intro b
      rw [hplaced', hplaced₁, or_assoc, List.exists_mem_cons_iff]

theorem mapPages_refines {pt : Sv39PageTable} {loc big : Placement} {pages : PageMap}
    (h : Refines pt loc big pages) (calls : List MapCall)
    (hbig : ∀ c ∈ calls, big (lastPlace c.va) = none) :
    ∃ pt' loc', mapPages pt calls = some pt' ∧
      Refines pt' loc' big (FlatPageMap.insertAll pages calls) := by
  obtain ⟨pt', loc', hrun, h', -⟩ := mapPages_placed h calls hbig
  exact ⟨pt', loc', hrun, h'⟩

/-- Any run of `map_page` calls on a new table meets no missing node, and
`translate` answers with the last call for the page of each address. -/
theorem mapPages_translate (calls : List MapCall) :
    ∃ pt, mapPages Sv39PageTable.new calls = some pt ∧
      ∀ va, pt.translate va = match lastCall calls va with
        | some c =>
          if IsLeaf c.flags then .ok ((c.pa &&& ~~~0xFFF#64) ||| (va &&& 0xFFF#64))
          else .pageFault
        | none => .pageFault := by
  obtain ⟨pt, loc, hrun, h⟩ := mapPages_refines new_refines calls (fun _ _ => rfl)
  refine ⟨pt, hrun, fun va => ?_⟩
  rw [translate_eq h va]
  simp only [noBig, FlatPageMap.translate, FlatPageMap.insertAll_apply, FlatPageMap.empty]
  cases lastCall calls va <;> rfl

end OsCamp.PageTableRefinement
