import OsCamp.PageTableSuperpage
import OsCamp.WriteLog

/-!
Runs that mix `map_page` and `map_superpage`. As long as no small page is mapped into a
region that holds a superpage, every table met on the way translates by the last call that
covers an address, exactly where each superpage finds its level-1 table in place or is
the first call of all.
-/

set_option autoImplicit false

namespace OsCamp.SuperpageRuns

open Execution MultiLevelPt PageTableEntries PageTableLayout PageTableRefinement
open PageTableSuperpage WriteLog
open FlatPageMap (PageMap Mapping MapCall)

/-- The arguments of a `map_superpage` call; the addresses pass its assertions. -/
structure SuperpageCall extends MapCall where
  va_aligned : va % megaSize = 0
  pa_aligned : pa % megaSize = 0
  leaf : IsLeaf flags

inductive Call
  | page (c : MapCall)
  | superpage (c : SuperpageCall)

namespace Call

def va : Call → BitVec 64
  | .page c => c.va
  | .superpage c => c.va

def apply (pt : Sv39PageTable) : Call → Option Sv39PageTable
  | .page c => pt.mapPage c.va c.pa c.flags
  | .superpage c => pt.mapSuperpage c.va c.pa c.flags

instance (va x : BitVec 64) : Decidable (InRegion va x) :=
  inferInstanceAs (Decidable (_ ∧ _))

/-- The call says how the address is translated. -/
def Covers (x : BitVec 64) : Call → Prop
  | .page c => pageNumber x = pageNumber c.va
  | .superpage c => InRegion c.va x

instance (x : BitVec 64) : ∀ c, Decidable (Covers x c)
  | .page c => inferInstanceAs (Decidable (pageNumber x = pageNumber c.va))
  | .superpage c => inferInstanceAs (Decidable (InRegion c.va x))

def answer (x : BitVec 64) : Call → TranslateResult
  | .page c =>
    if IsLeaf c.flags then .ok ((c.pa &&& ~~~0xFFF#64) ||| (x &&& 0xFFF#64)) else .pageFault
  | .superpage c => .ok (c.pa + x % megaSize)

end Call

/-- Translation by the last call that covers the address. -/
def lookup (calls : List Call) (x : BitVec 64) : TranslateResult :=
  match last (fun c x => decide (c.Covers x)) calls x with
  | some c => c.answer x
  | none => .pageFault

/-- A small page lies outside the superpages mapped before it. -/
def PageOutside (earlier : List Call) : Call → Prop
  | .page c => ∀ s, .superpage s ∈ earlier → ¬ InRegion s.va c.va
  | .superpage _ => True

/-- A superpage is the first call, or comes after a call for the same gigabyte. -/
def TablePresent (earlier : List Call) : Call → Prop
  | .page _ => True
  | .superpage c => earlier = [] ∨ ∃ d ∈ earlier, extractVpn d.va 2 = extractVpn c.va 2

/-- The layout of a table after the calls. -/
structure Laid (calls : List Call) (pt : Sv39PageTable) (loc big : Placement)
    (pages : PageMap) : Prop where
  refines : Refines pt loc big pages
  answers : ∀ x, pt.translate x = lookup calls x
  tables : ∀ vpn2, (loc (.mid vpn2)).isSome ↔ ∃ c ∈ calls, extractVpn c.va 2 = vpn2
  superpages : ∀ x, (big (lastPlace x)).isSome → ∃ s, .superpage s ∈ calls ∧ InRegion s.va x
  only_root : calls = [] → pt.nextPpn - 1 = pt.rootPpn

def Inv (calls : List Call) (pt : Sv39PageTable) : Prop :=
  ∃ loc big pages, Laid calls pt loc big pages

variable {calls : List Call} {pt : Sv39PageTable} {loc big : Placement} {pages : PageMap}

theorem lookup_concat (c : Call) (x : BitVec 64) :
    lookup (calls ++ [c]) x = if c.Covers x then c.answer x else lookup calls x := by
  unfold lookup
  rw [last_concat]
  by_cases hc : c.Covers x
  · rw [if_pos (decide_eq_true hc), if_pos hc]
  · rw [if_neg (by simpa using hc), if_neg hc]

theorem tables_concat {c : Call} {loc' : Placement}
    (h : ∀ vpn2, (loc (.mid vpn2)).isSome ↔ ∃ d ∈ calls, extractVpn d.va 2 = vpn2)
    (hplaced : ∀ vpn2, (loc' (.mid vpn2)).isSome ↔
      (loc (.mid vpn2)).isSome ∨ extractVpn c.va 2 = vpn2) (vpn2 : Fin ptEntries) :
    (loc' (.mid vpn2)).isSome ↔ ∃ d ∈ calls ++ [c], extractVpn d.va 2 = vpn2 := by
  rw [hplaced, h]
  simp only [List.mem_append, List.mem_singleton, or_and_right, exists_or, exists_eq_left]

theorem inv_new : Inv [] Sv39PageTable.new := by
  refine ⟨rootOnly, noBig, FlatPageMap.empty, new_refines, ?_, ?_, ?_, fun _ => rfl⟩
  · intro x
    rw [translate_eq new_refines]
    rfl
  · intro vpn2
    simp [rootOnly]
  · intro x hx
    cases hx

theorem translate_insert (va : BitVec 64) (m : Mapping) (x : BitVec 64) :
    FlatPageMap.translate (FlatPageMap.insert pages va m) x =
      if pageNumber x = pageNumber va then
        if IsLeaf m.flags then .ok ((m.pa &&& ~~~0xFFF#64) ||| (x &&& 0xFFF#64)) else .pageFault
      else FlatPageMap.translate pages x := by
  unfold FlatPageMap.translate
  by_cases hx : pageNumber x = pageNumber va
  · rw [FlatPageMap.insert_self _ _ _ hx, if_pos hx]
  · rw [FlatPageMap.insert_of_ne _ _ _ hx, if_neg hx]

theorem Laid.outside (h : Laid calls pt loc big pages) {c : MapCall}
    (houtside : PageOutside calls (.page c)) : big (lastPlace c.va) = none := by
  cases hbig : big (lastPlace c.va) with
  | none => rfl
  | some pte =>
    obtain ⟨s, hs, hin⟩ := h.superpages c.va (by rw [hbig]; rfl)
    exact absurd hin (houtside s hs)

theorem Laid.mapPage (h : Laid calls pt loc big pages) {c : MapCall}
    (houtside : PageOutside calls (.page c)) :
    ∃ pt', Call.apply pt (.page c) = some pt' ∧ Inv (calls ++ [.page c]) pt' := by
  have hnone := h.outside houtside
  obtain ⟨pt', loc', hmap, h', hplaced⟩ :=
    mapPage_refines h.refines c.va c.pa c.flags c.flags_lt hnone
  refine ⟨pt', hmap, loc', big, _, h', ?_, ?_, ?_, fun hnil => by simp at hnil⟩
  · intro x
    rw [lookup_concat, translate_eq h', ← h.answers, translate_eq h.refines, translate_insert]
    show _ = if pageNumber x = pageNumber c.va then _ else _
    by_cases hx : pageNumber x = pageNumber c.va
    · rw [if_pos hx, if_pos hx, lastPlace_eq_of_pageNumber hx, hnone]
      rfl
    · rw [if_neg hx, if_neg hx]
  · apply tables_concat h.tables
    intro vpn2
    rw [hplaced]
    apply or_congr_right
    constructor
    · rintro (hmid | hlast)
      · exact (Place.mid.inj hmid).symm
      · cases hlast
    · rintro rfl
      exact Or.inl rfl
  · intro x hx
    obtain ⟨s, hs, hin⟩ := h.superpages x hx
    exact ⟨s, List.mem_append_left _ hs, hin⟩

theorem superpage_answer (c : SuperpageCall) (x : BitVec 64) :
    TranslateResult.ok
        (((leafPte c.pa c.flags >>> ppnShift) <<< 12) ||| (x &&& ((1#64 <<< 21) - 1#64))) =
      Call.answer x (.superpage c) := by
  have hmega : megaSize.toNat = 2 ^ 21 := rfl
  have halign := aligned_toNat c.pa_aligned
  have hlt := c.pa.isLt
  have hsum : ((c.pa >>> 12) <<< 12) ||| (x &&& ((1#64 <<< 21) - 1#64)) =
      c.pa + x % megaSize := by
    apply BitVec.eq_of_toNat_eq
    rw [wide_offset c.pa_aligned, BitVec.toNat_add, BitVec.toNat_umod, hmega]
    omega
  rw [leafPte_ppn c.pa c.flags c.flags_lt, hsum]
  rfl

/-- The table once the leaf is written, by whichever way its level-1 table was found. -/
theorem Laid.superpage (h : Laid calls pt loc big pages) {c : SuperpageCall} {pt' : Sv39PageTable}
    {loc' : Placement}
    (h' : Refines pt' loc' (Function.update big (lastPlace c.va) (some (leafPte c.pa c.flags)))
      pages)
    (hplaced : ∀ vpn2, (loc' (.mid vpn2)).isSome ↔
      (loc (.mid vpn2)).isSome ∨ extractVpn c.va 2 = vpn2) :
    Inv (calls ++ [.superpage c]) pt' := by
  refine ⟨loc', _, pages, h', ?_, ?_, ?_, fun hnil => by simp at hnil⟩
  · intro x
    rw [lookup_concat, translate_eq h', ← h.answers, translate_eq h.refines]
    show _ = if InRegion c.va x then _ else _
    by_cases hx : lastPlace x = lastPlace c.va
    · rw [if_pos ((inRegion_iff c.va_aligned x).mpr hx), hx, Function.update_self]
      exact superpage_answer c x
    · rw [if_neg fun hin => hx ((inRegion_iff c.va_aligned x).mp hin), Function.update_of_ne hx]
  · exact tables_concat h.tables hplaced
  · intro x hx
    by_cases hplace : lastPlace x = lastPlace c.va
    · exact ⟨c, by simp, (inRegion_iff c.va_aligned x).mpr hplace⟩
    · rw [Function.update_of_ne hplace] at hx
      obtain ⟨s, hs, hin⟩ := h.superpages x hx
      exact ⟨s, List.mem_append_left _ hs, hin⟩

theorem Laid.mapSuperpage (h : Laid calls pt loc big pages) {c : SuperpageCall}
    (hpresent : TablePresent calls (.superpage c)) :
    ∃ pt', Call.apply pt (.superpage c) = some pt' ∧ Inv (calls ++ [.superpage c]) pt' := by
  cases hmid : loc (.mid (extractVpn c.va 2)) with
  | some p =>
    have hsome : (loc (.mid (extractVpn c.va 2))).isSome := by
      rw [hmid]
      rfl
    obtain ⟨pt', hmap, h'⟩ :=
      mapSuperpage_populated h.refines c.va_aligned c.pa_aligned c.leaf hsome
    refine ⟨pt', hmap, h.superpage h' ?_⟩
    intro vpn2
    refine ⟨Or.inl, ?_⟩
    rintro (hold | rfl)
    · exact hold
    · exact hsome
  | none =>
    -- No call for this gigabyte came before, so the call is the first one.
    have hfirst : calls = [] := by
      rcases hpresent with hnil | ⟨d, hd, hvpn⟩
      · exact hnil
      · have hsome := (h.tables (extractVpn c.va 2)).mpr ⟨d, hd, hvpn⟩
        rw [hmid] at hsome
        cases hsome
    obtain ⟨pt', loc', hmap, h', hloc⟩ := mapSuperpage_fresh h.refines c.va_aligned c.pa_aligned
      c.leaf hmid (h.only_root hfirst)
    refine ⟨pt', hmap, h.superpage h' ?_⟩
    intro vpn2
    rw [hloc, place_isSome_iff, Place.mid.injEq, eq_comm (a := vpn2)]

/-- A superpage that does not find its table, after other calls, is lost. -/
theorem Laid.lost (h : Laid calls pt loc big pages) {c : SuperpageCall} (hne : calls ≠ [])
    (habsent : ∀ d ∈ calls, extractVpn d.va 2 ≠ extractVpn c.va 2) {pt' : Sv39PageTable}
    (hmap : Call.apply pt (.superpage c) = some pt') :
    pt'.translate c.va ≠ lookup (calls ++ [.superpage c]) c.va := by
  have hmid : loc (.mid (extractVpn c.va 2)) = none := by
    rw [Option.eq_none_iff_forall_ne_some]
    intro p hp
    obtain ⟨d, hd, hvpn⟩ := (h.tables (extractVpn c.va 2)).mp (by rw [hp]; rfl)
    exact habsent d hd hvpn
  obtain ⟨d, hd⟩ := List.exists_mem_of_ne_nil calls hne
  have hother : (loc (.mid (extractVpn d.va 2))).isSome := (h.tables _).mpr ⟨d, hd, rfl⟩
  have hnext := nextPpn_sub_one_ne h.refines (a := .mid (extractVpn d.va 2)) (by simp) hother
  have hcovers : Call.Covers c.va (.superpage c) := (inRegion_iff c.va_aligned c.va).mpr rfl
  rw [mapSuperpage_lost h.refines hmid hnext hmap, lookup_concat, if_pos hcovers]
  exact fun hfault => nomatch hfault

theorem Inv.step (h : Inv calls pt) {c : Call} (houtside : PageOutside calls c)
    (hpresent : TablePresent calls c) :
    ∃ pt', Call.apply pt c = some pt' ∧ Inv (calls ++ [c]) pt' := by
  obtain ⟨loc, big, pages, hlaid⟩ := h
  cases c with
  | page c => exact hlaid.mapPage houtside
  | superpage c => exact hlaid.mapSuperpage hpresent

theorem run_inv (houtside : Along PageOutside calls) (hpresent : Along TablePresent calls) :
    ∃ pt, run Call.apply Sv39PageTable.new calls = some pt ∧ Inv calls pt := by
  have hboth : Along (fun earlier c => PageOutside earlier c ∧ TablePresent earlier c) calls :=
    fun earlier c later h => ⟨houtside earlier c later h, hpresent earlier c later h⟩
  exact run_along inv_new (fun _ _ _ hinv hok => hinv.step hok.1 hok.2) hboth

/-- The table after the calls translates every address by the last call that covers it. -/
def Answers (calls : List Call) : Prop :=
  ∃ pt, run Call.apply Sv39PageTable.new calls = some pt ∧ ∀ x, pt.translate x = lookup calls x

theorem answers_of_present (houtside : Along PageOutside calls)
    (hpresent : Along TablePresent calls) : Answers calls := by
  obtain ⟨pt, hrun, loc, big, pages, hlaid⟩ := run_inv houtside hpresent
  exact ⟨pt, hrun, hlaid.answers⟩

theorem present_of_answers (houtside : Along PageOutside calls)
    (hanswers : ∀ earlier, earlier <+: calls → Answers earlier) : Along TablePresent calls := by
  induction calls using List.reverseRecOn with
  | nil => exact along_nil
  | append_singleton calls c ih =>
    have hbefore := (along_concat.mp houtside).1
    have hpresent := ih hbefore fun earlier h =>
      hanswers earlier (h.trans (List.prefix_append calls [c]))
    refine along_concat.mpr ⟨hpresent, ?_⟩
    cases c with
    | page c => trivial
    | superpage c =>
      obtain ⟨pt, hrun, loc, big, pages, hlaid⟩ := run_inv hbefore hpresent
      obtain ⟨pt', hrun', htranslate⟩ := hanswers _ (List.prefix_refl _)
      rw [run_append, hrun, Option.bind_some] at hrun'
      obtain ⟨pt₁, hmap, hdone⟩ := Option.bind_eq_some_iff.mp hrun'
      cases hdone
      by_contra habsent
      obtain ⟨hne, hnone⟩ := not_or.mp habsent
      exact hlaid.lost hne (fun d hd hvpn => hnone ⟨d, hd, hvpn⟩) hmap (htranslate c.va)

/-- With every small page outside the superpages before it: the calls succeed, and after
each of them the last call that covers an address decides its translation, exactly where
each superpage but a first call comes after a call for its gigabyte. -/
theorem answers_iff (calls : List Call) (houtside : Along PageOutside calls) :
    (∀ earlier, earlier <+: calls → Answers earlier) ↔ Along TablePresent calls := by
  constructor
  · exact present_of_answers houtside
  · intro hpresent earlier hprefix
    obtain ⟨later, rfl⟩ := hprefix
    apply answers_of_present
    · intro pre c post h
      apply houtside pre c (post ++ later)
      rw [h, List.append_assoc, List.cons_append]
    · intro pre c post h
      apply hpresent pre c (post ++ later)
      rw [h, List.append_assoc, List.cons_append]

/-- A superpage, a page and another superpage of one gigabyte, and a page of another. -/
def sampleCalls : List Call :=
  [.superpage ⟨⟨0x200000#64, 0x80200000#64, 11#64, by decide⟩, by decide, by decide, by decide⟩,
    .page ⟨0x1000#64, 0x90000000#64, 11#64, by decide⟩,
    .superpage ⟨⟨0#64, 0x80600000#64, 11#64, by decide⟩, by decide, by decide, by decide⟩,
    .page ⟨0x40000000#64, 0x91000000#64, 11#64, by decide⟩]

theorem answers_iff_sample :
    ∃ pt, run Call.apply Sv39PageTable.new sampleCalls = some pt ∧
      pt.translate 0x234567#64 = .ok 0x80234567#64 ∧ pt.translate 0x1ABC#64 = .ok 0x80601ABC#64 ∧
      pt.translate 0x40000DEF#64 = .ok 0x91000DEF#64 ∧ pt.translate 0x600000#64 = .pageFault := by
  have hpages : Along PageOutside sampleCalls := by
    show Along PageOutside ([] ++ [_] ++ [_] ++ [_] ++ [_])
    simp only [along_concat]
    refine ⟨⟨⟨⟨along_nil, trivial⟩, ?_⟩, trivial⟩, ?_⟩
    · intro s hs
      cases List.mem_singleton.mp hs
      decide
    · intro s hs
      simp only [List.nil_append, List.cons_append, List.mem_cons, Call.superpage.injEq,
        reduceCtorEq, false_or, List.not_mem_nil, or_false] at hs
      rcases hs with rfl | rfl
      · decide
      · decide
  have htables : Along TablePresent sampleCalls := by
    show Along TablePresent ([] ++ [_] ++ [_] ++ [_] ++ [_])
    simp only [along_concat]
    refine ⟨⟨⟨⟨along_nil, Or.inl rfl⟩, trivial⟩, Or.inr ⟨_, List.mem_cons_self, ?_⟩⟩, trivial⟩
    decide
  obtain ⟨pt, hrun, htranslate⟩ :=
    (answers_iff sampleCalls hpages).mpr htables sampleCalls (List.prefix_refl _)
  refine ⟨pt, hrun, ?_, ?_, ?_, ?_⟩
  · rw [htranslate]
    decide
  · rw [htranslate]
    decide
  · rw [htranslate]
    decide
  · rw [htranslate]
    decide

end OsCamp.SuperpageRuns
