import OsCamp.FlatPageMap
import Mathlib.Data.Fintype.Option
import Mathlib.Data.Fintype.Prod

/-!
The tree hidden in the node map. A ghost placement `loc` says which physical
page holds the node for each prefix of VPN fields; `big` records the level-1
leaves. The invariant `Refines` ties every stored entry to the placement and to
the abstract page map, and counts the allocated pages, so that a fresh page
number never collides and never outgrows its 44-bit field.
-/

set_option autoImplicit false

namespace OsCamp.PageTableLayout

open MultiLevelPt PageTableEntries
open FlatPageMap (PageMap Mapping leafEntry)

/-- A node of the three-level tree, named by the VPN fields that lead to it. -/
inductive Place
  | root
  | mid (vpn2 : Fin ptEntries)
  | last (vpn2 vpn1 : Fin ptEntries)
  deriving DecidableEq

namespace Place

/-- The node below entry `vpn`; the entries of a last-level node are leaves. -/
def child : Place → Fin ptEntries → Option Place
  | .root, vpn => some (.mid vpn)
  | .mid vpn2, vpn => some (.last vpn2 vpn)
  | .last _ _, _ => none

def equivOption : Place ≃ Option (Fin ptEntries × Option (Fin ptEntries)) where
  toFun
    | .root => none
    | .mid a => some (a, none)
    | .last a b => some (a, some b)
  invFun
    | none => .root
    | some (a, none) => .mid a
    | some (a, some b) => .last a b
  left_inv a := by cases a <;> rfl
  right_inv
    | none => rfl
    | some (_, none) => rfl
    | some (_, some _) => rfl

instance : Fintype Place := Fintype.ofEquiv _ equivOption.symm

theorem card : Fintype.card Place = 1 + 512 + 512 * 512 := by
  rw [Fintype.card_congr equivOption, Fintype.card_option, Fintype.card_prod,
    Fintype.card_option, Fintype.card_fin]
  rfl

/-- Different entries of the tree lead to different nodes. -/
theorem child_injective {a b c : Place} {u v : Fin ptEntries} (ha : a.child u = some c)
    (hb : b.child v = some c) : a = b ∧ u = v := by
  cases a <;> cases b <;> cases c <;> simp_all [child]

end Place

/-- The last-level node that the walk for `va` ends in. -/
def lastPlace (va : BitVec 64) : Place := .last (extractVpn va 2) (extractVpn va 1)

/-- The entry above a node: a level-1 leaf, a pointer, or nothing. -/
def linkEntry : Option (BitVec 64) → Option (BitVec 64) → BitVec 64
  | some pte, _ => pte
  | none, some ppn => pointerPte ppn
  | none, none => 0

abbrev Placement := Place → Option (BitVec 64)

/-- The places that hold a node. -/
def used (loc : Placement) : Finset Place := Finset.univ.filter fun a => (loc a).isSome

theorem mem_used {loc : Placement} {a : Place} : a ∈ used loc ↔ (loc a).isSome := by
  simp [used]

theorem card_used_le (loc : Placement) : (used loc).card ≤ 1 + 512 + 512 * 512 :=
  Place.card ▸ Finset.card_le_univ _

/-- Placing a new node counts one more page. -/
theorem card_used_update (loc : Placement) (c : Place) (ppn : BitVec 64) (hc : loc c = none) :
    (used (Function.update loc c (some ppn))).card = (used loc).card + 1 := by
  have heq : used (Function.update loc c (some ppn)) = insert c (used loc) := by
    ext a
    rw [Finset.mem_insert, mem_used, mem_used]
    by_cases hac : a = c
    · subst a
      simp
    · simp [hac]
  have hnot : c ∉ used loc := by simp [mem_used, hc]
  rw [heq, Finset.card_insert_of_notMem hnot]

structure Refines (pt : Sv39PageTable) (loc big : Placement) (pages : PageMap) : Prop where
  root_ppn : pt.rootPpn = 0x80000#64
  root_loc : loc .root = some pt.rootPpn
  /-- No node is shared between two places. -/
  inj : ∀ a b ppn, loc a = some ppn → loc b = some ppn → a = b
  parent : ∀ a vpn c, a.child vpn = some c → loc a = none → loc c = none
  ppn_lt : ∀ a ppn, loc a = some ppn → ppn.toNat < pt.nextPpn.toNat
  count : pt.nextPpn.toNat = 0x80000 + (used loc).card
  /-- Every node of the map has a place in the tree. -/
  placed : ∀ ppn vpn, (pt.getEntry ppn vpn).isSome → ∃ a, loc a = some ppn
  link : ∀ a ppn vpn c, loc a = some ppn → a.child vpn = some c →
    pt.getEntry ppn vpn = some (linkEntry (big c) (loc c))
  leaf : ∀ va ppn, loc (lastPlace va) = some ppn →
    pt.getEntry ppn (extractVpn va 0) = some (leafEntry (pages (pageNumber va)))
  unmapped : ∀ va, loc (lastPlace va) = none → pages (pageNumber va) = none
  flags_lt : ∀ n m, pages n = some m → m.flags.toNat < 2 ^ 10
  /-- Leaves above the last level sit at level 1, below an existing node. -/
  big_last : ∀ c pte, big c = some pte → ∃ vpn2 vpn1, c = .last vpn2 vpn1 ∧
    (loc (.mid vpn2)).isSome ∧ pte &&& pteV ≠ 0 ∧ IsLeaf pte

namespace Refines

variable {pt : Sv39PageTable} {loc big : Placement} {pages : PageMap}

theorem nextPpn_le (h : Refines pt loc big pages) : pt.nextPpn.toNat ≤ 0x80000 + 262657 := by
  have hcard := card_used_le loc
  have hcount := h.count
  omega

/-- The page counter cannot overflow: there are at most 1 + 512 + 512² nodes. -/
theorem nextPpn_ne (h : Refines pt loc big pages) : pt.nextPpn ≠ BitVec.allOnes 64 := by
  intro heq
  have hle := h.nextPpn_le
  rw [heq] at hle
  revert hle
  decide

theorem nextPpn_succ (h : Refines pt loc big pages) :
    (pt.nextPpn + 1).toNat = pt.nextPpn.toNat + 1 := by
  have hle := h.nextPpn_le
  have hone : (1 : BitVec 64).toNat = 1 := rfl
  rw [BitVec.toNat_add, hone]
  omega

/-- A placed page number fits its field, so a pointer to it reads back. -/
theorem pointer_ppn (h : Refines pt loc big pages) {a : Place} {ppn : BitVec 64}
    (ha : loc a = some ppn) : pointerPte ppn >>> ppnShift = ppn := by
  have hlt := h.ppn_lt a ppn ha
  have hle := h.nextPpn_le
  exact pointerPte_ppn ppn (by omega)

theorem ne_nextPpn (h : Refines pt loc big pages) {a : Place} {ppn : BitVec 64}
    (ha : loc a = some ppn) : ppn ≠ pt.nextPpn := by
  intro heq
  subst heq
  exact Nat.lt_irrefl _ (h.ppn_lt a _ ha)

theorem big_mid (h : Refines pt loc big pages) (vpn2 : Fin ptEntries) :
    big (.mid vpn2) = none := by
  cases hbig : big (.mid vpn2) with
  | none => rfl
  | some pte =>
    obtain ⟨v, u, hplace, -⟩ := h.big_last _ pte hbig
    cases hplace

/-- A node that is not placed has no level-1 leaf below it either. -/
theorem big_eq_none (h : Refines pt loc big pages) {a c : Place} {vpn : Fin ptEntries}
    (hc : a.child vpn = some c) (ha : loc a = none) : big c = none := by
  cases hbig : big c with
  | none => rfl
  | some pte =>
    obtain ⟨vpn2, vpn1, rfl, hmid, -, -⟩ := h.big_last c pte hbig
    cases a with
    | root => simp [Place.child] at hc
    | mid v =>
      simp only [Place.child, Option.some.injEq, Place.last.injEq] at hc
      obtain ⟨rfl, -⟩ := hc
      simp [ha] at hmid
    | last v u => simp [Place.child] at hc

theorem ppn_ne (h : Refines pt loc big pages) {a b : Place} {q r : BitVec 64}
    (ha : loc a = some q) (hb : loc b = some r) (hne : b ≠ a) : r ≠ q := by
  rintro rfl
  exact hne (h.inj b a r hb ha)

/-- Writing an entry of a placed node adds no node without a place. -/
theorem placed_of_set (h : Refines pt loc big pages) {pt' : Sv39PageTable} {a : Place}
    {ppn pte : BitVec 64} {vpn : Fin ptEntries} (ha : loc a = some ppn)
    (hget : ∀ q u, pt'.getEntry q u =
      if q = ppn ∧ u = vpn then some pte else pt.getEntry q u) (q : BitVec 64) (u : Fin ptEntries)
    (hq : (pt'.getEntry q u).isSome) : ∃ b, loc b = some q := by
  rw [hget] at hq
  split_ifs at hq with hwritten
  · exact ⟨a, by rw [ha, hwritten.1]⟩
  · exact h.placed q u hq

end Refines

/-- One new node: the entries after allocating the node of `c` and linking it
from entry `vpn` of its parent. -/
structure Grown (pt pt' : Sv39PageTable) (ppn : BitVec 64) (vpn : Fin ptEntries) : Prop where
  root_ppn : pt'.rootPpn = pt.rootPpn
  next_ppn : pt'.nextPpn = pt.nextPpn + 1
  entry : ∀ q u, pt'.getEntry q u =
    if q = ppn ∧ u = vpn then some (pointerPte pt.nextPpn)
    else if q = pt.nextPpn then some 0 else pt.getEntry q u

section Grow

variable {pt pt' : Sv39PageTable} {loc big : Placement} {pages : PageMap}
variable {a b c : Place} {ppn q : BitVec 64} {vpn u : Fin ptEntries}

/-- The placement after a fresh node was put at `c`. -/
def place (pt : Sv39PageTable) (loc : Placement) (c : Place) : Placement :=
  Function.update loc c (some pt.nextPpn)

theorem place_self : place pt loc c c = some pt.nextPpn := Function.update_self _ _ _

theorem place_of_ne (hb : b ≠ c) : place pt loc c b = loc b := Function.update_of_ne hb _ _

theorem place_cases (hb : place pt loc c b = some q) :
    (b = c ∧ q = pt.nextPpn) ∨ (b ≠ c ∧ loc b = some q) := by
  by_cases hbc : b = c
  · subst b
    rw [place_self, Option.some.injEq] at hb
    exact Or.inl ⟨rfl, hb.symm⟩
  · exact Or.inr ⟨hbc, by rwa [place_of_ne hbc] at hb⟩

theorem place_eq_none (hb : place pt loc c b = none) : b ≠ c ∧ loc b = none := by
  have hbc : b ≠ c := by
    intro heq
    subst heq
    simp [place_self] at hb
  exact ⟨hbc, by rwa [place_of_ne hbc] at hb⟩

theorem place_isSome (hb : (loc b).isSome) : (place pt loc c b).isSome := by
  by_cases hbc : b = c
  · subst b
    rw [place_self]
    rfl
  · rwa [place_of_ne hbc]

theorem child_ne (hchild : a.child vpn = some c) {d : Place} (hd : b.child u = some d)
    (hne : ¬ (b = a ∧ u = vpn)) : d ≠ c := by
  intro heq
  subst heq
  exact hne (Place.child_injective hd hchild)

namespace Grown

theorem entry_link (hg : Grown pt pt' ppn vpn) :
    pt'.getEntry ppn vpn = some (pointerPte pt.nextPpn) := by
  rw [hg.entry, if_pos ⟨rfl, rfl⟩]

theorem entry_fresh (hg : Grown pt pt' ppn vpn) (h : Refines pt loc big pages)
    (ha : loc a = some ppn) (u : Fin ptEntries) : pt'.getEntry pt.nextPpn u = some 0 := by
  rw [hg.entry, if_neg, if_pos rfl]
  intro hsame
  obtain ⟨hq, -⟩ := hsame
  exact h.ne_nextPpn ha hq.symm

theorem entry_old (hg : Grown pt pt' ppn vpn) (h : Refines pt loc big pages)
    (ha : loc a = some ppn) (hb : loc b = some q) (hne : ¬ (b = a ∧ u = vpn)) :
    pt'.getEntry q u = pt.getEntry q u := by
  rw [hg.entry, if_neg, if_neg (h.ne_nextPpn hb)]
  intro hsame
  obtain ⟨rfl, hu⟩ := hsame
  exact hne ⟨h.inj b a q hb ha, hu⟩

theorem inj (h : Refines pt loc big pages) (b d : Place) (q : BitVec 64)
    (hb : place pt loc c b = some q) (hd : place pt loc c d = some q) : b = d := by
  rcases place_cases hb with ⟨hbc, hq⟩ | ⟨-, hbold⟩
  · rcases place_cases hd with ⟨hdc, -⟩ | ⟨-, hdold⟩
    · rw [hbc, hdc]
    · exact absurd hq (h.ne_nextPpn hdold)
  · rcases place_cases hd with ⟨-, hq⟩ | ⟨-, hdold⟩
    · exact absurd hq (h.ne_nextPpn hbold)
    · exact h.inj b d q hbold hdold

theorem ppn_lt (hg : Grown pt pt' ppn vpn) (h : Refines pt loc big pages) (b : Place)
    (q : BitVec 64) (hb : place pt loc c b = some q) : q.toNat < pt'.nextPpn.toNat := by
  rw [hg.next_ppn, h.nextPpn_succ]
  rcases place_cases hb with ⟨-, rfl⟩ | ⟨-, hb⟩
  · exact Nat.lt_succ_self _
  · exact Nat.lt_succ_of_lt (h.ppn_lt b q hb)

theorem placed (hg : Grown pt pt' ppn vpn) (h : Refines pt loc big pages)
    (ha : loc a = some ppn) (hc : loc c = none) (q : BitVec 64) (u : Fin ptEntries)
    (hq : (pt'.getEntry q u).isSome) : ∃ b, place pt loc c b = some q := by
  have hold : ∀ b, loc b = some q → ∃ b, place pt loc c b = some q := by
    intro b hb
    have hbc : b ≠ c := by
      intro heq
      subst heq
      rw [hc] at hb
      cases hb
    exact ⟨b, by rw [place_of_ne hbc, hb]⟩
  rw [hg.entry] at hq
  split_ifs at hq with hlink hnext
  · exact hold a (by rw [ha, hlink.1])
  · exact ⟨c, by rw [place_self, hnext]⟩
  · obtain ⟨b, hb⟩ := h.placed q u hq
    exact hold b hb

theorem parent (h : Refines pt loc big pages) (ha : loc a = some ppn)
    (hchild : a.child vpn = some c) (b : Place) (u : Fin ptEntries) (d : Place)
    (hd : b.child u = some d) (hb : place pt loc c b = none) : place pt loc c d = none := by
  obtain ⟨-, hb⟩ := place_eq_none hb
  have hne : ¬ (b = a ∧ u = vpn) := by
    intro hsame
    obtain ⟨rfl, -⟩ := hsame
    rw [ha] at hb
    cases hb
  rw [place_of_ne (child_ne hchild hd hne)]
  exact h.parent b u d hd hb

theorem link (hg : Grown pt pt' ppn vpn) (h : Refines pt loc big pages)
    (ha : loc a = some ppn) (hchild : a.child vpn = some c) (hbig : big c = none)
    (hc : loc c = none) (b : Place) (q : BitVec 64) (u : Fin ptEntries) (d : Place)
    (hb : place pt loc c b = some q) (hd : b.child u = some d) :
    pt'.getEntry q u = some (linkEntry (big d) (place pt loc c d)) := by
  by_cases hlink : b = a ∧ u = vpn
  · obtain ⟨rfl, rfl⟩ := hlink
    rw [hd, Option.some.injEq] at hchild
    subst d
    have hqp : q = ppn := by
      rcases place_cases hb with ⟨rfl, -⟩ | ⟨-, hb⟩
      · rw [ha] at hc
        cases hc
      · rw [ha, Option.some.injEq] at hb
        exact hb.symm
    rw [hqp, hg.entry_link, place_self, hbig]
    rfl
  · rw [place_of_ne (child_ne hchild hd hlink)]
    rcases place_cases hb with ⟨rfl, rfl⟩ | ⟨-, hb⟩
    · -- the fresh node is empty, and nothing below it is placed yet
      rw [hg.entry_fresh h ha, h.parent b u d hd hc, h.big_eq_none hd hc]
      rfl
    · rw [hg.entry_old h ha hb hlink]
      exact h.link b q u d hb hd

theorem leaf (hg : Grown pt pt' ppn vpn) (h : Refines pt loc big pages)
    (ha : loc a = some ppn) (hchild : a.child vpn = some c) (hc : loc c = none)
    (va q : BitVec 64) (hq : place pt loc c (lastPlace va) = some q) :
    pt'.getEntry q (extractVpn va 0) = some (leafEntry (pages (pageNumber va))) := by
  rcases place_cases hq with ⟨hvc, rfl⟩ | ⟨-, hq⟩
  · rw [hg.entry_fresh h ha, h.unmapped va (hvc ▸ hc)]
    rfl
  · rw [hg.entry_old h ha hq]
    · exact h.leaf va q hq
    · intro hsame
      obtain ⟨hlast, -⟩ := hsame
      rw [← hlast] at hchild
      simp [lastPlace, Place.child] at hchild

/-- Linking a fresh node keeps the invariant, with the node placed at `c`. -/
theorem refines (hg : Grown pt pt' ppn vpn) (h : Refines pt loc big pages)
    (ha : loc a = some ppn) (hchild : a.child vpn = some c) (hbig : big c = none)
    (hc : loc c = none) : Refines pt' (place pt loc c) big pages where
  root_ppn := by rw [hg.root_ppn, h.root_ppn]
  root_loc := by
    have hroot : Place.root ≠ c := by
      intro heq
      subst heq
      rw [h.root_loc] at hc
      cases hc
    rw [place_of_ne hroot, hg.root_ppn, h.root_loc]
  inj := inj h
  parent := parent h ha hchild
  ppn_lt := hg.ppn_lt h
  count := by
    rw [hg.next_ppn, h.nextPpn_succ, h.count, place, card_used_update loc c _ hc, Nat.add_assoc]
  placed := hg.placed h ha hc
  link := hg.link h ha hchild hbig hc
  leaf := hg.leaf h ha hchild hc
  unmapped va hva := h.unmapped va (place_eq_none hva).2
  flags_lt := h.flags_lt
  big_last d pte hd := by
    obtain ⟨vpn2, vpn1, hplace, hmid, hvalid, hleaf⟩ := h.big_last d pte hd
    exact ⟨vpn2, vpn1, hplace, place_isSome hmid, hvalid, hleaf⟩

end Grown

/-- Allocating a node and linking it from a present entry always succeeds. -/
theorem exists_grown (h : Refines pt loc big pages) (ha : loc a = some ppn)
    (hentry : (pt.getEntry ppn vpn).isSome) :
    ∃ pt₁ pt', pt.allocNode = some (pt.nextPpn, pt₁) ∧
      pt₁.setEntry ppn vpn (pointerPte pt.nextPpn) = some pt' ∧ Grown pt pt' ppn vpn := by
  obtain ⟨pt₁, halloc, hroot₁, hnext₁, hget₁⟩ := allocNode_spec h.nextPpn_ne
  have hsome : (pt₁.getEntry ppn vpn).isSome := by
    rwa [hget₁, if_neg (h.ne_nextPpn ha)]
  obtain ⟨pt', hset, hroot', hnext', hget'⟩ := setEntry_spec hsome (pointerPte pt.nextPpn)
  refine ⟨pt₁, pt', halloc, hset, ?_, ?_, ?_⟩
  · rw [hroot', hroot₁]
  · rw [hnext', hnext₁]
  · intro q u
    rw [hget', hget₁]

theorem place_isSome_iff (b : Place) :
    (place pt loc c b).isSome ↔ (loc b).isSome ∨ b = c := by
  by_cases hbc : b = c
  · subst b
    simp [place_self]
  · simp [place_of_ne hbc, hbc]

/-- An iteration of the descent ends at the node below, placed if it was not. -/
theorem descendLevel_refines (h : Refines pt loc big pages) (va : BitVec 64) (level : ℕ)
    (ha : loc a = some ppn) (hchild : a.child (extractVpn va level) = some c)
    (hbig : big c = none) :
    ∃ pt' loc' q, Sv39PageTable.descendLevel va (pt, ppn) level = some (pt', q) ∧
      Refines pt' loc' big pages ∧ loc' c = some q ∧ pt'.rootPpn = pt.rootPpn ∧
      ∀ b, (loc' b).isSome ↔ (loc b).isSome ∨ b = c := by
  have hentry := h.link a ppn _ c ha hchild
  rw [hbig] at hentry
  cases hc : loc c with
  | none =>
    rw [hc] at hentry
    obtain ⟨pt₁, pt', halloc, hset, hg⟩ := exists_grown h ha (by rw [hentry]; rfl)
    refine ⟨pt', place pt loc c, pt.nextPpn, ?_, hg.refines h ha hchild hbig hc, place_self,
      hg.root_ppn, place_isSome_iff⟩
    have hzero : (0 : BitVec 64) &&& pteV = 0 := BitVec.zero_and
    simp only [Sv39PageTable.descendLevel, hentry, linkEntry, halloc, Option.bind_eq_bind,
      Option.bind_some, if_pos hzero]
    rw [← pointerPte, hset]
    rfl
  | some q =>
    rw [hc] at hentry
    refine ⟨pt, loc, q, ?_, h, hc, rfl, ?_⟩
    · simp only [Sv39PageTable.descendLevel, hentry, linkEntry, Option.bind_eq_bind,
        Option.bind_some, if_neg (pointerPte_valid q), h.pointer_ppn hc]
    · intro b
      refine ⟨Or.inl, ?_⟩
      rintro (hb | rfl)
      · exact hb
      · rw [hc]
        rfl

end Grow

end OsCamp.PageTableLayout
