import Mathlib.Tactic.Ring
import OsCamp.MmuCoherence
import OsCamp.TlbFifo

/-!
The hit and miss counters of the MMU for pages that are all mapped. While no call
but `translate` is made, the TLB is a cache with first-in-first-out replacement:
a page that it holds hits, and one that it does not hold misses and is refilled
from the page table. So the counters of rounds through a list of pages are those
of the cache.
-/

set_option autoImplicit false

namespace OsCamp.TlbThrashing

open Execution FifoCache MmuCoherence TlbFifo TlbMap TlbSim

variable {capacity r : ℕ} {t : Tlb} {m m' : Mmu} {s : Cache Key} {vpn : BitVec 64}
  {asid : BitVec 16} {l w : List (BitVec 64)}

/-- The TLB is in the state of the cache, and its counters are those of the cache. -/
structure Represents (capacity : ℕ) (t : Tlb) (s : Cache Key) : Prop where
  inv : TlbInv capacity t
  cells_eq : cells t = s.cells
  hits_eq : t.stats.hits = BitVec.ofNat 64 s.hits
  misses_eq : t.stats.misses = BitVec.ofNat 64 s.misses

/-- A page is mapped in the current address space. -/
def Mapped (m : Mmu) (vpn : BitVec 64) : Prop :=
  ∃ mapping, (m.currentAsid, mapping) ∈ m.pageTable ∧ mapping.vpn = vpn

theorem represents_new (hpos : 1 ≤ capacity) :
    Represents capacity (Tlb.new capacity) (empty capacity) where
  inv := TlbInv.new hpos
  cells_eq := cells_new
  hits_eq := rfl
  misses_eq := rfl

theorem walk_of_mapped (h : Mapped m vpn) :
    ∃ mapping, walk m.pageTable m.currentAsid vpn = some (m.currentAsid, mapping) ∧
      mapping.vpn = vpn := by
  obtain ⟨mapping, hmem, hvpn⟩ := h
  have hsome : (walk m.pageTable m.currentAsid vpn).isSome := by
    apply List.find?_isSome.mpr
    refine ⟨_, hmem, ?_⟩
    simp [hvpn]
  obtain ⟨⟨asid, found⟩, hfound⟩ := Option.isSome_iff_exists.mp hsome
  obtain ⟨hasid, hfoundVpn⟩ : asid = m.currentAsid ∧ found.vpn = vpn := walk_key hfound
  rw [hasid] at hfound
  exact ⟨found, hfound, hfoundVpn⟩

/-- The refill after a miss. -/
theorem insert_absent_spec (h : TlbInv capacity t) (hnone : mapOf t (vpn, asid) = none)
    (ppn flags : BitVec 64) :
    ∃ t', t.insert vpn ppn asid flags = some t' ∧ TlbInv capacity t' ∧
      cells t' = (cells t).tail ++ [some (vpn, asid)] ∧ t'.stats = t.stats := by
  have hinsert := insert_absent h hnone ppn flags
  obtain ⟨t', hsome, hinv, -⟩ := h.insert vpn ppn asid flags
  have hstate := Option.some.inj (hsome.symm.trans hinsert)
  refine ⟨t', hsome, hinv, ?_, ?_⟩
  · rw [hstate]
    exact cells_write h
  · rw [hstate]

/-- Translating a mapped page is one access of the cache. -/
theorem translate_access (h : Represents capacity m.tlb s) (hmapped : Mapped m vpn) :
    ∃ tlb, m.step (.translate vpn) = some { m with tlb := tlb } ∧
      Represents capacity tlb (access s (vpn, m.currentAsid)) := by
  have hcell : some (vpn, m.currentAsid) ∈ s.cells ↔ mapOf m.tlb (vpn, m.currentAsid) ≠ none := by
    rw [← h.cells_eq]
    exact mem_cells h.inv
  rcases h.inv.lookup_cases vpn m.currentAsid with ⟨e, hheld, hlookup⟩ | ⟨hnone, hlookup⟩
  · have hresident : some (vpn, m.currentAsid) ∈ s.cells := hcell.mpr (by simp [hheld])
    refine ⟨m.tlb.countHit, ?_, ?_⟩
    · simp only [Mmu.step, Mmu.translate, hlookup, Option.map_some]
    · rw [access, if_pos hresident]
      refine ⟨h.inv.stats _, h.cells_eq, ?_, h.misses_eq⟩
      show m.tlb.stats.hits + 1 = _
      rw [h.hits_eq, BitVec.ofNat_add]
      rfl
  · obtain ⟨mapping, hwalk, hvpn⟩ := walk_of_mapped hmapped
    have hcount : TlbInv capacity m.tlb.countMiss := h.inv.stats _
    obtain ⟨tlb, hinsert, hinv, hcells, hstats⟩ :=
      insert_absent_spec hcount hnone mapping.ppn mapping.flags
    have habsent : some (vpn, m.currentAsid) ∉ s.cells := fun hmem => hcell.mp hmem hnone
    refine ⟨tlb, ?_, ?_⟩
    · simp only [Mmu.step, Mmu.translate, hlookup, hwalk, hvpn, hinsert, Option.map_some]
    · rw [access, if_neg habsent]
      refine ⟨hinv, ?_, ?_, ?_⟩
      · rw [hcells, ← h.cells_eq]
        rfl
      · rw [hstats]
        exact h.hits_eq
      · rw [hstats]
        show m.tlb.stats.misses + 1 = _
        rw [h.misses_eq, BitVec.ofNat_add]
        rfl

/-- Translating mapped pages serves the list of their keys. -/
theorem translate_serve (h : Represents capacity m.tlb s) (hmapped : ∀ vpn ∈ w, Mapped m vpn) :
    ∃ tlb, run Mmu.step m (w.map .translate) = some { m with tlb := tlb } ∧
      Represents capacity tlb (serve s (w.map fun vpn => (vpn, m.currentAsid))) := by
  induction w generalizing m s with
  | nil => exact ⟨m.tlb, rfl, h⟩
  | cons vpn rest ih =>
    obtain ⟨tlb, hstep, hnext⟩ := translate_access h (hmapped vpn List.mem_cons_self)
    have hrest : ∀ vpn' ∈ rest, Mapped { m with tlb := tlb } vpn' :=
      fun vpn' hmem => hmapped vpn' (List.mem_cons_of_mem vpn hmem)
    obtain ⟨tlb', hrun, hend⟩ := ih (m := { m with tlb := tlb }) hnext hrest
    refine ⟨tlb', ?_, hend⟩
    rw [List.map_cons, run, hstep]
    exact hrun

/-- Rounds through distinct mapped pages, from a fresh TLB: with more pages than slots
every access misses, and otherwise only the first round misses. -/
theorem translate_rounds (hpos : 1 ≤ capacity) (hfresh : m.tlb = (Mmu.new capacity).tlb)
    (hnodup : l.Nodup) (hmapped : ∀ vpn ∈ l, Mapped m vpn) (hcount : r * l.length < 2 ^ 64) :
    ∃ m', run Mmu.step m ((List.replicate r l).flatten.map .translate) = some m' ∧
      (capacity < l.length →
        m'.tlb.stats.hits.toNat = 0 ∧ m'.tlb.stats.misses.toNat = r * l.length) ∧
      (1 ≤ r → l.length ≤ capacity →
        m'.tlb.stats.misses.toNat = l.length ∧
          m'.tlb.stats.hits.toNat = (r - 1) * l.length) := by
  have hstart : Represents capacity m.tlb (empty capacity) := by
    rw [hfresh]
    exact represents_new hpos
  have hall : ∀ vpn ∈ (List.replicate r l).flatten, Mapped m vpn := by
    intro vpn hmem
    obtain ⟨round, hround, hvpn⟩ := List.mem_flatten.mp hmem
    rw [(List.mem_replicate.mp hround).2] at hvpn
    exact hmapped vpn hvpn
  obtain ⟨tlb, hrun, hend⟩ := translate_serve hstart hall
  let key : BitVec 64 → Key := fun vpn => (vpn, m.currentAsid)
  have hkeys : (List.replicate r l).flatten.map key = (List.replicate r (l.map key)).flatten := by
    rw [List.map_flatten, List.map_replicate]
  have hnodupKeys : (l.map key).Nodup := by
    apply hnodup.map
    intro vpn vpn' heq
    exact congrArg Prod.fst heq
  have hlen : (l.map key).length = l.length := List.length_map key
  change Represents capacity tlb (serve _ ((List.replicate r l).flatten.map key)) at hend
  rw [hkeys] at hend
  refine ⟨{ m with tlb := tlb }, hrun, ?_, ?_⟩
  · intro hlt
    rw [serve_rounds_of_lt hpos hnodupKeys (hlen ▸ hlt), hlen] at hend
    refine ⟨?_, ?_⟩
    · rw [hend.hits_eq]
      rfl
    · rw [hend.misses_eq, BitVec.toNat_ofNat]
      exact Nat.mod_eq_of_lt hcount
  · intro hr hle
    obtain ⟨r, rfl⟩ : ∃ r', r = r' + 1 := ⟨r - 1, by omega⟩
    rw [serve_rounds_of_le hpos hnodupKeys (hlen ▸ hle), hlen] at hend
    rw [Nat.succ_mul] at hcount
    have hmisses : l.length < 2 ^ 64 := by omega
    have hhits : r * l.length < 2 ^ 64 := by omega
    refine ⟨?_, ?_⟩
    · rw [hend.misses_eq, BitVec.toNat_ofNat]
      exact Nat.mod_eq_of_lt hmisses
    · rw [hend.hits_eq, BitVec.toNat_ofNat]
      exact Nat.mod_eq_of_lt hhits

def threePages : Mmu :=
  (((Mmu.new 2).addMapping 0 1 16 7).addMapping 0 2 32 7).addMapping 0 3 48 7

theorem translate_rounds_three_pages :
    ∃ m', run Mmu.step threePages ((List.replicate 2 [1, 2, 3]).flatten.map .translate) =
        some m' ∧
      (2 < 3 → m'.tlb.stats.hits.toNat = 0 ∧ m'.tlb.stats.misses.toNat = 6) ∧
      (1 ≤ 2 → 3 ≤ 2 → m'.tlb.stats.misses.toNat = 3 ∧ m'.tlb.stats.hits.toNat = 3) := by
  have hmapped : ∀ vpn ∈ ([1, 2, 3] : List (BitVec 64)), Mapped threePages vpn := by
    intro vpn hmem
    simp only [List.mem_cons, List.not_mem_nil, or_false] at hmem
    rcases hmem with rfl | rfl | rfl
    · exact ⟨⟨1, 16, 7⟩, by decide, rfl⟩
    · exact ⟨⟨2, 32, 7⟩, by decide, rfl⟩
    · exact ⟨⟨3, 48, 7⟩, by decide, rfl⟩
  exact translate_rounds (m := threePages) (by omega) rfl (by decide) hmapped (by decide)

end OsCamp.TlbThrashing
