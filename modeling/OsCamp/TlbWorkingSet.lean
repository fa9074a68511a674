import OsCamp.FifoPaging
import OsCamp.TlbThrashing

/-!
Translations across address spaces, from any state of the MMU. While no more pages
are visited than the TLB has slots, each of them misses once at most; and no other
replacement, even with the whole list of visits at hand, misses less than about the
capacity-th part of what the TLB misses.
-/

set_option autoImplicit false

namespace OsCamp.TlbWorkingSet

open Execution FifoCache FifoPaging TlbFifo TlbMap TlbSim TlbThrashing
open MmuCoherence (walk_key)

/-- What a program does to the MMU between changes of the page table. -/
inductive Visit
  | switchAsid (newAsid : BitVec 16)
  | translate (vpn : BitVec 64)
  deriving DecidableEq

def Visit.call : Visit → Mmu.Call
  | .switchAsid newAsid => .switchAsid newAsid
  | .translate vpn => .translate vpn

/-- The pages that are translated, each with the address space at that time. -/
def keysOf (asid : BitVec 16) : List Visit → List Key
  | [] => []
  | .switchAsid newAsid :: rest => keysOf newAsid rest
  | .translate vpn :: rest => (vpn, asid) :: keysOf asid rest

/-- The pages that are not in the TLB when they are translated, in order. -/
def missedKeys (m : Mmu) : List Visit → List Key
  | [] => []
  | visit :: rest =>
    let missed := match visit with
      | .switchAsid _ => []
      | .translate vpn =>
        if (m.tlb.lookup vpn m.currentAsid).1.isNone then [(vpn, m.currentAsid)] else []
    match m.step visit.call with
    | some m' => missed ++ missedKeys m' rest
    | none => missed

/-- The page table has the page. -/
def InTable (pageTable : List (BitVec 16 × PageMapping)) (key : Key) : Prop :=
  (walk pageTable key.2 key.1).isSome = true

variable {capacity : ℕ} {m m' : Mmu} {s : Cache Key} {visits : List Visit}

theorem mapped_of_inTable {vpn : BitVec 64} (h : InTable m.pageTable (vpn, m.currentAsid)) :
    Mapped m vpn := by
  obtain ⟨entry, hwalk⟩ := Option.isSome_iff_exists.mp h
  obtain ⟨hasid, hvpn⟩ : entry.1 = m.currentAsid ∧ entry.2.vpn = vpn := walk_key hwalk
  have hmem : entry ∈ m.pageTable := List.mem_of_find?_eq_some hwalk
  refine ⟨entry.2, ?_, hvpn⟩
  rw [← hasid]
  exact hmem

theorem translate_tlbInv (h : TlbInv capacity m.tlb) {vpn : BitVec 64}
    {out : Option (BitVec 64) × Mmu} (hout : m.translate vpn = some out) :
    TlbInv capacity out.2.tlb := by
  have hlookup := h.lookup vpn m.currentAsid
  unfold Mmu.translate at hout
  rcases hfound : m.tlb.lookup vpn m.currentAsid with ⟨answer, tlb⟩
  rw [hfound] at hlookup hout
  cases answer with
  | some ppn =>
    cases hout
    exact hlookup
  | none =>
    simp only at hout
    cases hwalk : walk m.pageTable m.currentAsid vpn with
    | none =>
      rw [hwalk] at hout
      cases hout
      exact hlookup
    | some entry =>
      rw [hwalk] at hout
      obtain ⟨tlb', hinsert, hpair⟩ := Option.map_eq_some_iff.mp hout
      cases hpair
      obtain ⟨tlb'', hinsert', hinv, -⟩ :=
        TlbInv.insert hlookup entry.2.vpn entry.2.ppn m.currentAsid entry.2.flags
      exact Option.some.inj (hinsert'.symm.trans hinsert) ▸ hinv

theorem step_tlbInv (h : TlbInv capacity m.tlb) {call : Mmu.Call} (hs : m.step call = some m') :
    TlbInv capacity m'.tlb := by
  cases call with
  | addMapping asid vpn ppn flags =>
    cases hs
    exact h
  | switchAsid newAsid =>
    cases hs
    exact h
  | translate vpn =>
    obtain ⟨out, hout, hpair⟩ := Option.map_eq_some_iff.mp hs
    cases hpair
    exact translate_tlbInv h hout
  | tlb call =>
    obtain ⟨tlb, htlb, hpair⟩ := Option.map_eq_some_iff.mp hs
    cases hpair
    exact h.step htlb

theorem reachable_tlbInv (hpos : 1 ≤ capacity) (h : Reachable Mmu.step (Mmu.new capacity) m) :
    TlbInv capacity m.tlb :=
  h.invariant (I := fun m => TlbInv capacity m.tlb) (TlbInv.new hpos)
    fun _ _ _ hinv _ hs => step_tlbInv hinv hs

/-- The TLB as a cache with its own counters. -/
def cacheOf (t : Tlb) : Cache Key := ⟨cells t, t.stats.hits.toNat, t.stats.misses.toNat⟩

theorem represents_cacheOf {t : Tlb} (h : TlbInv capacity t) :
    Represents capacity t (cacheOf t) where
  inv := h
  cells_eq := rfl
  hits_eq := by
    show t.stats.hits = BitVec.ofNat 64 t.stats.hits.toNat
    rw [BitVec.ofNat_toNat, BitVec.setWidth_eq]
  misses_eq := by
    show t.stats.misses = BitVec.ofNat 64 t.stats.misses.toNat
    rw [BitVec.ofNat_toNat, BitVec.setWidth_eq]

theorem length_cells {t : Tlb} (h : TlbInv capacity t) : (cells t).length = capacity := by
  unfold cells slots
  rw [List.length_rotate, List.length_map, List.length_map, h.length_eq]

/-- A lookup misses where the cache does not hold the page. -/
theorem lookup_isNone (h : Represents capacity m.tlb s) (vpn : BitVec 64) (asid : BitVec 16) :
    (m.tlb.lookup vpn asid).1.isNone = true ↔ some (vpn, asid) ∉ s.cells := by
  rw [← h.cells_eq, mem_cells h.inv]
  rcases h.inv.lookup_cases vpn asid with ⟨e, hheld, hlookup⟩ | ⟨hnone, hlookup⟩
  · simp [hheld, hlookup]
  · simp [hnone, hlookup]

/-- The visits serve the pages they translate, and the same pages miss. -/
theorem visits_serve (h : Represents capacity m.tlb s)
    (htable : ∀ key ∈ keysOf m.currentAsid visits, InTable m.pageTable key) :
    ∃ m', run Mmu.step m (visits.map Visit.call) = some m' ∧
      Represents capacity m'.tlb (serve s (keysOf m.currentAsid visits)) ∧
      missedKeys m visits = missed s (keysOf m.currentAsid visits) := by
  induction visits generalizing m s with
  | nil => exact ⟨m, rfl, h, rfl⟩
  | cons visit rest ih =>
    cases visit with
    | switchAsid newAsid => exact ih (m := m.switchAsid newAsid) h htable
    | translate vpn =>
      have hmapped := mapped_of_inTable (htable _ List.mem_cons_self)
      obtain ⟨tlb, hstep, hnext⟩ := translate_access h hmapped
      obtain ⟨m', hrun, hend, hmissed⟩ := ih (m := { m with tlb := tlb }) hnext
        fun key hkey => htable key (List.mem_cons_of_mem _ hkey)
      refine ⟨m', ?_, hend, ?_⟩
      · rw [List.map_cons, run]
        show (m.step (.translate vpn)).bind _ = some m'
        rw [hstep]
        exact hrun
      · have hnone := lookup_isNone h vpn m.currentAsid
        rw [missedKeys, keysOf, missed_cons, Visit.call, hstep]
        simp only [hmissed]
        by_cases hcell : some (vpn, m.currentAsid) ∈ s.cells
        · rw [if_pos hcell, if_neg fun hmiss => hnone.mp hmiss hcell]
          rfl
        · rw [if_neg hcell, if_pos (hnone.mpr hcell)]
          rfl

/-- What the TLB counts from `t` on to `t'` while the pages `keys` are translated, of which
`missed` miss: every translation hits or misses; a page that is not in the TLB misses, and
where the pages fit, none misses twice; and there are at most `capacity` times the misses of
any other replacement and `capacity` more. -/
structure Counted (capacity : ℕ) (t t' : Tlb) (keys missed : List Key) : Prop where
  sublist : missed.Sublist keys
  misses : t'.stats.misses = t.stats.misses + BitVec.ofNat 64 missed.length
  hits : t'.stats.hits = t.stats.hits + BitVec.ofNat 64 (keys.length - missed.length)
  absent : ∀ key ∈ keys, mapOf t key = none → key ∈ missed
  fit : keys.toFinset.card ≤ capacity → missed.Nodup
  competitive : ∀ (c : Finset Key) (plan : List (Key × Finset Key)),
    plan.map Prod.fst = keys → Valid capacity c plan →
      missed.length ≤ capacity * (faults c plan + 1)

theorem counted_of_represents {t t' : Tlb} {keys : List Key} (hpos : 1 ≤ capacity)
    (h : TlbInv capacity t) (h' : Represents capacity t' (serve (cacheOf t) keys)) :
    Counted capacity t t' keys (missed (cacheOf t) keys) := by
  have hlength : (cacheOf t).cells.length = capacity := length_cells h
  have hcells : 1 ≤ (cacheOf t).cells.length := by omega
  rw [(serve_eq hcells keys).1] at h'
  refine ⟨missed_sublist _ _, ?_, ?_, ?_, ?_, ?_⟩
  · rw [h'.misses_eq, BitVec.ofNat_add]
    show BitVec.ofNat 64 t.stats.misses.toNat + _ = _
    rw [BitVec.ofNat_toNat, BitVec.setWidth_eq]
  · rw [h'.hits_eq, BitVec.ofNat_add]
    show BitVec.ofNat 64 t.stats.hits.toNat + _ = _
    rw [BitVec.ofNat_toNat, BitVec.setWidth_eq]
  · intro key hkey habsent
    exact mem_missed_of_absent hkey fun hcell => (mem_cells h).mp hcell habsent
  · intro hfit
    exact missed_nodup hcells (Nat.le_trans hfit (Nat.le_of_eq hlength.symm))
  · intro c plan hplan hvalid
    rw [← hplan]
    exact missed_le_faults hlength hpos hvalid

/-- From any state of the MMU, over any list of visits to pages of the page table. -/
theorem visits_counted (hpos : 1 ≤ capacity) (hm : Reachable Mmu.step (Mmu.new capacity) m)
    (htable : ∀ key ∈ keysOf m.currentAsid visits, InTable m.pageTable key) :
    ∃ m', run Mmu.step m (visits.map Visit.call) = some m' ∧
      Counted capacity m.tlb m'.tlb (keysOf m.currentAsid visits) (missedKeys m visits) := by
  have hinv := reachable_tlbInv hpos hm
  obtain ⟨m', hrun, hend, hmissed⟩ := visits_serve (represents_cacheOf hinv) htable
  refine ⟨m', hrun, ?_⟩
  rw [hmissed]
  exact counted_of_represents hpos hinv hend

/-- Two address spaces with a page each, in a TLB of two slots: the second visits hit. -/
theorem visits_counted_two_spaces : ∃ m m',
    Reachable Mmu.step (Mmu.new 2) m ∧
      run Mmu.step m [.translate 7, .switchAsid 1, .translate 7, .switchAsid 0, .translate 7] =
        some m' ∧
      m'.tlb.stats = ⟨1, 2⟩ ∧
      Counted 2 m.tlb m'.tlb [(7, 0), (7, 1), (7, 0)] [(7, 0), (7, 1)] := by
  have hm : Reachable Mmu.step (Mmu.new 2)
      (((Mmu.new 2).addMapping 0 7 3 1).addMapping 1 7 4 1) :=
    .step (.addMapping 1 7 4 1) (.step (.addMapping 0 7 3 1) .init trivial rfl) trivial rfl
  have htable : ∀ key ∈ keysOf 0 [.translate 7, .switchAsid 1, .translate 7, .switchAsid 0,
      .translate 7], InTable [(0, ⟨7, 3, 1⟩), (1, ⟨7, 4, 1⟩)] key := by
    intro key hkey
    have hmem : key ∈ [((7, 0) : Key), (7, 1), (7, 0)] := hkey
    rw [List.mem_cons, List.mem_cons, List.mem_singleton] at hmem
    rcases hmem with rfl | rfl | rfl <;> rfl
  obtain ⟨m', hrun, hcounted⟩ := visits_counted (by decide) hm htable
  have hmissed : missedKeys (((Mmu.new 2).addMapping 0 7 3 1).addMapping 1 7 4 1)
      [.translate 7, .switchAsid 1, .translate 7, .switchAsid 0, .translate 7] =
      [(7, 0), (7, 1)] := by
    decide +kernel
  rw [hmissed] at hcounted
  refine ⟨_, m', hm, hrun, ?_, hcounted⟩
  have hstats : (run Mmu.step (((Mmu.new 2).addMapping 0 7 3 1).addMapping 1 7 4 1)
      [.translate 7, .switchAsid 1, .translate 7, .switchAsid 0, .translate 7]).map
        (·.tlb.stats) = some ⟨1, 2⟩ := by
    decide +kernel
  obtain ⟨m₂, hrun₂, hstats₂⟩ := Option.map_eq_some_iff.mp hstats
  cases hrun.symm.trans hrun₂
  exact hstats₂

end OsCamp.TlbWorkingSet
