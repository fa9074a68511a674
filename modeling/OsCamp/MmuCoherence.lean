import OsCamp.TlbMap

/-!
The MMU answers as if it had no TLB. Every mapping that the TLB caches is the one
the walk finds for its key; since the page table only grows at its end, a found
mapping stays the found one. Calls of `tlb.insert` from outside are excluded:
they may cache anything.
-/

set_option autoImplicit false

namespace OsCamp.MmuCoherence

open Execution SlotTable TlbSim TlbMap

def directInsert : Mmu.Call → Bool
  | .tlb (.insert _ _ _ _) => true
  | _ => false

/-- Every cached mapping is the one the walk finds. -/
structure Coherent (capacity : ℕ) (m : Mmu) : Prop where
  tlb : TlbInv capacity m.tlb
  agree : ∀ vpn asid ppn flags, mapOf m.tlb (vpn, asid) = some (ppn, flags) →
    walk m.pageTable asid vpn = some (asid, ⟨vpn, ppn, flags⟩)

/-- The answer of the walk alone. -/
def walkPpn (pageTable : List (BitVec 16 × PageMapping)) (asid : BitVec 16) (vpn : BitVec 64) :
    Option (BitVec 64) :=
  (walk pageTable asid vpn).map fun p => p.2.ppn

variable {capacity : ℕ} {m m' : Mmu} {tlb : Tlb} {asid : BitVec 16} {vpn ppn flags : BitVec 64}
  {pageTable : List (BitVec 16 × PageMapping)}

theorem walk_key {p : BitVec 16 × PageMapping} (h : walk pageTable asid vpn = some p) :
    p.1 = asid ∧ p.2.vpn = vpn := by
  simpa using List.find?_some h

/-- A mapping added at the end is found only where none was found before. -/
theorem walk_append (p : BitVec 16 × PageMapping) :
    walk (pageTable ++ [p]) asid vpn =
      (walk pageTable asid vpn).or (if p.1 = asid ∧ p.2.vpn = vpn then some p else none) := by
  unfold walk
  rw [List.find?_append]
  congr 1
  by_cases hkey : p.1 = asid ∧ p.2.vpn = vpn
  · simp [hkey]
  · simp only [List.find?_cons, List.find?_nil, if_neg hkey]
    have hno : (p.1 == asid && p.2.vpn == vpn) = false := by
      simpa using hkey
    rw [hno]

namespace Coherent

theorem new (hpos : 1 ≤ capacity) : Coherent capacity (Mmu.new capacity) where
  tlb := TlbInv.new hpos
  agree vpn asid ppn flags h := by
    have hmem := (TlbInv.new hpos).represents.mp h
    simp [Tlb.new, TlbEntry.empty] at hmem

/-- The TLB may forget mappings. -/
theorem forget (h : Coherent capacity m) (htlb : TlbInv capacity tlb)
    (hmap : ∀ key, mapOf tlb key = mapOf m.tlb key ∨ mapOf tlb key = none) :
    Coherent capacity { m with tlb := tlb } where
  tlb := htlb
  agree vpn asid ppn flags hcached := by
    rcases hmap (vpn, asid) with hsame | hnone
    · exact h.agree vpn asid ppn flags (hsame ▸ hcached)
    · rw [hnone] at hcached
      cases hcached

theorem lookup (h : Coherent capacity m) (vpn : BitVec 64) (asid : BitVec 16) :
    Coherent capacity { m with tlb := (m.tlb.lookup vpn asid).2 } := by
  obtain ⟨stats, hstats⟩ := TlbInv.lookup_snd (t := m.tlb) vpn asid
  rw [hstats]
  exact h.forget (h.tlb.stats stats) fun _ => Or.inl rfl

theorem addMapping (h : Coherent capacity m) (asid : BitVec 16) (vpn ppn flags : BitVec 64) :
    Coherent capacity (m.addMapping asid vpn ppn flags) where
  tlb := h.tlb
  agree vpn' asid' ppn' flags' hcached := by
    have hfound := h.agree vpn' asid' ppn' flags' hcached
    change walk (m.pageTable ++ [(asid, ⟨vpn, ppn, flags⟩)]) asid' vpn' = _
    rw [walk_append, hfound]
    rfl

/-- A refill caches what the walk found. -/
theorem refill (h : Coherent capacity m)
    (hwalk : walk m.pageTable asid vpn = some (asid, ⟨vpn, ppn, flags⟩)) :
    ∃ tlb, m.tlb.insert vpn ppn asid flags = some tlb ∧
      Coherent capacity { m with tlb := tlb } := by
  obtain ⟨tlb, hinsert, htlb, hmap⟩ := h.tlb.insert vpn ppn asid flags
  refine ⟨tlb, hinsert, htlb, ?_⟩
  intro vpn' asid' ppn' flags' hcached
  by_cases hkey : (vpn', asid') = (vpn, asid)
  · have hself := hmap.self
    simp only [hkey] at hcached
    rw [hself] at hcached
    simp only [Option.some.injEq, Prod.mk.injEq] at hkey hcached
    rw [hkey.1, hkey.2, ← hcached.1, ← hcached.2]
    exact hwalk
  · rcases hmap.dropped (vpn', asid') hkey with hsame | hnone
    · exact h.agree vpn' asid' ppn' flags' (hsame ▸ hcached)
    · rw [hnone] at hcached
      cases hcached

/-- A translation gives the answer of the walk and changes the TLB only. -/
theorem translate (h : Coherent capacity m) (vpn : BitVec 64) :
    ∃ tlb, m.translate vpn =
        some (walkPpn m.pageTable m.currentAsid vpn, { m with tlb := tlb }) ∧
      Coherent capacity { m with tlb := tlb } := by
  have hkept := h.lookup vpn m.currentAsid
  unfold Mmu.translate
  rcases h.tlb.lookup_cases vpn m.currentAsid with ⟨e, hmap, hlookup⟩ | ⟨-, hlookup⟩
  · rw [hlookup] at hkept ⊢
    refine ⟨_, ?_, hkept⟩
    rw [walkPpn, h.agree vpn m.currentAsid e.ppn e.flags hmap]
    rfl
  · rw [hlookup] at hkept ⊢
    cases hwalk : walk m.pageTable m.currentAsid vpn with
    | none =>
      refine ⟨_, ?_, hkept⟩
      simp only [walkPpn, hwalk]
      rfl
    | some p =>
      obtain ⟨asid, vpn', ppn, flags⟩ := p
      obtain ⟨hasid, hvpn⟩ := walk_key hwalk
      simp only at hasid hvpn
      subst asid vpn'
      obtain ⟨tlb, hinsert, hcoherent⟩ := hkept.refill hwalk
      refine ⟨tlb, ?_, hcoherent⟩
      simp only at hinsert
      simp only [walkPpn, hwalk, hinsert]
      rfl

/-- Without direct insertions no call panics, and coherence is kept. -/
theorem step (h : Coherent capacity m) {call : Mmu.Call} (hcall : directInsert call = false) :
    ∃ m', m.step call = some m' ∧ Coherent capacity m' := by
  cases call with
  | addMapping asid vpn ppn flags => exact ⟨_, rfl, h.addMapping asid vpn ppn flags⟩
  | switchAsid newAsid => exact ⟨_, rfl, h.tlb, h.agree⟩
  | translate vpn =>
    obtain ⟨tlb, htranslate, hcoherent⟩ := h.translate vpn
    refine ⟨_, ?_, hcoherent⟩
    simp only [Mmu.step, htranslate, Option.map_some]
  | tlb call =>
    cases call with
    | insert vpn ppn asid flags => simp [directInsert] at hcall
    | lookup vpn asid => exact ⟨_, rfl, h.lookup vpn asid⟩
    | flushAll =>
      obtain ⟨htlb, hmap⟩ := h.tlb.flushAll
      exact ⟨_, rfl, h.forget htlb fun key => Or.inr (hmap key)⟩
    | flushByVpn vpn =>
      obtain ⟨htlb, hmap⟩ := h.tlb.flushByVpn vpn
      refine ⟨_, rfl, h.forget htlb ?_⟩
      intro key
      rw [hmap key]
      split_ifs
      · exact Or.inr rfl
      · exact Or.inl rfl
    | flushByAsid asid =>
      obtain ⟨htlb, hmap⟩ := h.tlb.flushByAsid asid
      refine ⟨_, rfl, h.forget htlb ?_⟩
      intro key
      rw [hmap key]
      split_ifs
      · exact Or.inr rfl
      · exact Or.inl rfl

theorem reach (hpos : 1 ≤ capacity)
    (h : Reach Mmu.step (fun _ call => directInsert call = false) (Mmu.new capacity) m) :
    Coherent capacity m := by
  refine Reach.invariant (new hpos) ?_ h
  intro m call m' hi hcall hs
  obtain ⟨m₁, hstep, hcoherent⟩ := hi.step hcall
  exact Option.some.inj (hstep.symm.trans hs) ▸ hcoherent

theorem run (h : Coherent capacity m) {calls : List Mmu.Call}
    (hcalls : ∀ call ∈ calls, directInsert call = false) :
    ∃ m', Execution.run Mmu.step m calls = some m' ∧ Coherent capacity m' := by
  induction calls generalizing m with
  | nil => exact ⟨m, rfl, h⟩
  | cons call rest ih =>
    obtain ⟨m₁, hstep, hcoherent⟩ := h.step (hcalls call List.mem_cons_self)
    obtain ⟨m₂, hrun, hend⟩ := ih hcoherent fun c hc => hcalls c (List.mem_cons_of_mem _ hc)
    refine ⟨m₂, ?_, hend⟩
    rw [Execution.run, hstep]
    exact hrun

end Coherent

/-- The mappings that a list of calls adds, in order. -/
def addedMappings (calls : List Mmu.Call) : List (BitVec 16 × PageMapping) :=
  calls.filterMap fun
    | .addMapping asid vpn ppn flags => some (asid, ⟨vpn, ppn, flags⟩)
    | _ => none

/-- Those of one address space. -/
def mappingsOf (asid : BitVec 16) (calls : List Mmu.Call) : List (BitVec 16 × PageMapping) :=
  (addedMappings calls).filter fun p => p.1 == asid

/-- A translation leaves the page table alone, whatever the TLB does. -/
theorem translate_pageTable {out : Option (BitVec 64) × Mmu} (h : m.translate vpn = some out) :
    out.2.pageTable = m.pageTable := by
  unfold Mmu.translate at h
  split at h
  · cases h
    rfl
  · split at h
    · obtain ⟨tlb, -, rfl⟩ := Option.map_eq_some_iff.mp h
      rfl
    · cases h
      rfl

theorem step_pageTable {call : Mmu.Call} (h : m.step call = some m') :
    m'.pageTable = m.pageTable ++ addedMappings [call] := by
  cases call with
  | addMapping asid vpn ppn flags =>
    cases h
    rfl
  | switchAsid newAsid =>
    cases h
    exact (List.append_nil _).symm
  | translate vpn =>
    obtain ⟨out, hout, rfl⟩ := Option.map_eq_some_iff.mp h
    rw [translate_pageTable hout]
    exact (List.append_nil _).symm
  | tlb call =>
    obtain ⟨tlb, -, rfl⟩ := Option.map_eq_some_iff.mp h
    exact (List.append_nil _).symm

theorem run_pageTable {calls : List Mmu.Call} (h : run Mmu.step m calls = some m') :
    m'.pageTable = m.pageTable ++ addedMappings calls := by
  induction calls generalizing m with
  | nil =>
    cases h
    exact (List.append_nil _).symm
  | cons call rest ih =>
    obtain ⟨m₁, hstep, hrest⟩ := Option.bind_eq_some_iff.mp h
    rw [ih hrest, step_pageTable hstep, List.append_assoc]
    congr 1
    exact (List.filterMap_append (l := [call])).symm

/-- The walk for an address space sees its own mappings only. -/
theorem walk_filter : walk (pageTable.filter fun p => p.1 == asid) asid vpn =
    walk pageTable asid vpn := by
  unfold walk
  rw [List.find?_filter]
  congr 1
  funext p
  cases hasid : p.1 == asid
  · rfl
  · simp only [Bool.true_and, true_and, Bool.decide_coe]

/-- Two runs that add the same mappings to an address space and end in it give
the same translations there, those of the walk. -/
theorem translate_isolated {c₁ c₂ : ℕ} (hc₁ : 1 ≤ c₁) (hc₂ : 1 ≤ c₂)
    {calls₁ calls₂ : List Mmu.Call} (hno₁ : ∀ call ∈ calls₁, directInsert call = false)
    (hno₂ : ∀ call ∈ calls₂, directInsert call = false) (asid : BitVec 16)
    (hsame : mappingsOf asid calls₁ = mappingsOf asid calls₂) :
    ∃ m₁ m₂, run Mmu.step (Mmu.new c₁) calls₁ = some m₁ ∧
      run Mmu.step (Mmu.new c₂) calls₂ = some m₂ ∧
      (m₁.currentAsid = asid → m₂.currentAsid = asid → ∀ vpn,
        (m₁.translate vpn).map Prod.fst = some (walkPpn m₁.pageTable asid vpn) ∧
        (m₂.translate vpn).map Prod.fst = some (walkPpn m₁.pageTable asid vpn)) := by
  obtain ⟨m₁, hrun₁, hcoherent₁⟩ := (Coherent.new hc₁).run hno₁
  obtain ⟨m₂, hrun₂, hcoherent₂⟩ := (Coherent.new hc₂).run hno₂
  refine ⟨m₁, m₂, hrun₁, hrun₂, ?_⟩
  intro hasid₁ hasid₂ vpn
  have htable : ∀ {c m calls}, run Mmu.step (Mmu.new c) calls = some m →
      walkPpn m.pageTable asid vpn = walkPpn (mappingsOf asid calls) asid vpn := by
    intro c m calls hrun
    have hpt : m.pageTable = addedMappings calls := run_pageTable hrun
    rw [hpt, mappingsOf, walkPpn, walkPpn, walk_filter]
  have hanswer : ∀ {c m}, Coherent c m → m.currentAsid = asid →
      (m.translate vpn).map Prod.fst = some (walkPpn m.pageTable asid vpn) := by
    intro c m hcoherent hasid
    obtain ⟨tlb, htranslate, -⟩ := hcoherent.translate vpn
    rw [htranslate, hasid]
    rfl
  refine ⟨hanswer hcoherent₁ hasid₁, ?_⟩
  rw [hanswer hcoherent₂ hasid₂, htable hrun₂, ← hsame, ← htable hrun₁]

theorem translate_isolated_evicted :
    let calls₁ : List Mmu.Call := [.addMapping 1 5 50 7, .switchAsid 1, .translate 5]
    let calls₂ : List Mmu.Call := [.addMapping 2 5 99 7, .addMapping 1 5 50 7, .switchAsid 2,
      .translate 5, .tlb (.flushByVpn 5), .switchAsid 1]
    ∃ m₁ m₂, run Mmu.step (Mmu.new 1) calls₁ = some m₁ ∧
      run Mmu.step (Mmu.new 4) calls₂ = some m₂ ∧
      (m₁.currentAsid = 1 → m₂.currentAsid = 1 → ∀ vpn,
        (m₁.translate vpn).map Prod.fst = some (walkPpn m₁.pageTable 1 vpn) ∧
        (m₂.translate vpn).map Prod.fst = some (walkPpn m₁.pageTable 1 vpn)) := by
  intro calls₁ calls₂
  exact translate_isolated (by omega) (by omega) (by decide) (by decide) 1 (by decide)

/-- The answer to `translate(vpn)` after mapping the page, flushing, and switching to its
address space. -/
def afterRemap (m : Mmu) (asid : BitVec 16) (vpn ppn flags : BitVec 64) (flush : Tlb.Call) :
    Option (Option (BitVec 64)) :=
  (run Mmu.step m [.addMapping asid vpn ppn flags, .tlb flush, .switchAsid asid]).bind fun m' =>
    (m'.translate vpn).map Prod.fst

/-- The new mapping takes effect exactly where the page table had no mapping of
the page, or its first one has the same frame. -/
theorem remap_iff {capacity : ℕ} (hpos : 1 ≤ capacity) {m : Mmu}
    (hreach : Reach Mmu.step (fun _ call => directInsert call = false) (Mmu.new capacity) m)
    (asid : BitVec 16) (vpn ppn flags : BitVec 64) {flush : Tlb.Call}
    (hflush : flush = .flushByVpn vpn ∨ flush = .flushAll) :
    afterRemap m asid vpn ppn flags flush = some (some ppn) ↔
      ∀ old, walk m.pageTable asid vpn = some old → old.2.ppn = ppn := by
  have hcalls : ∀ call ∈ [Mmu.Call.addMapping asid vpn ppn flags, .tlb flush, .switchAsid asid],
      directInsert call = false := by
    rcases hflush with rfl | rfl <;> simp [directInsert]
  obtain ⟨m', hrun, hcoherent⟩ := (Coherent.reach hpos hreach).run hcalls
  have hasid : m'.currentAsid = asid := by
    rcases hflush with rfl | rfl <;> cases hrun <;> rfl
  obtain ⟨tlb, htranslate, -⟩ := hcoherent.translate vpn
  have hanswer : afterRemap m asid vpn ppn flags flush = some (walkPpn m'.pageTable asid vpn) := by
    unfold afterRemap
    rw [hrun, Option.bind_some, htranslate, hasid]
    rfl
  have htable : m'.pageTable = m.pageTable ++ [(asid, ⟨vpn, ppn, flags⟩)] := run_pageTable hrun
  rw [hanswer, htable, walkPpn, walk_append]
  cases hwalk : walk m.pageTable asid vpn with
  | none => simp
  | some old => simp

/-- The page has been mapped to the frame and cached, with other flags. -/
theorem remap_iff_same_frame :
    ∃ m, run Mmu.step (Mmu.new 4) [.addMapping 1 256 768 3, .switchAsid 1, .translate 256] =
        some m ∧
      walk m.pageTable 1 256 = some (1, ⟨256, 768, 3⟩) ∧
      afterRemap m 1 256 768 7 (.flushByVpn 256) = some (some 768) := by
  obtain ⟨m, hrun, hwalk⟩ : ∃ m, run Mmu.step (Mmu.new 4)
      [.addMapping 1 256 768 3, .switchAsid 1, .translate 256] = some m ∧
      walk m.pageTable 1 256 = some (1, ⟨256, 768, 3⟩) := ⟨_, rfl, by decide⟩
  have hreach : Reach Mmu.step (fun _ call => directInsert call = false) (Mmu.new 4) m :=
    Reach.init.run_of_forall (by simp [directInsert]) hrun
  refine ⟨m, hrun, hwalk, (remap_iff (by omega) hreach 1 256 768 7 (Or.inl rfl)).mpr ?_⟩
  intro old hold
  rw [hwalk] at hold
  cases hold
  rfl

/-- A page that was mapped before keeps its old frame through remap and flush. -/
theorem remap_keeps_old_frame :
    ∃ m, Reach Mmu.step (fun _ call => directInsert call = false) (Mmu.new 4) m ∧
      afterRemap m 1 256 768 7 (.flushByVpn 256) = some (some 512) ∧
      afterRemap m 1 256 768 7 (.flushByVpn 256) ≠ some (some 768) := by
  obtain ⟨m, hrun⟩ : ∃ m, run Mmu.step (Mmu.new 4) [.addMapping 1 256 512 7] = some m := ⟨_, rfl⟩
  refine ⟨m, Reach.init.run_of_forall (by simp [directInsert]) hrun, ?_⟩
  cases hrun
  decide

end OsCamp.MmuCoherence
