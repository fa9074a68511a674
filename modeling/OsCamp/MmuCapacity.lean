import OsCamp.MmuCoherence

/-!
Which calls of the TLB and the MMU panic, for any capacity. The FIFO pointer
starts at 0 and stays below the number of entries, so that a TLB with an entry
never indexes out of bounds and never divides by zero. A TLB of capacity 0 is
built without complaint; it panics at the first call that has something to insert.
-/

set_option autoImplicit false

namespace OsCamp.MmuCapacity

open Execution TlbSim TlbMap MmuCoherence

/-- The vector keeps its length, and the pointer starts at 0 and is reduced modulo it. -/
structure Sized (capacity : ℕ) (t : Tlb) : Prop where
  length_eq : t.entries.length = capacity
  capacity_eq : t.capacity = capacity
  fifo : t.fifoPtr = 0 ∨ t.fifoPtr < capacity

def IsInsert : Tlb.Call → Prop
  | .insert _ _ _ _ => True
  | _ => False

/-- The page table has a mapping of the page for the current address space. -/
def Mapped (m : Mmu) (vpn : BitVec 64) : Prop :=
  ∃ p ∈ m.pageTable, p.1 = m.currentAsid ∧ p.2.vpn = vpn

/-- The calls with something to insert, where the TLB does not answer itself. -/
def Inserts (m : Mmu) : Mmu.Call → Prop
  | .tlb call => IsInsert call
  | .translate vpn => Mapped m vpn
  | _ => False

/-- The condition under which a call does not panic. -/
def Holds (capacity : ℕ) (m : Mmu) (call : Mmu.Call) : Prop := 1 ≤ capacity ∨ ¬ Inserts m call

variable {capacity : ℕ} {t t' : Tlb} {m m' : Mmu} {vpn ppn flags : BitVec 64} {asid : BitVec 16}

theorem length_updateFirst {l l' : List TlbEntry}
    (h : updateFirst vpn ppn asid flags l = some l') : l'.length = l.length := by
  rcases updateFirst_spec vpn ppn asid flags l with ⟨i, e, -, -, hset⟩ | ⟨-, hnone⟩
  · have heq := Option.some.inj (h.symm.trans hset)
    rw [heq, List.length_set]
  · rw [hnone] at h
    cases h

namespace Sized

theorem new (capacity : ℕ) : Sized capacity (Tlb.new capacity) :=
  ⟨List.length_replicate, rfl, Or.inl rfl⟩

/-- The index and the remainder of an insertion are defined where there is an entry. -/
theorem insert_isSome_iff (h : Sized capacity t) (vpn ppn : BitVec 64) (asid : BitVec 16)
    (flags : BitVec 64) : (t.insert vpn ppn asid flags).isSome = true ↔ 1 ≤ capacity := by
  have hlength := h.length_eq
  have hcapacity := h.capacity_eq
  have hfifo := h.fifo
  unfold Tlb.insert
  rcases updateFirst_spec vpn ppn asid flags t.entries with
    ⟨i, e, hi, -, hupdate⟩ | ⟨-, hupdate⟩
  · -- the updated entry is one of `capacity` entries
    have hlt : i < t.entries.length := (List.getElem?_eq_some_iff.mp hi).1
    rw [hupdate]
    exact iff_of_true rfl (by omega)
  · rw [hupdate]
    by_cases hpos : 1 ≤ capacity
    · have hbound : t.fifoPtr < t.entries.length := by omega
      have hne : t.capacity ≠ 0 := by omega
      simp only [if_pos hbound, if_neg hne, Option.isSome_some, hpos]
    · have hbound : ¬ t.fifoPtr < t.entries.length := by omega
      simp only [if_neg hbound, Option.isSome_none, hpos, Bool.false_eq_true]

theorem insert (h : Sized capacity t) (hs : t.insert vpn ppn asid flags = some t') :
    Sized capacity t' := by
  have hpos := (h.insert_isSome_iff vpn ppn asid flags).mp (hs ▸ rfl)
  unfold Tlb.insert at hs
  split at hs
  · next entries hupdate =>
    cases hs
    exact ⟨(length_updateFirst hupdate).trans h.length_eq, h.capacity_eq, h.fifo⟩
  · split_ifs at hs
    cases hs
    refine ⟨?_, h.capacity_eq, Or.inr ?_⟩
    · simp only [List.length_set, h.length_eq]
    · simp only [h.capacity_eq]
      exact Nat.mod_lt _ hpos

theorem lookup (h : Sized capacity t) (vpn : BitVec 64) (asid : BitVec 16) :
    Sized capacity (t.lookup vpn asid).2 := by
  obtain ⟨stats, hstats⟩ := TlbInv.lookup_snd (t := t) vpn asid
  rw [hstats]
  exact ⟨h.length_eq, h.capacity_eq, h.fifo⟩

/-- A hit has found an entry. -/
theorem pos_of_hit (h : Sized capacity t) (hhit : (t.lookup vpn asid).1 = some ppn) :
    1 ≤ capacity := by
  have hlength := h.length_eq
  unfold Tlb.lookup at hhit
  cases hentries : t.entries with
  | nil =>
    rw [hentries] at hhit
    cases hhit
  | cons e rest =>
    rw [hentries, List.length_cons] at hlength
    omega

theorem lookup_miss (h : Sized capacity t) (hzero : ¬ 1 ≤ capacity) (vpn : BitVec 64)
    (asid : BitVec 16) : t.lookup vpn asid = (none, (t.lookup vpn asid).2) := by
  refine Prod.ext ?_ rfl
  by_contra hhit
  obtain ⟨ppn, hppn⟩ := Option.ne_none_iff_exists'.mp hhit
  exact hzero (h.pos_of_hit hppn)

theorem invalidate (h : Sized capacity t) (named : TlbEntry → Bool) :
    Sized capacity (t.invalidate named) := by
  refine ⟨?_, h.capacity_eq, h.fifo⟩
  rw [← h.length_eq]
  exact List.length_map _

theorem step_isSome_iff (h : Sized capacity t) (call : Tlb.Call) :
    (t.step call).isSome = true ↔ 1 ≤ capacity ∨ ¬ IsInsert call := by
  cases call with
  | insert vpn ppn asid flags =>
    have hinsert := h.insert_isSome_iff vpn ppn asid flags
    simpa [Tlb.step, IsInsert] using hinsert
  | lookup vpn asid => simp [Tlb.step, IsInsert]
  | flushAll => simp [Tlb.step, IsInsert]
  | flushByVpn vpn => simp [Tlb.step, IsInsert]
  | flushByAsid asid => simp [Tlb.step, IsInsert]

theorem tlbStep (h : Sized capacity t) {call : Tlb.Call} (hs : t.step call = some t') :
    Sized capacity t' := by
  cases call with
  | insert vpn ppn asid flags => exact h.insert hs
  | lookup vpn asid => exact Option.some.inj hs ▸ h.lookup vpn asid
  | flushAll => exact Option.some.inj hs ▸ h.invalidate _
  | flushByVpn vpn => exact Option.some.inj hs ▸ h.invalidate _
  | flushByAsid asid => exact Option.some.inj hs ▸ h.invalidate _

/-- A run of the TLB alone panics at its first insertion, or not at all. -/
theorem run_isSome_iff (h : Sized capacity t) (calls : List Tlb.Call) :
    (run Tlb.step t calls).isSome = true ↔ 1 ≤ capacity ∨ ∀ call ∈ calls, ¬ IsInsert call := by
  induction calls generalizing t with
  | nil => simp [run]
  | cons call rest ih =>
    have hfirst := h.step_isSome_iff call
    rw [run, List.forall_mem_cons]
    cases hnext : t.step call with
    | none =>
      rw [hnext, Option.isSome_none] at hfirst
      simp only [Option.bind_none, Option.isSome_none]
      tauto
    | some t' =>
      rw [hnext, Option.isSome_some] at hfirst
      have hrest := ih (h.tlbStep hnext)
      simp only [Option.bind_some, hrest]
      tauto

end Sized

theorem walk_isSome_iff : (walk m.pageTable m.currentAsid vpn).isSome = true ↔ Mapped m vpn := by
  simp [walk, Mapped]

/-- The table walk refills an empty TLB in vain: the translation panics. -/
theorem translate_isSome_iff (h : Sized capacity m.tlb) (vpn : BitVec 64) :
    (m.translate vpn).isSome = true ↔ 1 ≤ capacity ∨ ¬ Mapped m vpn := by
  have hkept := h.lookup vpn m.currentAsid
  rw [← walk_isSome_iff]
  unfold Mmu.translate
  split
  · next ppn tlb hlookup =>
    have hpos := h.pos_of_hit (congrArg Prod.fst hlookup)
    exact iff_of_true rfl (Or.inl hpos)
  · next tlb hlookup =>
    rw [hlookup] at hkept
    cases hwalk : walk m.pageTable m.currentAsid vpn with
    | none => simp
    | some p =>
      have hinsert := hkept.insert_isSome_iff p.2.vpn p.2.ppn m.currentAsid p.2.flags
      simpa using hinsert

theorem translate_sized (h : Sized capacity m.tlb) {out : Option (BitVec 64) × Mmu}
    (hs : m.translate vpn = some out) : Sized capacity out.2.tlb := by
  have hkept := h.lookup vpn m.currentAsid
  unfold Mmu.translate at hs
  split at hs
  · next hlookup =>
    rw [hlookup] at hkept
    cases hs
    exact hkept
  · next tlb hlookup =>
    rw [hlookup] at hkept
    split at hs
    · obtain ⟨tlb', hinsert, rfl⟩ := Option.map_eq_some_iff.mp hs
      exact hkept.insert hinsert
    · cases hs
      exact hkept

theorem step_isSome_iff (h : Sized capacity m.tlb) (call : Mmu.Call) :
    (m.step call).isSome = true ↔ Holds capacity m call := by
  cases call with
  | addMapping asid vpn ppn flags => simp [Mmu.step, Holds, Inserts]
  | switchAsid newAsid => simp [Mmu.step, Holds, Inserts]
  | translate vpn =>
    have htranslate := translate_isSome_iff h vpn
    simpa [Mmu.step, Holds, Inserts] using htranslate
  | tlb call =>
    have htlb := h.step_isSome_iff call
    simpa [Mmu.step, Holds, Inserts] using htlb

theorem step_sized (h : Sized capacity m.tlb) {call : Mmu.Call} (hs : m.step call = some m') :
    Sized capacity m'.tlb := by
  cases call with
  | addMapping asid vpn ppn flags => exact Option.some.inj hs ▸ h
  | switchAsid newAsid => exact Option.some.inj hs ▸ h
  | translate vpn =>
    obtain ⟨out, hout, rfl⟩ := Option.map_eq_some_iff.mp hs
    exact translate_sized h hout
  | tlb call =>
    obtain ⟨tlb, htlb, rfl⟩ := Option.map_eq_some_iff.mp hs
    exact h.tlbStep htlb

/-- A translation answers as the page table does exactly where it does not panic. -/
theorem translate_answer_iff {calls : List Mmu.Call}
    (hrun : run Mmu.step (Mmu.new capacity) calls = some m)
    (hno : ∀ call ∈ calls, directInsert call = false) (vpn : BitVec 64) :
    (m.translate vpn).map Prod.fst = some (walkPpn m.pageTable m.currentAsid vpn) ↔
      1 ≤ capacity ∨ ¬ Mapped m vpn := by
  have hreach : Reach Mmu.step (fun _ call => directInsert call = false) (Mmu.new capacity) m :=
    Reach.init.run_of_forall (fun call hcall _ => hno call hcall) hrun
  have hsized : Sized capacity m.tlb :=
    Reach.invariant (I := fun m => Sized capacity m.tlb) (Sized.new capacity)
      (fun _ _ _ h _ hs => step_sized h hs) hreach
  constructor
  · intro hanswer
    obtain ⟨out, hout, -⟩ := Option.map_eq_some_iff.mp hanswer
    exact (translate_isSome_iff hsized vpn).mp (hout ▸ rfl)
  · intro hholds
    by_cases hpos : 1 ≤ capacity
    · obtain ⟨tlb, htranslate, -⟩ := (Coherent.reach hpos hreach).translate vpn
      rw [htranslate]
      rfl
    · -- without an entry nothing is cached, and the page is not mapped
      have hmiss := hsized.lookup_miss hpos vpn m.currentAsid
      have hwalk : walk m.pageTable m.currentAsid vpn = none := by
        rw [← Option.not_isSome_iff_eq_none, walk_isSome_iff]
        exact hholds.resolve_left hpos
      unfold Mmu.translate
      rw [hmiss]
      simp only [hwalk, walkPpn]
      rfl

/-- Exactly the calls with something to insert need a TLB with an entry, and
without them, or with one, a translation gives what the page table says. -/
theorem mmu_capacity_iff (capacity : ℕ) :
    (∀ calls, (run Tlb.step (Tlb.new capacity) calls).isSome = true ↔
      1 ≤ capacity ∨ ∀ call ∈ calls, ¬ IsInsert call) ∧
    (∀ calls, (run Mmu.step (Mmu.new capacity) calls).isSome = true ↔
      Admitted Mmu.step (Holds capacity) (Mmu.new capacity) calls) ∧
    ∀ calls m, run Mmu.step (Mmu.new capacity) calls = some m →
      (∀ call ∈ calls, directInsert call = false) → ∀ vpn,
      ((m.translate vpn).map Prod.fst = some (walkPpn m.pageTable m.currentAsid vpn) ↔
        1 ≤ capacity ∨ ¬ Mapped m vpn) := by
  refine ⟨?_, ?_, ?_⟩
  · intro calls
    exact (Sized.new capacity).run_isSome_iff calls
  · intro calls
    exact run_isSome_iff (I := fun m => Sized capacity m.tlb) (fun _ _ _ h hs => step_sized h hs)
      (fun _ call h => step_isSome_iff h call) (Sized.new capacity) calls
  · intro calls m hrun hno vpn
    exact translate_answer_iff hrun hno vpn

theorem mmu_capacity_iff_single_entry :
    ∃ m, run Mmu.step (Mmu.new 1) [.addMapping 0 1 2 7, .translate 1, .addMapping 0 3 4 7] =
        some m ∧
      (m.translate 3).map Prod.fst = some (walkPpn m.pageTable m.currentAsid 3) := by
  obtain ⟨m, hrun⟩ : ∃ m, run Mmu.step (Mmu.new 1)
      [.addMapping 0 1 2 7, .translate 1, .addMapping 0 3 4 7] = some m := ⟨_, rfl⟩
  refine ⟨m, hrun, ?_⟩
  obtain ⟨-, -, hanswers⟩ := mmu_capacity_iff 1
  exact (hanswers _ m hrun (by decide) 3).mpr (Or.inl (by omega))

/-- Without an entry the first translation of a mapped page panics. -/
theorem mmu_without_entries_panics :
    ∃ m, run Mmu.step (Mmu.new 0) [.addMapping 0 1 2 7] = some m ∧
      walkPpn m.pageTable m.currentAsid 1 = some 2 ∧ m.translate 1 = none := by
  exact ⟨_, rfl, by decide, by decide⟩

end OsCamp.MmuCapacity
