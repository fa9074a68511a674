import OsCamp.FifoCache
import OsCamp.TlbMap
import Mathlib.Logic.Function.Basic

/-!
Replacement in the TLB. Read from the pointer on, the slots are a list of cells in
the order of their last writes: a new key takes the place of the first cell and
goes to the end, a key that is present stays where it is, and a flush empties
cells. The age of a key counts from the call that inserted it when it was not valid.
-/

set_option autoImplicit false

namespace OsCamp.TlbFifo

open Execution FifoCache SlotTable TlbMap TlbSim

/-- The keys of the slots, from the pointer on. -/
def cells (t : Tlb) : List (Option Key) := ((slots t).map (Option.map Prod.fst)).rotate t.fifoPtr

variable {capacity n : ℕ} {t t' : Tlb} {vpn ppn flags : BitVec 64} {asid : BitVec 16}
  {key : Key} {calls : List Tlb.Call} {call : Tlb.Call}

theorem mem_cells (h : TlbInv capacity t) : some key ∈ cells t ↔ mapOf t key ≠ none := by
  unfold mapOf cells
  rw [List.mem_rotate, ← mem_keys_iff h.unique]
  unfold keys
  rw [List.mem_map, List.mem_filterMap]

theorem cells_new : cells (Tlb.new capacity) = List.replicate capacity none := by
  simp [cells, slots, Tlb.new, slot, TlbEntry.empty]

theorem cells_lookup (vpn : BitVec 64) (asid : BitVec 16) :
    cells (t.lookup vpn asid).2 = cells t := by
  obtain ⟨stats, hstats⟩ := TlbInv.lookup_snd (t := t) vpn asid
  rw [hstats]
  rfl

theorem cells_invalidate (named : TlbEntry → Bool) (keep : Key → Bool)
    (hkeep : ∀ e, e.valid = true → keep (e.vpn, e.asid) = !named e) :
    cells (t.invalidate named) = (cells t).map (Option.filter keep) := by
  unfold cells
  rw [slots_invalidate named keep hkeep, keepOnly, List.map_rotate, List.map_map, List.map_map]
  congr 1
  apply List.map_congr_left
  intro s _
  cases s with
  | none => rfl
  | some p =>
    simp only [Function.comp_apply, Option.filter_some, Option.map_some]
    split_ifs <;> rfl

/-- A key that is not valid is written at the pointer. -/
theorem insert_absent (h : TlbInv capacity t) (hnone : mapOf t (vpn, asid) = none)
    (ppn flags : BitVec 64) :
    t.insert vpn ppn asid flags = some { t with
      entries := t.entries.set t.fifoPtr ⟨true, asid, vpn, ppn, flags⟩
      fifoPtr := (t.fifoPtr + 1) % capacity } := by
  rcases h.insert_cases vpn ppn asid flags with ⟨i, e, hi, hmatches, -⟩ | ⟨-, hinsert⟩
  · have hheld : HoldsAt (slots t) i (vpn, asid) (e.ppn, e.flags) :=
      holdsAt_iff.mpr ⟨e, hi, hmatches, rfl, rfl⟩
    exact absurd hnone ((toMap_ne_none_iff h.unique).mpr ⟨i, _, hheld⟩)
  · exact hinsert

/-- An update leaves every key in its cell. -/
theorem cells_update {i : ℕ} {e : TlbEntry} (hi : t.entries[i]? = some e) :
    cells { t with entries := t.entries.set i { e with ppn := ppn, flags := flags } } =
      cells t := by
  obtain ⟨hlt, hget⟩ := List.getElem?_eq_some_iff.mp hi
  have hkey : (slot { e with ppn := ppn, flags := flags }).map Prod.fst =
      (slot t.entries[i]).map Prod.fst := by
    rw [hget]
    unfold slot
    split_ifs <;> rfl
  have hset : (t.entries.set i { e with ppn := ppn, flags := flags }).map
      (fun e => (slot e).map Prod.fst) = t.entries.map fun e => (slot e).map Prod.fst := by
    apply List.ext_getElem (by simp)
    intro j hj hj'
    rw [List.getElem_map, List.getElem_map, List.getElem_set]
    split_ifs with hij
    · subst j
      exact hkey
    · rfl
  unfold cells slots
  rw [List.map_map, List.map_map]
  exact congrArg (fun l => l.rotate t.fifoPtr) hset

/-- A key that was not present takes the place of the first cell. -/
theorem cells_write (h : TlbInv capacity t) :
    cells { t with
      entries := t.entries.set t.fifoPtr ⟨true, asid, vpn, ppn, flags⟩
      fifoPtr := (t.fifoPtr + 1) % capacity } = (cells t).tail ++ [some (vpn, asid)] := by
  have hlen : ((slots t).map (Option.map Prod.fst)).length = capacity := by
    rw [List.length_map, slots, List.length_map]
    exact h.length_eq
  have hlt : t.fifoPtr < ((slots t).map (Option.map Prod.fst)).length := by
    rw [hlen]
    exact h.fifo_lt
  have hset := slots_set t.entries t.fifoPtr ⟨true, asid, vpn, ppn, flags⟩ rfl
  unfold cells
  rw [← rotate_set_succ _ _ hlt]
  show (((t.entries.set t.fifoPtr ⟨true, asid, vpn, ppn, flags⟩).map slot).map
    (Option.map Prod.fst)).rotate ((t.fifoPtr + 1) % capacity) = _
  rw [hset, List.map_set, ← List.rotate_mod _ (t.fifoPtr + 1), List.length_set, hlen]
  rfl

/-- After the first `m` calls of the run the key is valid. -/
def ValidAfter (capacity : ℕ) (calls : List Tlb.Call) (key : Key) (m : ℕ) : Prop :=
  ∃ t, run Tlb.step (Tlb.new capacity) (calls.take m) = some t ∧ mapOf t key ≠ none

/-- The `n`-th call (counted from 0) inserted the key when it was not valid, and since
then it has been valid after every call. -/
structure FreshSince (capacity : ℕ) (calls : List Tlb.Call) (key : Key) (n : ℕ) : Prop where
  inserted : ∃ t ppn flags, run Tlb.step (Tlb.new capacity) (calls.take n) = some t ∧
    mapOf t key = none ∧ calls[n]? = some (.insert key.1 ppn key.2 flags)
  valid : ∀ m, n < m → m ≤ calls.length → ValidAfter capacity calls key m

theorem FreshSince.lt_length (h : FreshSince capacity calls key n) : n < calls.length := by
  obtain ⟨t, ppn, flags, -, -, hcall⟩ := h.inserted
  exact (List.getElem?_eq_some_iff.mp hcall).choose

theorem FreshSince.not_lt {n' : ℕ} (h : FreshSince capacity calls key n)
    (h' : FreshSince capacity calls key n') : ¬ n < n' := by
  intro hlt
  obtain ⟨t, ppn, flags, hrun, hnone, -⟩ := h'.inserted
  obtain ⟨t', hrun', hvalid⟩ := h.valid n' hlt h'.lt_length.le
  have heq : t = t' := Option.some.inj (hrun.symm.trans hrun')
  rw [heq] at hnone
  exact hvalid hnone

/-- A key has one age. -/
theorem FreshSince.unique {n' : ℕ} (h : FreshSince capacity calls key n)
    (h' : FreshSince capacity calls key n') : n = n' := by
  have hle := h.not_lt h'
  have hge := h'.not_lt h
  omega

/-- A key that is still valid after one more call keeps its age. -/
theorem FreshSince.extend (h : FreshSince capacity calls key n)
    (hrun : run Tlb.step (Tlb.new capacity) (calls ++ [call]) = some t')
    (hvalid : mapOf t' key ≠ none) : FreshSince capacity (calls ++ [call]) key n := by
  have hn := h.lt_length
  have htake : ∀ m ≤ calls.length, (calls ++ [call]).take m = calls.take m :=
    fun m hm => List.take_append_of_le_length hm
  constructor
  · obtain ⟨t, ppn, flags, hbefore, hnone, hcall⟩ := h.inserted
    refine ⟨t, ppn, flags, ?_, hnone, ?_⟩
    · rw [htake n hn.le]
      exact hbefore
    · rw [List.getElem?_append_left hn]
      exact hcall
  · intro m hnm hm
    unfold ValidAfter
    by_cases hlast : m ≤ calls.length
    · rw [htake m hlast]
      exact h.valid m hnm hlast
    · rw [List.take_of_length_le (by simp only [List.length_append, List.length_singleton]; omega)]
      exact ⟨t', hrun, hvalid⟩

/-- The age of a key that the last call inserted. -/
theorem freshSince_last (hrun : run Tlb.step (Tlb.new capacity) calls = some t)
    (hnone : mapOf t (vpn, asid) = none)
    (hrun' : run Tlb.step (Tlb.new capacity) (calls ++ [.insert vpn ppn asid flags]) = some t')
    (hvalid : mapOf t' (vpn, asid) ≠ none) :
    FreshSince capacity (calls ++ [.insert vpn ppn asid flags]) (vpn, asid) calls.length := by
  constructor
  · refine ⟨t, ppn, flags, ?_, hnone, ?_⟩
    · rw [List.take_left]
      exact hrun
    · exact List.getElem?_concat_length
  · intro m hlt hm
    unfold ValidAfter
    rw [List.take_of_length_le (by simp only [List.length_append, List.length_singleton]; omega)]
    exact ⟨t', hrun', hvalid⟩

/-- The valid keys have their ages, and from the pointer on the slots are in the order
of the ages. -/
def Aged (capacity : ℕ) (calls : List Tlb.Call) (t : Tlb) : Prop :=
  ∃ time : Key → ℕ, InOrder time (cells t) ∧
    ∀ key, mapOf t key ≠ none → FreshSince capacity calls key (time key)

theorem aged_new (hpos : 1 ≤ capacity) : Aged capacity [] (Tlb.new capacity) := by
  refine ⟨fun _ => 0, ?_, ?_⟩
  · rw [cells_new]
    exact inOrder_replicate capacity
  · intro key hvalid
    have hmem := (mem_cells (TlbInv.new hpos)).mpr hvalid
    rw [cells_new] at hmem
    exact absurd (List.eq_of_mem_replicate hmem) (Option.some_ne_none key)

/-- A call after which the keys are some of those before, in their order, lets them
keep their ages. -/
theorem Aged.kept (h : TlbInv capacity t) (h' : TlbInv capacity t')
    (haged : Aged capacity calls t)
    (hrun : run Tlb.step (Tlb.new capacity) (calls ++ [call]) = some t')
    (horder : ∀ time, InOrder time (cells t) → InOrder time (cells t'))
    (hsub : ∀ key, some key ∈ cells t' → some key ∈ cells t) :
    Aged capacity (calls ++ [call]) t' := by
  obtain ⟨time, hin, hfresh⟩ := haged
  refine ⟨time, horder time hin, ?_⟩
  intro key hvalid
  have hbefore : mapOf t key ≠ none := (mem_cells h).mp (hsub key ((mem_cells h').mpr hvalid))
  exact (hfresh key hbefore).extend hrun hvalid

theorem Aged.invalidate (h : TlbInv capacity t) (haged : Aged capacity calls t)
    (named : TlbEntry → Bool) (keep : Key → Bool)
    (hkeep : ∀ e, e.valid = true → keep (e.vpn, e.asid) = !named e)
    (hrun : run Tlb.step (Tlb.new capacity) (calls ++ [call]) = some (t.invalidate named)) :
    Aged capacity (calls ++ [call]) (t.invalidate named) := by
  have hcells := cells_invalidate (t := t) named keep hkeep
  refine haged.kept h (h.invalidate named keep hkeep).1 hrun ?_ ?_
  · intro time horder
    rw [hcells]
    exact horder.filter keep
  · intro key hmem
    rw [hcells, List.mem_map] at hmem
    obtain ⟨cell, hcell, hfilter⟩ := hmem
    have hsome : cell = some key := (Option.filter_eq_some_iff.mp hfilter).1
    exact hsome ▸ hcell

/-- A key that goes in at the end is the youngest. -/
theorem Aged.push (h : TlbInv capacity t) (h' : TlbInv capacity t')
    (haged : Aged capacity calls t) (hrun : run Tlb.step (Tlb.new capacity) calls = some t)
    (hnone : mapOf t (vpn, asid) = none)
    (hrun' : run Tlb.step (Tlb.new capacity) (calls ++ [.insert vpn ppn asid flags]) = some t')
    (hcells : cells t' = (cells t).tail ++ [some (vpn, asid)]) :
    Aged capacity (calls ++ [.insert vpn ppn asid flags]) t' := by
  obtain ⟨time, horder, hfresh⟩ := haged
  have hother : ∀ key, some key ∈ cells t →
      Function.update time (vpn, asid) calls.length key = time key := by
    intro key hmem
    apply Function.update_of_ne
    rintro rfl
    exact (mem_cells h).mp hmem hnone
  refine ⟨Function.update time (vpn, asid) calls.length, ?_, ?_⟩
  · rw [hcells]
    apply (horder.congr hother).push
    intro key hmem
    rw [hother key hmem, Function.update_self]
    exact (hfresh key ((mem_cells h).mp hmem)).lt_length
  · intro key hvalid
    have hmem := (mem_cells h').mpr hvalid
    rw [hcells, List.mem_append, List.mem_singleton] at hmem
    rcases hmem with htail | hlast
    · have hbefore := List.mem_of_mem_tail htail
      rw [hother key hbefore]
      exact (hfresh key ((mem_cells h).mp hbefore)).extend hrun' hvalid
    · cases hlast
      rw [Function.update_self]
      exact freshSince_last hrun hnone hrun' hvalid

theorem Aged.step (h : TlbInv capacity t) (haged : Aged capacity calls t)
    (hrun : run Tlb.step (Tlb.new capacity) calls = some t) (hs : t.step call = some t') :
    Aged capacity (calls ++ [call]) t' := by
  have h' : TlbInv capacity t' := h.step hs
  have hrun' : run Tlb.step (Tlb.new capacity) (calls ++ [call]) = some t' := by
    rw [run_append, hrun]
    show ((t.step call).bind fun s => some s) = some t'
    rw [hs]
    rfl
  cases call with
  | insert vpn ppn asid flags =>
    have hinsert : t.insert vpn ppn asid flags = some t' := hs
    rcases h.insert_cases vpn ppn asid flags with
      ⟨i, e, hi, -, hupdate⟩ | ⟨hnone, hwrite⟩
    · have hstate := Option.some.inj (hinsert.symm.trans hupdate)
      have hcells : cells t' = cells t := by
        rw [hstate]
        exact cells_update hi
      exact haged.kept h h' hrun' (fun _ horder => hcells ▸ horder) fun _ hmem => hcells ▸ hmem
    · have hstate := Option.some.inj (hinsert.symm.trans hwrite)
      have hcells : cells t' = (cells t).tail ++ [some (vpn, asid)] := by
        rw [hstate]
        exact cells_write h
      exact haged.push h h' hrun hnone hrun' hcells
  | lookup vpn asid =>
    have hcells : cells t' = cells t := by
      rw [← Option.some.inj hs]
      exact cells_lookup vpn asid
    exact haged.kept h h' hrun' (fun _ horder => hcells ▸ horder) fun _ hmem => hcells ▸ hmem
  | flushAll =>
    cases hs
    exact haged.invalidate h (fun _ => true) (fun _ => false) (fun _ _ => rfl) hrun'
  | flushByVpn vpn =>
    cases hs
    exact haged.invalidate h (fun e => e.vpn == vpn) (fun key => !(key.1 == vpn))
      (fun _ _ => rfl) hrun'
  | flushByAsid asid =>
    cases hs
    exact haged.invalidate h (fun e => e.asid == asid) (fun key => !(key.2 == asid))
      (fun _ _ => rfl) hrun'

/-- Along every run the slots are in the order of the ages of their keys. -/
theorem aged_of_run (hpos : 1 ≤ capacity)
    (hrun : run Tlb.step (Tlb.new capacity) calls = some t) : Aged capacity calls t := by
  induction calls using List.reverseRecOn generalizing t with
  | nil =>
    cases hrun
    exact aged_new hpos
  | append_singleton calls call ih =>
    rw [run_append] at hrun
    obtain ⟨t₁, hbefore, hlast⟩ := Option.bind_eq_some_iff.mp hrun
    obtain ⟨t₂, hs, hend⟩ := Option.bind_eq_some_iff.mp hlast
    cases hend
    have h : TlbInv capacity t₁ := TlbInv.reachable hpos (Reach.run Reach.init hbefore)
    exact (ih hbefore).step h hbefore hs

/-- What replacement does in state `t`, reached by the calls, when `key` goes in: one
entry is overwritten, and the only key that can be lost is the oldest one. -/
structure ReplacesOldest (capacity : ℕ) (calls : List Tlb.Call) (t : Tlb) (key : Key)
    (value : Value) (t' : Tlb) : Prop where
  entry : ∃ i < capacity, t'.entries = t.entries.set i ⟨true, key.2, key.1, value.1, value.2⟩
  self : mapOf t' key = some value
  evicted : (∀ k, k ≠ key → mapOf t' k = mapOf t k) ∨
    ∃ victim n, FreshSince capacity calls victim n ∧ mapOf t victim ≠ none ∧
      mapOf t' victim = none ∧ ∀ k, k ≠ key → k ≠ victim → mapOf t' k = mapOf t k ∧
        (mapOf t k ≠ none → ∃ n', FreshSince capacity calls k n' ∧ n < n')

/-- A key in the slot at the pointer is the first cell. -/
theorem cells_eq_cons {value : Value} (hheld : HoldsAt (slots t) t.fifoPtr key value) :
    cells t = some key :: (cells t).tail := by
  have hlt : t.fifoPtr < ((slots t).map (Option.map Prod.fst)).length := by
    rw [List.length_map]
    exact hheld.lt_length
  have hhead : (cells t).head? = some (some key) := by
    unfold cells
    rw [List.head?_rotate hlt, List.getElem?_map, hheld]
    rfl
  exact (List.cons_head?_tail hhead).symm

/-- The key in the slot at the pointer is older than every other valid key. -/
theorem Aged.oldest (h : TlbInv capacity t) (haged : Aged capacity calls t) {value : Value}
    (hheld : HoldsAt (slots t) t.fifoPtr key value) :
    ∃ n, FreshSince capacity calls key n ∧ ∀ k, k ≠ key → mapOf t k ≠ none →
      ∃ n', FreshSince capacity calls k n' ∧ n < n' := by
  obtain ⟨time, horder, hfresh⟩ := haged
  have hcons := cells_eq_cons hheld
  rw [hcons] at horder
  have hvalid : mapOf t key ≠ none := (toMap_ne_none_iff h.unique).mpr ⟨_, value, hheld⟩
  refine ⟨time key, hfresh key hvalid, ?_⟩
  intro k hne hk
  have hmem : some k ∈ some key :: (cells t).tail := hcons ▸ (mem_cells h).mpr hk
  rcases List.mem_cons.mp hmem with heq | htail
  · exact absurd (Option.some.inj heq) hne
  · exact ⟨time k, hfresh k hk, horder.first_lt htail⟩

/-- Inserting a key that is not valid overwrites one entry, and if that entry is valid,
its key is the one that has been valid for the longest time. -/
theorem insert_replaces_oldest (hpos : 1 ≤ capacity)
    (hrun : run Tlb.step (Tlb.new capacity) calls = some t) (hnew : mapOf t key = none)
    (value : Value) :
    ∃ t', t.insert key.1 value.1 key.2 value.2 = some t' ∧
      ReplacesOldest capacity calls t key value t' := by
  have h : TlbInv capacity t := TlbInv.reachable hpos (Reach.run Reach.init hrun)
  have hlt : t.fifoPtr < (slots t).length := by
    rw [slots, List.length_map, h.length_eq]
    exact h.fifo_lt
  have helse : ∀ j u, HoldsAt (slots t) j key u → j = t.fifoPtr := by
    intro j u hj
    exact absurd hnew ((toMap_ne_none_iff h.unique).mpr ⟨j, u, hj⟩)
  have hmap : mapOf { t with
      entries := t.entries.set t.fifoPtr ⟨true, key.2, key.1, value.1, value.2⟩
      fifoPtr := (t.fifoPtr + 1) % capacity } =
        toMap ((slots t).set t.fifoPtr (some (key, value))) := by
    rw [mapOf, slots, slots_set _ _ _ rfl]
    rfl
  have hself := (inserted_set (v := value) h.unique hlt helse).self
  refine ⟨_, insert_absent h hnew _ _, ⟨t.fifoPtr, h.fifo_lt, rfl⟩, ?_, ?_⟩
  · rw [hmap]
    exact hself
  · rw [hmap]
    by_cases hheld : ∃ victim w, HoldsAt (slots t) t.fifoPtr victim w
    · obtain ⟨victim, w, hvictim⟩ := hheld
      obtain ⟨n, hfresh, hyounger⟩ := (aged_of_run hpos hrun).oldest h hvictim
      have hvalid : mapOf t victim ≠ none :=
        (toMap_ne_none_iff h.unique).mpr ⟨_, w, hvictim⟩
      have hne : victim ≠ key := by
        rintro rfl
        exact hvalid hnew
      refine Or.inr ⟨victim, n, hfresh, hvalid, ?_, ?_⟩
      · exact toMap_set_of_held h.unique hlt helse hne hvictim
      · intro k hk hkv
        have hkeeps := toMap_set_of_free (v := value) h.unique hlt helse hk
          fun u hu => hkv (hu.key_eq hvictim)
        exact ⟨hkeeps, hyounger k hkv⟩
    · refine Or.inl ?_
      intro k hk
      exact toMap_set_of_free h.unique hlt helse hk fun u hu => hheld ⟨k, u, hu⟩

theorem insert_replaces_oldest_after_update :
    ∃ t t', run Tlb.step (Tlb.new 2) [.insert 1 10 0 7, .insert 2 20 0 7, .insert 1 11 0 7,
        .lookup 1 0] = some t ∧
      t.insert 3 30 0 7 = some t' ∧
      ReplacesOldest 2 [.insert 1 10 0 7, .insert 2 20 0 7, .insert 1 11 0 7, .lookup 1 0] t
        (3, 0) (30, 7) t' := by
  have hend : (run Tlb.step (Tlb.new 2) [.insert 1 10 0 7, .insert 2 20 0 7, .insert 1 11 0 7,
      .lookup 1 0]).map (fun t => mapOf t (3, 0)) = some none := by decide
  obtain ⟨t, hrun, hnew⟩ := Option.map_eq_some_iff.mp hend
  obtain ⟨t', hinsert, hreplaces⟩ := insert_replaces_oldest (by omega) hrun hnew (30, 7)
  exact ⟨t, t', hrun, hinsert, hreplaces⟩

end OsCamp.TlbFifo
