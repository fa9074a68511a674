import OsCamp.Execution
import OsCamp.SlotTable
import OsCamp.TlbSim

/-!
The TLB as a bounded partial map from (vpn, asid) to (ppn, flags). The valid
entries are the filled slots of a table; what an invalid entry still remembers
of its last mapping does not show in the map. Each operation is specified once
by its effect on the map, and the later modules use only these specifications.
-/

set_option autoImplicit false

namespace OsCamp.TlbMap

open Execution SlotTable TlbSim

abbrev Key := BitVec 64 × BitVec 16

abbrev Value := BitVec 64 × BitVec 64

def slot (e : TlbEntry) : Option (Key × Value) :=
  if e.valid then some ((e.vpn, e.asid), (e.ppn, e.flags)) else none

def slots (t : Tlb) : List (Option (Key × Value)) := t.entries.map slot

/-- The partial map that the TLB stands for. -/
def mapOf (t : Tlb) : Key → Option Value := toMap (slots t)

structure TlbInv (capacity : ℕ) (t : Tlb) : Prop where
  unique : Unique (slots t)
  length_eq : t.entries.length = capacity
  capacity_eq : t.capacity = capacity
  fifo_lt : t.fifoPtr < capacity

variable {capacity i : ℕ} {t t' : Tlb} {vpn ppn flags : BitVec 64} {asid : BitVec 16}
  {key : Key} {value : Value} {l l' : List TlbEntry} {e : TlbEntry}

theorem slot_eq_some_iff : slot e = some (key, value) ↔
    e.Matches key.1 key.2 ∧ e.ppn = value.1 ∧ e.flags = value.2 := by
  obtain ⟨vpn, asid⟩ := key
  obtain ⟨ppn, flags⟩ := value
  unfold slot
  split_ifs with hvalid
  · simp [TlbEntry.Matches, hvalid, and_assoc]
  · simp [TlbEntry.Matches, hvalid]

theorem holdsAt_iff : HoldsAt (slots t) i key value ↔
    ∃ e, t.entries[i]? = some e ∧ e.Matches key.1 key.2 ∧ e.ppn = value.1 ∧ e.flags = value.2 := by
  unfold HoldsAt slots
  simp only [List.getElem?_map, Option.map_eq_some_iff, slot_eq_some_iff]

/-- The in-place update rewrites one matching entry, or there was none. -/
theorem updateFirst_spec (vpn ppn : BitVec 64) (asid : BitVec 16) (flags : BitVec 64)
    (l : List TlbEntry) :
    (∃ i e, l[i]? = some e ∧ e.Matches vpn asid ∧
      updateFirst vpn ppn asid flags l = some (l.set i { e with ppn := ppn, flags := flags })) ∨
    ((∀ e ∈ l, ¬ e.Matches vpn asid) ∧ updateFirst vpn ppn asid flags l = none) := by
  induction l with
  | nil => exact Or.inr ⟨by simp, rfl⟩
  | cons head rest ih =>
    by_cases hhead : head.Matches vpn asid
    · exact Or.inl ⟨0, head, rfl, hhead, if_pos hhead⟩
    · have hloop : updateFirst vpn ppn asid flags (head :: rest) =
          (updateFirst vpn ppn asid flags rest).map (head :: ·) := if_neg hhead
      rcases ih with ⟨i, e, hi, he, hset⟩ | ⟨hnone, hrest⟩
      · refine Or.inl ⟨i + 1, e, hi, he, ?_⟩
        rw [hloop, hset]
        rfl
      · refine Or.inr ⟨?_, ?_⟩
        · intro e he
          rcases List.mem_cons.mp he with rfl | hmem
          · exact hhead
          · exact hnone e hmem
        · rw [hloop, hrest]
          rfl

/-- Setting an entry to a valid one writes its slot. -/
theorem slots_set (l : List TlbEntry) (i : ℕ) (e : TlbEntry) (hvalid : e.valid = true) :
    (l.set i e).map slot = (l.map slot).set i (some ((e.vpn, e.asid), (e.ppn, e.flags))) := by
  rw [List.map_set]
  simp only [slot, hvalid, if_true]

theorem slots_invalidate (named : TlbEntry → Bool) (keep : Key → Bool)
    (h : ∀ e, e.valid = true → keep (e.vpn, e.asid) = !named e) :
    slots (t.invalidate named) = keepOnly keep (slots t) := by
  unfold slots keepOnly Tlb.invalidate
  simp only [List.map_map]
  apply List.map_congr_left
  intro e _
  have hkeep := h e
  cases hvalid : e.valid <;> cases hnamed : named e <;>
    simp_all [slot, Option.filter]

theorem validCount_eq : t.validCount = (keys (slots t)).length := by
  unfold Tlb.validCount keys slots
  induction t.entries with
  | nil => rfl
  | cons e rest ih =>
    cases hvalid : e.valid with
    | false => simpa [slot, hvalid] using ih
    | true => simpa [slot, hvalid] using ih

namespace TlbInv

theorem new (hpos : 1 ≤ capacity) : TlbInv capacity (Tlb.new capacity) where
  unique := by
    have hempty : slots (Tlb.new capacity) = List.replicate capacity none := by
      simp [slots, Tlb.new, slot, TlbEntry.empty]
    rw [hempty]
    exact unique_replicate capacity
  length_eq := List.length_replicate
  capacity_eq := rfl
  fifo_lt := hpos

/-- A lookup finds what the map holds, and counts. -/
theorem lookup_cases (h : TlbInv capacity t) (vpn : BitVec 64) (asid : BitVec 16) :
    (∃ e : TlbEntry, mapOf t (vpn, asid) = some (e.ppn, e.flags) ∧
      t.lookup vpn asid = (some e.ppn, t.countHit)) ∨
    (mapOf t (vpn, asid) = none ∧ t.lookup vpn asid = (none, t.countMiss)) := by
  unfold Tlb.lookup
  cases hfind : t.entries.find? fun e => decide (e.Matches vpn asid) with
  | none =>
    have hfree := List.find?_eq_none.mp hfind
    refine Or.inr ⟨?_, rfl⟩
    by_contra hsome
    obtain ⟨i, v, hheld⟩ := (toMap_ne_none_iff h.unique).mp hsome
    obtain ⟨e, he, hmatches, -⟩ := holdsAt_iff.mp hheld
    exact hfree e (List.mem_of_getElem? he) (decide_eq_true hmatches)
  | some e =>
    have hmatches : e.Matches vpn asid := by simpa using List.find?_some hfind
    obtain ⟨i, hi⟩ := List.mem_iff_getElem?.mp (List.mem_of_find?_eq_some hfind)
    have hmap : mapOf t (vpn, asid) = some (e.ppn, e.flags) :=
      (toMap_eq_some_iff h.unique).mpr ⟨i, holdsAt_iff.mpr ⟨e, hi, hmatches, rfl, rfl⟩⟩
    exact Or.inl ⟨e, hmap, rfl⟩

theorem lookup_fst (h : TlbInv capacity t) (vpn : BitVec 64) (asid : BitVec 16) :
    (t.lookup vpn asid).1 = (mapOf t (vpn, asid)).map Prod.fst := by
  rcases h.lookup_cases vpn asid with ⟨e, hmap, hlookup⟩ | ⟨hmap, hlookup⟩
  · rw [hmap, hlookup]
    rfl
  · rw [hmap, hlookup]
    rfl

/-- A lookup changes the statistics only. -/
theorem lookup_snd (vpn : BitVec 64) (asid : BitVec 16) :
    ∃ stats, (t.lookup vpn asid).2 = { t with stats := stats } := by
  unfold Tlb.lookup
  cases t.entries.find? fun e => decide (e.Matches vpn asid) with
  | none => exact ⟨_, rfl⟩
  | some e => exact ⟨_, rfl⟩

theorem stats (h : TlbInv capacity t) (stats : TlbStats) :
    TlbInv capacity { t with stats := stats } :=
  ⟨h.unique, h.length_eq, h.capacity_eq, h.fifo_lt⟩

/-- Writing the entry at `i`, where no other slot holds the key. -/
theorem write (h : TlbInv capacity t) (ppn flags : BitVec 64) (hi : i < capacity) {fifo : ℕ}
    (hfifo : fifo < capacity)
    (helse : ∀ j u, HoldsAt (slots t) j (vpn, asid) u → j = i) :
    let t' : Tlb := { t with
      entries := t.entries.set i ⟨true, asid, vpn, ppn, flags⟩
      fifoPtr := fifo }
    TlbInv capacity t' ∧ Inserted (mapOf t) (vpn, asid) (ppn, flags) (mapOf t') := by
  have hlt : i < (slots t).length := by
    rw [slots, List.length_map, h.length_eq]
    exact hi
  have hset := slots_set t.entries i ⟨true, asid, vpn, ppn, flags⟩ rfl
  constructor
  · refine ⟨?_, ?_, h.capacity_eq, hfifo⟩
    · change Unique ((t.entries.set i ⟨true, asid, vpn, ppn, flags⟩).map slot)
      rw [hset]
      exact h.unique.set hlt helse
    · change (t.entries.set i ⟨true, asid, vpn, ppn, flags⟩).length = capacity
      rw [List.length_set]
      exact h.length_eq
  · change Inserted _ _ _ (toMap ((t.entries.set i ⟨true, asid, vpn, ppn, flags⟩).map slot))
    rw [hset]
    exact inserted_set h.unique hlt helse

/-- What an insertion does to the entries, whether the key was present or not. -/
theorem insert_cases (h : TlbInv capacity t) (vpn ppn : BitVec 64) (asid : BitVec 16)
    (flags : BitVec 64) :
    (∃ i e, t.entries[i]? = some e ∧ e.Matches vpn asid ∧
      t.insert vpn ppn asid flags =
        some { t with entries := t.entries.set i { e with ppn := ppn, flags := flags } }) ∨
    (mapOf t (vpn, asid) = none ∧
      t.insert vpn ppn asid flags = some { t with
        entries := t.entries.set t.fifoPtr ⟨true, asid, vpn, ppn, flags⟩
        fifoPtr := (t.fifoPtr + 1) % capacity }) := by
  have hcap := h.capacity_eq
  have hfifo := h.fifo_lt
  have hlen := h.length_eq
  rcases updateFirst_spec vpn ppn asid flags t.entries with
    ⟨i, e, hi, hmatches, hupdate⟩ | ⟨hnone, hupdate⟩
  · refine Or.inl ⟨i, e, hi, hmatches, ?_⟩
    simp only [Tlb.insert, hupdate]
  · refine Or.inr ⟨?_, ?_⟩
    · by_contra hsome
      obtain ⟨i, v, hheld⟩ := (toMap_ne_none_iff h.unique).mp hsome
      obtain ⟨e, he, hmatches, -⟩ := holdsAt_iff.mp hheld
      exact hnone e (List.mem_of_getElem? he) hmatches
    · have hbound : t.fifoPtr < t.entries.length := by omega
      have hpos : capacity ≠ 0 := by omega
      simp only [Tlb.insert, hupdate, if_pos hbound, hcap, if_neg hpos]

theorem insert (h : TlbInv capacity t) (vpn ppn : BitVec 64) (asid : BitVec 16)
    (flags : BitVec 64) :
    ∃ t', t.insert vpn ppn asid flags = some t' ∧ TlbInv capacity t' ∧
      Inserted (mapOf t) (vpn, asid) (ppn, flags) (mapOf t') := by
  rcases h.insert_cases vpn ppn asid flags with
    ⟨i, e, hi, hmatches, hinsert⟩ | ⟨hnone, hinsert⟩
  · -- the key sits at `i`, and nowhere else
    have hheld : HoldsAt (slots t) i (vpn, asid) (e.ppn, e.flags) :=
      holdsAt_iff.mpr ⟨e, hi, hmatches, rfl, rfl⟩
    have hlt : i < capacity := by
      have hlen := hheld.lt_length
      rw [slots, List.length_map, h.length_eq] at hlen
      exact hlen
    have hwrite := h.write ppn flags hlt h.fifo_lt
      fun j u hj => h.unique j i _ u _ hj hheld
    obtain ⟨hvalid, hvpn, hasid⟩ := hmatches
    rw [hvalid, hvpn, hasid] at hinsert
    exact ⟨_, hinsert, hwrite⟩
  · have hfree : ∀ j u, HoldsAt (slots t) j (vpn, asid) u → j = t.fifoPtr := by
      intro j u hj
      exact absurd hnone ((toMap_ne_none_iff h.unique).mpr ⟨j, u, hj⟩)
    have hnext : (t.fifoPtr + 1) % capacity < capacity :=
      Nat.mod_lt _ (Nat.zero_lt_of_lt h.fifo_lt)
    exact ⟨_, hinsert, h.write ppn flags h.fifo_lt hnext hfree⟩

theorem invalidate (h : TlbInv capacity t) (named : TlbEntry → Bool) (keep : Key → Bool)
    (hkeep : ∀ e, e.valid = true → keep (e.vpn, e.asid) = !named e) :
    TlbInv capacity (t.invalidate named) ∧
      ∀ key, mapOf (t.invalidate named) key = if keep key = true then mapOf t key else none := by
  have hslots := slots_invalidate (t := t) named keep hkeep
  constructor
  · refine ⟨?_, ?_, h.capacity_eq, h.fifo_lt⟩
    · rw [hslots]
      exact h.unique.keepOnly keep
    · change (t.entries.map _).length = capacity
      rw [List.length_map]
      exact h.length_eq
  · intro key
    unfold mapOf
    rw [hslots]
    exact toMap_keepOnly h.unique keep key

theorem flushAll (h : TlbInv capacity t) :
    TlbInv capacity t.flushAll ∧ ∀ key, mapOf t.flushAll key = none := by
  obtain ⟨hinv, hmap⟩ := h.invalidate (fun _ => true) (fun _ => false)
    fun _ _ => rfl
  exact ⟨hinv, hmap⟩

theorem flushByVpn (h : TlbInv capacity t) (vpn : BitVec 64) :
    TlbInv capacity (t.flushByVpn vpn) ∧
      ∀ key, mapOf (t.flushByVpn vpn) key = if key.1 = vpn then none else mapOf t key := by
  obtain ⟨hinv, hmap⟩ := h.invalidate (fun e => e.vpn == vpn)
    (fun key => !(key.1 == vpn)) fun _ _ => rfl
  refine ⟨hinv, ?_⟩
  intro key
  refine (hmap key).trans ?_
  by_cases heq : key.1 = vpn <;> simp [heq]

theorem flushByAsid (h : TlbInv capacity t) (asid : BitVec 16) :
    TlbInv capacity (t.flushByAsid asid) ∧
      ∀ key, mapOf (t.flushByAsid asid) key = if key.2 = asid then none else mapOf t key := by
  obtain ⟨hinv, hmap⟩ := h.invalidate (fun e => e.asid == asid)
    (fun key => !(key.2 == asid)) fun _ _ => rfl
  refine ⟨hinv, ?_⟩
  intro key
  refine (hmap key).trans ?_
  by_cases heq : key.2 = asid <;> simp [heq]

theorem lookup (h : TlbInv capacity t) (vpn : BitVec 64) (asid : BitVec 16) :
    TlbInv capacity (t.lookup vpn asid).2 := by
  obtain ⟨stats, hstats⟩ := lookup_snd (t := t) vpn asid
  rw [hstats]
  exact h.stats stats

theorem step (h : TlbInv capacity t) {call : Tlb.Call} (hs : t.step call = some t') :
    TlbInv capacity t' := by
  cases call with
  | insert vpn ppn asid flags =>
    obtain ⟨t₁, hinsert, hinv, -⟩ := h.insert vpn ppn asid flags
    have heq : some t₁ = some t' := hinsert.symm.trans hs
    exact Option.some.inj heq ▸ hinv
  | lookup vpn asid => exact Option.some.inj hs ▸ h.lookup vpn asid
  | flushAll => exact Option.some.inj hs ▸ h.flushAll.1
  | flushByVpn vpn => exact Option.some.inj hs ▸ (h.flushByVpn vpn).1
  | flushByAsid asid => exact Option.some.inj hs ▸ (h.flushByAsid asid).1

theorem reachable (hpos : 1 ≤ capacity) (h : Reachable Tlb.step (Tlb.new capacity) t) :
    TlbInv capacity t :=
  Reach.invariant (new hpos) (fun _ _ _ hi _ hs => hi.step hs) h

end TlbInv

/-- What a state of the TLB and its operations mean as a bounded partial map. -/
structure RefinesMap (capacity : ℕ) (t : Tlb) : Prop where
  unique : ∀ (i j : ℕ) (e e' : TlbEntry), t.entries[i]? = some e → t.entries[j]? = some e' →
    e.valid = true → e'.valid = true → e.vpn = e'.vpn → e.asid = e'.asid → i = j
  length : t.entries.length = capacity
  fifo : t.fifoPtr < capacity
  represents : ∀ vpn asid ppn flags, mapOf t (vpn, asid) = some (ppn, flags) ↔
    (⟨true, asid, vpn, ppn, flags⟩ : TlbEntry) ∈ t.entries
  bounded : t.validCount ≤ capacity ∧
    ∃ keys : List Key, keys.length = t.validCount ∧ ∀ key, mapOf t key ≠ none ↔ key ∈ keys
  lookup : ∀ vpn asid, (t.lookup vpn asid).1 = (mapOf t (vpn, asid)).map Prod.fst ∧
    ∃ stats, (t.lookup vpn asid).2 = { t with stats := stats }
  insert : ∀ vpn ppn asid flags, ∃ t', t.insert vpn ppn asid flags = some t' ∧
    Inserted (mapOf t) (vpn, asid) (ppn, flags) (mapOf t')
  flushAll : ∀ key, mapOf t.flushAll key = none
  flushByVpn : ∀ vpn key,
    mapOf (t.flushByVpn vpn) key = if key.1 = vpn then none else mapOf t key
  flushByAsid : ∀ asid key,
    mapOf (t.flushByAsid asid) key = if key.2 = asid then none else mapOf t key

theorem TlbInv.represents (h : TlbInv capacity t) :
    mapOf t (vpn, asid) = some (ppn, flags) ↔
      (⟨true, asid, vpn, ppn, flags⟩ : TlbEntry) ∈ t.entries := by
  unfold mapOf
  rw [toMap_eq_some_iff h.unique, List.mem_iff_getElem?]
  constructor
  · rintro ⟨i, hi⟩
    obtain ⟨e, he, ⟨hvalid, hvpn, hasid⟩, hppn, hflags⟩ := holdsAt_iff.mp hi
    refine ⟨i, he.trans (congrArg some ?_)⟩
    cases e
    simp_all
  · rintro ⟨i, hi⟩
    exact ⟨i, holdsAt_iff.mpr ⟨_, hi, ⟨rfl, rfl, rfl⟩, rfl, rfl⟩⟩

/-- In every reachable state the TLB is a bounded partial map and each
operation has its effect on that map. -/
theorem reachable_refinesMap (hpos : 1 ≤ capacity)
    (hreach : Reachable Tlb.step (Tlb.new capacity) t) : RefinesMap capacity t := by
  have h := TlbInv.reachable hpos hreach
  refine {
    unique := ?_
    length := h.length_eq
    fifo := h.fifo_lt
    represents := fun _ _ _ _ => h.represents
    bounded := ?_
    lookup := fun vpn asid => ⟨h.lookup_fst vpn asid, TlbInv.lookup_snd vpn asid⟩
    insert := ?_
    flushAll := h.flushAll.2
    flushByVpn := fun vpn => (h.flushByVpn vpn).2
    flushByAsid := fun asid => (h.flushByAsid asid).2
  }
  · intro i j e e' hi hj hvalid hvalid' hvpn hasid
    apply h.unique i j (e.vpn, e.asid) (e.ppn, e.flags) (e'.ppn, e'.flags)
    · exact holdsAt_iff.mpr ⟨e, hi, ⟨hvalid, rfl, rfl⟩, rfl, rfl⟩
    · exact holdsAt_iff.mpr ⟨e', hj, ⟨hvalid', hvpn.symm, hasid.symm⟩, rfl, rfl⟩
  · constructor
    · have hlength : (slots t).length = t.entries.length := List.length_map slot
      rw [validCount_eq, ← h.length_eq, ← hlength]
      exact length_keys_le
    · exact ⟨keys (slots t), validCount_eq.symm, fun key => (mem_keys_iff h.unique).symm⟩
  · intro vpn ppn asid flags
    obtain ⟨t', hinsert, -, hmap⟩ := h.insert vpn ppn asid flags
    exact ⟨t', hinsert, hmap⟩

theorem reachable_refinesMap_after_flush :
    ∃ t, run Tlb.step (Tlb.new 2) [.insert 1 10 0 7, .insert 2 20 0 7, .flushByVpn 1,
        .insert 2 21 0 7, .insert 1 11 0 7, .lookup 1 0] = some t ∧
      t.fifoPtr = 1 ∧ RefinesMap 2 t := by
  have hend : (run Tlb.step (Tlb.new 2) [.insert 1 10 0 7, .insert 2 20 0 7, .flushByVpn 1,
      .insert 2 21 0 7, .insert 1 11 0 7, .lookup 1 0]).map Tlb.fifoPtr = some 1 := by decide
  obtain ⟨t, hrun, hfifo⟩ := Option.map_eq_some_iff.mp hend
  exact ⟨t, hrun, hfifo, reachable_refinesMap (by omega) (Reach.run Reach.init hrun)⟩

end OsCamp.TlbMap
