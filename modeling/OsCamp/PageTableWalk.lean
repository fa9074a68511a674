import OsCamp.BitFields
import OsCamp.Execution

/-!
The single-level page table of the `02_page_table_walk` exercise. The table is indexed
with the page number unchecked, so an access behind its end panics and has no result.
After any calls the entry of a page is the one that its last call left.
-/

set_option autoImplicit false

namespace OsCamp.PageTableWalk

open BitFields Execution

def pageOffsetBits : ℕ := 12

def pteValid : BitVec 8 := 1#8 <<< 0
def pteWrite : BitVec 8 := 1#8 <<< 2

structure PageTableEntry where
  ppn : BitVec 32
  flags : BitVec 8
deriving DecidableEq

inductive TranslateResult where
  | ok (pa : BitVec 32)
  | pageFault
  | permissionDenied
deriving DecidableEq

structure SingleLevelPageTable where
  entries : List (Option PageTableEntry)
deriving DecidableEq

def vaToVpn (va : BitVec 32) : ℕ := (va >>> pageOffsetBits).toNat

def vaToOffset (va : BitVec 32) : BitVec 32 := va &&& ((1#32 <<< pageOffsetBits) - 1#32)

def makePa (ppn offset : BitVec 32) : BitVec 32 := (ppn <<< pageOffsetBits) ||| offset

namespace SingleLevelPageTable

def new (maxPages : ℕ) : SingleLevelPageTable := ⟨List.replicate maxPages none⟩

/-- The assignment to `entries[vpn]`, which panics behind the end of the vector. -/
def store (pt : SingleLevelPageTable) (vpn : ℕ) (slot : Option PageTableEntry) :
    Option SingleLevelPageTable :=
  if vpn < pt.entries.length then some ⟨pt.entries.set vpn slot⟩ else none

def map (pt : SingleLevelPageTable) (vpn : ℕ) (ppn : BitVec 32) (flags : BitVec 8) :
    Option SingleLevelPageTable :=
  pt.store vpn (some ⟨ppn, flags⟩)

def unmap (pt : SingleLevelPageTable) (vpn : ℕ) : Option SingleLevelPageTable :=
  pt.store vpn none

/-- The entry of a page; the outer option is absent where the index panics. -/
def lookup (pt : SingleLevelPageTable) (vpn : ℕ) : Option (Option PageTableEntry) :=
  pt.entries[vpn]?

def translate (pt : SingleLevelPageTable) (va : BitVec 32) (isWrite : Bool) :
    Option TranslateResult :=
  let vpn := vaToVpn va
  let offset := vaToOffset va
  match pt.lookup vpn with
  | none => none
  | some none => some .pageFault
  | some (some pte) =>
    if pte.flags &&& pteValid = 0#8 then some .pageFault
    else if isWrite = true ∧ pte.flags &&& pteWrite = 0#8 then some .permissionDenied
    else some (.ok (makePa pte.ppn offset))

end SingleLevelPageTable

open SingleLevelPageTable

inductive Op where
  | map (vpn : ℕ) (ppn : BitVec 32) (flags : BitVec 8)
  | unmap (vpn : ℕ)
deriving DecidableEq

def Op.vpn : Op → ℕ
  | .map vpn _ _ => vpn
  | .unmap vpn => vpn

/-- What the call leaves in the entry of its page. -/
def Op.slot : Op → Option PageTableEntry
  | .map _ ppn flags => some ⟨ppn, flags⟩
  | .unmap _ => none

def step (pt : SingleLevelPageTable) : Op → Option SingleLevelPageTable
  | .map vpn ppn flags => pt.map vpn ppn flags
  | .unmap vpn => pt.unmap vpn

/-- The last call for the page. -/
def lastOp (ops : List Op) (vpn : ℕ) : Option Op := ops.reverse.find? fun op => op.vpn = vpn

/-- The frame number of the call fits in the twenty bits above the offset. -/
def Op.FrameFits : Op → Prop
  | .map _ ppn _ => ppn.toNat < 2 ^ 20
  | .unmap _ => True

/-- The answer to a translation by the last call for its page. -/
def Answers (va : BitVec 32) (isWrite : Bool) (r : TranslateResult) : Option Op → Prop
  | some (.map _ ppn flags) =>
    if flags &&& pteValid = 0#8 then r = .pageFault
    else if isWrite = true ∧ flags &&& pteWrite = 0#8 then r = .permissionDenied
    else ∃ pa, r = .ok pa ∧ pa.toNat = ppn.toNat * 4096 + va.toNat % 4096
  | _ => r = .pageFault

theorem toNat_vaToOffset (va : BitVec 32) :
    (vaToOffset va).toNat = va.toNat % 2 ^ pageOffsetBits := by
  have hmask : ((1#32 <<< pageOffsetBits) - 1#32).toNat = 2 ^ pageOffsetBits - 1 :=
    toNat_shiftLeft_sub_one pageOffsetBits (by decide)
  exact toNat_and_of_mask va _ pageOffsetBits hmask

/-- The shift drops all but the low 20 bits of the frame number. -/
theorem toNat_makePa_mod (ppn : BitVec 32) {offset : BitVec 32}
    (hoffset : offset.toNat < 2 ^ pageOffsetBits) :
    (makePa ppn offset).toNat = ppn.toNat % 2 ^ 20 * 2 ^ pageOffsetBits + offset.toNat := by
  have hshift : (ppn <<< pageOffsetBits).toNat = ppn.toNat % 2 ^ 20 * 2 ^ pageOffsetBits := by
    rw [BitVec.toNat_shiftLeft, Nat.shiftLeft_eq]
    unfold pageOffsetBits
    omega
  have hdvd : 2 ^ pageOffsetBits ∣ (ppn <<< pageOffsetBits).toNat :=
    hshift ▸ Nat.dvd_mul_left _ _
  rw [makePa, toNat_or_of_dvd _ offset pageOffsetBits hdvd hoffset, hshift]

/-- A frame number of twenty bits is shifted without loss. -/
theorem toNat_makePa {ppn offset : BitVec 32} (hppn : ppn.toNat < 2 ^ 20)
    (hoffset : offset.toNat < 2 ^ pageOffsetBits) :
    (makePa ppn offset).toNat = ppn.toNat * 2 ^ pageOffsetBits + offset.toNat := by
  rw [toNat_makePa_mod ppn hoffset, Nat.mod_eq_of_lt hppn]

variable {pt pt' : SingleLevelPageTable} {op : Op} {maxPages vpn : ℕ}

theorem step_eq_store (pt : SingleLevelPageTable) (op : Op) :
    step pt op = pt.store op.vpn op.slot := by
  cases op <;> rfl

/-- A call within the table succeeds, keeps the size and changes the entry of its page. -/
theorem step_spec (hlt : op.vpn < pt.entries.length) :
    ∃ pt', step pt op = some pt' ∧ pt'.entries.length = pt.entries.length ∧
      pt'.lookup op.vpn = some op.slot ∧
      ∀ vpn, vpn ≠ op.vpn → pt'.lookup vpn = pt.lookup vpn := by
  have hstore : step pt op = some ⟨pt.entries.set op.vpn op.slot⟩ := by
    rw [step_eq_store, store, if_pos hlt]
  refine ⟨_, hstore, List.length_set, List.getElem?_set_self hlt, ?_⟩
  intro vpn hne
  exact List.getElem?_set_ne (Ne.symm hne)

theorem lookup_eq_none_iff : pt.lookup vpn = none ↔ pt.entries.length ≤ vpn :=
  List.getElem?_eq_none_iff

theorem lookup_new (h : vpn < maxPages) : (new maxPages).lookup vpn = some none := by
  rw [lookup, new, List.getElem?_replicate, if_pos h]

theorem lastOp_cons (op : Op) (ops : List Op) (vpn : ℕ) :
    lastOp (op :: ops) vpn = (lastOp ops vpn).or (if op.vpn = vpn then some op else none) := by
  unfold lastOp
  rw [List.reverse_cons, List.find?_append]
  congr 1
  by_cases heq : op.vpn = vpn <;> simp [heq]

theorem lastOp_mem {ops : List Op} (h : lastOp ops vpn = some op) : op ∈ ops :=
  List.mem_reverse.mp (List.mem_of_find?_eq_some h)

/-- After a run each page holds what its last call left, or what it held before. -/
theorem run_lookup {ops : List Op} (hrange : ∀ op ∈ ops, op.vpn < pt.entries.length) :
    ∃ pt', run step pt ops = some pt' ∧ pt'.entries.length = pt.entries.length ∧
      ∀ vpn, pt'.lookup vpn = ((lastOp ops vpn).map fun op => op.slot).or (pt.lookup vpn) := by
  induction ops generalizing pt with
  | nil => exact ⟨pt, rfl, rfl, fun vpn => rfl⟩
  | cons op ops ih =>
    obtain ⟨mid, hstep, hlen, hself, hother⟩ := step_spec (hrange op (List.mem_cons_self ..))
    have hrest : ∀ op ∈ ops, op.vpn < mid.entries.length := by
      intro later hmem
      rw [hlen]
      exact hrange later (List.mem_cons_of_mem _ hmem)
    obtain ⟨pt', hrun, hlen', hlookup⟩ := ih hrest
    refine ⟨pt', ?_, hlen'.trans hlen, ?_⟩
    · rw [run, hstep, Option.bind_some, hrun]
    · intro vpn
      rw [hlookup, lastOp_cons]
      cases hlast : lastOp ops vpn with
      | some last => rfl
      | none =>
        by_cases heq : op.vpn = vpn
        · rw [if_pos heq, ← heq, hself]
          rfl
        · rw [if_neg heq, hother vpn (Ne.symm heq)]
          rfl

/-- From the empty table a page within it holds what its last call left. -/
theorem run_new_lookup {ops : List Op} (hrange : ∀ op ∈ ops, op.vpn < maxPages) :
    ∃ pt, run step (new maxPages) ops = some pt ∧ pt.entries.length = maxPages ∧
      ∀ vpn, vpn < maxPages → pt.lookup vpn = some ((lastOp ops vpn).bind Op.slot) := by
  have hlen : (new maxPages).entries.length = maxPages := List.length_replicate
  have hrange' : ∀ op ∈ ops, op.vpn < (new maxPages).entries.length := by
    intro op hmem
    rw [hlen]
    exact hrange op hmem
  obtain ⟨pt, hrun, hkept, hlookup⟩ := run_lookup hrange'
  refine ⟨pt, hrun, hkept.trans hlen, ?_⟩
  intro vpn hvpn
  rw [hlookup, lookup_new hvpn]
  cases lastOp ops vpn <;> rfl

variable {va : BitVec 32}

theorem translate_congr (h : pt'.lookup (vaToVpn va) = pt.lookup (vaToVpn va)) (isWrite : Bool) :
    pt'.translate va isWrite = pt.translate va isWrite := by
  unfold SingleLevelPageTable.translate
  simp only [h]

/-- The answer follows from the call that left the entry of the page. -/
theorem translate_answers {last : Option Op} (hfits : ∀ op ∈ last, op.FrameFits)
    (hlookup : pt.lookup (vaToVpn va) = some (last.bind Op.slot)) (isWrite : Bool) :
    ∃ r, pt.translate va isWrite = some r ∧ Answers va isWrite r last := by
  unfold SingleLevelPageTable.translate
  cases last with
  | none =>
    simp only [hlookup]
    exact ⟨_, rfl, rfl⟩
  | some op =>
    cases op with
    | unmap vpn =>
      simp only [hlookup]
      exact ⟨_, rfl, rfl⟩
    | map vpn ppn flags =>
      have hentry : pt.lookup (vaToVpn va) = some (some ⟨ppn, flags⟩) := hlookup
      have hppn : ppn.toNat < 2 ^ 20 := hfits _ rfl
      simp only [hentry, Answers]
      split_ifs with hvalid hwrite
      · exact ⟨_, rfl, rfl⟩
      · exact ⟨_, rfl, rfl⟩
      · refine ⟨_, rfl, _, rfl, ?_⟩
        have hoffset := toNat_vaToOffset va
        have hlow : (vaToOffset va).toNat < 2 ^ pageOffsetBits := by
          rw [hoffset]
          exact Nat.mod_lt _ (by decide)
        rw [toNat_makePa hppn hlow, hoffset]
        rfl

/-- Translation answers by the last call for the page alone, with the physical address as a
number, and no call for another page changes the answer. -/
theorem translate_last_call {ops : List Op} (hrange : ∀ op ∈ ops, op.vpn < maxPages)
    (hfits : ∀ op ∈ ops, op.FrameFits) (hva : vaToVpn va < maxPages) (isWrite : Bool) :
    ∃ pt r, run step (new maxPages) ops = some pt ∧ pt.translate va isWrite = some r ∧
      Answers va isWrite r (lastOp ops (vaToVpn va)) ∧
      ∀ op : Op, op.vpn < maxPages → op.vpn ≠ vaToVpn va →
        ∃ pt', step pt op = some pt' ∧ pt'.translate va isWrite = some r := by
  obtain ⟨pt, hrun, hlen, hlookup⟩ := run_new_lookup hrange
  have hlast : ∀ op ∈ lastOp ops (vaToVpn va), op.FrameFits :=
    fun op hop => hfits op (lastOp_mem hop)
  obtain ⟨r, htranslate, hanswers⟩ := translate_answers hlast (hlookup _ hva) isWrite
  refine ⟨pt, r, hrun, htranslate, hanswers, ?_⟩
  intro op hlt hother
  have hin : op.vpn < pt.entries.length := by omega
  obtain ⟨pt', hstep, -, -, hkept⟩ := step_spec hin
  refine ⟨pt', hstep, ?_⟩
  rw [translate_congr (hkept _ (Ne.symm hother)), htranslate]

/-- The highest frame number, mapped twice and read below the end of the page. -/
theorem translate_last_call_top :
    ∃ pt pa, run step (new 2) [.map 1 7#32 1#8, .map 1 0xFFFFF#32 1#8, .unmap 0] = some pt ∧
      pt.translate 0x1FFF#32 false = some (.ok pa) ∧ pa.toNat = 2 ^ 32 - 1 := by
  have hrange : ∀ op ∈ [Op.map 1 7#32 1#8, .map 1 0xFFFFF#32 1#8, .unmap 0], op.vpn < 2 := by
    decide
  have hva : vaToVpn 0x1FFF#32 < 2 := by decide
  obtain ⟨pt, r, hrun, htranslate, hanswers, -⟩ :=
    translate_last_call hrange (by simp [Op.FrameFits]) hva false
  obtain ⟨pa, hr, hpa⟩ : ∃ pa, r = .ok pa ∧ pa.toNat = 0xFFFFF * 4096 + 0xFFF := hanswers
  exact ⟨pt, pa, hrun, hr ▸ htranslate, hpa⟩

/-- The translation answers, and with a page fault if the page lies outside the table. -/
def FaultsSafely (pt : SingleLevelPageTable) (maxPages : ℕ) (va : BitVec 32) (isWrite : Bool) :
    Prop :=
  (∃ r, pt.translate va isWrite = some r) ∧
    (maxPages ≤ vaToVpn va → pt.translate va isWrite = some .pageFault)

/-- The only panic of a translation is the index behind the end of the table. -/
theorem translate_eq_none_iff (isWrite : Bool) :
    pt.translate va isWrite = none ↔ pt.entries.length ≤ vaToVpn va := by
  rw [← lookup_eq_none_iff]
  unfold SingleLevelPageTable.translate
  cases hslot : pt.lookup (vaToVpn va) with
  | none => simp only [hslot]
  | some slot =>
    cases slot with
    | none => simp [hslot]
    | some pte =>
      simp only [hslot]
      split_ifs <;> simp

/-- On every table reached by calls within its range, an address is translated safely exactly
if its page lies inside the table. -/
theorem translate_faults_safely_iff {ops : List Op} (hrange : ∀ op ∈ ops, op.vpn < maxPages) :
    ∃ pt, run step (new maxPages) ops = some pt ∧
      ∀ va isWrite, FaultsSafely pt maxPages va isWrite ↔ vaToVpn va < maxPages := by
  obtain ⟨pt, hrun, hlen, -⟩ := run_new_lookup hrange
  refine ⟨pt, hrun, ?_⟩
  intro va isWrite
  have hpanic : pt.translate va isWrite = none ↔ maxPages ≤ vaToVpn va := by
    rw [translate_eq_none_iff, hlen]
  constructor
  · intro hsafe
    obtain ⟨r, hr⟩ := hsafe.1
    by_contra hout
    have hnone := hpanic.mpr (by omega)
    rw [hr] at hnone
    cases hnone
  · intro hlt
    refine ⟨?_, fun hout => absurd hlt (by omega)⟩
    cases hresult : pt.translate va isWrite with
    | none => exact absurd (hpanic.mp hresult) (by omega)
    | some r => exact ⟨r, rfl⟩

theorem translate_faults_safely_iff_sample :
    ∃ pt, run step (new 4) [.map 3 9#32 5#8, .unmap 0] = some pt ∧
      (FaultsSafely pt 4 0x3000#32 true ↔ vaToVpn 0x3000#32 < 4) := by
  have hrange : ∀ op ∈ [Op.map 3 9#32 5#8, .unmap 0], op.vpn < 4 := by decide
  obtain ⟨pt, hrun, hsafe⟩ := translate_faults_safely_iff hrange
  exact ⟨pt, hrun, hsafe _ _⟩

/-- The first page behind a table of 1024 pages is no page fault. -/
theorem translate_out_of_bounds :
    (new 1024).translate 0x400000#32 false = none ∧
      ¬ FaultsSafely (new 1024) 1024 0x400000#32 false := by
  have hlen : (new 1024).entries.length = 1024 := List.length_replicate
  have hpanic : (new 1024).translate 0x400000#32 false = none := by
    rw [translate_eq_none_iff, hlen]
    decide
  refine ⟨hpanic, ?_⟩
  intro hsafe
  obtain ⟨r, hr⟩ := hsafe.1
  rw [hpanic] at hr
  cases hr

end OsCamp.PageTableWalk
