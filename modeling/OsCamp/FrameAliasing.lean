import OsCamp.PageTableWalk

/-!
Physical addresses of the single-level page table. `make_pa` shifts the frame number in 32
bits, which keeps its low 20 bits only. Two pages in different frames have an address in
common exactly where their frame numbers agree in these bits.
-/

set_option autoImplicit false

namespace OsCamp.FrameAliasing

open Execution PageTableWalk SingleLevelPageTable

/-- Physical addresses agree exactly where the frame and the offset in it do. -/
def NeverAlias (pt : SingleLevelPageTable) (maxPages : ℕ) : Prop :=
  ∀ va₁ va₂ isWrite₁ isWrite₂ e₁ e₂ p₁ p₂, vaToVpn va₁ < maxPages → vaToVpn va₂ < maxPages →
    pt.lookup (vaToVpn va₁) = some (some e₁) → pt.lookup (vaToVpn va₂) = some (some e₂) →
    pt.translate va₁ isWrite₁ = some (.ok p₁) → pt.translate va₂ isWrite₂ = some (.ok p₂) →
    (p₁ = p₂ ↔ e₁.ppn = e₂.ppn ∧ vaToOffset va₁ = vaToOffset va₂)

/-- A valid entry that the calls leave for a page with a 32-bit address. -/
def Installed (ops : List Op) (maxPages : ℕ) (e : PageTableEntry) : Prop :=
  ∃ vpn, vpn < maxPages ∧ vpn < 2 ^ 20 ∧ (lastOp ops vpn).bind Op.slot = some e ∧
    e.flags &&& pteValid ≠ 0#8

/-- No two valid entries hold different frames that agree in the low 20 bits. -/
def FramesApart (ops : List Op) (maxPages : ℕ) : Prop :=
  ∀ e₁ e₂, Installed ops maxPages e₁ → Installed ops maxPages e₂ →
    e₁.ppn.toNat % 2 ^ 20 = e₂.ppn.toNat % 2 ^ 20 → e₁.ppn = e₂.ppn

variable {pt : SingleLevelPageTable} {va : BitVec 32} {e : PageTableEntry} {p : BitVec 32}
  {isWrite : Bool} {ops : List Op} {maxPages : ℕ}

theorem toNat_vaToOffset_lt (va : BitVec 32) : (vaToOffset va).toNat < 2 ^ pageOffsetBits := by
  rw [toNat_vaToOffset]
  exact Nat.mod_lt _ (Nat.two_pow_pos pageOffsetBits)

theorem vaToVpn_eq (va : BitVec 32) : vaToVpn va = va.toNat / 2 ^ pageOffsetBits := by
  rw [vaToVpn, BitVec.toNat_ushiftRight, Nat.shiftRight_eq_div_pow]

theorem vaToVpn_lt (va : BitVec 32) : vaToVpn va < 2 ^ 20 := by
  have hva := va.isLt
  rw [vaToVpn_eq]
  unfold pageOffsetBits
  omega

theorem makePa_eq_iff {ppn₁ ppn₂ offset₁ offset₂ : BitVec 32}
    (h₁ : offset₁.toNat < 2 ^ pageOffsetBits) (h₂ : offset₂.toNat < 2 ^ pageOffsetBits) :
    makePa ppn₁ offset₁ = makePa ppn₂ offset₂ ↔
      ppn₁.toNat % 2 ^ 20 = ppn₂.toNat % 2 ^ 20 ∧ offset₁ = offset₂ := by
  rw [← BitVec.toNat_inj, ← BitVec.toNat_inj (x := offset₁), toNat_makePa_mod ppn₁ h₁,
    toNat_makePa_mod ppn₂ h₂]
  unfold pageOffsetBits at h₁ h₂ ⊢
  omega

/-- The frame number can be read off the address exactly where it has 20 bits. -/
theorem makePa_keeps_ppn_iff (ppn : BitVec 32) {offset : BitVec 32}
    (hoffset : offset.toNat < 2 ^ pageOffsetBits) :
    (makePa ppn offset).toNat / 2 ^ pageOffsetBits = ppn.toNat ↔ ppn.toNat < 2 ^ 20 := by
  rw [toNat_makePa_mod ppn hoffset]
  unfold pageOffsetBits at hoffset ⊢
  omega

theorem translate_ok (hentry : pt.lookup (vaToVpn va) = some (some e))
    (hok : pt.translate va isWrite = some (.ok p)) :
    e.flags &&& pteValid ≠ 0#8 ∧ p = makePa e.ppn (vaToOffset va) := by
  unfold SingleLevelPageTable.translate at hok
  simp only [hentry] at hok
  split_ifs at hok with hvalid hwrite
  · cases hok
  · cases hok
  · cases hok
    exact ⟨hvalid, rfl⟩

theorem translate_of_valid (hentry : pt.lookup (vaToVpn va) = some (some e))
    (hvalid : e.flags &&& pteValid ≠ 0#8) :
    pt.translate va false = some (.ok (makePa e.ppn (vaToOffset va))) := by
  unfold SingleLevelPageTable.translate
  simp only [hentry, if_neg hvalid, Bool.false_eq_true, false_and, if_false]

/-- The first address of a page. -/
theorem exists_va {vpn : ℕ} (hvpn : vpn < 2 ^ 20) :
    ∃ va, vaToVpn va = vpn ∧ (vaToOffset va).toNat = 0 := by
  have hva : (BitVec.ofNat 32 (vpn * 4096)).toNat = vpn * 4096 := by
    rw [BitVec.toNat_ofNat]
    omega
  refine ⟨BitVec.ofNat 32 (vpn * 4096), ?_, ?_⟩
  · rw [vaToVpn_eq, hva]
    unfold pageOffsetBits
    omega
  · rw [toNat_vaToOffset, hva]
    unfold pageOffsetBits
    omega

/-- In every table reached, addresses alias exactly where two valid entries hold different
frames that agree in the low 20 bits; the address keeps every bit of a frame number exactly
where that has no more than 20. -/
theorem neverAlias_iff (hrange : ∀ op ∈ ops, op.vpn < maxPages) :
    (∃ pt, run step (new maxPages) ops = some pt ∧
      (NeverAlias pt maxPages ↔ FramesApart ops maxPages)) ∧
    ∀ ppn offset : BitVec 32, offset.toNat < 2 ^ pageOffsetBits →
      ((makePa ppn offset).toNat / 2 ^ pageOffsetBits = ppn.toNat ↔ ppn.toNat < 2 ^ 20) := by
  obtain ⟨pt, hrun, -, hlookup⟩ := run_new_lookup hrange
  refine ⟨⟨pt, hrun, ?_, ?_⟩, fun ppn offset => makePa_keeps_ppn_iff ppn⟩
  · intro hnever e₁ e₂ hinstalled₁ hinstalled₂ hframes
    obtain ⟨vpn₁, hlt₁, haddr₁, hlast₁, hvalid₁⟩ := hinstalled₁
    obtain ⟨vpn₂, hlt₂, haddr₂, hlast₂, hvalid₂⟩ := hinstalled₂
    obtain ⟨va₁, rfl, hoff₁⟩ := exists_va haddr₁
    obtain ⟨va₂, rfl, hoff₂⟩ := exists_va haddr₂
    have hentry₁ := (hlookup _ hlt₁).trans (congrArg some hlast₁)
    have hentry₂ := (hlookup _ hlt₂).trans (congrArg some hlast₂)
    have hoffset : vaToOffset va₁ = vaToOffset va₂ :=
      BitVec.eq_of_toNat_eq (hoff₁.trans hoff₂.symm)
    have hsame : makePa e₁.ppn (vaToOffset va₁) = makePa e₂.ppn (vaToOffset va₂) :=
      (makePa_eq_iff (toNat_vaToOffset_lt _) (toNat_vaToOffset_lt _)).mpr ⟨hframes, hoffset⟩
    exact ((hnever va₁ va₂ false false e₁ e₂ _ _ hlt₁ hlt₂ hentry₁ hentry₂
      (translate_of_valid hentry₁ hvalid₁) (translate_of_valid hentry₂ hvalid₂)).mp hsame).1
  · intro hapart va₁ va₂ isWrite₁ isWrite₂ e₁ e₂ p₁ p₂ hlt₁ hlt₂ hentry₁ hentry₂ hok₁ hok₂
    obtain ⟨hvalid₁, rfl⟩ := translate_ok hentry₁ hok₁
    obtain ⟨hvalid₂, rfl⟩ := translate_ok hentry₂ hok₂
    have hlast₁ := Option.some.inj ((hlookup _ hlt₁).symm.trans hentry₁)
    have hlast₂ := Option.some.inj ((hlookup _ hlt₂).symm.trans hentry₂)
    have hframes := hapart e₁ e₂ ⟨_, hlt₁, vaToVpn_lt va₁, hlast₁, hvalid₁⟩
      ⟨_, hlt₂, vaToVpn_lt va₂, hlast₂, hvalid₂⟩
    rw [makePa_eq_iff (toNat_vaToOffset_lt _) (toNat_vaToOffset_lt _)]
    constructor
    · intro hsame
      exact ⟨hframes hsame.1, hsame.2⟩
    · intro hsame
      exact ⟨by rw [hsame.1], hsame.2⟩

/-- Frame numbers of at most 20 bits are apart. -/
theorem framesApart_of_fits (hfits : ∀ op ∈ ops, op.FrameFits) : FramesApart ops maxPages := by
  have hlow : ∀ e, Installed ops maxPages e → e.ppn.toNat < 2 ^ 20 := by
    intro e hinstalled
    obtain ⟨vpn, -, -, hlast, -⟩ := hinstalled
    obtain ⟨op, hop, hslot⟩ := Option.bind_eq_some_iff.mp hlast
    have hfit := hfits op (lastOp_mem hop)
    cases op with
    | map vpn ppn flags =>
      cases hslot
      exact hfit
    | unmap vpn => cases hslot
  intro e₁ e₂ h₁ h₂ hmod
  have hlt₁ := hlow e₁ h₁
  have hlt₂ := hlow e₂ h₂
  apply BitVec.eq_of_toNat_eq
  omega

/-- Three pages, two of them in the same frame. -/
theorem neverAlias_three_pages :
    ∃ pt, run step (new 3) [.map 0 5#32 1#8, .map 1 6#32 1#8, .map 2 5#32 7#8] = some pt ∧
      NeverAlias pt 3 := by
  have hrange : ∀ op ∈ [Op.map 0 5#32 1#8, .map 1 6#32 1#8, .map 2 5#32 7#8], op.vpn < 3 := by
    decide
  obtain ⟨⟨pt, hrun, hnever⟩, -⟩ := neverAlias_iff hrange
  exact ⟨pt, hrun, hnever.mpr (framesApart_of_fits (by simp [Op.FrameFits]))⟩

/-- Frame 2^20 is shifted out of the word, and its page is found at the addresses of frame 0. -/
theorem frames_alias :
    ∃ pt, run step (new 2) [.map 0 0#32 1#8, .map 1 0x100000#32 1#8] = some pt ∧
      pt.translate 0#32 false = some (.ok 0#32) ∧
      pt.translate 0x1000#32 false = some (.ok 0#32) ∧ ¬ NeverAlias pt 2 := by
  refine ⟨_, rfl, rfl, rfl, ?_⟩
  intro hnever
  have hsame := hnever 0#32 0x1000#32 false false ⟨0#32, 1#8⟩ ⟨0x100000#32, 1#8⟩ 0#32 0#32
    (by decide) (by decide) rfl rfl rfl rfl
  have hppn : (0#32) = 0x100000#32 := (hsame.mp rfl).1
  exact absurd hppn (by decide)

end OsCamp.FrameAliasing
