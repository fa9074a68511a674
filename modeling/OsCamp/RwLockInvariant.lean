import OsCamp.RwLockWord

/-!
The lock word agrees with the live guards in every interleaving. Each atomic
step has one of seven effects; the invariant is carried through the effects and
from there along every run. Stale values in the threads are part of it: what a
`compare_exchange` expects was read when the loop's tests passed.
-/

set_option autoImplicit false

namespace OsCamp.RwLockInvariant

open Execution RwLock RwLockWord

/-- Between the `fetch_or` of a `write` call and its acquisition. -/
def Waiting : Pc → Prop
  | .idle => False
  | .readLoad => False
  | .readCas _ => False
  | .writeAnnounce => False
  | .writeLoad => True
  | .writeCasWaiting _ => True
  | .writeCasFree => True

instance (pc : Pc) : Decidable (Waiting pc) := by
  cases pc <;> unfold Waiting <;> infer_instance

variable {T : Type*} {s s' : State T}

/-- A move of `t` alone: what it may remember, and that it neither starts nor ends waiting. -/
structure LocalMove (s : State T) (t : T) (pc : Pc) : Prop where
  waiting : Waiting pc ↔ Waiting (s.pc t)
  read : ∀ seen, pc = .readCas seen → seen = s.word ∧
    s.word &&& (writerHolding ||| writerWaiting) = 0 ∧ s.word &&& readerMask ≠ readerMask
  write : ∀ seen, pc = .writeCasWaiting seen → seen = s.word ∧
    s.word &&& (readerMask ||| writerHolding) = 0

theorem localMove_of_no_cas {t : T} {pc : Pc} (hwait : Waiting pc ↔ Waiting (s.pc t))
    (hread : ∀ seen, pc ≠ .readCas seen) (hwrite : ∀ seen, pc ≠ .writeCasWaiting seen) :
    LocalMove s t pc where
  waiting := hwait
  read seen h := absurd h (hread seen)
  write seen h := absurd h (hwrite seen)

/-- The word read off the guards, with the waiting flag left open. -/
def Says (s : State T) (waiting : Bool) : Prop :=
  s.word = encode s.readGuards (decide (0 < s.writeGuards)) waiting

structure Inv (s : State T) : Prop where
  word : ∃ waiting, Says s waiting ∧ (waiting = true → ∃ t, Waiting (s.pc t))
  readers_lt : s.readGuards < 2 ^ 30
  writers_le : s.writeGuards ≤ 1
  exclusive : 0 < s.writeGuards → s.readGuards = 0
  /-- A reader about to exchange saw no flag and room for one more. -/
  readCas : ∀ t seen, s.pc t = .readCas seen →
    ∃ readers, readers + 1 < 2 ^ 30 ∧ seen = encode readers false false
  /-- A writer about to exchange saw no reader and no holder. -/
  writeCas : ∀ t seen, s.pc t = .writeCasWaiting seen → ∃ waiting, seen = encode 0 false waiting

theorem inv_new : Inv (State.new : State T) where
  word := ⟨false, zero_eq_encode, by simp⟩
  readers_lt := by simp [State.new]
  writers_le := by simp [State.new]
  exclusive := by simp [State.new]
  readCas := by simp [State.new]
  writeCas := by simp [State.new]

namespace Inv

/-- A reader's exchange succeeds only on a word without flags and with room. -/
theorem readCas_word (h : Inv s) {t : T} {seen : BitVec 32} (hpc : s.pc t = .readCas seen)
    (hword : s.word = seen) :
    s.word = encode s.readGuards false false ∧ s.readGuards + 1 < 2 ^ 30 ∧
      s.writeGuards = 0 := by
  obtain ⟨waiting, hencoded, -⟩ := h.word
  obtain ⟨readers, hlt, hseen⟩ := h.readCas t seen hpc
  have heq : encode s.readGuards (decide (0 < s.writeGuards)) waiting =
      encode readers false false := by
    rw [← hencoded, hword, hseen]
  obtain ⟨hr, hh, -⟩ := encode_inj h.readers_lt (by omega) heq
  have hzero : ¬ 0 < s.writeGuards := of_decide_eq_false hh
  refine ⟨by rw [hword, hseen, hr], by omega, by omega⟩

/-- A writer's exchange succeeds only when no guard is live. -/
theorem writeCas_free (h : Inv s) {t : T}
    (hword : s.word = 0 ∨ ∃ seen, s.pc t = .writeCasWaiting seen ∧
      s.word = seen ||| writerWaiting) : s.readGuards = 0 ∧ s.writeGuards = 0 := by
  obtain ⟨waiting, hencoded, -⟩ := h.word
  have hfree : ∃ waiting', s.word = encode 0 false waiting' := by
    rcases hword with hzero | ⟨seen, hpc, hword⟩
    · exact ⟨false, by rw [hzero, zero_eq_encode]⟩
    · obtain ⟨waiting', hseen⟩ := h.writeCas t seen hpc
      exact ⟨true, by rw [hword, hseen, encode_or_waiting (by omega)]⟩
  obtain ⟨waiting', hword'⟩ := hfree
  obtain ⟨hr, hh, -⟩ := encode_inj h.readers_lt (by omega) (hencoded.symm.trans hword')
  have hzero : ¬ 0 < s.writeGuards := of_decide_eq_false hh
  exact ⟨hr, by omega⟩

theorem dropRead (h : Inv s) (hpos : 0 < s.readGuards) : Inv s.dropRead := by
  obtain ⟨waiting, hencoded, hwait⟩ := h.word
  have hlt := h.readers_lt
  refine ⟨⟨waiting, ?_, hwait⟩, ?_, h.writers_le, ?_, h.readCas, h.writeCas⟩
  · change s.word - 1 = encode (s.readGuards - 1) (decide (0 < s.writeGuards)) waiting
    rw [hencoded, encode_sub_one hpos hlt]
  · change s.readGuards - 1 < 2 ^ 30
    omega
  · intro hw
    have hzero := h.exclusive hw
    omega

theorem dropWrite (h : Inv s) (hpos : 0 < s.writeGuards) : Inv s.dropWrite := by
  obtain ⟨waiting, hencoded, -⟩ := h.word
  have hle := h.writers_le
  refine ⟨⟨false, ?_, by simp⟩, h.readers_lt, ?_, fun _ => h.exclusive hpos, h.readCas,
    h.writeCas⟩
  · change s.word &&& ~~~(writerHolding ||| writerWaiting) =
      encode s.readGuards (decide (0 < s.writeGuards - 1)) false
    rw [hencoded, encode_and_not_flags h.readers_lt, decide_eq_false (by omega)]
  · change s.writeGuards - 1 ≤ 1
    omega

end Inv

variable [DecidableEq T]

/-- Everything one atomic step can do, the drop of a write guard apart. -/
inductive Effect (s : State T) : State T → Prop
  | stay : Effect s s
  | move (t : T) (pc : Pc) (h : LocalMove s t pc) : Effect s (s.goto t pc)
  | acquireRead (t : T) (seen : BitVec 32) (hpc : s.pc t = .readCas seen)
      (hword : s.word = seen) : Effect s (s.acquireRead t (seen + 1))
  | announce (t : T) (hpc : s.pc t = .writeAnnounce) : Effect s (s.writeAnnounce t)
  | acquireWrite (t : T) (hpc : Waiting (s.pc t))
      (hword : s.word = 0 ∨ ∃ seen, s.pc t = .writeCasWaiting seen ∧
        s.word = seen ||| writerWaiting) : Effect s (s.acquireWrite t)
  | dropRead (h : 0 < s.readGuards) : Effect s s.dropRead

theorem readLoad_effect (t : T) (hpc : s.pc t = .readLoad) : Effect s (s.readLoad t) := by
  unfold State.readLoad
  split_ifs with hflags hmask
  · exact Effect.stay
  · exact Effect.stay
  · refine Effect.move t _ ⟨by simp [Waiting, hpc], ?_, by simp⟩
    intro seen hseen
    rw [Pc.readCas.injEq] at hseen
    exact ⟨hseen.symm, not_not.mp hflags, hmask⟩

theorem readCas_effect (t : T) (seen : BitVec 32) (hpc : s.pc t = .readCas seen) :
    Effect s (s.readCas t seen) := by
  unfold State.readCas
  split_ifs with hword
  · exact Effect.acquireRead t seen hpc hword
  · exact Effect.move t _ (localMove_of_no_cas (by simp [Waiting, hpc]) (by simp) (by simp))

theorem writeLoad_effect (t : T) (hpc : s.pc t = .writeLoad) : Effect s (s.writeLoad t) := by
  unfold State.writeLoad
  split_ifs with hbusy
  · exact Effect.stay
  · refine Effect.move t _ ⟨by simp [Waiting, hpc], by simp, ?_⟩
    intro seen hseen
    rw [Pc.writeCasWaiting.injEq] at hseen
    exact ⟨hseen.symm, not_not.mp hbusy⟩

theorem writeCasWaiting_effect (t : T) (seen : BitVec 32)
    (hpc : s.pc t = .writeCasWaiting seen) : Effect s (s.writeCasWaiting t seen) := by
  unfold State.writeCasWaiting
  split_ifs with hword
  · exact Effect.acquireWrite t (by simp [Waiting, hpc]) (Or.inr ⟨seen, hpc, hword⟩)
  · exact Effect.move t _ (localMove_of_no_cas (by simp [Waiting, hpc]) (by simp) (by simp))

theorem writeCasFree_effect (t : T) (hpc : s.pc t = .writeCasFree) :
    Effect s (s.writeCasFree t) := by
  unfold State.writeCasFree
  split_ifs with hword
  · exact Effect.acquireWrite t (by simp [Waiting, hpc]) (Or.inl hword)
  · exact Effect.move t _ (localMove_of_no_cas (by simp [Waiting, hpc]) (by simp) (by simp))

theorem advance_effect (t : T) (h : s.advance t = some s') : Effect s s' := by
  unfold State.advance at h
  cases hpc : s.pc t with
  | idle => simp [hpc] at h
  | readLoad =>
    simp only [hpc, Option.some.injEq] at h
    exact h ▸ readLoad_effect t hpc
  | readCas seen =>
    simp only [hpc, Option.some.injEq] at h
    exact h ▸ readCas_effect t seen hpc
  | writeAnnounce =>
    simp only [hpc, Option.some.injEq] at h
    exact h ▸ Effect.announce t hpc
  | writeLoad =>
    simp only [hpc, Option.some.injEq] at h
    exact h ▸ writeLoad_effect t hpc
  | writeCasWaiting seen =>
    simp only [hpc, Option.some.injEq] at h
    exact h ▸ writeCasWaiting_effect t seen hpc
  | writeCasFree =>
    simp only [hpc, Option.some.injEq] at h
    exact h ▸ writeCasFree_effect t hpc

/-- A step is one of the effects, or the drop of a live write guard. -/
theorem step_cases {a : Action T} (h : step s a = some s') :
    Effect s s' ∨ ∃ t, a = .dropWrite t ∧ 0 < s.writeGuards ∧ s' = s.dropWrite := by
  cases a with
  | beginRead t =>
    simp only [step, Option.ite_none_right_eq_some, Option.some.injEq] at h
    obtain ⟨hpc, rfl⟩ := h
    exact Or.inl (Effect.move t _
      (localMove_of_no_cas (by simp [Waiting, hpc]) (by simp) (by simp)))
  | beginWrite t =>
    simp only [step, Option.ite_none_right_eq_some, Option.some.injEq] at h
    obtain ⟨hpc, rfl⟩ := h
    exact Or.inl (Effect.move t _
      (localMove_of_no_cas (by simp [Waiting, hpc]) (by simp) (by simp)))
  | advance t => exact Or.inl (advance_effect t h)
  | dropRead t =>
    simp only [step, Option.ite_none_right_eq_some, Option.some.injEq] at h
    obtain ⟨⟨-, hpos⟩, rfl⟩ := h
    exact Or.inl (Effect.dropRead hpos)
  | dropWrite t =>
    simp only [step, Option.ite_none_right_eq_some, Option.some.injEq] at h
    obtain ⟨⟨-, hpos⟩, rfl⟩ := h
    exact Or.inr ⟨t, rfl, hpos, rfl⟩

theorem goto_pc (s : State T) (t u : T) (pc : Pc) :
    (s.goto t pc).pc u = if u = t then pc else s.pc u := by
  by_cases hu : u = t
  · subst u
    simp [State.goto]
  · simp [State.goto, hu]

namespace Inv

/-- Stale values survive a move to a counter that remembers nothing. -/
theorem readCas_goto (h : Inv s) {t : T} {pc : Pc} (hpc : ∀ seen, pc ≠ .readCas seen) (u : T)
    (seen : BitVec 32) (hu : (s.goto t pc).pc u = .readCas seen) :
    ∃ readers, readers + 1 < 2 ^ 30 ∧ seen = encode readers false false := by
  rw [goto_pc] at hu
  split_ifs at hu
  · exact absurd hu (hpc seen)
  · exact h.readCas u seen hu

theorem writeCas_goto (h : Inv s) {t : T} {pc : Pc} (hpc : ∀ seen, pc ≠ .writeCasWaiting seen)
    (u : T) (seen : BitVec 32) (hu : (s.goto t pc).pc u = .writeCasWaiting seen) :
    ∃ waiting, seen = encode 0 false waiting := by
  rw [goto_pc] at hu
  split_ifs at hu
  · exact absurd hu (hpc seen)
  · exact h.writeCas u seen hu

theorem move (h : Inv s) {t : T} {pc : Pc} (hm : LocalMove s t pc) : Inv (s.goto t pc) where
  word := by
    obtain ⟨waiting, hencoded, hwait⟩ := h.word
    refine ⟨waiting, hencoded, ?_⟩
    intro htrue
    obtain ⟨u, hu⟩ := hwait htrue
    refine ⟨u, ?_⟩
    rw [goto_pc]
    split_ifs with hut
    · exact hm.waiting.mpr (hut ▸ hu)
    · exact hu
  readers_lt := h.readers_lt
  writers_le := h.writers_le
  exclusive := h.exclusive
  readCas u seen hu := by
    rw [goto_pc] at hu
    split_ifs at hu
    · obtain ⟨hseen, hflags, hmask⟩ := hm.read seen hu
      obtain ⟨waiting, hencoded, -⟩ := h.word
      have hlt := h.readers_lt
      rw [hencoded, and_flags_eq_zero_iff hlt] at hflags
      rw [hencoded, Ne, and_readerMask_eq_iff hlt] at hmask
      exact ⟨s.readGuards, by omega, by rw [hseen, hencoded, hflags.1, hflags.2]⟩
    · exact h.readCas u seen hu
  writeCas u seen hu := by
    rw [goto_pc] at hu
    split_ifs at hu
    · obtain ⟨hseen, hbusy⟩ := hm.write seen hu
      obtain ⟨waiting, hencoded, -⟩ := h.word
      rw [hencoded, and_busy_eq_zero_iff h.readers_lt] at hbusy
      exact ⟨waiting, by rw [hseen, hencoded, hbusy.1, hbusy.2]⟩
    · exact h.writeCas u seen hu

theorem acquireRead (h : Inv s) {t : T} {seen : BitVec 32} (hpc : s.pc t = .readCas seen)
    (hword : s.word = seen) : Inv (s.acquireRead t (seen + 1)) := by
  obtain ⟨hencoded, hlt, hzero⟩ := h.readCas_word hpc hword
  refine ⟨⟨false, ?_, by simp⟩, hlt, ?_, ?_, h.readCas_goto (by simp), h.writeCas_goto (by simp)⟩
  · change seen + 1 = encode (s.readGuards + 1) (decide (0 < s.writeGuards)) false
    rw [← hword, hencoded, hzero, encode_add_one hlt]
    rfl
  · change s.writeGuards ≤ 1
    omega
  · intro hpos
    change 0 < s.writeGuards at hpos
    omega

theorem announce (h : Inv s) (t : T) : Inv (s.writeAnnounce t) := by
  obtain ⟨waiting, hencoded, -⟩ := h.word
  refine ⟨⟨true, ?_, ?_⟩, h.readers_lt, h.writers_le, h.exclusive, h.readCas_goto (by simp),
    h.writeCas_goto (by simp)⟩
  · change s.word ||| writerWaiting = _
    rw [hencoded, encode_or_waiting h.readers_lt]
    rfl
  · intro _
    refine ⟨t, ?_⟩
    change Waiting ((s.goto t .writeLoad).pc t)
    rw [goto_pc, if_pos rfl]
    trivial

theorem acquireWrite (h : Inv s) {t : T}
    (hword : s.word = 0 ∨ ∃ seen, s.pc t = .writeCasWaiting seen ∧
      s.word = seen ||| writerWaiting) : Inv (s.acquireWrite t) := by
  obtain ⟨hr, hw⟩ := h.writeCas_free hword
  refine ⟨⟨false, ?_, by simp⟩, h.readers_lt, ?_, fun _ => hr, h.readCas_goto (by simp),
    h.writeCas_goto (by simp)⟩
  · change writerHolding = encode s.readGuards (decide (0 < s.writeGuards + 1)) false
    rw [hr, decide_eq_true (Nat.succ_pos _), writerHolding_eq_encode]
  · change s.writeGuards + 1 ≤ 1
    omega

theorem effect (h : Inv s) (he : Effect s s') : Inv s' := by
  cases he with
  | stay => exact h
  | move t pc hm => exact h.move hm
  | acquireRead t seen hpc hword => exact h.acquireRead hpc hword
  | announce t hpc => exact h.announce t
  | acquireWrite t hpc hword => exact h.acquireWrite hword
  | dropRead hpos => exact h.dropRead hpos

theorem step (h : Inv s) {a : Action T} (hs : step s a = some s') : Inv s' := by
  rcases step_cases hs with he | ⟨t, -, hpos, hdrop⟩
  · exact h.effect he
  · rw [hdrop]
    exact h.dropWrite hpos

theorem reachable (h : Reachable RwLock.step State.new s) : Inv s :=
  Reach.invariant inv_new (fun _ _ _ hi _ hs => hi.step hs) h

end Inv

/-- In every interleaving a live write guard is the only guard, the low bits
count the read guards, the holding bit tells whether a write guard is live, and
neither the increment nor the decrement of the count touches the flags. -/
theorem reachable_guards (h : Reachable step State.new s) :
    (0 < s.writeGuards → s.writeGuards = 1 ∧ s.readGuards = 0) ∧
      (s.word &&& readerMask).toNat = s.readGuards ∧
      (s.word &&& writerHolding ≠ 0 ↔ 0 < s.writeGuards) ∧
      (∀ t seen, s.pc t = .readCas seen → s.word = seen →
        (s.word &&& readerMask).toNat < readerMask.toNat ∧
        (seen + 1) &&& (writerHolding ||| writerWaiting) =
          s.word &&& (writerHolding ||| writerWaiting)) ∧
      (0 < s.readGuards → 0 < (s.word &&& readerMask).toNat ∧
        (s.word - 1) &&& (writerHolding ||| writerWaiting) =
          s.word &&& (writerHolding ||| writerWaiting)) := by
  have hinv := Inv.reachable h
  obtain ⟨waiting, hencoded, -⟩ := hinv.word
  have hlt := hinv.readers_lt
  have hle := hinv.writers_le
  have hcount : (s.word &&& readerMask).toNat = s.readGuards := by
    rw [hencoded, toNat_and_readerMask hlt]
  refine ⟨?_, hcount, ?_, ?_, ?_⟩
  · intro hpos
    exact ⟨by omega, hinv.exclusive hpos⟩
  · rw [hencoded, and_writerHolding_ne_zero_iff hlt, decide_eq_true_iff]
  · intro t seen hpc hword
    obtain ⟨hfree, hroom, -⟩ := hinv.readCas_word hpc hword
    have hmask : readerMask.toNat = 2 ^ 30 - 1 := rfl
    refine ⟨by omega, ?_⟩
    rw [← hword, hfree, encode_add_one hroom, (and_flags_eq_zero_iff hroom).mpr ⟨rfl, rfl⟩,
      (and_flags_eq_zero_iff hlt).mpr ⟨rfl, rfl⟩]
  · intro hpos
    refine ⟨by omega, ?_⟩
    rw [hencoded, encode_sub_one hpos hlt, and_flags_eq hlt, and_flags_eq (by omega)]

theorem reachable_guards_two_readers :
    ∃ s, run step (State.new : State (Fin 2)) [.beginRead 0, .advance 0, .advance 0,
        .beginRead 1, .advance 1, .advance 1] = some s ∧
      (s.word &&& readerMask).toNat = s.readGuards ∧ s.readGuards = 2 := by
  let calls : List (Action (Fin 2)) := [.beginRead 0, .advance 0, .advance 0,
    .beginRead 1, .advance 1, .advance 1]
  have htwo : (run step (State.new : State (Fin 2)) calls).map State.readGuards = some 2 := by
    decide
  obtain ⟨s, hrun, hguards⟩ := Option.map_eq_some_iff.mp htwo
  exact ⟨s, hrun, (reachable_guards (Reach.run Reach.init hrun)).2.1, hguards⟩

end OsCamp.RwLockInvariant
