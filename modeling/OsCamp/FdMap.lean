import Mathlib.Data.Finmap
import Mathlib.Data.Nat.Find
import Mathlib.Data.Set.Finite.Basic
import OsCamp.FileDescriptors

/-!
The purpose of the descriptor table: a finite map from descriptors to files in which a new
file gets the least number that is not in use. The table answers every sequence of calls
as the map does.
-/

set_option autoImplicit false

namespace OsCamp.FdMap

open FileDescriptors

inductive Call (File : Type*)
  | alloc (file : File)
  | close (fd : ℕ)
  | get (fd : ℕ)
  | count

inductive Reply (File : Type*)
  | fd (fd : ℕ)
  | closed (success : Bool)
  | file (file : Option File)
  | count (n : ℕ)

abbrev OpenFiles (File : Type*) := Finmap fun _ : ℕ => File

variable {File : Type*}

namespace OpenFiles

theorem exists_free (m : OpenFiles File) : ∃ fd, m.lookup fd = none := by
  obtain ⟨fd, hfd⟩ := Infinite.exists_notMem_finset m.keys
  exact ⟨fd, Finmap.lookup_eq_none.mpr fun hmem => hfd (Finmap.mem_keys.mpr hmem)⟩

/-- The least number that is not open. -/
def leastFree (m : OpenFiles File) : ℕ := Nat.find m.exists_free

def serve (m : OpenFiles File) : Call File → OpenFiles File × Reply File
  | .alloc file => (m.insert m.leastFree file, .fd m.leastFree)
  | .close fd => (m.erase fd, .closed (m.lookup fd).isSome)
  | .get fd => (m, .file (m.lookup fd))
  | .count => (m, .count m.keys.card)

theorem leastFree_eq {m : OpenFiles File} {fd : ℕ} (hfree : m.lookup fd = none)
    (hleast : ∀ other < fd, m.lookup other ≠ none) : m.leastFree = fd :=
  (Nat.find_eq_iff m.exists_free).mpr ⟨hfree, hleast⟩

end OpenFiles

def serve (t : FdTable File) : Call File → FdTable File × Reply File
  | .alloc file => ((t.alloc file).1, .fd (t.alloc file).2)
  | .close fd => ((t.close fd).1, .closed (t.close fd).2)
  | .get fd => (t, .file (t.get fd))
  | .count => (t, .count t.count)

/-- Serve the calls in order, with a log of what was asked and answered. -/
def serveAll {S : Type*} (serve : S → Call File → S × Reply File) (s : S) :
    List (Call File) → S × List (Call File × Reply File)
  | [] => (s, [])
  | call :: rest =>
    ((serveAll serve (serve s call).1 rest).1,
      (call, (serve s call).2) :: (serveAll serve (serve s call).1 rest).2)

structure Represents (t : FdTable File) (m : OpenFiles File) : Prop where
  get_eq : ∀ fd, t.get fd = m.lookup fd
  count_eq : t.count = m.keys.card

theorem represents_new : Represents (FdTable.new : FdTable File) ∅ where
  get_eq _ := rfl
  count_eq := rfl

namespace Represents

variable {t : FdTable File} {m : OpenFiles File} {fd : ℕ} {file : File}

theorem alloc (h : Represents t m) (file : File) :
    (t.alloc file).2 = m.leastFree ∧
      Represents (t.alloc file).1 (m.insert m.leastFree file) := by
  have halloc := t.alloc_allocates file
  have hfree : m.lookup (t.alloc file).2 = none := (h.get_eq _).symm.trans halloc.free
  have hleast : m.leastFree = (t.alloc file).2 := by
    apply OpenFiles.leastFree_eq hfree
    intro other hother
    rw [← h.get_eq]
    exact halloc.least other hother
  rw [hleast]
  refine ⟨rfl, ?_, ?_⟩
  · intro fd
    rw [halloc.get_eq]
    by_cases hfd : fd = (t.alloc file).2
    · rw [hfd, Function.update_self, Finmap.lookup_insert]
    · rw [Function.update_of_ne hfd, Finmap.lookup_insert_of_ne _ hfd, h.get_eq]
  · have hkeys : (m.insert (t.alloc file).2 file).keys = insert (t.alloc file).2 m.keys := by
      ext fd
      rw [Finmap.mem_keys, Finmap.mem_insert, Finset.mem_insert, Finmap.mem_keys]
    have hnew : (t.alloc file).2 ∉ m.keys :=
      fun hmem => Finmap.lookup_eq_none.mp hfree (Finmap.mem_keys.mp hmem)
    rw [halloc.count_eq, hkeys, Finset.card_insert_of_notMem hnew, h.count_eq]

theorem close (h : Represents t m) (fd : ℕ) :
    (t.close fd).2 = (m.lookup fd).isSome ∧ Represents (t.close fd).1 (m.erase fd) := by
  by_cases hfd : t.get fd = none
  · have hclosed : m.lookup fd = none := (h.get_eq fd).symm.trans hfd
    have herase : m.erase fd = m := by
      apply Finmap.ext_lookup
      intro other
      by_cases hother : other = fd
      · rw [hother, Finmap.lookup_erase, hclosed]
      · exact Finmap.lookup_erase_ne hother
    rw [FdTable.close_closed hfd, herase, hclosed]
    exact ⟨rfl, h⟩
  · obtain ⟨hsuccess, hget, hcount⟩ := FdTable.close_open hfd
    have hopen : m.lookup fd ≠ none := by rwa [← h.get_eq]
    refine ⟨hsuccess.trans (Option.isSome_iff_ne_none.mpr hopen).symm, ?_, ?_⟩
    · intro other
      rw [hget]
      by_cases hother : other = fd
      · rw [hother, Function.update_self, Finmap.lookup_erase]
      · rw [Function.update_of_ne hother, Finmap.lookup_erase_ne hother, h.get_eq]
    · have hmem : fd ∈ m.keys := Finmap.mem_keys.mpr
        (Finmap.lookup_isSome.mp (Option.isSome_iff_ne_none.mpr hopen))
      have hcard := h.count_eq
      rw [Finmap.keys_erase, Finset.card_erase_of_mem hmem]
      omega

/-- One call is answered alike, and the table still represents the map. -/
theorem serve (h : Represents t m) (call : Call File) :
    (FdMap.serve t call).2 = (m.serve call).2 ∧
      Represents (FdMap.serve t call).1 (m.serve call).1 := by
  cases call with
  | alloc file => exact ⟨congrArg Reply.fd (h.alloc file).1, (h.alloc file).2⟩
  | close fd => exact ⟨congrArg Reply.closed (h.close fd).1, (h.close fd).2⟩
  | get fd => exact ⟨congrArg Reply.file (h.get_eq fd), h⟩
  | count => exact ⟨congrArg Reply.count h.count_eq, h⟩

theorem serveAll (h : Represents t m) (calls : List (Call File)) :
    (FdMap.serveAll FdMap.serve t calls).2 = (FdMap.serveAll OpenFiles.serve m calls).2 ∧
      Represents (FdMap.serveAll FdMap.serve t calls).1
        (FdMap.serveAll OpenFiles.serve m calls).1 := by
  induction calls generalizing t m with
  | nil => exact ⟨rfl, h⟩
  | cons call rest ih =>
    obtain ⟨hreply, hnext⟩ := h.serve call
    obtain ⟨hlog, hend⟩ := ih hnext
    refine ⟨?_, hend⟩
    show (call, _) :: _ = (call, _) :: _
    rw [hreply, hlog]

end Represents

def Touches (fd : ℕ) (entry : Call File × Reply File) : Prop :=
  entry.1 = .close fd ∨ entry.2 = .fd fd

/-- The last call that gave out `fd` was for this file, and `fd` was not closed since. -/
def MostRecent (log : List (Call File × Reply File)) (fd : ℕ) (file : File) : Prop :=
  ∃ earlier later, log = earlier ++ (.alloc file, .fd fd) :: later ∧
    ∀ entry ∈ later, ¬ Touches fd entry

variable {m : OpenFiles File} {fd : ℕ} {file : File} {entry : Call File × Reply File}
  {log : List (Call File × Reply File)}

theorem mostRecent_cons :
    MostRecent (entry :: log) fd file ↔
      (entry = (.alloc file, .fd fd) ∧ ∀ e ∈ log, ¬ Touches fd e) ∨ MostRecent log fd file := by
  constructor
  · rintro ⟨earlier, later, heq, hlater⟩
    rcases List.cons_eq_append_iff.mp heq with ⟨-, hhead⟩ | ⟨rest, -, htail⟩
    · obtain ⟨hentry, hlog⟩ := List.cons_eq_cons.mp hhead.symm
      exact Or.inl ⟨hentry, hlog ▸ hlater⟩
    · exact Or.inr ⟨rest, later, htail, hlater⟩
  · rintro (⟨hentry, hlog⟩ | ⟨earlier, later, heq, hlater⟩)
    · exact ⟨[], log, by rw [hentry]; rfl, hlog⟩
    · exact ⟨entry :: earlier, later, by rw [heq]; rfl, hlater⟩

/-- What is open after one call: the file just given out, or what was open and untouched. -/
theorem lookup_serve (m : OpenFiles File) (call : Call File) (fd : ℕ) (file : File) :
    (m.serve call).1.lookup fd = some file ↔
      (call, (m.serve call).2) = (.alloc file, .fd fd) ∨
        (m.lookup fd = some file ∧ ¬ Touches fd (call, (m.serve call).2)) := by
  cases call with
  | alloc other =>
    by_cases hfd : fd = m.leastFree
    · subst hfd
      simp [OpenFiles.serve, Touches]
    · simp [OpenFiles.serve, Touches, hfd, Ne.symm hfd, Finmap.lookup_insert_of_ne]
  | close other =>
    by_cases hfd : fd = other
    · subst hfd
      simp [OpenFiles.serve, Touches]
    · simp [OpenFiles.serve, Touches, Ne.symm hfd, Finmap.lookup_erase_ne hfd]
  | get other => simp [OpenFiles.serve, Touches]
  | count => simp [OpenFiles.serve, Touches]

theorem lookup_serveAll (m : OpenFiles File) (calls : List (Call File)) (fd : ℕ) (file : File) :
    (serveAll OpenFiles.serve m calls).1.lookup fd = some file ↔
      MostRecent (serveAll OpenFiles.serve m calls).2 fd file ∨
        (m.lookup fd = some file ∧
          ∀ e ∈ (serveAll OpenFiles.serve m calls).2, ¬ Touches fd e) := by
  induction calls generalizing m with
  | nil => simp [serveAll, MostRecent]
  | cons call rest ih =>
    show (serveAll OpenFiles.serve (m.serve call).1 rest).1.lookup fd = some file ↔
      MostRecent ((call, (m.serve call).2) :: _) fd file ∨
        (_ ∧ ∀ e ∈ (call, (m.serve call).2) :: _, ¬ Touches fd e)
    rw [ih, lookup_serve, mostRecent_cons, List.forall_mem_cons]
    tauto

/-- From the empty table, every sequence of calls is answered as by the finite map; a
descriptor stands for the file it was last given out for unless it was closed since, and
the next descriptor given out is the least that is not open. -/
theorem serveAll_refines (calls : List (Call File)) :
    let t := (serveAll serve FdTable.new calls).1
    let log := (serveAll serve FdTable.new calls).2
    log = (serveAll OpenFiles.serve ∅ calls).2 ∧
    Represents t (serveAll OpenFiles.serve ∅ calls).1 ∧
    (∀ fd file, t.get fd = some file ↔ MostRecent log fd file) ∧
    ∀ file, IsLeast {fd | t.get fd = none} (t.alloc file).2 := by
  intro t log
  have hnew : Represents (FdTable.new : FdTable File) ∅ := represents_new
  obtain ⟨hlog, hend⟩ := hnew.serveAll calls
  refine ⟨hlog, hend, ?_, ?_⟩
  · intro fd file
    have hlookup := lookup_serveAll (∅ : OpenFiles File) calls fd file
    rw [Finmap.lookup_empty] at hlookup
    show t.get fd = some file ↔ MostRecent (serveAll serve FdTable.new calls).2 fd file
    rw [hend.get_eq, hlog, hlookup]
    simp
  · intro file
    have halloc := t.alloc_allocates file
    refine ⟨halloc.free, fun other hother => ?_⟩
    exact Nat.le_of_not_lt fun hlt => halloc.least other hlt hother

/-- Closing 1 of three open descriptors lets the next two calls take 1 and 3. -/
example : (serveAll serve FdTable.new [.alloc 'a', .alloc 'b', .alloc 'c', .close 1, .close 1,
      .alloc 'd', .alloc 'e', .count]).2.map Prod.snd =
    [.fd 0, .fd 1, .fd 2, .closed true, .closed false, .fd 1, .fd 3, .count 4] := rfl

end OsCamp.FdMap
