import Mathlib.Data.List.Nodup

/-!
Singly linked lists given by a successor function. `Linked link a l z` says
that following `link` from `a` visits exactly the nodes of `l` and then arrives
at `z`. The node `a` stands for the place that holds the first pointer, so
removing the first node and removing a later one are the same operation.
-/

set_option autoImplicit false

namespace OsCamp.LinkedChain

variable {α : Type*}

def Linked (link : α → α) : α → List α → α → Prop
  | a, [], z => link a = z
  | a, b :: l, z => link a = b ∧ Linked link b l z

variable {link link' : α → α} {a b c p q z : α} {l l₁ l₂ : List α}

theorem Linked.append (h : Linked link a (l₁ ++ c :: l₂) z) :
    Linked link a l₁ c ∧ Linked link c l₂ z := by
  induction l₁ generalizing a with
  | nil => exact h
  | cons b l₁ ih => exact ⟨⟨h.1, (ih h.2).1⟩, (ih h.2).2⟩

/-- The successor of a node is a later node or the end. -/
theorem Linked.link_mem (h : Linked link a l z) (hp : p ∈ a :: l) : link p ∈ l ∨ link p = z := by
  induction l generalizing a with
  | nil =>
    rw [List.mem_singleton] at hp
    exact Or.inr (hp ▸ h)
  | cons b l ih =>
    rcases List.mem_cons.mp hp with hpa | hpl
    · left
      rw [hpa, h.1]
      exact List.mem_cons_self
    · rcases ih h.2 hpl with hmem | hend
      · exact Or.inl (List.mem_cons_of_mem _ hmem)
      · exact Or.inr hend

/-- The start may be redirected when its link still leads to the first node. -/
theorem Linked.redirect (h : Linked link a l z) (hstart : link' b = link a)
    (hrest : ∀ x ∈ l, link' x = link x) : Linked link' b l z := by
  induction l generalizing a b with
  | nil => exact hstart.trans h
  | cons c l ih =>
    refine ⟨hstart.trans h.1, ih h.2 (hrest c List.mem_cons_self) ?_⟩
    intro x hx
    exact hrest x (List.mem_cons_of_mem _ hx)

theorem Linked.congr (h : Linked link a l z) (heq : ∀ x ∈ a :: l, link' x = link x) :
    Linked link' a l z :=
  h.redirect (heq a List.mem_cons_self) fun x hx => heq x (List.mem_cons_of_mem _ hx)

/-- Two lists with the same start and an end that neither contains are equal. -/
theorem Linked.unique {l' : List α} (h : Linked link a l z) (h' : Linked link a l' z)
    (hz : z ∉ l) (hz' : z ∉ l') : l = l' := by
  induction l generalizing a l' with
  | nil =>
    cases l' with
    | nil => rfl
    | cons b l' => exact absurd (h.symm.trans h'.1 ▸ List.mem_cons_self) hz'
  | cons b l ih =>
    cases l' with
    | nil => exact absurd (h'.symm.trans h.1 ▸ List.mem_cons_self) hz
    | cons b' l' =>
      obtain ⟨hb, hl⟩ := h
      obtain ⟨hb', hl'⟩ := h'
      have heq : b' = b := hb'.symm.trans hb
      subst heq
      rw [ih hl hl' (fun hm => hz (List.mem_cons_of_mem _ hm))
        (fun hm => hz' (List.mem_cons_of_mem _ hm))]

/-- A list that ends visits no node twice: from a repeated node the rest of the
list would have two lengths. -/
theorem Linked.nodup (h : Linked link a l z) (hz : z ∉ l) : l.Nodup := by
  induction l generalizing a with
  | nil => exact List.nodup_nil
  | cons b l ih =>
    have hzl : z ∉ l := fun hm => hz (List.mem_cons_of_mem _ hm)
    refine List.nodup_cons.mpr ⟨?_, ih h.2 hzl⟩
    intro hmem
    obtain ⟨l₁, l₂, hsplit⟩ := List.append_of_mem hmem
    have hl := h.2
    rw [hsplit] at hl hzl
    have hz₂ : z ∉ l₂ := by
      intro hm
      exact hzl (List.mem_append_right _ (List.mem_cons_of_mem _ hm))
    have hlength := congrArg List.length (hl.unique hl.append.2 hzl hz₂)
    simp only [List.length_append, List.length_cons] at hlength
    omega

/-- A node is reached from one place only. -/
theorem Linked.link_inj (h : Linked link a l z) (hz : z ∉ l) (hp : p ∈ a :: l) (hq : q ∈ a :: l)
    (heq : link p = link q) (hmem : link p ∈ l) : p = q := by
  have hnodup := h.nodup hz
  induction l generalizing a with
  | nil => exact absurd hmem List.not_mem_nil
  | cons b l ih =>
    have hfirst : ∀ x ∈ b :: l, link x ≠ b := by
      intro x hx hxb
      rcases h.2.link_mem hx with hm | hend
      · exact (List.nodup_cons.mp hnodup).1 (hxb ▸ hm)
      · exact hz (hend ▸ hxb ▸ List.mem_cons_self)
    rcases List.mem_cons.mp hp with hpa | hp <;> rcases List.mem_cons.mp hq with hqa | hq
    · exact hpa.trans hqa.symm
    · exact absurd (heq.symm.trans (hpa ▸ h.1)) (hfirst q hq)
    · exact absurd (heq.trans (hqa ▸ h.1)) (hfirst p hp)
    · have hlater : link p ∈ l := (List.mem_cons.mp hmem).resolve_left (hfirst p hp)
      exact ih h.2 (fun hm => hz (List.mem_cons_of_mem _ hm)) hp hq hlater
        (List.nodup_cons.mp hnodup).2

/-- Writing the link that leads to `c` with the successor of `c` removes exactly `c`. -/
theorem Linked.unlink (h : Linked link a (l₁ ++ c :: l₂) z) (hz : z ∉ l₁ ++ c :: l₂)
    (hstart : a ∉ l₁ ++ c :: l₂) (hp : p ∈ a :: (l₁ ++ c :: l₂)) (hpc : link p = c)
    (hlink : link' p = link c) (hrest : ∀ x ∈ a :: (l₁ ++ l₂), x ≠ p → link' x = link x) :
    Linked link' a (l₁ ++ l₂) z := by
  have hnodup := h.nodup hz
  induction l₁ generalizing a with
  | nil =>
    simp only [List.nil_append] at *
    have hpa : p = a := by
      rcases List.mem_cons.mp hp with hpa | hp
      · exact hpa
      · rcases h.2.link_mem hp with hmem | hend
        · exact absurd (hpc ▸ hmem) (List.nodup_cons.mp hnodup).1
        · exact absurd (hpc.symm.trans hend ▸ List.mem_cons_self) hz
    refine h.2.redirect (hpa ▸ hlink) ?_
    intro x hx
    refine hrest x (List.mem_cons_of_mem _ hx) ?_
    intro hxp
    exact hstart (hpa ▸ hxp ▸ List.mem_cons_of_mem _ hx)
  | cons b l₁ ih =>
    simp only [List.cons_append] at *
    have hcb : c ≠ b := by
      intro hcb
      exact (List.nodup_cons.mp hnodup).1
        (hcb ▸ List.mem_append_right _ List.mem_cons_self)
    have hap : a ≠ p := by
      intro hap
      exact hcb (hpc.symm.trans (hap ▸ h.1))
    refine ⟨(hrest a List.mem_cons_self hap).trans h.1, ih h.2 ?_ ?_ ?_ ?_ ?_⟩
    · exact fun hm => hz (List.mem_cons_of_mem _ hm)
    · exact (List.nodup_cons.mp hnodup).1
    · rcases List.mem_cons.mp hp with hpa | hp
      · exact absurd hpa.symm hap
      · exact hp
    · intro x hx
      exact hrest x (List.mem_cons_of_mem _ hx)
    · exact (List.nodup_cons.mp hnodup).2

/-- A node whose successor is the former first node becomes the first. -/
theorem Linked.push (h : Linked link a l z) (hstart : link' a = b) (hb : link' b = link a)
    (hrest : ∀ x ∈ l, link' x = link x) : Linked link' a (b :: l) z :=
  ⟨hstart, h.redirect hb hrest⟩

end OsCamp.LinkedChain
