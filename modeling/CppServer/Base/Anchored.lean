import CppServer.Base.Graph

namespace Base.Graph

open Relation

variable {α : Type} {r : α → α → Prop} {root : α → Prop} {a b : α}

/-- A relation without cycles on a finite type can be gone back only so far. -/
theorem Acyclic.wellFounded [Finite α] (hacyclic : Acyclic r) : WellFounded r := by
  have htrans : IsTrans α (TransGen r) := ⟨fun _ _ _ h h' => h.trans h'⟩
  have hirrefl : Std.Irrefl (TransGen r) := ⟨hacyclic⟩
  exact Subrelation.wf TransGen.single (Finite.wellFounded_of_trans_of_irrefl (TransGen r))

/-- Steps lead to the element from a root or from a cycle. -/
def Anchored (r : α → α → Prop) (root : α → Prop) (a : α) : Prop :=
  ∃ b, (root b ∨ TransGen r b b) ∧ ReflTransGen r b a

theorem Anchored.of_root (hroot : root a) : Anchored r root a := ⟨a, .inl hroot, .refl⟩

theorem Anchored.step (hanchored : Anchored r root b) (hstep : r b a) : Anchored r root a := by
  obtain ⟨c, hc, hpath⟩ := hanchored
  exact ⟨c, hc, hpath.tail hstep⟩

/-- The element is a root, or is one step from such an element. -/
theorem anchored_iff : Anchored r root a ↔ root a ∨ ∃ b, Anchored r root b ∧ r b a := by
  constructor
  · rintro ⟨c, hc, hpath⟩
    rcases ReflTransGen.cases_tail hpath with rfl | ⟨b, hcb, hstep⟩
    · rcases hc with hroot | hcycle
      · exact .inl hroot
      · obtain ⟨b, hab, hba⟩ := TransGen.tail'_iff.mp hcycle
        exact .inr ⟨b, ⟨a, .inr hcycle, hab⟩, hba⟩
    · exact .inr ⟨b, ⟨c, hc, hcb⟩, hstep⟩
  · rintro (hroot | ⟨b, hb, hstep⟩)
    · exact .of_root hroot
    · exact hb.step hstep

/-- Without cycles it is the roots that matter. -/
theorem anchored_iff_of_acyclic (hacyclic : Acyclic r) :
    Anchored r root a ↔ ∃ b, root b ∧ ReflTransGen r b a := by
  constructor
  · rintro ⟨b, hroot | hcycle, hpath⟩
    · exact ⟨b, hroot, hpath⟩
    · exact absurd hcycle (hacyclic b)
  · rintro ⟨b, hroot, hpath⟩
    exact ⟨b, .inl hroot, hpath⟩

/-- The rule of induction for the elements that are not anchored: all steps to one of them come
from such elements. -/
theorem Anchored.induction_not [Finite α] {Q : α → Prop}
    (hkeep : ∀ a, ¬ Anchored r root a → (∀ b, r b a → ¬ Anchored r root b → Q b) → Q a)
    (ha : ¬ Anchored r root a) : Q a := by
  have hacyclic : Acyclic fun b a => r b a ∧ ¬ Anchored r root b := by
    intro b hcycle
    obtain ⟨c, ⟨-, hb⟩, -⟩ := TransGen.head'_iff.mp hcycle
    exact hb ⟨b, .inr (hcycle.lift id fun _ _ => And.left), .refl⟩
  induction a using hacyclic.wellFounded.induction with
  | _ a ih => exact hkeep a ha fun b hstep hb => ih b ⟨hstep, hb⟩ hb

/-- The rule for showing elements anchored: each of them is a root or one step from another of
them. -/
theorem Anchored.of_closed [Finite α] {Q : α → Prop}
    (hclosed : ∀ a, Q a → root a ∨ ∃ b, Q b ∧ r b a) (ha : Q a) : Anchored r root a := by
  by_contra hnot
  refine Anchored.induction_not (Q := fun a => ¬ Q a) (fun a hnot ih hQ => ?_) hnot ha
  rcases hclosed a hQ with hroot | ⟨b, hb, hstep⟩
  · exact hnot (.of_root hroot)
  · exact ih b hstep (fun h => hnot (h.step hstep)) hb

end Base.Graph
