import Mathlib

namespace Base

/-- From `first` the memory's links lead through the addresses of the list and
end in `null`. -/
def Linked {α : Type} (null : α) (next : α → α) : α → List α → Prop
  | first, [] => first = null
  | first, a :: as => first = a ∧ a ≠ null ∧ Linked null next (next a) as

namespace Linked

variable {α : Type} {null : α} {next : α → α} {first : α} {as bs : List α}

/-- A chain from a proper address starts with it. -/
theorem exists_cons (hlinked : Linked null next first as) (hfirst : first ≠ null) :
    ∃ rest, as = first :: rest ∧ Linked null next (next first) rest := by
  cases as with
  | nil => exact absurd hlinked hfirst
  | cons a as =>
    obtain ⟨rfl, _, hlinked⟩ := hlinked
    exact ⟨as, rfl, hlinked⟩

theorem eq_nil (hlinked : Linked null next null as) : as = [] := by
  cases as with
  | nil => rfl
  | cons a as =>
    obtain ⟨rfl, ha, _⟩ := hlinked
    exact absurd rfl ha

/-- Writing a link outside the chain leaves it alone. -/
theorem update [DecidableEq α] (hlinked : Linked null next first as) {a : α} (ha : a ∉ as) (b : α) :
    Linked null (Function.update next a b) first as := by
  induction as generalizing first with
  | nil => exact hlinked
  | cons c as ih =>
    obtain ⟨hc, hne, hlinked⟩ := hlinked
    obtain ⟨hac, has⟩ := not_or.mp fun h => ha (List.mem_cons.mpr h)
    refine ⟨hc, hne, ?_⟩
    rw [Function.update_of_ne (Ne.symm hac)]
    exact ih hlinked has

end Linked

end Base
