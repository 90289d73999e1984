import Mathlib

namespace Base

variable {α : Type} [LinearOrder α]

/-- A finite set as an ordered container keeps it: its elements in ascending
order, which is the order of iteration. -/
structure OrderedSet (α : Type) [LinearOrder α] where
  toList : List α
  sorted : toList.Pairwise (· < ·)

namespace OrderedSet

instance : Membership α (OrderedSet α) := ⟨fun s a => a ∈ s.toList⟩

instance (a : α) (s : OrderedSet α) : Decidable (a ∈ s) := inferInstanceAs (Decidable (a ∈ s.toList))

def empty : OrderedSet α := ⟨[], .nil⟩

@[simp] theorem not_mem_empty (a : α) : a ∉ (empty : OrderedSet α) := List.not_mem_nil

def insertList (a : α) : List α → List α
  | [] => [a]
  | b :: bs => if a < b then a :: b :: bs else if a = b then b :: bs else b :: insertList a bs

theorem mem_insertList {a b : α} {bs : List α} : b ∈ insertList a bs ↔ b = a ∨ b ∈ bs := by
  induction bs with
  | nil => simp [insertList]
  | cons c bs ih =>
    simp only [insertList]
    split
    · simp
    · split
      case isTrue heq => simp [heq]
      case isFalse => simp [ih, or_left_comm]

theorem sorted_insertList {a : α} {bs : List α} (hsorted : bs.Pairwise (· < ·)) :
    (insertList a bs).Pairwise (· < ·) := by
  induction bs with
  | nil => exact List.pairwise_singleton _ _
  | cons b bs ih =>
    obtain ⟨hb, hbs⟩ := List.pairwise_cons.mp hsorted
    simp only [insertList]
    split
    case isTrue hlt =>
      refine List.pairwise_cons.mpr ⟨fun c hc => ?_, hsorted⟩
      rcases List.mem_cons.mp hc with rfl | hc
      · exact hlt
      · exact lt_trans hlt (hb c hc)
    case isFalse hge =>
      split
      case isTrue => exact hsorted
      case isFalse hne =>
        refine List.pairwise_cons.mpr ⟨fun c hc => ?_, ih hbs⟩
        rcases mem_insertList.mp hc with rfl | hc
        · exact lt_of_le_of_ne (not_lt.mp hge) (Ne.symm hne)
        · exact hb c hc

def insert (a : α) (s : OrderedSet α) : OrderedSet α :=
  ⟨insertList a s.toList, sorted_insertList s.sorted⟩

@[simp] theorem mem_insert {a b : α} {s : OrderedSet α} : b ∈ s.insert a ↔ b = a ∨ b ∈ s :=
  mem_insertList

end OrderedSet

end Base
