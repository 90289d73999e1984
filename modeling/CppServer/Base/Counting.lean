import Mathlib

namespace Base.Counting

open Finset Function

variable {ι α : Type} [Fintype ι]

theorem le_total (weight : ι → ℕ) (i : ι) : weight i ≤ ∑ j, weight j :=
  single_le_sum_of_canonicallyOrdered (mem_univ i)

variable [DecidableEq ι]

/-- Changing the weight of one index moves the total by exactly the difference. -/
theorem total_change {weight weight' : ι → ℕ} {i : ι} (hrest : ∀ j, j ≠ i → weight' j = weight j) :
    ∑ j, weight' j + weight i = ∑ j, weight j + weight' i := by
  have hsame : ∑ j ∈ univ.erase i, weight' j = ∑ j ∈ univ.erase i, weight j :=
    sum_congr rfl fun j hj => hrest j (ne_of_mem_erase hj)
  have hafter := add_sum_erase univ weight' (mem_univ i)
  have hbefore := add_sum_erase univ weight (mem_univ i)
  omega

/-- Replacing the value of one index. -/
theorem total_update (weight : α → ℕ) (f : ι → α) (i : ι) (a : α) :
    ∑ j, weight (update f i a j) + weight (f i) = ∑ j, weight (f j) + weight a := by
  have hrest (j : ι) (hj : j ≠ i) : weight (update f i a j) = weight (f j) := by
    rw [update_of_ne hj]
  have h := total_change hrest
  rwa [update_self] at h

theorem total_update_same (weight : α → ℕ) (f : ι → α) {i : ι} {a : α}
    (hweight : weight a = weight (f i)) :
    ∑ j, weight (update f i a j) = ∑ j, weight (f j) := by
  have h := total_update weight f i a
  omega

end Base.Counting
