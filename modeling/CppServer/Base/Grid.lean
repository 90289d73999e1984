import Mathlib

namespace Base

/-- The place of a cell in a store that keeps rows of `n` cells one after the other. -/
def place (n i j : ℤ) : ℤ := i * n + j

variable {n i j i' j' : ℤ}

/-- The cells of one row have different places, and so have the cells of different rows. -/
theorem place_inj (hj : 0 ≤ j ∧ j < n) (hj' : 0 ≤ j' ∧ j' < n) :
    place n i j = place n i' j' ↔ i = i' ∧ j = j' := by
  constructor
  · intro heq
    simp only [place] at heq
    have hrow : i = i' := by
      rcases lt_trichotomy i i' with hlt | heq | hgt
      · have hle : (i + 1) * n ≤ i' * n := Int.mul_le_mul_of_nonneg_right hlt (by omega)
        rw [add_mul] at hle
        omega
      · exact heq
      · have hle : (i' + 1) * n ≤ i * n := Int.mul_le_mul_of_nonneg_right hgt (by omega)
        rw [add_mul] at hle
        omega
    subst hrow
    exact ⟨rfl, by omega⟩
  · rintro ⟨rfl, rfl⟩
    rfl

theorem place_nonneg (hi : 0 ≤ i) (hn : 0 ≤ n) (hj : 0 ≤ j) : 0 ≤ place n i j :=
  add_nonneg (mul_nonneg hi hn) hj

/-- The places of the first `m` rows lie below the first place of row `m`. -/
theorem place_lt {m : ℤ} (hi : i < m) (hj : 0 ≤ j ∧ j < n) : place n i j < place n m 0 := by
  have hle : (i + 1) * n ≤ m * n := Int.mul_le_mul_of_nonneg_right hi (by omega)
  simp only [place, add_mul] at *
  omega

theorem place_succ : place n i (j + 1) = place n i j + 1 := by
  simp only [place]
  omega

/-- The end of a row is the start of the next one. -/
theorem place_row_end : place n i n = place n (i + 1) 0 := by
  simp only [place, add_mul]
  omega

/-- The column before the first one is the last column of the row before. -/
theorem place_neg_one : place n i (-1) = place n (i - 1) (n - 1) := by
  simp only [place, sub_mul]
  omega

end Base
