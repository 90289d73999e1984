import Mathlib

namespace Base.Words

/-- Masking with the `high` bits above position `low` and shifting them down
divides: the field above `low` is the quotient. -/
theorem and_highMask_shiftRight (high low : ℕ) {x : ℕ} (hx : x < 2 ^ (high + low)) :
    (x &&& (2 ^ high - 1) <<< low) >>> low = x / 2 ^ low := by
  have hmask : ((2 ^ high - 1) <<< low) >>> low = 2 ^ high - 1 := by
    rw [Nat.shiftLeft_eq, Nat.shiftRight_eq_div_pow, Nat.mul_div_cancel _ (by positivity)]
  have hquotient : x / 2 ^ low < 2 ^ high := by
    rw [Nat.div_lt_iff_lt_mul (by positivity), ← pow_add]
    exact hx
  rw [Nat.shiftRight_and_distrib, hmask, Nat.and_two_pow_sub_one_eq_mod,
    Nat.shiftRight_eq_div_pow, Nat.mod_eq_of_lt hquotient]

/-- A value shifted up by `low` in a word of `high + low` bits, masked to the
bits above `low`: its lowest `high` bits arrive there and nothing else. -/
theorem shiftLeft_mod_and_highMask (high low x : ℕ) :
    (x <<< low) % 2 ^ (high + low) &&& (2 ^ high - 1) <<< low = x % 2 ^ high * 2 ^ low := by
  have hcut : (x <<< low) % 2 ^ (high + low) = (x % 2 ^ high) <<< low := by
    rw [Nat.shiftLeft_eq, Nat.shiftLeft_eq, pow_add, Nat.mul_mod_mul_right]
  rw [hcut, ← Nat.shiftLeft_and_distrib, Nat.and_two_pow_sub_one_eq_mod, Nat.mod_mod,
    Nat.shiftLeft_eq]

end Base.Words
