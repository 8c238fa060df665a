import Mathlib

/-!
# Rounding a quotient of natural numbers

`a / b` rounded down, up, or to the nearest integer with an exact half rounded down, stated over
the rationals. For `0 < b` each is the quotient of natural numbers plus a carry read off the
remainder: none when rounding down, one for a remainder that is not zero when rounding up, one
for a remainder past half of `b` when rounding to the nearest.
-/

/-- A rounding mode; `nearest` rounds an exact half down. -/
inductive Rounding
  | up
  | down
  | nearest
  deriving DecidableEq, Repr

namespace Rounding

/-- `a / b` rounded as the mode says. -/
noncomputable def div : Rounding → ℕ → ℕ → ℕ
  | .down, a, b => ⌊(a / b : ℚ)⌋₊
  | .up, a, b => ⌈(a / b : ℚ)⌉₊
  | .nearest, a, b => ⌈(a / b : ℚ) - 1 / 2⌉₊

/-- The carry a mode adds to the quotient of `a` by `b`, read off the remainder. -/
def carry : Rounding → ℕ → ℕ → ℕ
  | .down, _, _ => 0
  | .up, a, b => if a % b > 0 then 1 else 0
  | .nearest, a, b => if a % b > b / 2 then 1 else 0

theorem ceil_eq_of_bounds {y : ℚ} {m : ℕ} (hle : y ≤ m) (hlt : (m : ℚ) - 1 < y) : ⌈y⌉₊ = m := by
  rcases Nat.eq_zero_or_pos m with rfl | hm
  · exact Nat.ceil_eq_zero.mpr (by simpa using hle)
  · exact (Nat.ceil_eq_iff hm.ne').mpr ⟨by rwa [Nat.cast_pred hm], hle⟩

section Quotient

variable {a b : ℕ}

theorem div_eq_add (hb : 0 < b) : (a / b : ℚ) = (a / b : ℕ) + (a % b : ℕ) / b := by
  have hbq : (b : ℚ) ≠ 0 := by exact_mod_cast hb.ne'
  have e : (a : ℚ) = b * ((a / b : ℕ) : ℚ) + ((a % b : ℕ) : ℚ) := by
    exact_mod_cast (Nat.div_add_mod a b).symm
  rw [e]
  field_simp

theorem remainder_div_lt_one (hb : 0 < b) : ((a % b : ℕ) / b : ℚ) < 1 :=
  (div_lt_one (by exact_mod_cast hb)).mpr (by exact_mod_cast Nat.mod_lt a hb)

theorem div_eq_div_add_carry (rounding : Rounding) (hb : 0 < b) :
    rounding.div a b = a / b + rounding.carry a b := by
  have hsplit := div_eq_add (a := a) hb
  have hlt := remainder_div_lt_one (a := a) hb
  have hnonneg : (0 : ℚ) ≤ (a % b : ℕ) / b := by positivity
  have hbq : (0 : ℚ) < b := by exact_mod_cast hb
  cases rounding with
  | down => exact Nat.floor_div_eq_div a b
  | up =>
    rw [div, carry]
    split
    · -- a remainder that is not zero lies strictly between the quotient and the next integer
      have hpos : (0 : ℚ) < (a % b : ℕ) / b := div_pos (by exact_mod_cast ‹_›) hbq
      refine ceil_eq_of_bounds ?_ ?_ <;> push_cast <;> linarith
    · have hzero : a % b = 0 := by omega
      rw [hzero, Nat.cast_zero, zero_div, add_zero] at hsplit
      refine ceil_eq_of_bounds ?_ ?_ <;> push_cast <;> linarith
  | nearest =>
    rw [div, carry]
    split
    · -- past half of `b`, the remainder's part passes one half
      have hhalf : (1 / 2 : ℚ) < (a % b : ℕ) / b := by
        rw [lt_div_iff₀ hbq]
        have : b < 2 * (a % b) := by omega
        have hq : (b : ℚ) < 2 * (a % b : ℕ) := by exact_mod_cast this
        linarith
      refine ceil_eq_of_bounds ?_ ?_ <;> push_cast <;> linarith
    · have hhalf : ((a % b : ℕ) / b : ℚ) ≤ 1 / 2 := by
        rw [div_le_iff₀ hbq]
        have : 2 * (a % b) ≤ b := by omega
        have hq : 2 * ((a % b : ℕ) : ℚ) ≤ b := by exact_mod_cast this
        linarith
      refine ceil_eq_of_bounds ?_ ?_ <;> push_cast <;> linarith

theorem carry_add_mul (rounding : Rounding) (a n b : ℕ) :
    rounding.carry (a + n * b) b = rounding.carry a b := by
  cases rounding <;> simp only [carry, Nat.add_mul_mod_self_right]

theorem div_add_mul (rounding : Rounding) (hb : 0 < b) (n : ℕ) :
    rounding.div (a + n * b) b = n + rounding.div a b := by
  rw [div_eq_div_add_carry rounding hb, div_eq_div_add_carry rounding hb, carry_add_mul,
    Nat.add_mul_div_right _ _ hb]
  omega

theorem div_le_of_le_mul (rounding : Rounding) (hb : 0 < b) {n : ℕ} (h : a ≤ n * b) :
    rounding.div a b ≤ n := by
  have hle : (a / b : ℚ) ≤ n := by
    rw [div_le_iff₀ (by exact_mod_cast hb)]
    exact_mod_cast h
  cases rounding with
  | down => exact (Nat.floor_le_ceil _).trans (Nat.ceil_le.mpr hle)
  | up => exact Nat.ceil_le.mpr hle
  | nearest => exact Nat.ceil_le.mpr (by linarith)

theorem div_le_div_of_le (rounding : Rounding) {a' : ℕ} (h : a ≤ a') :
    rounding.div a b ≤ rounding.div a' b := by
  have hq : (a / b : ℚ) ≤ a' / b :=
    div_le_div_of_nonneg_right (by exact_mod_cast h) (Nat.cast_nonneg b)
  cases rounding with
  | down => exact Nat.floor_le_floor hq
  | up => exact Nat.ceil_le_ceil hq
  | nearest => exact Nat.ceil_le_ceil (by linarith)

end Quotient

end Rounding
