import Mathlib

/-!
# Saturating arithmetic of machine words

`saturating_add` and `saturating_mul` of an unsigned integer of `bits` bits, on natural numbers:
the result is cut at the largest value of the word. `saturating_add` of a signed integer of `bits`
bits, on integers: the result is cut to the range of the word.
-/

namespace Saturating

def add (bits a b : ℕ) : ℕ := min (a + b) (2 ^ bits - 1)

def mul (bits a b : ℕ) : ℕ := min (a * b) (2 ^ bits - 1)

theorem add_of_le {bits a b : ℕ} (h : a + b ≤ 2 ^ bits - 1) : add bits a b = a + b :=
  min_eq_left h

/-- `saturating_add` of a signed integer of `bits` bits. -/
def addSigned (bits : ℕ) (a b : ℤ) : ℤ := max (-2 ^ (bits - 1)) (min (a + b) (2 ^ (bits - 1) - 1))

end Saturating
