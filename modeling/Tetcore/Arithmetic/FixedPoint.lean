import Mathlib
import Tetcore.Arithmetic.Rational

/-!
# Fixed-point numbers

`primitives/arithmetic/src/fixed_point.rs`. A fixed-point number is its inner integer, the number
times `DIV`; `FixedI64`, `FixedI128` and `FixedU128` differ in the inner type and in `DIV`. Inner
values are integers, the saturating operations of the inner type clamp to its range, and its `/`
rounds toward zero. Products and quotients pass through `I129`, a magnitude in `u128` with a sign,
and `multiply_by_rational`.

`floor`, `ceil` and `round` are built from `trunc`, `frac` and saturating steps. `frac` keeps the
sign of a negative number whose integer part is zero, and `floor` of a negative number subtracts
one before it truncates, also when the number is an integer.
-/

namespace Tetcore.Arithmetic

/-- The parameters of `implement_fixed!`: `DIV`, `SIGNED` and the width of `Inner`. -/
structure FixedPoint where
  div : ℕ
  signed : Bool
  bits : ℕ
  one_lt_div : 1 < div
  bits_pos : 0 < bits
  bits_le : bits ≤ 128

namespace FixedPoint

def fixedI64 : FixedPoint := ⟨10 ^ 9, true, 64, by decide, by decide, by decide⟩

def fixedI128 : FixedPoint := ⟨10 ^ 18, true, 128, by decide, by decide, by decide⟩

def fixedU128 : FixedPoint := ⟨10 ^ 18, false, 128, by decide, by decide, by decide⟩

variable (F : FixedPoint)

/-- `Inner::max_value()`. -/
def innerMax : ℕ := if F.signed then 2 ^ (F.bits - 1) - 1 else 2 ^ F.bits - 1

/-- `Inner::min_value()`. -/
def innerMin : ℤ := if F.signed then -2 ^ (F.bits - 1) else 0

/-- `saturating_add` and `saturating_sub` of `Inner` clamp the exact result to the range. -/
def saturate (v : ℤ) : ℤ := max F.innerMin (min v F.innerMax)

def saturatingAdd (a b : ℤ) : ℤ := F.saturate (a + b)

def saturatingSub (a b : ℤ) : ℤ := F.saturate (a - b)

/-- `I129`. -/
structure I129 where
  value : ℕ
  negative : Bool

/-- `From<N> for I129`: the magnitude in `u128`, which for the minimum of a signed type is its
`max_value() + 1`. -/
def I129.ofInt (n : ℤ) : I129 := ⟨n.natAbs, decide (n < 0)⟩

/-- `from_i129` into `Inner`. `N::max_value() + 1` saturates in `u128`, and `checked_neg` of an
unsigned value fails past zero. -/
def fromI129 (n : I129) : Option ℤ :=
  let maxPlusOne := min (F.innerMax + 1) u128Max
  if n.negative && F.signed && n.value == maxPlusOne then some F.innerMin
  else if n.value ≤ F.innerMax then
    if n.negative then (if F.signed || n.value == 0 then some (-(n.value : ℤ)) else none)
    else some n.value
  else none

/-- `to_bound`: the maximum when `n` and `m` are both negative or both not, the minimum
otherwise. -/
def toBound (n m : ℤ) : ℤ := if decide (n < 0) != decide (m < 0) then F.innerMin else F.innerMax

/-- `CheckedMul`. -/
def checkedMul (a b : ℤ) : Option ℤ :=
  let lhs := I129.ofInt a
  let rhs := I129.ofInt b
  let negative := lhs.negative != rhs.negative
  match multiplyByRational lhs.value rhs.value F.div with
  | .ok value => F.fromI129 ⟨value, negative⟩
  | .error _ => none

/-- `CheckedDiv`. -/
def checkedDiv (a b : ℤ) : Option ℤ :=
  if b = 0 then none
  else
    let lhs := I129.ofInt a
    let rhs := I129.ofInt b
    let negative := lhs.negative != rhs.negative
    match multiplyByRational lhs.value F.div rhs.value with
    | .ok value => F.fromI129 ⟨value, negative⟩
    | .error _ => none

/-- `Saturating::saturating_mul`. -/
def saturatingMul (a b : ℤ) : ℤ := (F.checkedMul a b).getD (F.toBound a b)

/-- `saturating_from_integer`. -/
def saturatingFromInteger (int : ℤ) : ℤ :=
  let n := I129.ofInt int
  (F.fromI129 ⟨min (n.value * F.div) u128Max, n.negative⟩).getD (F.toBound int 0)

/-- `from_i129` into an unsigned integer type `N` whose largest value is `nMax`: `checked_neg` fails
past zero. -/
def fromI129Unsigned (nMax : ℕ) (n : I129) : Option ℕ :=
  if n.value ≤ nMax then (if n.negative && n.value != 0 then none else some n.value) else none

/-- `checked_mul_int(n)` for an unsigned `N` whose largest value is `nMax`. -/
def checkedMulInt (nMax : ℕ) (a : ℤ) (n : ℕ) : Option ℕ :=
  let lhs := I129.ofInt a
  -- an unsigned `n` is never negative
  let negative := lhs.negative
  match multiplyByRational lhs.value n F.div with
  | .ok value => fromI129Unsigned nMax ⟨value, negative⟩
  | .error _ => none

/-- `saturating_mul_int(n)`: `to_bound(self, n)` into `N` is its largest value unless `self` is
negative. -/
def saturatingMulInt (nMax : ℕ) (a : ℤ) (n : ℕ) : ℕ :=
  (F.checkedMulInt nMax a n).getD (if a < 0 then 0 else nMax)

/-- `one()`. -/
def one : ℤ := F.div

/-- `trunc`: the integer part, by the division of `Inner`, which rounds toward zero. -/
def trunc (x : ℤ) : ℤ := x.tdiv F.div * F.div

/-- `saturating_abs`: `checked_neg` fails only at the minimum of a signed type. -/
def saturatingAbs (x : ℤ) : ℤ :=
  if 0 ≤ x then x else if -x ≤ F.innerMax then -x else F.innerMax

/-- `frac`. -/
def frac (x : ℤ) : ℤ :=
  let integer := F.trunc x
  let fractional := F.saturatingSub x integer
  if integer = 0 then fractional else F.saturatingAbs fractional

/-- `ceil`. -/
def ceil (x : ℤ) : ℤ :=
  if x < 0 then F.trunc x
  else if F.frac x = 0 then x
  else F.trunc (F.saturatingAdd x F.one)

/-- `floor`. -/
def floor (x : ℤ) : ℤ :=
  if x < 0 then F.trunc (F.saturatingSub x F.one) else F.trunc x

/-- `round`. -/
def round (x : ℤ) : ℤ :=
  let n := F.saturatingMul (F.frac x) (F.saturatingFromInteger 10)
  if n < F.saturatingFromInteger 5 then F.trunc x
  else if 0 < x then F.trunc (F.saturatingAdd x F.one)
  else F.trunc (F.saturatingSub x F.one)

/-! ### The sign-magnitude layer -/

/-- The inner value `s` when it lies in the range of `Inner`. -/
def bounded (s : ℤ) : Option ℤ := if F.innerMin ≤ s ∧ s ≤ F.innerMax then some s else none

theorem innerMin_of_signed (hs : F.signed = true) : F.innerMin = -((F.innerMax : ℤ) + 1) := by
  simp only [innerMin, innerMax, hs, if_true]
  rw [Nat.cast_sub Nat.one_le_two_pow]
  push_cast
  ring

theorem innerMin_of_unsigned (hs : F.signed = false) : F.innerMin = 0 := by
  simp [innerMin, hs]

theorem maxPlusOne_of_signed (hs : F.signed = true) :
    min (F.innerMax + 1) u128Max = F.innerMax + 1 := by
  apply min_eq_left
  have hbits : F.bits - 1 ≤ 127 := by have := F.bits_le; omega
  have hpow : 2 ^ (F.bits - 1) ≤ 2 ^ 127 := Nat.pow_le_pow_right (by norm_num) hbits
  have hlt : (2 : ℕ) ^ 127 ≤ u128Max := by norm_num [u128Max]
  simp only [innerMax, hs, if_true]
  rw [Nat.sub_add_cancel Nat.one_le_two_pow]
  exact hpow.trans hlt

theorem fromI129_eq (m : ℕ) (negative : Bool) :
    F.fromI129 ⟨m, negative⟩ = F.bounded (if negative then -(m : ℤ) else m) := by
  cases hs : F.signed with
  | true =>
    -- the minimum is the negated `max_value() + 1`, the one magnitude past the maximum
    have hmin := F.innerMin_of_signed hs
    cases negative with
    | true =>
      simp only [fromI129, bounded, hs, F.maxPlusOne_of_signed hs, hmin]
      split_ifs <;> simp_all <;> omega
    | false =>
      simp only [fromI129, bounded, hs, hmin]
      split_ifs <;> simp_all <;> omega
  | false =>
    -- a negative magnitude of an unsigned type is in range only when it is zero
    have hmin := F.innerMin_of_unsigned hs
    cases negative with
    | true =>
      simp only [fromI129, bounded, hs, hmin]
      split_ifs <;> simp_all
    | false =>
      simp only [fromI129, bounded, hs, hmin]
      split_ifs <;> simp_all
      omega

theorem signed_magnitude (a b : ℤ) {m : ℕ} (hzero : a = 0 ∨ b = 0 → m = 0) :
    (if decide (a < 0) != decide (b < 0) then -(m : ℤ) else m) = a.sign * b.sign * m := by
  rcases lt_trichotomy a 0 with ha | ha | ha
  · rcases lt_trichotomy b 0 with hb | hb | hb
    · simp [ha, hb, Int.sign_eq_neg_one_of_neg]
    · simp [hzero (.inr hb), hb]
    · simp [ha, hb, hb.not_gt, Int.sign_eq_neg_one_of_neg, Int.sign_eq_one_of_pos]
  · simp [hzero (.inl ha), ha]
  · rcases lt_trichotomy b 0 with hb | hb | hb
    · simp [ha, hb, ha.not_gt, Int.sign_eq_neg_one_of_neg, Int.sign_eq_one_of_pos]
    · simp [hzero (.inr hb), hb]
    · simp [ha, hb, ha.not_gt, hb.not_gt, Int.sign_eq_one_of_pos]

theorem checkedMul_eq (a b : ℤ) :
    F.checkedMul a b = match multiplyByRational a.natAbs b.natAbs F.div with
      | .ok m => F.bounded (a.sign * b.sign * m)
      | .error _ => none := by
  dsimp only [checkedMul, I129.ofInt]
  cases hm : multiplyByRational a.natAbs b.natAbs F.div with
  | error e => rfl
  | ok m =>
    refine (F.fromI129_eq m _).trans (congrArg F.bounded (signed_magnitude a b fun h0 => ?_))
    -- a zero factor has a zero magnitude, and `multiply_by_rational` returns zero for it
    rw [multiplyByRational_of_zero F.div (by simpa using h0)] at hm
    exact (Except.ok.inj hm).symm

theorem checkedDiv_eq {a b : ℤ} (hb : b ≠ 0) :
    F.checkedDiv a b = match multiplyByRational a.natAbs F.div b.natAbs with
      | .ok m => F.bounded (a.sign * b.sign * m)
      | .error _ => none := by
  dsimp only [checkedDiv, I129.ofInt]
  rw [if_neg hb]
  cases hm : multiplyByRational a.natAbs F.div b.natAbs with
  | error e => rfl
  | ok m =>
    refine (F.fromI129_eq m _).trans (congrArg F.bounded (signed_magnitude a b fun h0 => ?_))
    have ha : a = 0 := h0.resolve_right hb
    rw [multiplyByRational_of_zero b.natAbs (.inl (by simp [ha]))] at hm
    exact (Except.ok.inj hm).symm

/-! ### Bounds of the saturating operations -/

theorem saturatingMulInt_mono (hdiv : F.div ≤ u128Max) (nMax : ℕ) {a : ℤ} (ha : 0 ≤ a) {n n' : ℕ}
    (h : n ≤ n') :
    F.saturatingMulInt nMax a n ≤ F.saturatingMulInt nMax a n' := by
  have hneg : decide (a < 0) = false := decide_eq_false (not_lt.mpr ha)
  -- a value saturates to `nMax`: below it when it fits, `nMax` itself otherwise
  have hsat (m : ℕ) : F.saturatingMulInt nMax a m =
      match multiplyByRational a.natAbs m F.div with
      | .ok value => min value nMax
      | .error _ => nMax := by
    simp only [saturatingMulInt, checkedMulInt, I129.ofInt, hneg, if_neg (not_lt.mpr ha)]
    cases multiplyByRational a.natAbs m F.div with
    | ok value =>
      simp only [fromI129Unsigned, Bool.false_and, Bool.false_eq_true, if_false]
      by_cases hfit : value ≤ nMax
      · rw [if_pos hfit, Option.getD_some, min_eq_left hfit]
      · rw [if_neg hfit, Option.getD_none, min_eq_right (le_of_not_ge hfit)]
    | error e => rfl
  rw [hsat, hsat]
  cases h' : multiplyByRational a.natAbs n' F.div with
  | ok value' =>
    obtain ⟨value, hvalue, hle⟩ := multiplyByRational_mono hdiv h h'
    rw [hvalue]
    exact min_le_min_right nMax hle
  | error e =>
    split <;> simp

/-- `checked_mul` and `checked_div` are `multiply_by_rational` of the magnitudes, given the sign of
the product of the signs, and `Some` exactly when that value is in the range of `Inner`;
`checked_div` by zero is `None`, and `saturating_mul` falls back to the bound of the sign. -/
theorem checkedMul_checkedDiv_exact (a b : ℤ) :
    F.checkedMul a b = (match multiplyByRational a.natAbs b.natAbs F.div with
        | .ok m => F.bounded (a.sign * b.sign * m)
        | .error _ => none) ∧
      (b ≠ 0 → F.checkedDiv a b = match multiplyByRational a.natAbs F.div b.natAbs with
        | .ok m => F.bounded (a.sign * b.sign * m)
        | .error _ => none) ∧
      F.checkedDiv a 0 = none ∧
      F.saturatingMul a b =
        (F.checkedMul a b).getD (if (a < 0 ↔ b < 0) then F.innerMax else F.innerMin) := by
  refine ⟨F.checkedMul_eq a b, F.checkedDiv_eq, if_pos rfl, ?_⟩
  unfold saturatingMul toBound
  congr 1
  by_cases ha : a < 0 <;> by_cases hb : b < 0 <;> simp [ha, hb]

/-- The case of `FixedI128::min_value()` times `-1`: the magnitude `2^127` is past the maximum. -/
theorem checkedMul_checkedDiv_exact_min :
    ((-1 : ℤ) ≠ 0) ∧
      (fixedI128.checkedMul (-2 ^ 127) (-1) =
          (match multiplyByRational (-2 ^ 127 : ℤ).natAbs (-1 : ℤ).natAbs fixedI128.div with
            | .ok m => fixedI128.bounded ((-2 ^ 127 : ℤ).sign * (-1 : ℤ).sign * m)
            | .error _ => none) ∧
        ((-1 : ℤ) ≠ 0 → fixedI128.checkedDiv (-2 ^ 127) (-1) =
          match multiplyByRational (-2 ^ 127 : ℤ).natAbs fixedI128.div (-1 : ℤ).natAbs with
            | .ok m => fixedI128.bounded ((-2 ^ 127 : ℤ).sign * (-1 : ℤ).sign * m)
            | .error _ => none) ∧
        fixedI128.checkedDiv (-2 ^ 127) 0 = none ∧
        fixedI128.saturatingMul (-2 ^ 127) (-1) =
          (fixedI128.checkedMul (-2 ^ 127) (-1)).getD
            (if ((-2 ^ 127 : ℤ) < 0 ↔ (-1 : ℤ) < 0) then fixedI128.innerMax else fixedI128.innerMin)) :=
  ⟨by decide, checkedMul_checkedDiv_exact fixedI128 (-2 ^ 127) (-1)⟩

/-- In `FixedI64`, `floor(-2)` is `-3`: the number is negative, so one is subtracted before the
truncation. `round(-0.7)` is `0`: the integer part is zero, so `frac` is `-0.7`, ten times it is
below `5`, and the number is truncated. -/
theorem floor_round_negative :
    fixedI64.floor (-2 * 10 ^ 9) = -3 * 10 ^ 9 ∧ fixedI64.round (-7 * 10 ^ 8) = 0 := by
  decide

end FixedPoint

end Tetcore.Arithmetic
