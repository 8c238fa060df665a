import Mathlib
import Tetcore.Arithmetic.PerThing

/-!
# Piecewise linear curves

`primitives/runtime/src/curve.rs`. A `PiecewiseLinear` curve is a list of points, pairs of
`Perbill`s in order of their abscissas, and `calculate_for_fraction_times_denominator(n, d)` is to
compute `f(n / d) * d` for the curve `f` through them, constant before the first point and after
the last. It finds the segment of `n` by comparing `n` with each abscissa times `d`, a `Perbill`
product rounded to the nearest, and moves from the rounded ordinate of the segment's start along
the segment by `multiply_by_rational_saturating`, which is exact (`multiplyByRationalSaturating_eq`).

The segment is looked for among the rounded abscissas. Two abscissas closer than `1 / (2 * d)` can
round to the same product, and `n` is then placed past both, on a segment the curve reaches only
after `n / d`: with the points `(0, 0)`, `(0.52, 0)` and `(0.54, 1)` and `d = 10`, the source
returns `10` for `n = 5`, where the curve is `0` and flat
(`calculateForFractionTimesDenominator_past_segment`).

`N` is an unsigned type of at least 32 bits with largest value `nMax`: `saturating_add` stops there
and `saturating_sub` at zero. The `u32` arguments of `multiply_by_rational_saturating` are at most
`u32Max`. The `maximum` of a curve is read by neither function and is left out.
-/

namespace Tetcore.Runtime

open Arithmetic

/-- The largest `u32`. -/
def u32Max : ℕ := 2 ^ 32 - 1

/-- `abs_sub`. -/
def absSub (a b : ℕ) : ℕ := max a b - min a b

/-- `multiply_by_rational_saturating(value, p, q)`: `value / q * p`, saturating, and the part of the
remainder, which `rem_u32 as u64 * p as u64 / q as u64` computes without overflow. -/
def multiplyByRationalSaturating (nMax value p q : ℕ) : ℕ :=
  let q := max q 1
  let resultDivisorPart := min (value / q * p) nMax
  let resultRemainderPart :=
    let rem := value % q
    -- `saturated_into::<u32>()`
    let remU32 := min rem u32Max
    let remPart := remU32 * p / q
    -- `saturated_into::<N>()`
    min remPart nMax
  min (resultDivisorPart + resultRemainderPart) nMax

/-- `PiecewiseLinear`: the points, as pairs of `Perbill` parts. -/
structure PiecewiseLinear where
  points : List (ℕ × ℕ)
  deriving DecidableEq, Repr

namespace PiecewiseLinear

open PerThing in
/-- `calculate_for_fraction_times_denominator(n, d)`. The indices `position` gives are always in
range. -/
def calculateForFractionTimesDenominator (nMax : ℕ) (curve : PiecewiseLinear) (n d : ℕ) : ℕ :=
  let n := min n d
  if curve.points.length = 0 then 0
  else
    match curve.points.findIdx? fun p => decide (n < perbill.mul p.1 d) with
    | some (previousPointIndex + 1) =>
      let prev := curve.points.getD previousPointIndex (0, 0)
      let next := curve.points.getD (previousPointIndex + 1) (0, 0)
      let deltaY := multiplyByRationalSaturating nMax (absSub n (perbill.mul prev.1 d))
        (absSub next.2 prev.2) (next.1 - prev.1)
      -- the same sign on both sides: the curve goes up from `prev`
      if decide (perbill.mul prev.1 d < n) = decide (prev.2 < next.2) then
        min (perbill.mul prev.2 d + deltaY) nMax
      else perbill.mul prev.2 d - deltaY
    -- no previous point: the first ordinate
    | some 0 => perbill.mul ((curve.points.head?.map (·.2)).getD 0) d
    -- no next point: the last ordinate
    | none => perbill.mul ((curve.points.getLast?.map (·.2)).getD 0) d

open PerThing in
/-- The curve through the points exactly, at a fraction `t`: linear between consecutive points,
constant before the first and after the last. -/
def exact : List (ℕ × ℕ) → ℚ → ℚ
  | [], _ => 0
  | [(_, y)], _ => y / perbill.accuracy
  | (x0, y0) :: (x1, y1) :: rest, t =>
    if t ≤ x0 / perbill.accuracy then y0 / perbill.accuracy
    else if t ≤ x1 / perbill.accuracy then
      y0 / perbill.accuracy + ((y1 : ℚ) - y0) / ((x1 : ℚ) - x0) * (t - x0 / perbill.accuracy)
    else exact ((x1, y1) :: rest) t

open PerThing in
/-- The largest absolute slope of the segments whose closed interval holds `t`; none outside the
points. -/
def slopeNear : List (ℕ × ℕ) → ℚ → ℚ
  | (x0, y0) :: (x1, y1) :: rest, t =>
    max (if x0 / perbill.accuracy ≤ t ∧ t ≤ x1 / perbill.accuracy then
        |(y1 : ℚ) - y0| / ((x1 : ℚ) - x0) else 0)
      (slopeNear ((x1, y1) :: rest) t)
  | _, _ => 0

end PiecewiseLinear

/-! ## `multiply_by_rational_saturating` -/

theorem mul_div_eq_div_mul_add (value p : ℕ) {q : ℕ} (hq : 0 < q) :
    value * p / q = value / q * p + value % q * p / q := by
  have hsplit : value * p = value % q * p + q * (value / q * p) := by
    conv_lhs => rw [← Nat.mod_add_div value q]
    ring
  rw [hsplit, Nat.add_mul_div_left _ _ hq, Nat.add_comm]

/-- `multiply_by_rational_saturating` is `value * p / q`, saturating; a `q` of zero counts as one. -/
theorem multiplyByRationalSaturating_eq {nMax p q : ℕ} (hp : p ≤ u32Max) (hq : q ≤ u32Max)
    (hN : u32Max ≤ nMax) (value : ℕ) :
    multiplyByRationalSaturating nMax value p q = min (value * p / max q 1) nMax := by
  have hq1 : 0 < max q 1 := lt_max_of_lt_right Nat.one_pos
  have hrem : value % max q 1 < max q 1 := Nat.mod_lt value hq1
  -- the remainder fits in a `u32`, and its part stays below `p`, so below `nMax`
  have hremU32 : min (value % max q 1) u32Max = value % max q 1 :=
    min_eq_left (by simp only [u32Max] at hq ⊢; omega)
  have hpart : value % max q 1 * p / max q 1 ≤ p :=
    Nat.div_le_of_le_mul (Nat.mul_le_mul_right p hrem.le)
  simp only [multiplyByRationalSaturating, hremU32, min_eq_left (hpart.trans (hp.trans hN))]
  rw [mul_div_eq_div_mul_add value p hq1]
  -- a saturated quotient part saturates the sum
  generalize value / max q 1 * p = quotientPart
  generalize value % max q 1 * p / max q 1 = remainderPart
  omega

/-- In `u64`, the largest value times the largest `u32` saturates. -/
theorem multiplyByRationalSaturating_eq_saturates :
    multiplyByRationalSaturating (2 ^ 64 - 1) (2 ^ 64 - 1) u32Max 1 = 2 ^ 64 - 1 :=
  (multiplyByRationalSaturating_eq le_rfl (by decide) (by decide) (2 ^ 64 - 1)).trans (by decide)

/-! ## Segments found among rounded abscissas -/

/-- The points `(0, 0)`, `(0.52, 0)` and `(0.54, 1)`: flat, then a steep step. -/
def steepStep : PiecewiseLinear := ⟨[(0, 0), (520000000, 0), (540000000, 1000000000)]⟩

/-- With `d = 10` both `0.52 * 10` and `0.54 * 10` round to `5`, so `n = 5` is placed past the last
point and gets the last ordinate, `10`; the curve is `0` at `0.5`, on a flat segment, so the
distance is `10`, not within `2`. -/
theorem calculateForFractionTimesDenominator_past_segment :
    steepStep.points.Pairwise (fun a b => a.1 < b.1) ∧
      steepStep.calculateForFractionTimesDenominator (2 ^ 64 - 1) 5 10 = 10 ∧
      10 * PiecewiseLinear.exact steepStep.points (5 / 10) = 0 ∧
      PiecewiseLinear.slopeNear steepStep.points (5 / 10) = 0 ∧
      ¬|((steepStep.calculateForFractionTimesDenominator (2 ^ 64 - 1) 5 10 : ℕ) : ℚ) -
          10 * PiecewiseLinear.exact steepStep.points (5 / 10)| ≤
        2 + PiecewiseLinear.slopeNear steepStep.points (5 / 10) / 2 := by
  have hcalc : steepStep.calculateForFractionTimesDenominator (2 ^ 64 - 1) 5 10 = 10 := by decide
  have hexact : PiecewiseLinear.exact steepStep.points (5 / 10) = 0 := by
    norm_num [steepStep, PiecewiseLinear.exact, PerThing.perbill]
  have hslope : PiecewiseLinear.slopeNear steepStep.points (5 / 10) = 0 := by
    norm_num [steepStep, PiecewiseLinear.slopeNear, PerThing.perbill]
  refine ⟨by decide, hcalc, by rw [hexact, mul_zero], hslope, ?_⟩
  rw [hcalc, hexact, hslope]
  norm_num

end Tetcore.Runtime
