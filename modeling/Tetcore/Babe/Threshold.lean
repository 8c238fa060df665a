import Mathlib

/-!
# The primary slot threshold of BABE

`client/consensus/babe/src/authorship.rs`, `calculate_primary_threshold`. An authority of relative
weight `theta` may claim a primary slot when its VRF output, a `u128`, is below
`2 ^ 128 * (1 - (1 - c) ^ theta)`. The source computes `c` and `theta` in `f64`, takes the power
with `powf`, turns the result exactly into a `BigRational` and scales it by `2 ^ 128` in `BigUint`.

A finite `f64` is modelled by its value, and each operation by `round` applied to its exact result,
`powf` included: the rounding is a parameter, and the proofs ask of it only what `Rounding` states,
that `0` and `1` stay and that order is kept, as binary64 rounding to nearest does. A division by
zero gives an infinity or `NaN`, which `from_float` refuses further on whatever comes in between:
here the panic comes at once. Every `expect` and `assert!` is a panic, here `none`, and so is an
`authority_index` out of range. The sum of the weights is a `u64` that the caller keeps from
overflowing.

With `c = (a, a)`, which the messages of the source allow (`c` "defined in (0, 1]"), `1 - c` is `0`,
its power is `0`, `p` is exactly `1`, and `2 ^ 128 * p` does not fit in a `u128`: the last `expect`
panics, whatever the authorities (`calculatePrimaryThreshold_certain_panics`).
-/

namespace Tetcore.Babe

variable {α : Type}

/-- What the proofs ask of the rounding of `f64`: the representable `0` and `1` stay, and order is
kept. -/
structure Rounding (round : ℝ → ℝ) : Prop where
  zero : round 0 = 0
  one : round 1 = 1
  mono : Monotone round

/-- Division of `f64`: the rounded quotient, none for a division by zero. -/
noncomputable def fdiv (round : ℝ → ℝ) (x y : ℝ) : Option ℝ :=
  if y = 0 then none else some (round (x / y))

open Classical in
/-- `f64::powf`: `NaN` for a negative base and an exponent that is not an integer. -/
noncomputable def powf (round : ℝ → ℝ) (x y : ℝ) : Option ℝ :=
  if x < 0 ∧ ¬∃ n : ℤ, y = n then none else some (round (x ^ y))

/-- `BigRational::from_float(p)`, its numerator and denominator as `BigUint`,
`(1 << 128) * numer / denom` and `to_u128`: exactly `⌊2 ^ 128 * p⌋`, for a `p` that is not
negative and a result that fits. -/
noncomputable def scaleThreshold (p : ℝ) : Option ℕ :=
  if p < 0 then none
  else if ⌊2 ^ 128 * p⌋₊ < 2 ^ 128 then some ⌊2 ^ 128 * p⌋₊
  else none

/-- `calculate_primary_threshold(c, authorities, authority_index)`. -/
noncomputable def calculatePrimaryThreshold (round : ℝ → ℝ) (c : ℕ × ℕ)
    (authorities : List (α × ℕ)) (authorityIndex : ℕ) : Option ℕ :=
  (fdiv round (round c.1) (round c.2)).bind fun c =>
    (authorities[authorityIndex]?).bind fun (_, weight) =>
      (fdiv round (round weight) (round ((authorities.map (·.2)).sum : ℕ))).bind fun theta =>
        -- `assert!(theta > 0.0, "authority with weight 0.")`
        if theta ≤ 0 then none
        else (powf round (round (1 - c)) theta).bind fun q => scaleThreshold (round (1 - q))

/-! ## Steps -/

theorem fdiv_self {round : ℝ → ℝ} (hround : Rounding round) {x : ℝ} (hx : x ≠ 0) :
    fdiv round x x = some 1 := by
  simp [fdiv, hx, hround.one]

theorem powf_of_nonneg {round : ℝ → ℝ} {x y : ℝ} (hx : 0 ≤ x) :
    powf round x y = some (round (x ^ y)) := by
  simp [powf, not_lt.mpr hx]

theorem one_le_round_natCast {round : ℝ → ℝ} (hround : Rounding round) {n : ℕ} (hn : 0 < n) :
    1 ≤ round n := by
  have hle : (1 : ℝ) ≤ n := by exact_mod_cast hn
  calc (1 : ℝ) = round 1 := hround.one.symm
    _ ≤ round n := hround.mono hle

theorem scaleThreshold_one : scaleThreshold 1 = none := by
  have hfloor : ⌊(2 : ℝ) ^ 128 * 1⌋₊ = 2 ^ 128 := by
    rw [mul_one]
    exact_mod_cast Nat.floor_natCast (2 ^ 128)
  rw [scaleThreshold, if_neg (by norm_num), hfloor, if_neg (lt_irrefl _)]

/-! ## `c = 1` -/

/-- With `c = (a, a)` the threshold panics for every authority: `c` is `1`, its complement `0`,
and `p` is `1`, one more than a `u128` can hold once scaled. -/
theorem calculatePrimaryThreshold_certain_panics {round : ℝ → ℝ} (hround : Rounding round)
    {a : ℕ} (ha : 0 < a) (authorities : List (α × ℕ)) (authorityIndex : ℕ) :
    calculatePrimaryThreshold round (a, a) authorities authorityIndex = none := by
  have hc : fdiv round (round a) (round a) = some 1 :=
    fdiv_self hround (by linarith [one_le_round_natCast hround ha])
  -- whatever `theta`, the power of `0` is `0`
  have hq (theta : ℝ) (htheta : ¬theta ≤ 0) : powf round (round (1 - 1)) theta = some 0 := by
    rw [sub_self, hround.zero, powf_of_nonneg le_rfl, Real.zero_rpow (by linarith), hround.zero]
  simp only [calculatePrimaryThreshold, hc, Option.bind_some]
  cases authorities[authorityIndex]? with
  | none => rfl
  | some entry =>
    simp only [Option.bind_some]
    cases fdiv round (round entry.2) (round ((authorities.map (·.2)).sum : ℕ)) with
    | none => rfl
    | some theta =>
      simp only [Option.bind_some]
      split_ifs with htheta
      · rfl
      · rw [hq theta htheta, Option.bind_some, sub_zero, hround.one, scaleThreshold_one]

/-- With exact arithmetic: one authority, `c = (1, 1)`. -/
theorem calculatePrimaryThreshold_certain_panics_one :
    calculatePrimaryThreshold id (1, 1) [((), 1)] 0 = none :=
  calculatePrimaryThreshold_certain_panics ⟨rfl, rfl, monotone_id⟩ Nat.one_pos _ _

end Tetcore.Babe
