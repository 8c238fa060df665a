import Mathlib
import Tetcore.Arithmetic.Normalize
import Tetcore.Lib.Rounding

/-!
# Fixed-point fractions

`primitives/arithmetic/src/per_things.rs`. A `PerThing` is a number of parts out of `ACCURACY`,
stored in an unsigned `Inner` word, with a wider `Upper` word for products; a value of one is its
parts. The structure carries the bounds the `implement_per_thing!` macro checks for each type.
-/

namespace Tetcore.Arithmetic

structure PerThing where
  accuracy : ℕ
  /-- The largest value of `Inner`. -/
  innerMax : ℕ
  /-- The largest value of `Upper`. -/
  upperMax : ℕ
  accuracy_pos : 0 < accuracy
  accuracy_le_innerMax : accuracy ≤ innerMax
  innerMax_mul_le_upperMax : innerMax * innerMax ≤ upperMax

namespace PerThing

def percent : PerThing := ⟨100, 2 ^ 8 - 1, 2 ^ 16 - 1, by decide, by decide, by decide⟩

def perU16 : PerThing := ⟨65535, 2 ^ 16 - 1, 2 ^ 32 - 1, by decide, by decide, by decide⟩

def permill : PerThing := ⟨10 ^ 6, 2 ^ 32 - 1, 2 ^ 64 - 1, by decide, by decide, by decide⟩

def perbill : PerThing := ⟨10 ^ 9, 2 ^ 32 - 1, 2 ^ 64 - 1, by decide, by decide, by decide⟩

variable (P : PerThing)

/-- `PerThing::from_parts`: parts past `ACCURACY` are cut to one. -/
def fromParts (parts : ℕ) : ℕ := min parts P.accuracy

/-- `from_rational_approximation`: `p / q` rounded down, after both are divided by a factor that
brings `q` within `ACCURACY`. -/
def fromRationalApproximation (p q : ℕ) : ℕ :=
  let divCeil (x f : ℕ) : ℕ := x / f + if x % f > 0 then 1 else 0
  let q := max q 1
  let p := min p q
  let factor := max (divCeil q P.accuracy) 1
  p / factor * P.accuracy / (q / factor)

/-- `rational_mul_correction` with `Rounding::Nearest`: the part of `x * numer / denom` that
`x / denom * numer` misses, rounded to the nearest (an exact half down). -/
def rationalMulCorrection (x numer denom : ℕ) : ℕ :=
  let remMul := x % denom * numer
  remMul / denom + if remMul % denom > denom / 2 then 1 else 0

/-- `Mul<N> for PerThing`, that is `overflow_prune_mul` with `Rounding::Nearest`: `x` times the
fraction of `part` parts. -/
def mul (part x : ℕ) : ℕ :=
  x / P.accuracy * part + rationalMulCorrection x part P.accuracy

/-! ### The rounding modes of the multiplications -/

/-- `rational_mul_correction`: the part of `x * numer / denom` that `x / denom * numer` misses,
rounded as `rounding` says. The remainder and the quotient pass through
`saturated_into::<Inner>()`. -/
def rationalMulCorrectionWith (rounding : Rounding) (x numer denom : ℕ) : ℕ :=
  let remInner := min (x % denom) P.innerMax
  let remMulUpper := remInner * numer
  let remMulDivInner := min (remMulUpper / denom) P.innerMax
  match rounding with
  | .down => remMulDivInner
  | .up => if remMulUpper % denom > 0 then remMulDivInner + 1 else remMulDivInner
  | .nearest => if remMulUpper % denom > denom / 2 then remMulDivInner + 1 else remMulDivInner

/-- `overflow_prune_mul`: `x` times `part` parts, as `x / ACCURACY * part` and the correction. -/
def overflowPruneMul (rounding : Rounding) (part x : ℕ) : ℕ :=
  x / P.accuracy * part + P.rationalMulCorrectionWith rounding x part P.accuracy

/-- `saturating_reciprocal_mul`: `x` divided by the fraction of `part` parts, the product and the
sum saturating at `nMax`, the largest value of `N`; `none` for the division by zero of
`part = 0`. -/
def saturatingReciprocalMulWith (nMax : ℕ) (rounding : Rounding) (part x : ℕ) : Option ℕ :=
  if part = 0 then none
  else some (min (min (x / part * P.accuracy) nMax +
    P.rationalMulCorrectionWith rounding x P.accuracy part) nMax)

/-- `PerThing::mul_floor`. -/
def mulFloor (part x : ℕ) : ℕ := P.overflowPruneMul .down part x

/-- `PerThing::mul_ceil`. -/
def mulCeil (part x : ℕ) : ℕ := P.overflowPruneMul .up part x

/-- `PerThing::saturating_reciprocal_mul`. -/
def saturatingReciprocalMul (nMax part x : ℕ) : Option ℕ :=
  P.saturatingReciprocalMulWith nMax .nearest part x

/-- `PerThing::saturating_reciprocal_mul_floor`. -/
def saturatingReciprocalMulFloor (nMax part x : ℕ) : Option ℕ :=
  P.saturatingReciprocalMulWith nMax .down part x

/-- `PerThing::saturating_reciprocal_mul_ceil`. -/
def saturatingReciprocalMulCeil (nMax part x : ℕ) : Option ℕ :=
  P.saturatingReciprocalMulWith nMax .up part x

section Exact

variable {P}

theorem rationalMulCorrectionWith_eq (rounding : Rounding) (x : ℕ) {numer denom : ℕ}
    (hdenom : 0 < denom) (hdenomMax : denom ≤ P.innerMax) (hnumerMax : numer ≤ P.innerMax) :
    P.rationalMulCorrectionWith rounding x numer denom =
      rounding.div (x % denom * numer) denom := by
  have hrem : min (x % denom) P.innerMax = x % denom :=
    min_eq_left ((Nat.mod_lt x hdenom).le.trans hdenomMax)
  have hquot : min (x % denom * numer / denom) P.innerMax = x % denom * numer / denom := by
    refine min_eq_left ((Nat.div_le_of_le_mul ?_).trans hnumerMax)
    exact Nat.mul_le_mul_right numer (Nat.mod_lt x hdenom).le
  rw [Rounding.div_eq_div_add_carry rounding hdenom]
  cases rounding with
  | down => simp only [rationalMulCorrectionWith, Rounding.carry, hrem, hquot, Nat.add_zero]
  | up =>
    simp only [rationalMulCorrectionWith, Rounding.carry, hrem, hquot]
    split <;> rfl
  | nearest =>
    simp only [rationalMulCorrectionWith, Rounding.carry, hrem, hquot]
    split <;> rfl

theorem mul_split (x k b : ℕ) : x * k = x % b * k + x / b * k * b := by
  rw [Nat.mul_right_comm, ← Nat.add_mul, Nat.mod_add_div']

theorem rationalMulCorrection_eq (x numer : ℕ) {denom : ℕ} (hdenom : 0 < denom) :
    rationalMulCorrection x numer denom = Rounding.nearest.div (x % denom * numer) denom := by
  rw [Rounding.div_eq_div_add_carry .nearest hdenom]
  rfl

theorem overflowPruneMul_eq (rounding : Rounding) {k : ℕ} (hk : k ≤ P.accuracy) (x : ℕ) :
    P.overflowPruneMul rounding k x = rounding.div (x * k) P.accuracy := by
  rw [overflowPruneMul, rationalMulCorrectionWith_eq rounding x P.accuracy_pos
    P.accuracy_le_innerMax (hk.trans P.accuracy_le_innerMax), mul_split x k P.accuracy,
    Rounding.div_add_mul rounding P.accuracy_pos]

theorem mul_eq (k x : ℕ) : P.mul k x = Rounding.nearest.div (x * k) P.accuracy := by
  rw [mul, rationalMulCorrection_eq x k P.accuracy_pos, mul_split x k P.accuracy,
    Rounding.div_add_mul .nearest P.accuracy_pos]

theorem mul_le_mul_right (k : ℕ) {x y : ℕ} (h : x ≤ y) : P.mul k x ≤ P.mul k y := by
  rw [mul_eq, mul_eq]
  exact Rounding.div_le_div_of_le .nearest (Nat.mul_le_mul_right k h)

theorem mul_le_self {k : ℕ} (hk : k ≤ P.accuracy) (x : ℕ) : P.mul k x ≤ x := by
  rw [mul_eq]
  exact Rounding.div_le_of_le_mul .nearest P.accuracy_pos (Nat.mul_le_mul_left x hk)

theorem mul_le_of_le {k x n : ℕ} (h : x * k ≤ n * P.accuracy) : P.mul k x ≤ n := by
  rw [mul_eq]
  exact Rounding.div_le_of_le_mul .nearest P.accuracy_pos h

@[simp]
theorem mul_zero_right (k : ℕ) : P.mul k 0 = 0 := by
  simp [mul, rationalMulCorrection]

@[simp]
theorem mulCeil_zero (x : ℕ) : P.mulCeil 0 x = 0 := by
  simp [mulCeil, overflowPruneMul, rationalMulCorrectionWith]

theorem overflowPruneMul_le (rounding : Rounding) {k : ℕ} (hk : k ≤ P.accuracy) (x : ℕ) :
    P.overflowPruneMul rounding k x ≤ x := by
  rw [overflowPruneMul_eq rounding hk]
  exact Rounding.div_le_of_le_mul rounding P.accuracy_pos (Nat.mul_le_mul_left x hk)

theorem saturatingReciprocalMulWith_eq (nMax : ℕ) (rounding : Rounding) {k : ℕ} (hk : 0 < k)
    (hkMax : k ≤ P.accuracy) (x : ℕ) :
    P.saturatingReciprocalMulWith nMax rounding k x =
      some (min (rounding.div (x * P.accuracy) k) nMax) := by
  rw [saturatingReciprocalMulWith, if_neg hk.ne', rationalMulCorrectionWith_eq rounding x hk
    (hkMax.trans P.accuracy_le_innerMax) P.accuracy_le_innerMax, mul_split x P.accuracy k,
    Rounding.div_add_mul rounding hk, Option.some.injEq]
  omega

end Exact

/-- The multiplications by a fraction of `k` parts are exact: `mul_floor`, `mul_ceil` and `Mul` are
`x * k / ACCURACY` rounded down, up and to the nearest (a half down), none of them passes `x`, and
for `0 < k` the reciprocal multiplications are `x * ACCURACY / k` rounded the same three ways and
saturated at `nMax`, the largest value of `N`. -/
theorem perThing_mul_exact (k : ℕ) (hk : k ≤ P.accuracy) (nMax x : ℕ) :
    P.mulFloor k x = Rounding.down.div (x * k) P.accuracy ∧
      P.mulCeil k x = Rounding.up.div (x * k) P.accuracy ∧
      P.mul k x = Rounding.nearest.div (x * k) P.accuracy ∧
      (∀ rounding, P.overflowPruneMul rounding k x ≤ x) ∧
      (0 < k →
        P.saturatingReciprocalMulFloor nMax k x =
            some (min (Rounding.down.div (x * P.accuracy) k) nMax) ∧
          P.saturatingReciprocalMulCeil nMax k x =
            some (min (Rounding.up.div (x * P.accuracy) k) nMax) ∧
          P.saturatingReciprocalMul nMax k x =
            some (min (Rounding.nearest.div (x * P.accuracy) k) nMax)) := by
  refine ⟨overflowPruneMul_eq .down hk x, overflowPruneMul_eq .up hk x, mul_eq k x,
    fun rounding => overflowPruneMul_le rounding hk x, fun hpos => ?_⟩
  exact ⟨saturatingReciprocalMulWith_eq nMax .down hpos hk x,
    saturatingReciprocalMulWith_eq nMax .up hpos hk x,
    saturatingReciprocalMulWith_eq nMax .nearest hpos hk x⟩

/-- The case of 60 percent and `x = 10` in `u8`. -/
theorem perThing_mul_exact_sixtyPercent :
    60 ≤ percent.accuracy ∧
      (percent.mulFloor 60 10 = Rounding.down.div (10 * 60) percent.accuracy ∧
        percent.mulCeil 60 10 = Rounding.up.div (10 * 60) percent.accuracy ∧
        percent.mul 60 10 = Rounding.nearest.div (10 * 60) percent.accuracy ∧
        (∀ rounding, percent.overflowPruneMul rounding 60 10 ≤ 10) ∧
        (0 < 60 →
          percent.saturatingReciprocalMulFloor 255 60 10 =
              some (min (Rounding.down.div (10 * percent.accuracy) 60) 255) ∧
            percent.saturatingReciprocalMulCeil 255 60 10 =
              some (min (Rounding.up.div (10 * percent.accuracy) 60) 255) ∧
            percent.saturatingReciprocalMul 255 60 10 =
              some (min (Rounding.nearest.div (10 * percent.accuracy) 60) 255))) :=
  ⟨by decide, perThing_mul_exact percent 60 (by decide) 255 10⟩

/-- `Normalizable<P> for Vec<P>`: `normalize` in `Upper`, and each result back through
`saturated_into::<Inner>` and `from_parts`. -/
def normalize (parts : List ℕ) (targetedSum : ℕ) : Outcome String (List ℕ) :=
  (Arithmetic.normalize parts targetedSum P.upperMax).bind fun normalized =>
    .ok (normalized.map fun i => P.fromParts (min i P.innerMax))

theorem innerMax_le_upperMax : P.innerMax ≤ P.upperMax :=
  (Nat.le_mul_self _).trans P.innerMax_mul_le_upperMax

theorem fromParts_min_of_le {i : ℕ} (h : i ≤ P.accuracy) : P.fromParts (min i P.innerMax) = i := by
  rw [min_eq_left (h.trans P.accuracy_le_innerMax), fromParts, min_eq_left h]

theorem normalize_parts_ok {parts : List ℕ} {target : ℕ} (htarget : target ≤ P.accuracy)
    (hsum : parts.sum ≤ P.upperMax) (hlen : parts.length ≤ P.upperMax) (hne : parts ≠ []) :
    ∃ w, P.normalize parts target = .ok w ∧ w.sum = target ∧ w.length = parts.length := by
  have ht : target ≤ P.upperMax :=
    htarget.trans (P.accuracy_le_innerMax.trans P.innerMax_le_upperMax)
  obtain ⟨w, hw, hwsum, hup, hdown⟩ := Arithmetic.normalize_ok ht hsum hlen hne
  have hparts : ∀ i ∈ w, P.fromParts (min i P.innerMax) = i := fun i hi =>
    P.fromParts_min_of_le ((List.le_sum_of_mem hi).trans (hwsum ▸ htarget))
  refine ⟨w, ?_, hwsum, ?_⟩
  · rw [normalize, hw, Outcome.ok_bind, List.map_congr_left hparts, List.map_id']
  · rcases le_total parts.sum target with h | h
    · exact (hup h).length_eq.symm
    · exact (hdown h).length_eq.symm

/-- `normalize` fails exactly when the sum or the length of the input does not fit in `T`; on a
non-empty input that fits it reaches the target, each value moved towards it in place, and
`Vec<P>::normalize` returns parts that sum to the target's parts. -/
theorem normalize_reaches_target (input : List ℕ) (targetedSum maxT : ℕ)
    (ht : targetedSum ≤ maxT) :
    ((∃ e, Arithmetic.normalize input targetedSum maxT = .err e) ↔
        maxT < input.sum ∨ maxT < input.length) ∧
      (input.sum ≤ maxT → input.length ≤ maxT → input ≠ [] →
        ∃ w, Arithmetic.normalize input targetedSum maxT = .ok w ∧ w.sum = targetedSum ∧
          (input.sum ≤ targetedSum → List.Forall₂ (· ≤ ·) input w) ∧
          (targetedSum ≤ input.sum → List.Forall₂ (· ≥ ·) input w)) ∧
      ∀ (P : PerThing) (parts : List ℕ) (target : ℕ), target ≤ P.accuracy →
        parts.sum ≤ P.upperMax → parts.length ≤ P.upperMax → parts ≠ [] →
        ∃ w, P.normalize parts target = .ok w ∧ w.sum = target ∧ w.length = parts.length :=
  ⟨Arithmetic.normalize_eq_err_iff ht, fun hsum hlen hne => Arithmetic.normalize_ok ht hsum hlen hne,
    fun P _ _ htarget hsum hlen hne => P.normalize_parts_ok htarget hsum hlen hne⟩

/-- Four `u32` values raised to `40`. -/
theorem normalize_reaches_target_fourValues :
    ∃ w, Arithmetic.normalize [8, 9, 7, 10] 40 (2 ^ 32 - 1) = .ok w ∧ w.sum = 40 := by
  obtain ⟨w, hw, hsum, -⟩ :=
    (normalize_reaches_target [8, 9, 7, 10] 40 (2 ^ 32 - 1) (by decide)).2.1 (by decide) (by decide)
      (by decide)
  exact ⟨w, hw, hsum⟩

/-- The empty input is returned as it is: its sum stays `0` whatever the target. -/
theorem normalize_empty_misses_target :
    Arithmetic.normalize [] 10 (2 ^ 8 - 1) = .ok [] ∧ percent.normalize [] 10 = .ok [] := by
  decide

/-- `Percent` of 198/199: the factor `⌈199 / 100⌉ = 2` makes both 99, and the result is the whole,
100 parts, which is more than 198/199 of a hundred. -/
theorem fromRationalApproximation_rounds_up :
    percent.fromRationalApproximation 198 199 = 100 ∧
      198 * percent.accuracy < percent.fromRationalApproximation 198 199 * 199 := by
  decide

example : perbill.normalize [330000000, 330000000, 330000000] perbill.accuracy =
    .ok [333333334, 333333333, 333333333] := by decide
example : perbill.normalize [200000000, 150000000, 300000000] perbill.accuracy =
    .ok [316666668, 383333332, 300000000] := by decide
example : perU16.normalize [26214, 26214, 26214] perU16.accuracy = .ok [21845, 21845, 21845] := by
  decide

end PerThing

end Tetcore.Arithmetic
