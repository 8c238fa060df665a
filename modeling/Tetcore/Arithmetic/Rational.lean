import Mathlib
import Tetcore.Arithmetic.BigUintDiv

/-!
# 128-bit rationals

`primitives/arithmetic/src/helpers_128bit.rs` and `rational.rs`. A `Rational128` is a numerator
and a denominator below `2 ^ 128`; the lazy operations assume a common denominator and saturate the
numerator, and comparison multiplies across without bound. `multiply_by_rational` computes
`a * b / c`: when the product needs more than 128 bits it computes in `BigUint`, by `div_unit` when
`c` has one 32-bit limb and by the long division `div` otherwise, which rounds to the nearest
integer (a half down). `multiplyByRationalBig_eq` takes that branch back to arithmetic on `ℕ`.
-/

namespace Tetcore.Arithmetic

/-- `u128::max_value()`. -/
def u128Max : ℕ := 2 ^ 128 - 1

/-- `helpers_128bit::to_big_uint`: the 32-bit limbs of `x` under a zero limb, most significant
first, then `lstrip`. The source takes the four limbs of a `u128`; these are its limbs whatever the
size of `x`, and zero is the one limb `0` as there. -/
def toBigUint (x : ℕ) : BigUint :=
  BigUint.lstrip ⟨0 :: ((Nat.digits base x).map UInt32.ofNat).reverse⟩

/-- `TryFrom<BigUint> for u128`: the value of the stripped limbs when there are at most four. -/
def BigUint.tryIntoU128 (x : BigUint) : Except String ℕ :=
  let x := x.lstrip
  if x.len * 32 > 128 then .error "cannot fit a number into u128" else .ok x.value

/-- The quotient in the `BigUint` branch of `multiply_by_rational`: `div_unit` by a divisor of one
limb, and otherwise the long division `div`, rounded up when the remainder is past half of `c`. -/
def bigQuotient (ab cNum : BigUint) (c : ℕ) : BigUint :=
  if cNum.len = 1 then ab.divUnit (UInt32.ofNat c)
  else
    -- `div` is `Some` here, and `unwrap_or` falls back to zeros
    let (q, r) := (ab.div cNum true).getD (⟨[0]⟩, ⟨[0]⟩)
    -- the `expect` on `r.try_into()` holds: the remainder is below `c`
    if r.value > c / 2 then q.add (toBigUint 1) else q

/-- The `BigUint` branch of `multiply_by_rational`, on the operands after the division first. -/
def multiplyByRationalBig (a b c : ℕ) : Except String ℕ :=
  let aNum := toBigUint a
  let bNum := toBigUint b
  let cNum := toBigUint c
  let ab := (aNum.mul bNum).lstrip
  let q := bigQuotient ab cNum c
  q.lstrip.tryIntoU128.mapError fun _ => "result cannot fit in u128"

/-- `helpers_128bit::multiply_by_rational`. -/
def multiplyByRational (a b c : ℕ) : Except String ℕ :=
  if a = 0 ∨ b = 0 then .ok 0
  else
    let c := max c 1
    let (a, b) := if b > a then (b, a) else (a, b)
    -- attempt to divide first
    let (a, b, c) :=
      if a % c = 0 then (a / c, b, 1) else if b % c = 0 then (a, b / c, 1) else (a, b, c)
    if a * b ≤ u128Max then .ok (a * b / c)
    else multiplyByRationalBig a b c

theorem multiplyByRational_of_zero {a b : ℕ} (c : ℕ) (h : a = 0 ∨ b = 0) :
    multiplyByRational a b c = .ok 0 :=
  if_pos h

theorem divideFirst_cases {A B c x y d : ℕ}
    (h : (if A % c = 0 then (A / c, B, 1) else if B % c = 0 then (A, B / c, 1) else (A, B, c)) =
      (x, y, d)) :
    (d = 1 ∧ x * y = A * B / c ∧ A * B % c = 0) ∨ (x = A ∧ y = B ∧ d = c) := by
  split at h
  case isTrue hA =>
    cases h
    have hdvd := Nat.dvd_of_mod_eq_zero hA
    exact .inl ⟨rfl, Nat.div_mul_right_comm hdvd B,
      Nat.mod_eq_zero_of_dvd (Dvd.dvd.mul_right hdvd B)⟩
  case isFalse =>
    split at h
    case isTrue hB =>
      cases h
      have hdvd := Nat.dvd_of_mod_eq_zero hB
      exact .inl ⟨rfl, (Nat.mul_div_assoc A hdvd).symm,
        Nat.mod_eq_zero_of_dvd (Dvd.dvd.mul_left hdvd A)⟩
    case isFalse =>
      cases h
      exact .inr ⟨rfl, rfl, rfl⟩

/-- The carry `multiply_by_rational` adds to the quotient of the product `n` by `c`: one only when
the product needs more than 128 bits, `c` more than one 32-bit limb, and the remainder is past half
of `c`. -/
def multiplyByRationalCarry (n c : ℕ) : ℕ :=
  if u128Max < n ∧ 2 ^ 32 ≤ c ∧ c / 2 < n % c then 1 else 0

/-! ### The `BigUint` branch -/

theorem base_pow_four : base ^ 4 = u128Max + 1 := by
  unfold base u128Max
  norm_num

theorem value_toBigUint (x : ℕ) : (toBigUint x).value = x := by
  have hlt : ∀ d ∈ Nat.digits base x, d < base :=
    fun d hd => Nat.digits_lt_base (by unfold base; norm_num) hd
  -- every digit survives the round trip through a limb
  have hmap : (Nat.digits base x).map (UInt32.toNat ∘ UInt32.ofNat) = Nat.digits base x := by
    conv_rhs => rw [← List.map_id (Nat.digits base x)]
    exact List.map_congr_left fun d hd => toNat_ofNat_of_lt (hlt d hd)
  rw [toBigUint, BigUint.value_lstrip, BigUint.value_cons_zero]
  simp only [BigUint.value, BigUint.limbs, List.reverse_reverse, List.map_map]
  rw [hmap, Nat.ofDigits_digits]

theorem value_limbs_toBigUint (x : ℕ) :
    (⟨0 :: ((Nat.digits base x).map UInt32.ofNat).reverse⟩ : BigUint).value = x := by
  rw [← BigUint.value_lstrip, ← toBigUint, value_toBigUint]

theorem len_toBigUint_le_iff (x : ℕ) {n : ℕ} (hn : 1 ≤ n) : (toBigUint x).len ≤ n ↔ x < base ^ n := by
  rw [toBigUint, BigUint.len_lstrip_le_iff _ hn, value_limbs_toBigUint]

theorem msb_toBigUint {x : ℕ} (hx : base ≤ x) : (toBigUint x).msb ≠ 0 :=
  BigUint.msb_lstrip_ne_zero (by rw [value_limbs_toBigUint]; exact hx)

theorem tryIntoU128_eq (x : BigUint) :
    x.tryIntoU128 = if x.value ≤ u128Max then .ok x.value else .error "cannot fit a number into u128" := by
  have hfit := BigUint.len_lstrip_le_iff x (show 1 ≤ 4 by norm_num)
  rw [base_pow_four] at hfit
  rw [BigUint.tryIntoU128, BigUint.value_lstrip]
  by_cases hx : x.value ≤ u128Max
  · rw [if_neg (by omega), if_pos hx]
  · rw [if_pos (by omega), if_neg hx]

/-- The quotient of a stripped product past 128 bits by a `c` of at most 128 bits is the quotient
with its carry: `div_unit` divides exactly, and `div` meets its preconditions, the divisor having
fewer limbs. -/
theorem value_bigQuotient {ab : BigUint} {c : ℕ} (hc : 0 < c) (hc' : c ≤ u128Max)
    (hmsb : ab.msb ≠ 0) (hab : u128Max < ab.value) :
    (bigQuotient ab (toBigUint c) c).value = ab.value / c + multiplyByRationalCarry ab.value c := by
  have hone := len_toBigUint_le_iff c le_rfl
  rw [pow_one] at hone
  unfold bigQuotient
  split
  case isTrue h1 =>
    -- one limb: `c` is below the base, so no carry
    have hcb : c < base := hone.mp h1.le
    rw [(BigUint.divUnit_spec _ _).1, toNat_ofNat_of_lt hcb, max_eq_left hc,
      multiplyByRationalCarry, if_neg (by unfold base at hcb; omega), Nat.add_zero]
  case isFalse h1 =>
    have hcb : base ≤ c := by
      by_contra hlt
      have hlen0 : (toBigUint c).len ≠ 0 := by
        intro h0
        have := (toBigUint c).value_lt
        rw [h0, value_toBigUint, pow_zero] at this
        omega
      exact h1 (by have := hone.mpr (by omega); omega)
    have hc4 : (toBigUint c).len ≤ 4 :=
      (len_toBigUint_le_iff c (by norm_num)).mpr (by rw [base_pow_four]; omega)
    have hab4 : 4 < ab.len := by
      by_contra hle
      have hlt := lt_of_lt_of_le ab.value_lt (Nat.pow_le_pow_right base_pos (not_lt.mp hle))
      rw [base_pow_four] at hlt
      omega
    obtain ⟨q, r, hdiv, hq, hr⟩ := BigUint.div_spec (by omega) (msb_toBigUint hcb) hmsb (by omega)
    rw [value_toBigUint] at hq hr
    rw [hdiv, Option.getD_some]
    dsimp only
    unfold multiplyByRationalCarry
    split
    case isTrue hhalf =>
      rw [(BigUint.add_spec _ _).1, value_toBigUint, hq,
        if_pos ⟨hab, by unfold base at hcb; omega, by omega⟩]
    case isFalse hhalf =>
      rw [hq, if_neg (by omega), Nat.add_zero]

theorem multiplyByRationalBig_eq {a b c : ℕ} (hc : 0 < c) (hc' : c ≤ u128Max)
    (hab : u128Max < a * b) :
    multiplyByRationalBig a b c =
      if a * b / c + multiplyByRationalCarry (a * b) c ≤ u128Max then
        .ok (a * b / c + multiplyByRationalCarry (a * b) c)
      else .error "result cannot fit in u128" := by
  have hprod : ((toBigUint a).mul (toBigUint b)).lstrip.value = a * b := by
    rw [BigUint.value_lstrip, (BigUint.mul_spec _ _).1, value_toBigUint, value_toBigUint]
  have hmsb : ((toBigUint a).mul (toBigUint b)).lstrip.msb ≠ 0 := by
    apply BigUint.msb_lstrip_ne_zero
    rw [← BigUint.value_lstrip, hprod]
    have : base ≤ u128Max := by unfold base u128Max; norm_num
    omega
  have hq := value_bigQuotient hc hc' hmsb (by rw [hprod]; exact hab)
  rw [hprod] at hq
  unfold multiplyByRationalBig
  dsimp only
  rw [tryIntoU128_eq, BigUint.value_lstrip, hq]
  by_cases hfit : a * b / c + multiplyByRationalCarry (a * b) c ≤ u128Max
  · rw [if_pos hfit, if_pos hfit]
    rfl
  · rw [if_neg hfit, if_neg hfit]
    rfl

theorem multiplyByRational_eq (a b : ℕ) {c : ℕ} (hc : c ≤ u128Max) :
    multiplyByRational a b c =
      if a * b / max c 1 + multiplyByRationalCarry (a * b) (max c 1) ≤ u128Max then
        .ok (a * b / max c 1 + multiplyByRationalCarry (a * b) (max c 1))
      else .error "result cannot fit in u128" := by
  unfold multiplyByRational
  split
  case isTrue h0 =>
    have hab : a * b = 0 := by rcases h0 with rfl | rfl <;> simp
    simp [hab, multiplyByRationalCarry, u128Max]
  case isFalse =>
    generalize hS : (if b > a then (b, a) else (a, b)) = S
    obtain ⟨A, B⟩ := S
    have hAB : A * B = a * b := by
      split at hS <;> cases hS
      · exact Nat.mul_comm b a
      · rfl
    dsimp only
    generalize hT : (if A % max c 1 = 0 then (A / max c 1, B, 1)
      else if B % max c 1 = 0 then (A, B / max c 1, 1) else (A, B, max c 1)) = T
    obtain ⟨x, y, d⟩ := T
    rw [← hAB]
    dsimp only
    rcases divideFirst_cases hT with ⟨rfl, hxy, hrem⟩ | ⟨rfl, rfl, rfl⟩
    · -- an operand divided exactly: no remainder, so no carry, and the division by one is exact
      have hcarry : multiplyByRationalCarry (A * B) (max c 1) = 0 := by
        simp [multiplyByRationalCarry, hrem]
      rw [hcarry, Nat.add_zero, ← hxy, Nat.div_one]
      by_cases hfit : x * y ≤ u128Max
      · simp [hfit]
      · rw [if_neg hfit, if_neg hfit,
          multiplyByRationalBig_eq one_pos (by unfold u128Max; norm_num) (not_le.mp hfit)]
        simp [multiplyByRationalCarry, hfit]
    · by_cases hfit : x * y ≤ u128Max
      · -- the product fits: rounded down, and no carry
        have hcarry : multiplyByRationalCarry (x * y) (max c 1) = 0 := by
          simp [multiplyByRationalCarry, not_lt.mpr hfit]
        rw [if_pos hfit, hcarry, Nat.add_zero, if_pos ((Nat.div_le_self _ _).trans hfit)]
      · -- past 128 bits: the `BigUint` branch, with the carry of the long division
        rw [if_neg hfit, multiplyByRationalBig_eq (lt_max_of_lt_right Nat.one_pos)
          (max_le hc (by unfold u128Max; norm_num)) (not_le.mp hfit)]

theorem multiplyByRational_spec (a b : ℕ) {c : ℕ} (hc : c ≤ u128Max) :
    ∃ q, a * b / max c 1 ≤ q ∧ q ≤ a * b / max c 1 + 1 ∧
      (q = a * b / max c 1 + 1 → 0 < a * b % max c 1) ∧
      multiplyByRational a b c = if q ≤ u128Max then .ok q else .error "result cannot fit in u128" := by
  refine ⟨a * b / max c 1 + multiplyByRationalCarry (a * b) (max c 1), Nat.le_add_right _ _, ?_,
    fun hcarry => ?_, multiplyByRational_eq a b hc⟩
  · unfold multiplyByRationalCarry
    split <;> omega
  · unfold multiplyByRationalCarry at hcarry
    split at hcarry <;> omega

theorem div_add_carry_mono {n n' c : ℕ} (h : n ≤ n') :
    n / c + multiplyByRationalCarry n c ≤ n' / c + multiplyByRationalCarry n' c := by
  have hq : n / c ≤ n' / c := Nat.div_le_div_right h
  have hsplit := Nat.mod_add_div n c
  have hsplit' := Nat.mod_add_div n' c
  unfold multiplyByRationalCarry
  rcases hq.lt_or_eq with hlt | heq
  · split <;> split <;> omega
  · rw [heq] at hsplit
    generalize c * (n' / c) = whole at hsplit hsplit'
    split <;> split <;> omega

theorem multiplyByRational_mono {a b b' c q' : ℕ} (hc : c ≤ u128Max) (h : b ≤ b')
    (h' : multiplyByRational a b' c = .ok q') :
    ∃ q, multiplyByRational a b c = .ok q ∧ q ≤ q' := by
  have hmono := div_add_carry_mono (c := max c 1) (Nat.mul_le_mul_left a h)
  rw [multiplyByRational_eq _ _ hc] at h' ⊢
  split at h'
  case isTrue hfit =>
    cases h'
    exact ⟨_, if_pos (hmono.trans hfit), hmono⟩
  case isFalse => cases h'

/-- `multiply_by_rational` is within one of `a * b / c` when that fits, and fails only when the exact
quotient is past `u128::max_value()`. -/
theorem multiplyByRational_accurate (a b : ℕ) {c : ℕ} (hc : c ≤ u128Max) :
    (a * b / max c 1 + 1 < 2 ^ 128 →
      ∃ r, multiplyByRational a b c = .ok r ∧ (r = a * b / max c 1 ∨ r = a * b / max c 1 + 1)) ∧
    (∀ e, multiplyByRational a b c = .error e → u128Max * max c 1 < a * b) := by
  obtain ⟨q, hlo, hhi, hexact, hq⟩ := multiplyByRational_spec a b hc
  refine ⟨fun hfit => ⟨q, ?_, by omega⟩, fun e he => ?_⟩
  · rw [hq, if_pos (by unfold u128Max; omega)]
  · rw [hq] at he
    split at he
    · cases he
    · rename_i hbig
      have hc : 0 < max c 1 := lt_max_of_lt_right Nat.one_pos
      rcases Nat.lt_or_ge u128Max (a * b / max c 1) with hfloor | hfloor
      · calc u128Max * max c 1 < (u128Max + 1) * max c 1 := Nat.mul_lt_mul_of_pos_right (Nat.lt_succ_self _) hc
          _ ≤ a * b / max c 1 * max c 1 := Nat.mul_le_mul_right _ hfloor
          _ ≤ a * b := Nat.div_mul_le_self _ _
      · -- the quotient is exactly u128Max and the carry came from a remainder
        have hrem : 0 < a * b % max c 1 := hexact (by omega)
        calc u128Max * max c 1 = a * b / max c 1 * max c 1 := by rw [show a * b / max c 1 = u128Max by omega]
          _ < a * b / max c 1 * max c 1 + a * b % max c 1 := Nat.lt_add_of_pos_right hrem
          _ = a * b := Nat.div_add_mod' _ _

/-- The operands of the ignored test `multiply_by_rational_fuzzed_equation`, which takes the Knuth
division path: the quotient is within one of the exact one. -/
theorem multiplyByRational_fuzzedEquation :
    549756068598 ≤ u128Max ∧
    154742576605164960401588224 * 9223376310179529214 / max 549756068598 1 + 1 < 2 ^ 128 ∧
      ∃ r, multiplyByRational 154742576605164960401588224 9223376310179529214 549756068598 = .ok r ∧
        (r = 154742576605164960401588224 * 9223376310179529214 / max 549756068598 1 ∨
          r = 154742576605164960401588224 * 9223376310179529214 / max 549756068598 1 + 1) :=
  ⟨by unfold u128Max; norm_num, by norm_num,
    (multiplyByRational_accurate _ _ (by unfold u128Max; norm_num)).1 (by norm_num)⟩

-- the remainder is past half of `c`, so the result is one past the test's expected value
example :
    multiplyByRational 154742576605164960401588224 9223376310179529214 549756068598 =
      .ok 2596149632101417846585204209223680 := by
  rw [multiplyByRational_eq _ _ (by unfold u128Max; norm_num)]
  rfl

structure Rational128 where
  n : ℕ
  d : ℕ
  deriving DecidableEq

namespace Rational128

/-- `Rational128::from`: a zero denominator is taken as one. -/
def «from» (n d : ℕ) : Rational128 := ⟨n, max d 1⟩

def zero : Rational128 := ⟨0, 1⟩

/-- `Bounded::max_value()`. -/
def maxValue : Rational128 := ⟨u128Max, 1⟩

def isZero (r : Rational128) : Bool := r.n == 0

def lazySaturatingAdd (r other : Rational128) : Rational128 :=
  if other.isZero then r else ⟨min (r.n + other.n) u128Max, r.d⟩

def lazySaturatingSub (r other : Rational128) : Rational128 :=
  if other.isZero then r else ⟨r.n - other.n, r.d⟩

/-- `Ord for Rational128`. -/
def cmp (r other : Rational128) : Ordering :=
  if r.d = other.d then compare r.n other.n
  else if r.d = 0 then .gt
  else if other.d = 0 then .lt
  else compare (r.n * other.d) (other.n * r.d)

def toDen (r : Rational128) (den : ℕ) : Except String Rational128 :=
  if den = r.d then .ok r else (multiplyByRational r.n den r.d).map fun n => ⟨n, den⟩

end Rational128

end Tetcore.Arithmetic
