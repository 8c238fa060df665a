import Mathlib
import Tetcore.Arithmetic.PerThing

/-!
# Dispatch weights and the weight-to-fee polynomial

`fabric/support/src/weights.rs`. A call declares its weight, class and whether it pays fees in a
`DispatchInfo`; after dispatch a `PostDispatchInfo` may lower the weight and waive the fee. A
`WeightToFeePolynomial` turns a weight into a fee by a saturating fold over its terms, each a
coefficient (an integer part and a `Perbill` part) times a power of the weight, added or taken
away.

`Balance` is an unsigned type with largest value `balanceMax`: its `saturating_add`,
`saturating_mul` and `saturating_pow` stop there, `saturating_sub` at zero, and
`saturated_from` a `Weight` is the weight capped at `balanceMax`. With no term taken away the fold
only grows with the weight (`calc_mono`).
-/

namespace Tetcore.Support

open Arithmetic PerThing

/-- `DispatchClass`. -/
inductive DispatchClass
  | normal
  | operational
  | mandatory
  deriving DecidableEq, Repr

/-- `DispatchClass::all()`. -/
def DispatchClass.all : List DispatchClass := [.normal, .operational, .mandatory]

/-- `Weight::max_value()`: weights are `u64`. -/
def weightMax : ℕ := 2 ^ 64 - 1

/-- `PerDispatchClass<T>`: one value for each class. -/
structure PerDispatchClass (α : Type) where
  normal : α
  operational : α
  mandatory : α
  deriving DecidableEq, Repr

namespace PerDispatchClass

variable {α : Type}

/-- `get(class)`. -/
def get (p : PerDispatchClass α) : DispatchClass → α
  | .normal => p.normal
  | .operational => p.operational
  | .mandatory => p.mandatory

/-- A write through `get_mut(class)`. -/
def set (p : PerDispatchClass α) : DispatchClass → α → PerDispatchClass α
  | .normal, v => { p with normal := v }
  | .operational, v => { p with operational := v }
  | .mandatory, v => { p with mandatory := v }

@[simp]
theorem get_set_self (p : PerDispatchClass α) (c : DispatchClass) (v : α) :
    (p.set c v).get c = v := by
  cases c <;> rfl

@[simp]
theorem get_set_of_ne (p : PerDispatchClass α) {c c' : DispatchClass} (h : c ≠ c') (v : α) :
    (p.set c v).get c' = p.get c' := by
  cases c <;> cases c' <;> first | rfl | exact absurd rfl h

@[simp]
theorem set_get (p : PerDispatchClass α) (c : DispatchClass) : p.set c (p.get c) = p := by
  cases c <;> rfl

/-! `impl PerDispatchClass<Weight>`: the consumed weight of a block. -/

/-- `total()`: the saturating sum over all classes. -/
def total (w : PerDispatchClass ℕ) : ℕ :=
  DispatchClass.all.foldl (fun sum c => min (sum + w.get c) weightMax) 0

/-- `add(weight, class)`, saturating. -/
def add (w : PerDispatchClass ℕ) (weight : ℕ) (c : DispatchClass) : PerDispatchClass ℕ :=
  w.set c (min (w.get c + weight) weightMax)

/-- `checked_add(weight, class)`: `None` on overflow, leaving nothing written. -/
def checkedAdd (w : PerDispatchClass ℕ) (weight : ℕ) (c : DispatchClass) :
    Option (PerDispatchClass ℕ) :=
  if w.get c + weight ≤ weightMax then some (w.set c (w.get c + weight)) else none

/-- `sub(weight, class)`, saturating at zero. -/
def sub (w : PerDispatchClass ℕ) (weight : ℕ) (c : DispatchClass) : PerDispatchClass ℕ :=
  w.set c (w.get c - weight)

end PerDispatchClass

/-- `Pays`. -/
inductive Pays
  | yes
  | no
  deriving DecidableEq, Repr

/-- `DispatchInfo`; its `class` is `dispatchClass` here. -/
structure DispatchInfo where
  weight : ℕ
  dispatchClass : DispatchClass
  paysFee : Pays
  deriving DecidableEq, Repr

/-- `PostDispatchInfo`; its field `pays_fee` is `pays` here, beside the method `pays_fee`. -/
structure PostDispatchInfo where
  actualWeight : Option ℕ
  pays : Pays
  deriving DecidableEq, Repr

namespace PostDispatchInfo

variable (post : PostDispatchInfo) (info : DispatchInfo)

/-- `calc_actual_weight`: the actual weight, never above the declared one. -/
def calcActualWeight : ℕ :=
  match post.actualWeight with
  | some actualWeight => min actualWeight info.weight
  | none => info.weight

/-- `calc_unspent`. -/
def calcUnspent : ℕ := info.weight - post.calcActualWeight info

/-- `pays_fee(info)`: no fee when either the declaration or the result waives it. -/
def paysFee : Pays :=
  if info.paysFee = .no ∨ post.pays = .no then .no else .yes

theorem calcActualWeight_le : post.calcActualWeight info ≤ info.weight := by
  unfold calcActualWeight
  split
  · exact min_le_right _ _
  · exact le_rfl

theorem calcActualWeight_none (h : post.actualWeight = none) : post.calcActualWeight info = info.weight := by
  simp [calcActualWeight, h]

theorem calcUnspent_add_calcActualWeight :
    post.calcUnspent info + post.calcActualWeight info = info.weight :=
  Nat.sub_add_cancel (post.calcActualWeight_le info)

theorem paysFee_eq_no_iff : post.paysFee info = .no ↔ info.paysFee = .no ∨ post.pays = .no := by
  unfold paysFee
  split <;> simp_all

end PostDispatchInfo

/-- `WeightToFeeCoefficient`: `coeff_frac` in `Perbill` parts, `degree` a `u8`. -/
structure WeightToFeeCoefficient where
  coeffInteger : ℕ
  coeffFrac : ℕ
  negative : Bool
  degree : ℕ
  deriving DecidableEq, Repr

/-- A term whose value is not negative: added, or zero. -/
def WeightToFeeCoefficient.NonNegative (args : WeightToFeeCoefficient) : Prop :=
  args.negative = false ∨ (args.coeffInteger = 0 ∧ args.coeffFrac = 0)

instance : DecidablePred WeightToFeeCoefficient.NonNegative := fun _ =>
  inferInstanceAs (Decidable (_ ∨ _))

/-- A `WeightToFeePolynomial`: its `polynomial()` and the largest value of its `Balance`. -/
structure WeightToFeePolynomial where
  balanceMax : ℕ
  polynomial : List WeightToFeeCoefficient
  deriving DecidableEq, Repr

namespace WeightToFeePolynomial

/-- One step of the fold of `calc`: the term of `args` at `weight`, added to or taken from `acc`,
saturating. -/
def calcStep (balanceMax weight acc : ℕ) (args : WeightToFeeCoefficient) : ℕ :=
  let w := min (min weight balanceMax ^ args.degree) balanceMax
  -- the `Perbill` product does not overflow
  let frac := perbill.mul args.coeffFrac w
  let integer := min (args.coeffInteger * w) balanceMax
  if args.negative then acc - frac - integer
  else min (min (acc + frac) balanceMax + integer) balanceMax

end WeightToFeePolynomial

/-- `WeightToFeePolynomial::calc(weight)`. -/
def WeightToFeePolynomial.calc (p : WeightToFeePolynomial) (weight : ℕ) : ℕ :=
  p.polynomial.foldl (WeightToFeePolynomial.calcStep p.balanceMax weight) 0

namespace WeightToFeePolynomial

theorem calcStep_mono {balanceMax weight weight' acc acc' : ℕ} {args : WeightToFeeCoefficient}
    (hargs : args.NonNegative) (hweight : weight ≤ weight') (hacc : acc ≤ acc') :
    calcStep balanceMax weight acc args ≤ calcStep balanceMax weight' acc' args := by
  -- the capped power, and with it both parts of the term, grows with the weight
  have hw : min (min weight balanceMax ^ args.degree) balanceMax ≤
      min (min weight' balanceMax ^ args.degree) balanceMax :=
    min_le_min_right _ (Nat.pow_le_pow_left (min_le_min_right _ hweight) _)
  have hfrac := perbill.mul_le_mul_right args.coeffFrac hw
  have hinteger := min_le_min_right balanceMax (Nat.mul_le_mul_left args.coeffInteger hw)
  unfold calcStep
  rcases hargs with hpos | ⟨hinteger0, hfrac0⟩
  · simp only [hpos, Bool.false_eq_true, if_false]
    omega
  · -- a zero term taken away leaves the accumulator
    have hzero (w : ℕ) : perbill.mul args.coeffFrac w = 0 :=
      Nat.le_zero.mp (perbill.mul_le_of_le (by simp [hfrac0]))
    simp only [hzero, hinteger0, Nat.zero_mul, Nat.zero_le, min_eq_left, Nat.sub_zero]
    split <;> omega

theorem foldl_calcStep_mono {balanceMax weight weight' : ℕ} (hweight : weight ≤ weight')
    (polynomial : List WeightToFeeCoefficient) (hargs : ∀ args ∈ polynomial, args.NonNegative) :
    ∀ {acc acc' : ℕ}, acc ≤ acc' →
      polynomial.foldl (calcStep balanceMax weight) acc ≤
        polynomial.foldl (calcStep balanceMax weight') acc' := by
  induction polynomial with
  | nil => exact fun hacc => hacc
  | cons args rest ih =>
    intro acc acc' hacc
    -- the first term grows both accumulators alike, then the rest of the fold
    exact ih (fun a ha => hargs a (List.mem_cons_of_mem _ ha))
      (calcStep_mono (hargs args List.mem_cons_self) hweight hacc)

theorem calc_mono (p : WeightToFeePolynomial) (hp : ∀ args ∈ p.polynomial, args.NonNegative)
    {weight weight' : ℕ} (h : weight ≤ weight') : p.calc weight ≤ p.calc weight' :=
  foldl_calcStep_mono h p.polynomial hp le_rfl

end WeightToFeePolynomial

end Tetcore.Support
