import Mathlib
import Tetcore.Arithmetic.FixedPoint
import Tetcore.Support.Weights
import Tetcore.Balances.Currency

/-!
# Transaction fees and their payment

`fabric/transaction-payment/src/lib.rs` and `payment.rs`. The fee of a call is its inclusion fee,
the base fee of its class, a fee per byte and the weight fee times the fee multiplier, plus the
tip; a call that does not pay has the tip alone. After dispatch the same computation runs on the
actual weight, and `CurrencyAdapter` refunds the difference to the payer and hands the rest, split
into the tip and the fee, to `OnUnbalanced`.

All fee arithmetic saturates at the largest `Balance`. The multiplier is a `FixedU128` inner
value; `saturating_mul_int` rounds through `multiply_by_rational`, which grows with the weight
fee (`FixedPoint.saturatingMulInt_mono`), so with a polynomial of terms that are not negative
the fee after dispatch is never above the fee before.

`CurrencyAdapter` is modelled over the balances currency. Its refund is what
`deposit_into_existing` deposits: nothing for a payer that no longer exists, but also nothing
for one that exists and whose free balance the refund would take past the largest `Balance`
(`correctAndDepositFee_overflow`).
-/

namespace Tetcore.Payment

open Arithmetic FixedPoint Support Balances

/-- What the fee computation reads of the runtime: `TransactionByteFee`, `WeightToFee`, whose
`Balance` is `BalanceOf<T>`, and of `BlockWeights` the `max_block` and each class's
`base_extrinsic`. -/
structure FeeConfig where
  transactionByteFee : ℕ
  weightToFeePolynomial : WeightToFeePolynomial
  maxBlock : ℕ
  baseExtrinsic : DispatchClass → ℕ

/-- `InclusionFee`. -/
structure InclusionFee where
  baseFee : ℕ
  lenFee : ℕ
  adjustedWeightFee : ℕ
  deriving DecidableEq, Repr

/-- `FeeDetails`. -/
structure FeeDetails where
  inclusionFee : Option InclusionFee
  tip : ℕ
  deriving DecidableEq, Repr

/-- `InclusionFee::inclusion_fee`, in a `Balance` whose largest value is `balanceMax`. -/
def InclusionFee.inclusionFee (balanceMax : ℕ) (i : InclusionFee) : ℕ :=
  min (min (i.baseFee + i.lenFee) balanceMax + i.adjustedWeightFee) balanceMax

/-- `FeeDetails::final_fee`. -/
def FeeDetails.finalFee (balanceMax : ℕ) (d : FeeDetails) : ℕ :=
  min ((d.inclusionFee.map (InclusionFee.inclusionFee balanceMax)).getD 0 + d.tip) balanceMax

namespace FeeConfig

variable (c : FeeConfig)

/-- The largest `BalanceOf<T>`. -/
def balanceMax : ℕ := c.weightToFeePolynomial.balanceMax

/-- `weight_to_fee(weight)`: the weight capped at `max_block`, through the polynomial. -/
def weightToFee (weight : ℕ) : ℕ := c.weightToFeePolynomial.calc (min weight c.maxBlock)

/-- `compute_fee_raw(len, weight, tip, pays_fee, class)` with the `NextFeeMultiplier`. -/
def computeFeeRaw (multiplier : ℤ) (len weight tip : ℕ) (paysFee : Pays)
    (dispatchClass : DispatchClass) : FeeDetails :=
  if paysFee = .yes then
    let perByte := c.transactionByteFee
    -- length fee. this is not adjusted.
    let fixedLenFee := min (perByte * len) c.balanceMax
    let unadjustedWeightFee := c.weightToFee weight
    let adjustedWeightFee := fixedU128.saturatingMulInt c.balanceMax multiplier unadjustedWeightFee
    let baseFee := c.weightToFee (c.baseExtrinsic dispatchClass)
    ⟨some ⟨baseFee, fixedLenFee, adjustedWeightFee⟩, tip⟩
  else ⟨none, tip⟩

/-- `compute_fee(len, info, tip)`, through `compute_fee_details`. -/
def computeFee (multiplier : ℤ) (len : ℕ) (info : DispatchInfo) (tip : ℕ) : ℕ :=
  (c.computeFeeRaw multiplier len info.weight tip info.paysFee info.dispatchClass).finalFee
    c.balanceMax

/-- `compute_actual_fee(len, info, post_info, tip)`, through `compute_actual_fee_details`. -/
def computeActualFee (multiplier : ℤ) (len : ℕ) (info : DispatchInfo) (post : PostDispatchInfo)
    (tip : ℕ) : ℕ :=
  (c.computeFeeRaw multiplier len (post.calcActualWeight info) tip (post.paysFee info)
    info.dispatchClass).finalFee c.balanceMax

/-! ### Fees before and after dispatch -/

section Monotone

variable {c} (hc : ∀ args ∈ c.weightToFeePolynomial.polynomial, args.NonNegative)
include hc

theorem weightToFee_mono {weight weight' : ℕ} (h : weight ≤ weight') :
    c.weightToFee weight ≤ c.weightToFee weight' :=
  c.weightToFeePolynomial.calc_mono hc (min_le_min_right _ h)

theorem finalFee_computeFeeRaw_mono {multiplier : ℤ} (hm : 0 ≤ multiplier) (len tip : ℕ)
    (dispatchClass : DispatchClass) {weight weight' : ℕ} (h : weight ≤ weight') :
    (c.computeFeeRaw multiplier len weight tip .yes dispatchClass).finalFee c.balanceMax ≤
      (c.computeFeeRaw multiplier len weight' tip .yes dispatchClass).finalFee c.balanceMax := by
  have hadjusted :=
    fixedU128.saturatingMulInt_mono (by decide) c.balanceMax hm (weightToFee_mono hc h)
  simp only [computeFeeRaw, reduceIte, FeeDetails.finalFee, InclusionFee.inclusionFee,
    Option.map_some, Option.getD_some]
  omega

end Monotone

theorem finalFee_computeFeeRaw_no (multiplier : ℤ) (len weight : ℕ) {tip : ℕ}
    (htip : tip ≤ c.balanceMax) (dispatchClass : DispatchClass) :
    (c.computeFeeRaw multiplier len weight tip .no dispatchClass).finalFee c.balanceMax = tip := by
  simp [computeFeeRaw, FeeDetails.finalFee, htip]

theorem tip_le_finalFee (multiplier : ℤ) (len weight : ℕ) {tip : ℕ} (htip : tip ≤ c.balanceMax)
    (paysFee : Pays) (dispatchClass : DispatchClass) :
    tip ≤ (c.computeFeeRaw multiplier len weight tip paysFee dispatchClass).finalFee c.balanceMax := by
  unfold computeFeeRaw FeeDetails.finalFee
  split <;> simp only [Option.map_some, Option.getD_some, Option.map_none, Option.getD_none] <;> omega

theorem computeActualFee_le (hc : ∀ args ∈ c.weightToFeePolynomial.polynomial, args.NonNegative)
    {multiplier : ℤ} (hm : 0 ≤ multiplier) (len : ℕ) (info : DispatchInfo)
    (post : PostDispatchInfo) {tip : ℕ} (htip : tip ≤ c.balanceMax) :
    c.computeActualFee multiplier len info post tip ≤ c.computeFee multiplier len info tip := by
  unfold computeActualFee computeFee
  cases hpays : post.paysFee info with
  | no =>
    rw [c.finalFee_computeFeeRaw_no _ _ _ htip]
    exact c.tip_le_finalFee _ _ _ htip _ _
  | yes =>
    have hinfo : info.paysFee = .yes := by
      cases h : info.paysFee with
      | yes => rfl
      | no => simp [(post.paysFee_eq_no_iff info).mpr (.inl h)] at hpays
    rw [hinfo]
    exact finalFee_computeFeeRaw_mono hc hm len tip _ (post.calcActualWeight_le info)

theorem computeActualFee_eq (multiplier : ℤ) (len : ℕ) (info : DispatchInfo)
    {post : PostDispatchInfo} (hnone : post.actualWeight = none) (hpays : post.pays = .yes)
    (tip : ℕ) : c.computeActualFee multiplier len info post tip = c.computeFee multiplier len info tip := by
  have hpaysFee : post.paysFee info = info.paysFee := by
    unfold PostDispatchInfo.paysFee
    cases info.paysFee <;> simp [hpays]
  simp only [computeActualFee, computeFee, post.calcActualWeight_none info hnone, hpaysFee]

theorem computeActualFee_of_no (multiplier : ℤ) (len : ℕ) {info : DispatchInfo}
    {post : PostDispatchInfo} (h : info.paysFee = .no ∨ post.pays = .no) {tip : ℕ}
    (htip : tip ≤ c.balanceMax) : c.computeActualFee multiplier len info post tip = tip := by
  unfold computeActualFee
  rw [(post.paysFee_eq_no_iff info).mpr h]
  exact c.finalFee_computeFeeRaw_no _ _ _ htip _

end FeeConfig

/-- `InvalidTransaction::Payment`, the one `TransactionValidityError` of `CurrencyAdapter`. -/
inductive InvalidTransaction
  | payment
  deriving DecidableEq, Repr

section CurrencyAdapter

variable (cfg : Config) {AccountId : Type*} [DecidableEq AccountId]

/-- `CurrencyAdapter::withdraw_fee(who, _, _, fee, tip)`: the negative imbalance withdrawn, none
for a zero fee. -/
def withdrawFee (s : State AccountId) (who : AccountId) (fee tip : ℕ) :
    Except InvalidTransaction (Option ℕ) × State AccountId :=
  if fee = 0 then (.ok none, s)
  else
    let withdrawReason : Finset WithdrawReason :=
      if tip = 0 then {.transactionPayment} else {.transactionPayment, .tip}
    match withdraw cfg s who fee withdrawReason .keepAlive with
    | (.ok imbalance, s₁) => (.ok (some imbalance), s₁)
    | (.error _, s₁) => (.error .payment, s₁)

/-- `CurrencyAdapter::correct_and_deposit_fee(who, _, _, corrected_fee, tip, already_withdrawn)`:
the imbalances it hands to `OU::on_unbalanceds`, the tip's part first, and none when nothing was
withdrawn. An `offset` that fails drops the positive imbalance it returns. -/
def correctAndDepositFee (s : State AccountId) (who : AccountId) (correctedFee tip : ℕ)
    (alreadyWithdrawn : Option ℕ) : Except InvalidTransaction (List ℕ) × State AccountId :=
  match alreadyWithdrawn with
  | none => (.ok [], s)
  | some paid =>
    let refundAmount := paid - correctedFee
    -- refund to the account that paid the fees, or nothing
    let refund := match depositIntoExisting cfg s who refundAmount with
      | (.ok refundImbalance, s₁) => (refundImbalance, s₁)
      | (.error _, s₁) => (0, s₁)
    -- `offset` of the paid imbalance by the refund, then `split(tip)`
    if refund.1 ≤ paid then
      let adjustedPaid := paid - refund.1
      (.ok [min adjustedPaid tip, adjustedPaid - min adjustedPaid tip], refund.2)
    else (.error .payment, refund.2.dropPositive cfg (refund.1 - paid))

theorem withdrawFee_ok {s s₁ : State AccountId} {who : AccountId} {fee tip : ℕ} {w : Option ℕ}
    (h : withdrawFee cfg s who fee tip = (.ok w, s₁)) : w = if fee = 0 then none else some fee := by
  unfold withdrawFee at h
  split at h
  case isTrue hfee =>
    cases h
    rw [if_pos hfee]
  case isFalse hfee =>
    rw [if_neg hfee]
    dsimp only at h
    split at h
    · rename_i imbalance s₂ hwithdraw
      cases h
      rw [withdraw_ok cfg hwithdraw]
    · cases h

/-- After a fee was withdrawn, `correct_and_deposit_fee` hands over the fee less the refund that
`deposit_into_existing` took, the tip's part first: the refund never exceeds the fee, so the
`offset` succeeds. -/
theorem correctAndDepositFee_some (s : State AccountId) (who : AccountId) (correctedFee tip fee : ℕ) :
    ∃ r s', r = (if (depositIntoExisting cfg s who (fee - correctedFee)).1 matches .ok _ then
        fee - correctedFee else 0) ∧
      correctAndDepositFee cfg s who correctedFee tip (some fee) =
        (.ok [min (fee - r) tip, fee - r - min (fee - r) tip], s') := by
  cases hd : depositIntoExisting cfg s who (fee - correctedFee) with
  | mk result s₁ =>
    cases result with
    | ok refund =>
      have hrefund : refund = fee - correctedFee := depositIntoExisting_ok cfg hd
      refine ⟨refund, s₁, by simp [hrefund], ?_⟩
      simp only [correctAndDepositFee, hd, if_pos (show refund ≤ fee by omega)]
    | error e =>
      refine ⟨0, s₁, rfl, ?_⟩
      simp only [correctAndDepositFee, hd, if_pos (Nat.zero_le fee)]

end CurrencyAdapter

/-! ## Fees and refunds -/

/-- With a polynomial of terms that are not negative and any multiplier: `calc` grows with the
weight, the fee after dispatch is at most the fee before, equal with no actual weight and no
waiver, and the tip alone when either side waives the fee. After `withdraw_fee` succeeds, in
whatever state the call leaves, `correct_and_deposit_fee` hands over the fee less the refund
`deposit_into_existing` took, the tip's part first; that refund is nothing for a payer that no
longer exists. -/
theorem computeActualFee_refund (c : FeeConfig)
    (hc : ∀ args ∈ c.weightToFeePolynomial.polynomial, args.NonNegative) {multiplier : ℤ}
    (hm : 0 ≤ multiplier) (len : ℕ) (info : DispatchInfo) (post : PostDispatchInfo) {tip : ℕ}
    (htip : tip ≤ c.balanceMax) :
    (∀ weight weight', weight ≤ weight' →
      c.weightToFeePolynomial.calc weight ≤ c.weightToFeePolynomial.calc weight') ∧
    c.computeActualFee multiplier len info post tip ≤ c.computeFee multiplier len info tip ∧
    (post.actualWeight = none → post.pays = .yes →
      c.computeActualFee multiplier len info post tip = c.computeFee multiplier len info tip) ∧
    (info.paysFee = .no ∨ post.pays = .no → c.computeActualFee multiplier len info post tip = tip) ∧
    ∀ (cfg : Config) {AccountId : Type} [DecidableEq AccountId] (s s₁ s₂ : State AccountId)
      (who : AccountId) (fee correctedFee : ℕ) (alreadyWithdrawn : Option ℕ),
      withdrawFee cfg s who fee tip = (.ok alreadyWithdrawn, s₁) →
      ∃ imbalances s₃ r,
        correctAndDepositFee cfg s₂ who correctedFee tip alreadyWithdrawn = (.ok imbalances, s₃) ∧
        imbalances.sum = fee - r ∧ imbalances.head?.getD 0 = min (fee - r) tip ∧
        r = (if (depositIntoExisting cfg s₂ who (fee - correctedFee)).1 matches .ok _ then
          fee - correctedFee else 0) ∧
        (isProviding (s₂.info who).data = false → r = 0) := by
  refine ⟨fun _ _ h => c.weightToFeePolynomial.calc_mono hc h,
    c.computeActualFee_le hc hm len info post htip,
    fun hnone hpays => c.computeActualFee_eq multiplier len info hnone hpays tip,
    fun hno => c.computeActualFee_of_no multiplier len hno htip, ?_⟩
  intro cfg AccountId _ s s₁ s₂ who fee correctedFee alreadyWithdrawn hw
  rw [withdrawFee_ok cfg hw]
  -- a payer that no longer exists gets no refund
  have hdead : isProviding (s₂.info who).data = false →
      (if (depositIntoExisting cfg s₂ who (fee - correctedFee)).1 matches .ok _ then
        fee - correctedFee else 0) = 0 := by
    intro hdead
    by_cases hzero : fee - correctedFee = 0
    · simp [hzero]
    · rw [depositIntoExisting_dead cfg s₂ who hzero hdead]
      rfl
  by_cases hfee : fee = 0
  · -- nothing was withdrawn, nothing is handed over
    subst hfee
    refine ⟨[], s₂, 0, by rw [if_pos rfl]; rfl, rfl, rfl, ?_, fun _ => rfl⟩
    split <;> simp
  · rw [if_neg hfee]
    obtain ⟨r, s₃, hr, hcorrect⟩ := correctAndDepositFee_some cfg s₂ who correctedFee tip fee
    refine ⟨_, s₃, r, hcorrect, ?_, rfl, hr, fun hd => hr.trans (hdead hd)⟩
    simp only [List.sum_cons, List.sum_nil]
    omega

/-- One unit of fee per unit of weight and per byte, in `u128`, with a base weight of `125000000`
for every class. -/
def identityFee : FeeConfig := ⟨1, ⟨2 ^ 128 - 1, [⟨1, 0, false, 1⟩]⟩, 2 * 10 ^ 12, fun _ => 125000000⟩

/-- A call declared at `10 ^ 9` that used `4 * 10 ^ 8`, with a multiplier of one: charged less
after dispatch. -/
theorem computeActualFee_refund_identityFee :
    identityFee.computeActualFee (10 ^ 18) 100 ⟨10 ^ 9, .normal, .yes⟩ ⟨some (4 * 10 ^ 8), .yes⟩ 0 ≤
      identityFee.computeFee (10 ^ 18) 100 ⟨10 ^ 9, .normal, .yes⟩ 0 :=
  (computeActualFee_refund identityFee (by decide) (by decide) 100 _ _ (by decide)).2.1

/-- An existential deposit of one and a largest balance of ten. -/
def tenUnits : Config := ⟨1, 10⟩

/-- One payer, with ten free units. -/
def fullPayer : State (Fin 1) := ⟨fun _ => some { providers := 1, data := { free := 10 } }, 10⟩

/-- After a fee of five is withdrawn, the call pays five units back to the payer. -/
def refilledPayer : State (Fin 1) :=
  applyCall tenUnits (withdrawFee tenUnits fullPayer 0 5 1).2 (.depositCreating 0 5)

/-- The payer still exists, but the refund of `5 - 2` would take its free balance past ten, so
`deposit_into_existing` fails and nothing is refunded: the whole fee is handed over, `1` as the tip
and `4` as the fee, not `5 - 3`. -/
theorem correctAndDepositFee_overflow :
    (withdrawFee tenUnits fullPayer 0 5 1).1 = .ok (some 5) ∧
      isProviding (refilledPayer.info 0).data = true ∧
      (correctAndDepositFee tenUnits refilledPayer 0 2 1 (some 5)).1 = .ok [1, 4] := by
  decide

end Tetcore.Payment
