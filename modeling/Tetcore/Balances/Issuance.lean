import Tetcore.Balances.Currency
import Tetcore.Lib.Run

/-!
# Total issuance against the account balances

`TotalIssuance` is meant to track the sum of `free + reserved` over all accounts: every change of
a balance comes with an imbalance whose drop moves the issuance by the same amount. The account
store breaks that bookkeeping on one path. When a closure of `try_mutate_account` succeeds with
data that would reap the account, `post_mutation` has already handed the dust to `DustRemoval`,
and if the account keeps a consumer reference `dec_providers` refuses to reap it: the data is not
written, yet the dust is gone from the issuance and the closure's imbalance is dropped with the
error. `slash` then tries a second time and slashes again.
-/

namespace Tetcore.Balances

variable (cfg : Config) {AccountId : Type*} [DecidableEq AccountId]

/-- The conservation law: `TotalIssuance` equals the sum of `free + reserved` over all accounts. -/
def IssuanceConserved [Fintype AccountId] (s : State AccountId) : Prop :=
  s.totalIssuance = ∑ a, ((s.data a).free + (s.data a).reserved)

instance [Fintype AccountId] (s : State AccountId) : Decidable (IssuanceConserved s) :=
  inferInstanceAs (Decidable (_ = _))

/-- The failure path of the account store: a closure that succeeds by deleting the data of an
account whose last provider is held by a consumer leaves the `Account` map as the closure left
it, and the result is dropped with the error. -/
theorem tryMutateExists_consumerRemaining {R : Type*} (s : State AccountId) (k : AccountId)
    (f : Option AccountData → State AccountId → Except Error (R × Option AccountData) × State AccountId)
    (dropR : State AccountId → R → State AccountId) {result : R} {s₁ : State AccountId}
    {a : AccountInfo} (hproviding : isProviding (s.info k).data = true)
    (hf : f (some (s.info k).data) s = (.ok (result, none), s₁))
    (ha : s₁.account k = some a) (hproviders : a.providers = 1) (hconsumers : a.consumers ≠ 0) :
    tryMutateExists s k f dropR = (.error .consumerRemaining, dropR s₁ result) := by
  obtain ⟨c, hc⟩ := Nat.exists_eq_succ_of_ne_zero hconsumers
  have hdec : decProviders s₁ k = (.error (), s₁) := by
    simp [decProviders, ha, hproviders, hc]
  simp [tryMutateExists, hproviding, hf, hdec]

/-- The account of the counterexample: ten free units, one provider and one consumer. -/
def lockedAccount : AccountInfo :=
  { consumers := 1, providers := 1, data := { free := 10 } }

/-- The configuration of the counterexample: an existential deposit of five `u128` units. -/
def edFive : Config :=
  { existentialDeposit := 5, maxBalance := 2 ^ 128 - 1 }

/-- One account holding the whole issuance. -/
def lockedState : State (Fin 1) :=
  { account := fun _ => some lockedAccount, totalIssuance := 10 }

/-- Slashing 8 of the 10 units: the first attempt would leave 2 < 5 and is refused by the
consumer; its dust (2) and its imbalance (8) are dropped anyway, and the second attempt slashes 5.
The account keeps 5 while the issuance falls to 0. -/
theorem slash_breaks_issuance :
    IssuanceConserved lockedState ∧
      ¬IssuanceConserved (applyCall edFive lockedState (.slash 0 8)) ∧
      (applyCall edFive lockedState (.slash 0 8)).totalIssuance = 0 ∧
      (applyCall edFive lockedState (.slash 0 8)).data 0 = { free := 5 } := by
  decide

end Tetcore.Balances
