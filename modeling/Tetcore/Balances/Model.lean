import Mathlib.Algebra.BigOperators.Group.Finset.Basic
import Mathlib.Data.Fintype.Basic

/-!
# The balances noble over the system account store

`fabric/balances` keeps an account's `AccountData` in `fabric_system`'s `Account` map through the
`StoredMap` implementation of the system noble, which adds and removes a provider reference when
the data starts or stops being stored. Issuance is kept in `TotalIssuance` and adjusted only by the
`Drop` handlers of the imbalance tokens. The model follows the calls as the code writes them:
a closure passed to `try_mutate_exists` sees and changes the whole state, so an imbalance dropped
inside it, or dust handed to `DustRemoval`, stays in effect when the account write fails
afterwards, and a value returned by the closure is dropped on that error path.

`Balance` is a natural number below `maxBalance`, with `checked_add` and `saturating_add` bounded
by it; `saturating_sub` is truncated subtraction.
-/

namespace Tetcore.Balances

/-- The runtime constants the noble reads: `ExistentialDeposit` and `Balance::max_value()`. -/
structure Config where
  existentialDeposit : ℕ
  maxBalance : ℕ

/-- `Reasons`: which frozen amount a withdrawal has to respect. -/
inductive Reasons
  | fee
  | misc
  | all
  deriving DecidableEq, Repr

/-- The flags of `WithdrawReasons`. -/
inductive WithdrawReason
  | transactionPayment
  | transfer
  | reserve
  | fee
  | tip
  deriving DecidableEq, Repr

/-- `impl From<WithdrawReasons> for Reasons`. -/
def Reasons.ofWithdrawReasons (r : Finset WithdrawReason) : Reasons :=
  if r = {WithdrawReason.transactionPayment} then .fee
  else if WithdrawReason.transactionPayment ∈ r then .all
  else .misc

/-- `AccountData`: the balances of one account. The default value is all zero. -/
structure AccountData where
  free : ℕ := 0
  reserved : ℕ := 0
  mitcFrozen : ℕ := 0
  feeFrozen : ℕ := 0
  deriving DecidableEq, Repr

instance : Inhabited AccountData := ⟨{}⟩

/-- `AccountData::frozen`. -/
def AccountData.frozen (a : AccountData) : Reasons → ℕ
  | .all => max a.mitcFrozen a.feeFrozen
  | .misc => a.mitcFrozen
  | .fee => a.feeFrozen

/-- The largest reference count, `u32::max_value()`. -/
def refCountMax : ℕ := 2 ^ 32 - 1

/-- `fabric_system::AccountInfo`, without the nonce, which no modelled call reads. -/
structure AccountInfo where
  consumers : ℕ := 0
  providers : ℕ := 0
  data : AccountData := {}
  deriving DecidableEq, Repr

instance : Inhabited AccountInfo := ⟨{}⟩

/-- The storage the balances calls touch: the system `Account` map (absent keys read as the
default) and the balances `TotalIssuance`. -/
structure State (AccountId : Type*) where
  account : AccountId → Option AccountInfo
  totalIssuance : ℕ

/-- The errors of the modelled calls: the balances `Error` variants they raise and the
`StoredMapError`s of the account store. -/
inductive Error
  | liquidityRestrictions
  | overflow
  | insufficientBalance
  | existentialDeposit
  | keepAlive
  | deadAccount
  | consumerRemaining
  | noProviders
  deriving DecidableEq, Repr

/-- `ExistenceRequirement`. -/
inductive ExistenceRequirement
  | keepAlive
  | allowDeath
  deriving DecidableEq, Repr

/-- `BalanceStatus`. -/
inductive Status
  | free
  | reserved
  deriving DecidableEq, Repr

/-- `SignedImbalance` of the balances imbalances, as the amount it carries. -/
inductive SignedImbalance
  | positive (amount : ℕ)
  | negative (amount : ℕ)
  deriving DecidableEq, Repr

variable (cfg : Config) {AccountId : Type*} [DecidableEq AccountId]

/-- `checked_add` on `Balance`. -/
def checkedAdd (a b : ℕ) : Option ℕ :=
  if a + b ≤ cfg.maxBalance then some (a + b) else none

/-- `checked_sub` on `Balance`. -/
def checkedSub (a b : ℕ) : Option ℕ :=
  if b ≤ a then some (a - b) else none

/-- `saturating_add` on `Balance`. -/
def saturatingAdd (a b : ℕ) : ℕ :=
  min (a + b) cfg.maxBalance

/-- `AccountData::total`: `free.saturating_add(reserved)`. -/
def AccountData.total (a : AccountData) : ℕ :=
  saturatingAdd cfg a.free a.reserved

namespace State

/-- `Account::<T>::get`. -/
def info (s : State AccountId) (k : AccountId) : AccountInfo :=
  (s.account k).getD default

/-- `T::AccountStore::get`: the balances data of an account. -/
def data (s : State AccountId) (k : AccountId) : AccountData :=
  (s.info k).data

/-- Write one entry of the `Account` map. -/
def setAccount (s : State AccountId) (k : AccountId) (v : Option AccountInfo) : State AccountId :=
  { s with account := Function.update s.account k v }

/-- `Drop for PositiveImbalance`: issuance grows by the amount, saturating. -/
def dropPositive (s : State AccountId) (amount : ℕ) : State AccountId :=
  { s with totalIssuance := saturatingAdd cfg s.totalIssuance amount }

/-- `Drop for NegativeImbalance`: issuance shrinks by the amount, saturating. -/
def dropNegative (s : State AccountId) (amount : ℕ) : State AccountId :=
  { s with totalIssuance := s.totalIssuance - amount }

/-- Dropping a `SignedImbalance`. -/
def dropSigned (s : State AccountId) : SignedImbalance → State AccountId
  | .positive amount => s.dropPositive cfg amount
  | .negative amount => s.dropNegative amount

end State

/-! ### The system account store -/

/-- `Module::inc_providers`. -/
def incProviders (s : State AccountId) (k : AccountId) : State AccountId :=
  let a := s.info k
  if a.providers = 0 then s.setAccount k (some { a with providers := 1 })
  else s.setAccount k (some { a with providers := min (a.providers + 1) refCountMax })

/-- `DecRefStatus`. -/
inductive DecRefStatus
  | reaped
  | exists
  deriving DecidableEq, Repr

/-- `Module::dec_providers`, whose `DecRefError` has the one variant `ConsumerRemaining`. An
absent account counts as reaped, an account with no providers is taken out anyway, and the last
provider of an account with consumers cannot go: that error writes nothing. -/
def decProviders (s : State AccountId) (k : AccountId) : Except Unit DecRefStatus × State AccountId :=
  match s.account k with
  | none => (.ok .reaped, s)
  | some a =>
    match a.providers, a.consumers with
    | 0, _ => (.ok .reaped, s.setAccount k none)
    | 1, 0 => (.ok .reaped, s.setAccount k none)
    | 1, _ + 1 => (.error (), s)
    | x + 2, _ => (.ok .exists, s.setAccount k (some { a with providers := x + 1 }))

/-- `is_providing`: the data differs from its default. -/
def isProviding (d : AccountData) : Bool :=
  d != default

/-- `Account::<T>::mutate(k, |a| a.data = some_data.unwrap_or_default())`. -/
def writeData (s : State AccountId) (k : AccountId) (d : Option AccountData) : State AccountId :=
  s.setAccount k (some { s.info k with data := d.getD default })

/-- `StoredMap::try_mutate_exists` for the system noble. The closure `f` sees the stored data
(when it provides) and the whole state; `dropR` is the drop glue of its result, run when the
provider reference cannot be removed after the closure has succeeded: `Err(ConsumerRemaining)?`
leaves the scope holding `result`. -/
def tryMutateExists {R : Type*} (s : State AccountId) (k : AccountId)
    (f : Option AccountData → State AccountId → Except Error (R × Option AccountData) × State AccountId)
    (dropR : State AccountId → R → State AccountId) : Except Error R × State AccountId :=
  let account := s.info k
  let wasProviding := isProviding account.data
  let someData := if wasProviding then some account.data else none
  match f someData s with
  | (.error e, s₁) => (.error e, s₁)
  | (.ok (result, newData), s₁) =>
    let nowProviding := newData.isSome
    if !wasProviding && nowProviding then
      (.ok result, writeData (incProviders s₁ k) k newData)
    else if wasProviding && !nowProviding then
      match decProviders s₁ k with
      | (.error (), s₂) => (.error .consumerRemaining, dropR s₂ result)
      | (.ok .reaped, s₂) => (.ok result, s₂)
      | (.ok .exists, s₂) => (.ok result, writeData s₂ k newData)
    else if !wasProviding && !nowProviding then (.ok result, s₁)
    else (.ok result, writeData s₁ k newData)

/-! ### `try_mutate_account` and the checks it runs -/

/-- `post_mutation`: an account below the existential deposit is annulled and its non-zero
total handed to `DustRemoval`, which drops it. -/
def postMutation (s : State AccountId) (new : AccountData) : Option AccountData × State AccountId :=
  let total := new.total cfg
  if total < cfg.existentialDeposit then
    (none, if total ≠ 0 then s.dropNegative total else s)
  else (some new, s)

/-- `try_mutate_account`. The closure gets the account data (default when new), whether it is
new, and the state; it returns its result with the new data. -/
def tryMutateAccount {R : Type*} (s : State AccountId) (who : AccountId)
    (f : AccountData → Bool → State AccountId → Except Error (R × AccountData) × State AccountId)
    (dropR : State AccountId → R → State AccountId) : Except Error R × State AccountId :=
  tryMutateExists s who
    (fun maybeAccount s =>
      match f (maybeAccount.getD default) maybeAccount.isNone s with
      | (.error e, s₁) => (.error e, s₁)
      | (.ok (result, account), s₁) =>
        let (newData, s₂) := postMutation cfg s₁ account
        (.ok (result, newData), s₂))
    dropR

/-- `mutate_account`: `try_mutate_account` with a closure that cannot fail. -/
def mutateAccount {R : Type*} (s : State AccountId) (who : AccountId)
    (f : AccountData → State AccountId → (R × AccountData) × State AccountId)
    (dropR : State AccountId → R → State AccountId) : Except Error R × State AccountId :=
  tryMutateAccount cfg s who (fun a _ s => let (r, s') := f a s; (.ok r, s')) dropR

/-- `ensure_can_withdraw`: the new free balance may not fall below the frozen amount stored for
the account; a zero amount always passes. -/
def ensureCanWithdraw (s : State AccountId) (who : AccountId) (amount : ℕ)
    (reasons : Finset WithdrawReason) (newBalance : ℕ) : Except Error Unit :=
  if amount = 0 then .ok ()
  else if newBalance ≥ (s.data who).frozen (Reasons.ofWithdrawReasons reasons) then .ok ()
  else .error .liquidityRestrictions

/-- `is_provider_required`: the account has consumers. -/
def isProviderRequired (s : State AccountId) (who : AccountId) : Bool :=
  (s.info who).consumers != 0

/-- Drop glue of a result that holds no imbalance. -/
def dropNone {R : Type*} (s : State AccountId) (_ : R) : State AccountId := s

end Tetcore.Balances
