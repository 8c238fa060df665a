import Tetcore.Balances.Model

/-!
# The `Currency` and `ReservableCurrency` calls

Each call of `impl Currency for Module` and `impl ReservableCurrency for Module`, the root call
`set_balance`, and `issue` and `burn`, as functions of the state. A call returns what the code
returns; an imbalance in the result is a plain amount here, and the caller of the model decides
when it is dropped (`applyCall` drops each at once).
-/

namespace Tetcore.Balances

variable (cfg : Config) {AccountId : Type*} [DecidableEq AccountId]

open State

/-- `Currency::transfer`. The outer closure on `dest` runs `try_mutate_account` on `transactor`,
whose closure also writes `dest`'s data; that write survives only if both closures succeed. -/
def transfer (s : State AccountId) (transactor dest : AccountId) (value : ℕ)
    (existenceRequirement : ExistenceRequirement) : Except Error Unit × State AccountId :=
  if value = 0 ∨ transactor = dest then (.ok (), s) else
  tryMutateAccount cfg s dest
    (fun toAccount _ s =>
      match tryMutateAccount cfg s transactor
        (fun fromAccount _ s =>
          match checkedSub fromAccount.free value with
          | none => (.error .insufficientBalance, s)
          | some fromFree =>
            match checkedAdd cfg toAccount.free value with
            | none => (.error .overflow, s)
            | some toFree =>
              let toAccount' := { toAccount with free := toFree }
              if toAccount'.total cfg < cfg.existentialDeposit then (.error .existentialDeposit, s)
              else
                match ensureCanWithdraw s transactor value {WithdrawReason.transfer} fromFree with
                | .error _ => (.error .liquidityRestrictions, s)
                | .ok () =>
                  let allowDeath := existenceRequirement == ExistenceRequirement.allowDeath &&
                    !isProviderRequired s transactor
                  if allowDeath || fromFree ≥ cfg.existentialDeposit then
                    (.ok (toAccount', { fromAccount with free := fromFree }), s)
                  else (.error .keepAlive, s))
        dropNone with
      | (.error e, s₁) => (.error e, s₁)
      | (.ok toAccount', s₁) => (.ok ((), toAccount'), s₁))
    dropNone

/-- The closure of one attempt of `Currency::slash`: the first attempt slashes `value`, the
second as much as leaves the existential deposit. -/
def slashAttempt (value : ℕ) (attempt : ℕ) (account : AccountData) : (ℕ × ℕ) × AccountData :=
  let bestValue := if attempt = 0 then value
    else min value (account.free + account.reserved - cfg.existentialDeposit)
  let freeSlash := min account.free bestValue
  let account₁ := { account with free := account.free - freeSlash }
  let remainingSlash := bestValue - freeSlash
  if remainingSlash ≠ 0 then
    let reservedSlash := min account₁.reserved remainingSlash
    ((freeSlash + reservedSlash, value - freeSlash - reservedSlash),
      { account₁ with reserved := account₁.reserved - reservedSlash })
  else ((freeSlash, value - freeSlash), account₁)

/-- `Currency::slash`: the negative imbalance and the amount that could not be slashed. The loop
`for attempt in 0..2` returns the first attempt whose write succeeds. -/
def slash (s : State AccountId) (who : AccountId) (value : ℕ) : (ℕ × ℕ) × State AccountId :=
  if value = 0 then ((0, 0), s)
  else if (s.data who).total cfg = 0 then ((0, value), s)
  else
    let attempt (n : ℕ) (s : State AccountId) :=
      tryMutateAccount cfg s who (fun a _ s => (.ok (slashAttempt cfg value n a), s))
        (fun s r => s.dropNegative r.1)
    match attempt 0 s with
    | (.ok r, s₁) => (r, s₁)
    | (.error _, s₁) =>
      match attempt 1 s₁ with
      | (.ok r, s₂) => (r, s₂)
      | (.error _, s₂) => ((0, value), s₂)

/-- `Currency::deposit_into_existing`: the positive imbalance. -/
def depositIntoExisting (s : State AccountId) (who : AccountId) (value : ℕ) :
    Except Error ℕ × State AccountId :=
  if value = 0 then (.ok 0, s) else
  tryMutateAccount cfg s who
    (fun account isNew s =>
      if isNew then (.error .deadAccount, s)
      else match checkedAdd cfg account.free value with
        | none => (.error .overflow, s)
        | some free => (.ok (value, { account with free := free }), s))
    (fun s r => s.dropPositive cfg r)

/-- `Currency::deposit_creating`: the positive imbalance, zero when nothing was deposited. An
overflowing deposit is a no-op that still succeeds. -/
def depositCreating (s : State AccountId) (who : AccountId) (value : ℕ) : ℕ × State AccountId :=
  if value = 0 then (0, s) else
  match tryMutateAccount cfg s who
    (fun account isNew s =>
      if ¬(value ≥ cfg.existentialDeposit ∨ ¬isNew) then (.error .existentialDeposit, s)
      else match checkedAdd cfg account.free value with
        | none => (.ok (0, account), s)
        | some free => (.ok (value, { account with free := free }), s))
    (fun s r => s.dropPositive cfg r) with
  | (.ok r, s₁) => (r, s₁)
  | (.error _, s₁) => (0, s₁)

/-- `Currency::withdraw`: the negative imbalance. -/
def withdraw (s : State AccountId) (who : AccountId) (value : ℕ) (reasons : Finset WithdrawReason)
    (liveness : ExistenceRequirement) : Except Error ℕ × State AccountId :=
  if value = 0 then (.ok 0, s) else
  tryMutateAccount cfg s who
    (fun account _ s =>
      match checkedSub account.free value with
      | none => (.error .insufficientBalance, s)
      | some newFree =>
        let wouldBeDead := newFree + account.reserved < cfg.existentialDeposit
        let wouldKill := wouldBeDead ∧ account.free + account.reserved ≥ cfg.existentialDeposit
        if ¬(liveness = ExistenceRequirement.allowDeath ∨ ¬wouldKill) then (.error .keepAlive, s)
        else match ensureCanWithdraw s who value reasons newFree with
          | .error e => (.error e, s)
          | .ok () => (.ok (value, { account with free := newFree }), s))
    (fun s r => s.dropNegative r)

/-- `Currency::make_free_balance_be`: the signed imbalance, a zero positive one on failure. -/
def makeFreeBalanceBe (s : State AccountId) (who : AccountId) (value : ℕ) :
    SignedImbalance × State AccountId :=
  match tryMutateAccount cfg s who
    (fun account isNew s =>
      let total := saturatingAdd cfg value account.reserved
      if ¬(total ≥ cfg.existentialDeposit ∨ ¬isNew) then (.error .existentialDeposit, s)
      else
        let imbalance := if account.free ≤ value then SignedImbalance.positive (value - account.free)
          else SignedImbalance.negative (account.free - value)
        (.ok (imbalance, { account with free := value }), s))
    (fun s r => s.dropSigned cfg r) with
  | (.ok r, s₁) => (r, s₁)
  | (.error _, s₁) => (.positive 0, s₁)

/-- `ReservableCurrency::reserve`. -/
def reserve (s : State AccountId) (who : AccountId) (value : ℕ) : Except Error Unit × State AccountId :=
  if value = 0 then (.ok (), s) else
  tryMutateAccount cfg s who
    (fun account _ s =>
      match checkedSub account.free value with
      | none => (.error .insufficientBalance, s)
      | some free =>
        match checkedAdd cfg account.reserved value with
        | none => (.error .overflow, s)
        | some reserved =>
          match ensureCanWithdraw s who value {WithdrawReason.reserve} free with
          | .error e => (.error e, s)
          | .ok () => (.ok ((), { account with free := free, reserved := reserved }), s))
    dropNone

/-- `ReservableCurrency::unreserve`: the amount that could not be unreserved. -/
def unreserve (s : State AccountId) (who : AccountId) (value : ℕ) : ℕ × State AccountId :=
  if value = 0 then (0, s)
  else if (s.data who).total cfg = 0 then (value, s)
  else
    match mutateAccount cfg s who
      (fun account s =>
        let actual := min account.reserved value
        ((actual, { account with reserved := account.reserved - actual,
                                 free := saturatingAdd cfg account.free actual }), s))
      dropNone with
    | (.ok actual, s₁) => (value - actual, s₁)
    | (.error _, s₁) => (value, s₁)

/-- The closure of one attempt of `ReservableCurrency::slash_reserved`. -/
def slashReservedAttempt (value : ℕ) (attempt : ℕ) (account : AccountData) :
    (ℕ × ℕ) × AccountData :=
  let bestValue := if attempt = 0 then value
    else min value (account.free + account.reserved - cfg.existentialDeposit)
  let actual := min account.reserved bestValue
  ((actual, value - actual), { account with reserved := account.reserved - actual })

/-- `ReservableCurrency::slash_reserved`: the negative imbalance and what could not be
slashed. -/
def slashReserved (s : State AccountId) (who : AccountId) (value : ℕ) : (ℕ × ℕ) × State AccountId :=
  if value = 0 then ((0, 0), s)
  else if (s.data who).total cfg = 0 then ((0, value), s)
  else
    let attempt (n : ℕ) (s : State AccountId) :=
      mutateAccount cfg s who (fun a s => (slashReservedAttempt cfg value n a, s))
        (fun s r => s.dropNegative r.1)
    match attempt 0 s with
    | (.ok r, s₁) => (r, s₁)
    | (.error _, s₁) =>
      match attempt 1 s₁ with
      | (.ok r, s₂) => (r, s₂)
      | (.error _, s₂) => ((0, value), s₂)

/-- `ReservableCurrency::repatriate_reserved`: the amount that could not be moved. -/
def repatriateReserved (s : State AccountId) (slashed beneficiary : AccountId) (value : ℕ)
    (status : Status) : Except Error ℕ × State AccountId :=
  if value = 0 then (.ok 0, s)
  else if slashed = beneficiary then
    match status with
    | .free => let (r, s₁) := unreserve cfg s slashed value; (.ok r, s₁)
    | .reserved => (.ok (value - (s.data slashed).reserved), s)
  else
    match tryMutateAccount cfg s beneficiary
      (fun toAccount isNew s =>
        if isNew then (.error .deadAccount, s)
        else match tryMutateAccount cfg s slashed
          (fun fromAccount _ s =>
            let actual := min fromAccount.reserved value
            let toAccount' := match status with
              | .free => (checkedAdd cfg toAccount.free actual).map
                  fun free => { toAccount with free := free }
              | .reserved => (checkedAdd cfg toAccount.reserved actual).map
                  fun reserved => { toAccount with reserved := reserved }
            match toAccount' with
            | none => (.error .overflow, s)
            | some toAccount' =>
              (.ok ((actual, toAccount'), { fromAccount with reserved := fromAccount.reserved - actual }), s))
          dropNone with
        | (.error e, s₁) => (.error e, s₁)
        | (.ok r, s₁) => (.ok r, s₁))
      dropNone with
    | (.ok actual, s₁) => (.ok (value - actual), s₁)
    | (.error e, s₁) => (.error e, s₁)

/-- The root call `set_balance`: the imbalances are dropped inside the closure. -/
def setBalance (s : State AccountId) (who : AccountId) (newFree newReserved : ℕ) :
    Except Error (ℕ × ℕ) × State AccountId :=
  let wipeout := newFree + newReserved < cfg.existentialDeposit
  let newFree := if wipeout then 0 else newFree
  let newReserved := if wipeout then 0 else newReserved
  mutateAccount cfg s who
    (fun account s =>
      let s₁ := if newFree > account.free then s.dropPositive cfg (newFree - account.free)
        else if newFree < account.free then s.dropNegative (account.free - newFree) else s
      let s₂ := if newReserved > account.reserved then s₁.dropPositive cfg (newReserved - account.reserved)
        else if newReserved < account.reserved then s₁.dropNegative (account.reserved - newReserved)
        else s₁
      (((newFree, newReserved), { account with free := newFree, reserved := newReserved }), s₂))
    dropNone

/-- `Currency::issue`: the negative imbalance for the amount actually issued. -/
def issue (s : State AccountId) (amount : ℕ) : ℕ × State AccountId :=
  if amount = 0 then (0, s)
  else match checkedAdd cfg s.totalIssuance amount with
    | some issued => (amount, { s with totalIssuance := issued })
    | none => (cfg.maxBalance - s.totalIssuance, { s with totalIssuance := cfg.maxBalance })

/-- `Currency::burn`: the positive imbalance for the amount actually burned. -/
def burn (s : State AccountId) (amount : ℕ) : ℕ × State AccountId :=
  if amount = 0 then (0, s)
  else match checkedSub s.totalIssuance amount with
    | some issued => (amount, { s with totalIssuance := issued })
    | none => (s.totalIssuance, { s with totalIssuance := 0 })

/-- The `Currency` and `ReservableCurrency` calls that move balances, each with its arguments. -/
inductive Call (AccountId : Type*)
  | transfer (transactor dest : AccountId) (value : ℕ) (existence : ExistenceRequirement)
  | slash (who : AccountId) (value : ℕ)
  | depositIntoExisting (who : AccountId) (value : ℕ)
  | depositCreating (who : AccountId) (value : ℕ)
  | withdraw (who : AccountId) (value : ℕ) (reasons : Finset WithdrawReason)
      (liveness : ExistenceRequirement)
  | makeFreeBalanceBe (who : AccountId) (value : ℕ)
  | reserve (who : AccountId) (value : ℕ)
  | unreserve (who : AccountId) (value : ℕ)
  | slashReserved (who : AccountId) (value : ℕ)
  | repatriateReserved (slashed beneficiary : AccountId) (value : ℕ) (status : Status)
  | setBalance (who : AccountId) (newFree newReserved : ℕ)
  | issue (amount : ℕ)
  | burn (amount : ℕ)

/-- Issue one call and drop the imbalance it returns at once. -/
def applyCall (s : State AccountId) : Call AccountId → State AccountId
  | .transfer transactor dest value existence => (transfer cfg s transactor dest value existence).2
  | .slash who value => let (r, s₁) := slash cfg s who value; s₁.dropNegative r.1
  | .depositIntoExisting who value =>
    match depositIntoExisting cfg s who value with
    | (.ok r, s₁) => s₁.dropPositive cfg r
    | (.error _, s₁) => s₁
  | .depositCreating who value => let (r, s₁) := depositCreating cfg s who value; s₁.dropPositive cfg r
  | .withdraw who value reasons liveness =>
    match withdraw cfg s who value reasons liveness with
    | (.ok r, s₁) => s₁.dropNegative r
    | (.error _, s₁) => s₁
  | .makeFreeBalanceBe who value => let (r, s₁) := makeFreeBalanceBe cfg s who value; s₁.dropSigned cfg r
  | .reserve who value => (reserve cfg s who value).2
  | .unreserve who value => (unreserve cfg s who value).2
  | .slashReserved who value => let (r, s₁) := slashReserved cfg s who value; s₁.dropNegative r.1
  | .repatriateReserved slashed beneficiary value status =>
    (repatriateReserved cfg s slashed beneficiary value status).2
  | .setBalance who newFree newReserved => (setBalance cfg s who newFree newReserved).2
  | .issue amount => let (r, s₁) := issue cfg s amount; s₁.dropNegative r
  | .burn amount => let (r, s₁) := burn s amount; s₁.dropPositive cfg r

/-! ### What a successful call returns -/

theorem tryMutateExists_ok {R : Type*} {s s' : State AccountId} {k : AccountId}
    {f : Option AccountData → State AccountId → Except Error (R × Option AccountData) × State AccountId}
    {dropR : State AccountId → R → State AccountId} {r : R}
    (h : tryMutateExists s k f dropR = (.ok r, s')) :
    ∃ maybeAccount newData s₁, f maybeAccount s = (.ok (r, newData), s₁) := by
  unfold tryMutateExists at h
  dsimp only at h
  split at h
  · cases h
  · rename_i result newData s₁ hf
    -- each success of the provider bookkeeping returns `result`
    have hresult : result = r := by
      split_ifs at h
      · cases h; rfl
      · split at h <;> cases h <;> rfl
      · cases h; rfl
      · cases h; rfl
    exact ⟨_, newData, s₁, hresult ▸ hf⟩

theorem tryMutateAccount_ok {R : Type*} {s s' : State AccountId} {who : AccountId}
    {f : AccountData → Bool → State AccountId → Except Error (R × AccountData) × State AccountId}
    {dropR : State AccountId → R → State AccountId} {r : R}
    (h : tryMutateAccount cfg s who f dropR = (.ok r, s')) :
    ∃ account isNew account' s₁, f account isNew s = (.ok (r, account'), s₁) := by
  obtain ⟨maybeAccount, newData, s₁, hf⟩ := tryMutateExists_ok h
  dsimp only at hf
  split at hf
  · cases hf
  · rename_i result account s₂ hclosure
    cases hf
    exact ⟨_, _, account, s₂, hclosure⟩

theorem withdraw_ok {s s' : State AccountId} {who : AccountId} {value w : ℕ}
    {reasons : Finset WithdrawReason} {liveness : ExistenceRequirement}
    (h : withdraw cfg s who value reasons liveness = (.ok w, s')) : w = value := by
  unfold withdraw at h
  split at h
  · cases h
    omega
  · obtain ⟨account, isNew, account', s₁, hf⟩ := tryMutateAccount_ok cfg h
    -- only the last branch of the closure succeeds, with the value
    dsimp only at hf
    split at hf
    · cases hf
    · split_ifs at hf
      · split at hf
        · cases hf
        · cases hf
          rfl
      · cases hf

theorem depositIntoExisting_ok {s s' : State AccountId} {who : AccountId} {value r : ℕ}
    (h : depositIntoExisting cfg s who value = (.ok r, s')) : r = value := by
  unfold depositIntoExisting at h
  split at h
  · cases h
    omega
  · obtain ⟨account, isNew, account', s₁, hf⟩ := tryMutateAccount_ok cfg h
    split_ifs at hf
    · cases hf
    · split at hf
      · cases hf
      · cases hf
        rfl

theorem depositIntoExisting_dead (s : State AccountId) (who : AccountId) {value : ℕ}
    (hvalue : value ≠ 0) (hdead : isProviding (s.info who).data = false) :
    (depositIntoExisting cfg s who value).1 = .error .deadAccount := by
  simp [depositIntoExisting, hvalue, tryMutateAccount, tryMutateExists, hdead]

end Tetcore.Balances
