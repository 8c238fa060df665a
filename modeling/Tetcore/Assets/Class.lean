import Mathlib
import Tetcore.Lib.Ledger
import Tetcore.Lib.Run
import Tetcore.Lib.Saturating

/-!
# An asset class and its holders

`fabric/assets/src/lib.rs`. An asset class has `AssetDetails` with its `supply` and two counters:
`accounts`, the holders, and `zombies`, the holders without an account in `fabric_system`. Each
holder has an `Account` entry. A holder whose system account exists takes a consumer reference
on it (`new_account`); one without is a zombie, up to `max_zombies` of them, and becomes a
normal holder once its system account exists (`dezombify`); a holder whose balance falls below
`min_balance` is removed and releases its reference or its zombie slot (`dead_account`).

The model is one class with the `Account` entries of its id and the system accounts, with every
call of the noble that writes them or the details, and the system's own `inc_providers` and
`dec_providers` as the other nobles call them. A failed call writes nothing. The deposits are
reserved, unreserved and repatriated on the currency and do not touch the class; they are left
out, with whether the currency went along given to the call.
-/

namespace Tetcore.Assets

/-- `AssetDetails`, without `deposit`. -/
structure AssetDetails (AccountId : Type) where
  owner : AccountId
  issuer : AccountId
  admin : AccountId
  freezer : AccountId
  supply : ℕ
  maxZombies : ℕ
  minBalance : ℕ
  zombies : ℕ
  accounts : ℕ
  isFrozen : Bool
  deriving DecidableEq, Repr

/-- `AssetBalance`; an absent entry reads as the zero balance. -/
structure AssetBalance where
  balance : ℕ
  isFrozen : Bool
  isZombie : Bool
  deriving DecidableEq, Repr

/-- The zero `AssetBalance` that `Account::get` returns for an absent entry. -/
def AssetBalance.zero : AssetBalance := ⟨0, false, false⟩

/-- The reference counters of a system account. -/
structure SystemAccount where
  providers : ℕ
  consumers : ℕ
  deriving DecidableEq, Repr

/-- The errors of the calls. -/
inductive AssetError
  | amountZero
  | balanceLow
  | balanceZero
  | noPermission
  | unknown
  | frozen
  | inUse
  | tooManyZombies
  | refsLeft
  | badWitness
  | minBalanceZero
  | overflow
  | badState
  /-- The currency refused to reserve or repatriate a deposit. -/
  | depositFailed
  deriving DecidableEq, Repr

variable {AccountId : Type} [DecidableEq AccountId]

/-- One asset class: `Asset`, the `Account` entries of its id, and `fabric_system`'s `Account`
map. -/
structure AssetState (AccountId : Type) where
  asset : Option (AssetDetails AccountId)
  account : Finmap fun _ : AccountId => AssetBalance
  system : AccountId → Option SystemAccount

/-! ## The system's reference counters -/

/-- `fabric_system::Module::account_exists`. -/
def accountExists (system : AccountId → Option SystemAccount) (who : AccountId) : Bool :=
  (system who).isSome

/-- The consumer references of an account, zero for an absent one. -/
def consumers (system : AccountId → Option SystemAccount) (who : AccountId) : ℕ :=
  ((system who).map (·.consumers)).getD 0

/-- `inc_consumers`: fails, writing nothing, on an account without providers. -/
def incConsumers (system : AccountId → Option SystemAccount) (who : AccountId) :
    Option (AccountId → Option SystemAccount) :=
  match system who with
  | some a =>
    if 0 < a.providers then
      some (Function.update system who (some { a with consumers := Saturating.add 32 a.consumers 1 }))
    else none
  | none => none

/-- `dec_consumers`: `Account::mutate` writes the entry back, a default one for an absent
account. -/
def decConsumers (system : AccountId → Option SystemAccount) (who : AccountId) :
    AccountId → Option SystemAccount :=
  let a := (system who).getD ⟨0, 0⟩
  Function.update system who (some { a with consumers := a.consumers - 1 })

/-- `inc_providers`: creates an absent account. -/
def incProviders (system : AccountId → Option SystemAccount) (who : AccountId) :
    AccountId → Option SystemAccount :=
  let a := (system who).getD ⟨0, 0⟩
  let providers := if a.providers = 0 then 1 else Saturating.add 32 a.providers 1
  Function.update system who (some { a with providers })

/-- `dec_providers`: the last provider of an account with consumers stays
(`ConsumerRemaining`), and the account goes with its last provider. -/
def decProviders (system : AccountId → Option SystemAccount) (who : AccountId) :
    Option (AccountId → Option SystemAccount) :=
  match system who with
  | none => some system
  | some a =>
    if a.providers ≤ 1 then
      if a.providers = 1 ∧ 0 < a.consumers then none
      else some (Function.update system who none)
    else some (Function.update system who (some { a with providers := a.providers - 1 }))

/-! ## The holder helpers -/

/-- `Module::new_account`: the new holder's zombie flag, the details and the system accounts. -/
def newAccount (system : AccountId → Option SystemAccount) (who : AccountId)
    (d : AssetDetails AccountId) :
    Except AssetError (Bool × AssetDetails AccountId × (AccountId → Option SystemAccount)) :=
  if d.accounts + 1 ≤ 2 ^ 32 - 1 then
    let accounts := d.accounts + 1
    if accountExists system who then
      match incConsumers system who with
      | some system => .ok (false, { d with accounts }, system)
      | none => .error .badState
    else if d.zombies < d.maxZombies then
      .ok (true, { d with zombies := d.zombies + 1, accounts }, system)
    else .error .tooManyZombies
  else .error .overflow

/-- `Module::dezombify`: a zombie whose system account exists takes a reference; the result of
`inc_consumers` is ignored. -/
def dezombify (system : AccountId → Option SystemAccount) (who : AccountId)
    (d : AssetDetails AccountId) (isZombie : Bool) :
    Bool × AssetDetails AccountId × (AccountId → Option SystemAccount) :=
  if isZombie && accountExists system who then
    (false, { d with zombies := d.zombies - 1 }, (incConsumers system who).getD system)
  else (isZombie, d, system)

/-- `Module::dead_account`. -/
def deadAccount (system : AccountId → Option SystemAccount) (who : AccountId)
    (d : AssetDetails AccountId) (isZombie : Bool) :
    AssetDetails AccountId × (AccountId → Option SystemAccount) :=
  if isZombie then ({ d with zombies := d.zombies - 1, accounts := d.accounts - 1 }, system)
  else ({ d with accounts := d.accounts - 1 }, decConsumers system who)

/-! ## The calls -/

section Calls

variable (maxBalance : ℕ) (s : AssetState AccountId)

/-- The `Account` entry of `who`, zero when absent. -/
def AssetState.entry (who : AccountId) : AssetBalance := (s.account.lookup who).getD .zero

/-- `create` and `force_create`: a new class with the given owner and team, once the deposit is
reserved. -/
def createAsset (owner team : AccountId) (maxZombies minBalance : ℕ) (reserved : Bool) :
    Except AssetError (AssetState AccountId) :=
  if s.asset.isSome then .error .inUse
  else if minBalance = 0 then .error .minBalanceZero
  else if !reserved then .error .depositFailed
  else .ok { s with asset := some ⟨owner, team, team, team, 0, maxZombies, minBalance, 0, 0, false⟩ }

/-- `create`, with whether the deposit could be reserved. -/
def create (owner admin : AccountId) (maxZombies minBalance : ℕ) (reserved : Bool) :
    Except AssetError (AssetState AccountId) :=
  createAsset s owner admin maxZombies minBalance reserved

/-- `force_create`: no deposit. -/
def forceCreate (owner : AccountId) (maxZombies minBalance : ℕ) :
    Except AssetError (AssetState AccountId) :=
  createAsset s owner owner maxZombies minBalance true

/-- `destroy` and `force_destroy`, with the origin's permission: only a class whose holders are
all zombies goes, with all its entries. -/
def destroyAsset (permitted : AssetDetails AccountId → Bool) (zombiesWitness : ℕ) :
    Except AssetError (AssetState AccountId) :=
  match s.asset with
  | none => .error .unknown
  | some d =>
    if !permitted d then .error .noPermission
    else if d.accounts ≠ d.zombies then .error .refsLeft
    else if zombiesWitness < d.zombies then .error .badWitness
    else .ok { s with asset := none, account := ∅ }

/-- `destroy`. -/
def destroy (origin : AccountId) (zombiesWitness : ℕ) : Except AssetError (AssetState AccountId) :=
  destroyAsset s (fun d => d.owner = origin) zombiesWitness

/-- `force_destroy`. -/
def forceDestroy (zombiesWitness : ℕ) : Except AssetError (AssetState AccountId) :=
  destroyAsset s (fun _ => true) zombiesWitness

/-- Credit `amount` to `dest`, as the `Account::try_mutate` closure of `mint`, `transfer` and
`force_transfer` does: a new holder goes through `new_account`. Returns the entry, the details and
the system accounts. -/
def credit (d : AssetDetails AccountId) (dest : AccountId) (amount : ℕ) :
    Except AssetError (AssetBalance × AssetDetails AccountId × (AccountId → Option SystemAccount)) :=
  let a := s.entry dest
  let newBalance := min (a.balance + amount) maxBalance
  if newBalance < d.minBalance then .error .balanceLow
  else if a.balance = 0 then
    match newAccount s.system dest d with
    | .ok (isZombie, d, system) => .ok ({ a with isZombie, balance := newBalance }, d, system)
    | .error e => .error e
  else .ok ({ a with balance := newBalance }, d, s.system)

/-- `mint`. -/
def mint (origin beneficiary : AccountId) (amount : ℕ) : Except AssetError (AssetState AccountId) :=
  match s.asset with
  | none => .error .unknown
  | some d =>
    if origin ≠ d.issuer then .error .noPermission
    else if maxBalance < d.supply + amount then .error .overflow
    else
      match credit maxBalance s { d with supply := d.supply + amount } beneficiary amount with
      | .ok (a, d, system) => .ok ⟨some d, s.account.insert beneficiary a, system⟩
      | .error e => .error e

/-- `burn`: an account left below the minimum balance is burned to zero and removed. -/
def burn (origin who : AccountId) (amount : ℕ) : Except AssetError (AssetState AccountId) :=
  match s.asset with
  | none => .error .unknown
  | some d =>
    if origin ≠ d.admin then .error .noPermission
    else
      match s.account.lookup who with
      | none => .error .balanceZero
      | some account =>
        let burned := min amount account.balance
        let account := { account with balance := account.balance - burned }
        if account.balance < d.minBalance then
          let burned := burned + account.balance
          let r := deadAccount s.system who d account.isZombie
          .ok ⟨some { r.1 with supply := d.supply - burned }, s.account.erase who, r.2⟩
        else
          .ok ⟨some { d with supply := d.supply - burned }, s.account.insert who account, s.system⟩

/-- The common end of `transfer` and `force_transfer`, from the debited source entry: sweep a
source left below the minimum balance into the amount, credit `dest`, then write the source back
(de-zombified) or remove it. -/
def moveBalance (d : AssetDetails AccountId) (source : AccountId) (sourceAccount : AssetBalance)
    (dest : AccountId) (amount : ℕ) : Except AssetError (AssetState AccountId) :=
  let dust := if sourceAccount.balance < d.minBalance then sourceAccount.balance else 0
  let sourceAccount := { sourceAccount with balance := sourceAccount.balance - dust }
  match credit maxBalance s d dest (amount + dust) with
  | .error e => .error e
  | .ok (a, d, system) =>
    let account := s.account.insert dest a
    if sourceAccount.balance = 0 then
      let r := deadAccount system source d sourceAccount.isZombie
      .ok ⟨some r.1, account.erase source, r.2⟩
    else
      let r := dezombify system source d sourceAccount.isZombie
      .ok ⟨some r.2.1, account.insert source { sourceAccount with isZombie := r.1 }, r.2.2⟩

/-- `transfer`. -/
def transfer (origin dest : AccountId) (amount : ℕ) : Except AssetError (AssetState AccountId) :=
  if amount = 0 then .error .amountZero
  else
    let originAccount := s.entry origin
    if originAccount.isFrozen then .error .frozen
    else if originAccount.balance < amount then .error .balanceLow
    else
      match s.asset with
      | none => .error .unknown
      | some d =>
        if d.isFrozen then .error .frozen
        else if dest = origin then .ok s
        else moveBalance maxBalance s d origin
          { originAccount with balance := originAccount.balance - amount } dest amount

/-- `force_transfer`. -/
def forceTransfer (origin source dest : AccountId) (amount : ℕ) :
    Except AssetError (AssetState AccountId) :=
  let sourceAccount := s.entry source
  let amount := min amount sourceAccount.balance
  if amount = 0 then .error .amountZero
  else if dest = source then .ok s
  else
    match s.asset with
    | none => .error .unknown
    | some d =>
      if origin ≠ d.admin then .error .noPermission
      else moveBalance maxBalance s d source
        { sourceAccount with balance := sourceAccount.balance - amount } dest amount

/-- `freeze` and `thaw`: set the frozen flag of an existing entry, by the role that may. -/
def setFrozen (role : AssetDetails AccountId → AccountId) (isFrozen : Bool)
    (origin who : AccountId) : Except AssetError (AssetState AccountId) :=
  match s.asset with
  | none => .error .unknown
  | some d =>
    if origin ≠ role d then .error .noPermission
    else
      match s.account.lookup who with
      | none => .error .balanceZero
      | some a => .ok { s with account := s.account.insert who { a with isFrozen } }

/-- `freeze`. -/
def freeze (origin who : AccountId) : Except AssetError (AssetState AccountId) :=
  setFrozen s (·.freezer) true origin who

/-- `thaw`. -/
def thaw (origin who : AccountId) : Except AssetError (AssetState AccountId) :=
  setFrozen s (·.admin) false origin who

/-- Rewrite the details of the class, by an origin the details permit; the other calls on the
details. -/
def mutateDetails (permitted : AssetDetails AccountId → Bool)
    (f : AssetDetails AccountId → Except AssetError (AssetDetails AccountId)) :
    Except AssetError (AssetState AccountId) :=
  match s.asset with
  | none => .error .unknown
  | some d =>
    if !permitted d then .error .noPermission
    else
      match f d with
      | .ok d => .ok { s with asset := some d }
      | .error e => .error e

/-- `freeze_asset`. -/
def freezeAsset (origin : AccountId) : Except AssetError (AssetState AccountId) :=
  mutateDetails s (fun d => d.freezer = origin) fun d => .ok { d with isFrozen := true }

/-- `thaw_asset`. -/
def thawAsset (origin : AccountId) : Except AssetError (AssetState AccountId) :=
  mutateDetails s (fun d => d.admin = origin) fun d => .ok { d with isFrozen := false }

/-- `transfer_ownership`, with whether the currency moved the deposit to the new owner. -/
def transferOwnership (origin owner : AccountId) (repatriated : Bool) :
    Except AssetError (AssetState AccountId) :=
  mutateDetails s (fun d => d.owner = origin) fun d =>
    if d.owner = owner then .ok d
    else if !repatriated then .error .depositFailed
    else .ok { d with owner }

/-- `set_team`. -/
def setTeam (origin issuer admin freezer : AccountId) : Except AssetError (AssetState AccountId) :=
  mutateDetails s (fun d => d.owner = origin) fun d => .ok { d with issuer, admin, freezer }

/-- `set_max_zombies`, with whether the currency took the change of deposit. -/
def setMaxZombies (origin : AccountId) (maxZombies : ℕ) (reserved : Bool) :
    Except AssetError (AssetState AccountId) :=
  mutateDetails s (fun d => d.owner = origin) fun d =>
    if maxZombies < d.zombies then .error .tooManyZombies
    else if !reserved then .error .depositFailed
    else .ok { d with maxZombies }

end Calls

/-- The calls on the class, and the system's provider references as other nobles change them. -/
inductive AssetCall (AccountId : Type)
  | create (owner admin : AccountId) (maxZombies minBalance : ℕ) (reserved : Bool)
  | forceCreate (owner : AccountId) (maxZombies minBalance : ℕ)
  | destroy (origin : AccountId) (zombiesWitness : ℕ)
  | forceDestroy (zombiesWitness : ℕ)
  | mint (origin beneficiary : AccountId) (amount : ℕ)
  | burn (origin who : AccountId) (amount : ℕ)
  | transfer (origin dest : AccountId) (amount : ℕ)
  | forceTransfer (origin source dest : AccountId) (amount : ℕ)
  | freeze (origin who : AccountId)
  | thaw (origin who : AccountId)
  | freezeAsset (origin : AccountId)
  | thawAsset (origin : AccountId)
  | transferOwnership (origin owner : AccountId) (repatriated : Bool)
  | setTeam (origin issuer admin freezer : AccountId)
  | setMaxZombies (origin : AccountId) (maxZombies : ℕ) (reserved : Bool)
  | incProviders (who : AccountId)
  | decProviders (who : AccountId)

/-- A call's outcome: a failed call writes nothing. -/
def AssetState.commit (s : AssetState AccountId) : Except AssetError (AssetState AccountId) →
    AssetState AccountId
  | .ok s' => s'
  | .error _ => s

/-- One call on the class. -/
def applyAssetCall (maxBalance : ℕ) (s : AssetState AccountId) :
    AssetCall AccountId → AssetState AccountId
  | .create owner admin maxZombies minBalance reserved =>
    s.commit (create s owner admin maxZombies minBalance reserved)
  | .forceCreate owner maxZombies minBalance => s.commit (forceCreate s owner maxZombies minBalance)
  | .destroy origin zombiesWitness => s.commit (destroy s origin zombiesWitness)
  | .forceDestroy zombiesWitness => s.commit (forceDestroy s zombiesWitness)
  | .mint origin beneficiary amount => s.commit (mint maxBalance s origin beneficiary amount)
  | .burn origin who amount => s.commit (burn s origin who amount)
  | .transfer origin dest amount => s.commit (transfer maxBalance s origin dest amount)
  | .forceTransfer origin source dest amount =>
    s.commit (forceTransfer maxBalance s origin source dest amount)
  | .freeze origin who => s.commit (freeze s origin who)
  | .thaw origin who => s.commit (thaw s origin who)
  | .freezeAsset origin => s.commit (freezeAsset s origin)
  | .thawAsset origin => s.commit (thawAsset s origin)
  | .transferOwnership origin owner repatriated =>
    s.commit (transferOwnership s origin owner repatriated)
  | .setTeam origin issuer admin freezer => s.commit (setTeam s origin issuer admin freezer)
  | .setMaxZombies origin maxZombies reserved => s.commit (setMaxZombies s origin maxZombies reserved)
  | .incProviders who => { s with system := incProviders s.system who }
  | .decProviders who => ((decProviders s.system who).map fun system => { s with system }).getD s

/-! ## The bookkeeping

The class's `(supply, accounts, zombies)` is what its entries add up to: each entry its balance, one
account, and one zombie if it is one. Each holder's system account has the consumer references the
rest of the runtime holds on it, `base`, and one more for a holder that is not a zombie. -/

/-- What an entry adds to the class's `(supply, accounts, zombies)`. -/
def AssetBalance.counters (a : AssetBalance) : ℕ × ℕ × ℕ :=
  (a.balance, 1, if a.isZombie then 1 else 0)

/-- The consumer reference an entry holds on its system account. -/
def AssetBalance.reference (a : AssetBalance) : ℕ := if a.isZombie then 0 else 1

/-- The class's `(supply, accounts, zombies)`. -/
def AssetDetails.counters (d : AssetDetails AccountId) : ℕ × ℕ × ℕ :=
  (d.supply, d.accounts, d.zombies)

/-- The system accounts against the holders: no account without a provider, and each account's
consumers are `base`, below the largest `u32`, and one for a holder that is not a zombie. -/
structure Referenced (base : AccountId → ℕ) (account : Finmap fun _ : AccountId => AssetBalance)
    (system : AccountId → Option SystemAccount) : Prop where
  providers_pos : ∀ who a, system who = some a → 0 < a.providers
  consumers_eq : ∀ who, consumers system who = base who + Ledger.share account (·.reference) who
  base_lt : ∀ who, base who < 2 ^ 32 - 1

/-- The details of a class against its entries: the supply is the sum of the balances, the
accounts the number of entries and the zombies the number of zombie entries; at most
`max_zombies` zombies, a supply that fits a `Balance`, and every entry at least `min_balance`,
which is positive. -/
structure Counted (maxBalance : ℕ) (d : AssetDetails AccountId)
    (account : Finmap fun _ : AccountId => AssetBalance) : Prop where
  supply_eq : d.supply = Ledger.tally account (·.balance)
  accounts_eq : d.accounts = Ledger.tally account fun _ => 1
  zombies_eq : d.zombies = Ledger.tally account fun a => if a.isZombie then 1 else 0
  zombies_le : d.zombies ≤ d.maxZombies
  supply_le : d.supply ≤ maxBalance
  minBalance_pos : 0 < d.minBalance
  minBalance_le : ∀ who a, account.lookup who = some a → d.minBalance ≤ a.balance

/-- The invariant of one asset id: the holders against the system, the class against its entries,
and no entries without a class. -/
structure AssetState.Invariant (maxBalance : ℕ) (base : AccountId → ℕ) (s : AssetState AccountId) :
    Prop where
  referenced : Referenced base s.account s.system
  counted : ∀ d, s.asset = some d → Counted maxBalance d s.account
  empty : s.asset = none → s.account = ∅

section Counters

variable {maxBalance : ℕ} {d : AssetDetails AccountId}
  {account : Finmap fun _ : AccountId => AssetBalance}

theorem tally_counters (account : Finmap fun _ : AccountId => AssetBalance) :
    Ledger.tally account AssetBalance.counters =
      (Ledger.tally account (·.balance), Ledger.tally account (fun _ => 1),
        Ledger.tally account fun a => if a.isZombie then 1 else 0) := by
  have h₁ := Ledger.map_tally (AddMonoidHom.fst ℕ (ℕ × ℕ)) account AssetBalance.counters
  have h₂ := Ledger.map_tally ((AddMonoidHom.fst ℕ ℕ).comp (AddMonoidHom.snd ℕ (ℕ × ℕ))) account
    AssetBalance.counters
  have h₃ := Ledger.map_tally ((AddMonoidHom.snd ℕ ℕ).comp (AddMonoidHom.snd ℕ (ℕ × ℕ))) account
    AssetBalance.counters
  ext
  · exact h₁
  · exact h₂
  · exact h₃

theorem counters_eq_iff :
    d.counters = Ledger.tally account AssetBalance.counters ↔
      d.supply = Ledger.tally account (·.balance) ∧ d.accounts = Ledger.tally account (fun _ => 1) ∧
        d.zombies = Ledger.tally account fun a => if a.isZombie then 1 else 0 := by
  rw [tally_counters, AssetDetails.counters, Prod.mk.injEq, Prod.mk.injEq]

theorem Counted.counters_eq (hc : Counted maxBalance d account) :
    d.counters = Ledger.tally account AssetBalance.counters :=
  counters_eq_iff.mpr ⟨hc.supply_eq, hc.accounts_eq, hc.zombies_eq⟩

theorem Counted.balance_le_supply (hc : Counted maxBalance d account) (who : AccountId) :
    Ledger.share account (·.balance) who ≤ d.supply :=
  hc.supply_eq ▸ Ledger.share_le_tally account _ who

theorem Counted.balance_add_balance_le_supply (hc : Counted maxBalance d account)
    {who who' : AccountId} (hne : who' ≠ who) :
    Ledger.share account (·.balance) who + Ledger.share account (·.balance) who' ≤ d.supply := by
  have herase := Ledger.tally_erase account who fun a => a.balance
  have hle := Ledger.share_le_tally (account.erase who) (fun a => a.balance) who'
  have hshare : Ledger.share (account.erase who) (·.balance) who' =
      Ledger.share account (·.balance) who' := by
    rw [Ledger.share, Finmap.lookup_erase_ne hne, Ledger.share]
  rw [hc.supply_eq]
  omega

theorem Counted.of_counters (hcounters : d.counters = Ledger.tally account AssetBalance.counters)
    (hzombies : d.zombies ≤ d.maxZombies) (hsupply : d.supply ≤ maxBalance)
    (hpos : 0 < d.minBalance)
    (hmin : ∀ who a, account.lookup who = some a → d.minBalance ≤ a.balance) :
    Counted maxBalance d account :=
  have h := counters_eq_iff.mp hcounters
  ⟨h.1, h.2.1, h.2.2, hzombies, hsupply, hpos, hmin⟩

theorem one_le_tally_accounts {who : AccountId} {a : AssetBalance}
    (ha : account.lookup who = some a) : 1 ≤ (Ledger.tally account AssetBalance.counters).2.1 := by
  have h := Ledger.share_le_tally account (fun _ => 1) who
  rw [Ledger.share_of_lookup _ ha] at h
  rw [tally_counters]
  exact h

theorem one_le_tally_zombies {who : AccountId} {a : AssetBalance}
    (ha : account.lookup who = some a) (hz : a.isZombie = true) :
    1 ≤ (Ledger.tally account AssetBalance.counters).2.2 := by
  have h := Ledger.share_le_tally account (fun a => if a.isZombie then 1 else 0) who
  rw [Ledger.share_of_lookup _ ha, if_pos hz] at h
  rw [tally_counters]
  exact h

theorem Counted.one_le_accounts (hc : Counted maxBalance d account) {who : AccountId}
    {a : AssetBalance} (ha : account.lookup who = some a) : 1 ≤ d.accounts := by
  have h := one_le_tally_accounts ha
  rw [← hc.counters_eq] at h
  exact h

theorem Counted.one_le_zombies (hc : Counted maxBalance d account) {who : AccountId}
    {a : AssetBalance} (ha : account.lookup who = some a) (hz : a.isZombie = true) :
    1 ≤ d.zombies := by
  have h := one_le_tally_zombies ha hz
  rw [← hc.counters_eq] at h
  exact h

theorem Counted.congr {d' : AssetDetails AccountId} (hc : Counted maxBalance d account)
    (hcounters : d'.counters = d.counters) (hmin : d'.minBalance = d.minBalance)
    (hzombies : d'.zombies ≤ d'.maxZombies) : Counted maxBalance d' account := by
  have hsupply : d'.supply = d.supply := congrArg Prod.fst hcounters
  refine Counted.of_counters (hcounters.trans hc.counters_eq) hzombies (hsupply ▸ hc.supply_le)
    (hmin ▸ hc.minBalance_pos) ?_
  rw [hmin]
  exact hc.minBalance_le

theorem Counted.balance_pos (hc : Counted maxBalance d account) {who : AccountId} :
    ∀ a, account.lookup who = some a → 0 < a.balance := by
  intro a ha
  exact lt_of_lt_of_le hc.minBalance_pos (hc.minBalance_le who a ha)

theorem minBalance_le_insert {m : ℕ} {who : AccountId} {a : AssetBalance}
    (h : ∀ who a, account.lookup who = some a → m ≤ a.balance) (ha : m ≤ a.balance) :
    ∀ who' a', (account.insert who a).lookup who' = some a' → m ≤ a'.balance := by
  intro who' a' ha'
  by_cases hw : who' = who
  · subst hw
    rw [Finmap.lookup_insert, Option.some.injEq] at ha'
    exact ha' ▸ ha
  · rw [Finmap.lookup_insert_of_ne _ hw] at ha'
    exact h who' a' ha'

theorem minBalance_le_erase {m : ℕ} {who : AccountId}
    (h : ∀ who a, account.lookup who = some a → m ≤ a.balance) :
    ∀ who' a', (account.erase who).lookup who' = some a' → m ≤ a'.balance := by
  intro who' a' ha'
  by_cases hw : who' = who
  · subst hw
    rw [Finmap.lookup_erase] at ha'
    cases ha'
  · rw [Finmap.lookup_erase_ne hw] at ha'
    exact h who' a' ha'

end Counters

/-! ## The system's counters against the holders -/

section System

variable {base : AccountId → ℕ} {account account' : Finmap fun _ : AccountId => AssetBalance}
  {system system' : AccountId → Option SystemAccount} {who : AccountId}

@[simp]
theorem consumers_update_self (system : AccountId → Option SystemAccount) (who : AccountId)
    (a : SystemAccount) : consumers (Function.update system who (some a)) who = a.consumers := by
  simp [consumers]

omit [DecidableEq AccountId] in
theorem consumers_of_eq_some {a : SystemAccount} (h : system who = some a) :
    consumers system who = a.consumers := by
  simp [consumers, h]

omit [DecidableEq AccountId] in
theorem exists_of_consumers_pos (h : 0 < consumers system who) :
    ∃ a, system who = some a ∧ a.consumers = consumers system who := by
  cases ha : system who with
  | none => simp [consumers, ha] at h
  | some a => exact ⟨a, rfl, (consumers_of_eq_some ha).symm⟩

theorem incConsumers_eq_some (h : incConsumers system who = some system') :
    ∃ a, system who = some a ∧ 0 < a.providers ∧
      system' = Function.update system who
        (some { a with consumers := Saturating.add 32 a.consumers 1 }) := by
  unfold incConsumers at h
  split at h
  · rename_i a ha
    split_ifs at h with hp
    cases h
    exact ⟨a, ha, hp, rfl⟩
  · cases h

theorem incConsumers_of_providers_pos {a : SystemAccount} (ha : system who = some a)
    (hp : 0 < a.providers) :
    incConsumers system who = some (Function.update system who
      (some { a with consumers := Saturating.add 32 a.consumers 1 })) := by
  simp [incConsumers, ha, hp]

theorem Referenced.write (hR : Referenced base account system) (k : AccountId)
    (haccount : ∀ x, x ≠ k → account'.lookup x = account.lookup x)
    (hsystem : ∀ x, x ≠ k → system' x = system x)
    (hproviders : ∀ a, system' k = some a → 0 < a.providers)
    (hconsumers : consumers system' k = base k + Ledger.share account' (·.reference) k) :
    Referenced base account' system' where
  providers_pos x a hx := by
    by_cases hk : x = k
    · subst hk
      exact hproviders a hx
    · exact hR.providers_pos x a (hsystem x hk ▸ hx)
  consumers_eq x := by
    by_cases hk : x = k
    · subst hk
      exact hconsumers
    · rw [consumers, hsystem x hk, ← consumers, hR.consumers_eq x, Ledger.share, Ledger.share,
        haccount x hk]
  base_lt := hR.base_lt

theorem Referenced.consumers_succ (hR : Referenced base account system) {a : SystemAccount}
    (ha : system who = some a) (hshare : Ledger.share account (·.reference) who = 0) :
    Saturating.add 32 a.consumers 1 = base who + 1 := by
  have hcons := hR.consumers_eq who
  rw [consumers_of_eq_some ha, hshare, add_zero] at hcons
  rw [hcons]
  exact Saturating.add_of_le (hR.base_lt who)

theorem Referenced.insert_of_isZombie_eq (hR : Referenced base account system) {e e' : AssetBalance}
    (he : account.lookup who = some e) (hz : e'.isZombie = e.isZombie) :
    Referenced base (account.insert who e') system := by
  apply hR.write who (fun x hx => Finmap.lookup_insert_of_ne _ hx) (fun _ _ => rfl)
    (hR.providers_pos who)
  rw [hR.consumers_eq who, Ledger.share_of_lookup _ he,
    Ledger.share_of_lookup _ (Finmap.lookup_insert account), AssetBalance.reference,
    AssetBalance.reference, hz]

/-! ### `new_account`, `dezombify` and `dead_account` -/

theorem newAccount_ok {d d' : AssetDetails AccountId} {z : Bool}
    (h : newAccount system who d = .ok (z, d', system')) :
    (z = false ∧ incConsumers system who = some system' ∧
        d' = { d with accounts := d.accounts + 1 }) ∨
      (z = true ∧ system who = none ∧ d.zombies < d.maxZombies ∧ system' = system ∧
        d' = { d with zombies := d.zombies + 1, accounts := d.accounts + 1 }) := by
  unfold newAccount at h
  split_ifs at h with hroom hexists hzombies
  · split at h
    · rename_i system'' hinc
      cases h
      exact .inl ⟨rfl, hinc, rfl⟩
    · cases h
  · cases h
    exact .inr ⟨rfl, by simpa [accountExists] using hexists, hzombies, rfl, rfl⟩

theorem Referenced.newAccount (hR : Referenced base account system)
    (hnone : account.lookup who = none) {d d' : AssetDetails AccountId} {z : Bool}
    (h : newAccount system who d = .ok (z, d', system')) (e : AssetBalance) (he : e.isZombie = z) :
    Referenced base (account.insert who e) system' := by
  have hshare : Ledger.share account (·.reference) who = 0 := by simp [Ledger.share, hnone]
  have hshare' : Ledger.share (account.insert who e) (·.reference) who = e.reference :=
    Ledger.share_of_lookup _ (Finmap.lookup_insert account)
  rcases newAccount_ok h with ⟨rfl, hinc, -⟩ | ⟨rfl, -, -, rfl, -⟩
  · obtain ⟨a, ha, hp, rfl⟩ := incConsumers_eq_some hinc
    apply hR.write who (fun x hx => Finmap.lookup_insert_of_ne _ hx)
      (fun x hx => Function.update_of_ne hx _ _)
    · intro a' ha'
      rw [Function.update_self, Option.some.injEq] at ha'
      rw [← ha']
      exact hp
    · rw [consumers_update_self, hshare', hR.consumers_succ ha hshare]
      simp [AssetBalance.reference, he]
  · apply hR.write who (fun x hx => Finmap.lookup_insert_of_ne _ hx) (fun _ _ => rfl)
      (hR.providers_pos who)
    rw [hR.consumers_eq who, hshare, hshare']
    simp [AssetBalance.reference, he]

theorem Referenced.dezombify (hR : Referenced base account system) {e e' : AssetBalance}
    (he : account.lookup who = some e) (d : AssetDetails AccountId)
    (he' : e'.isZombie = (dezombify system who d e.isZombie).1) :
    Referenced base (account.insert who e') (dezombify system who d e.isZombie).2.2 := by
  unfold Tetcore.Assets.dezombify at he' ⊢
  by_cases hz : (e.isZombie && accountExists system who) = true
  · rw [if_pos hz] at he' ⊢
    dsimp only at he' ⊢
    rw [Bool.and_eq_true, accountExists, Option.isSome_iff_exists] at hz
    obtain ⟨hzombie, a, ha⟩ := hz
    have hshare : Ledger.share account (·.reference) who = 0 := by
      simp [Ledger.share_of_lookup _ he, AssetBalance.reference, hzombie]
    rw [incConsumers_of_providers_pos ha (hR.providers_pos who a ha), Option.getD_some]
    apply hR.write who (fun x hx => Finmap.lookup_insert_of_ne _ hx)
      (fun x hx => Function.update_of_ne hx _ _)
    · intro a' ha'
      rw [Function.update_self, Option.some.injEq] at ha'
      rw [← ha']
      exact hR.providers_pos who a ha
    · rw [consumers_update_self, Ledger.share_of_lookup _ (Finmap.lookup_insert account),
        hR.consumers_succ ha hshare, AssetBalance.reference, he']
      rfl
  · rw [if_neg hz] at he' ⊢
    exact hR.insert_of_isZombie_eq he he'

theorem Referenced.deadAccount (hR : Referenced base account system) {e : AssetBalance}
    (he : account.lookup who = some e) (d : AssetDetails AccountId) :
    Referenced base (account.erase who) (deadAccount system who d e.isZombie).2 := by
  have hshare' : Ledger.share (account.erase who) (·.reference) who = 0 :=
    Ledger.share_of_notMem _ (Finmap.notMem_erase_self)
  have hcons := hR.consumers_eq who
  rw [Ledger.share_of_lookup _ he] at hcons
  unfold Tetcore.Assets.deadAccount
  by_cases hz : e.isZombie = true
  · rw [if_pos hz]
    apply hR.write who (fun x hx => Finmap.lookup_erase_ne hx) (fun _ _ => rfl)
      (hR.providers_pos who)
    rw [hcons, hshare']
    simp [AssetBalance.reference, hz]
  · rw [if_neg hz]
    dsimp only
    have hpos : 0 < consumers system who := by
      rw [hcons]
      simp [AssetBalance.reference, hz]
    obtain ⟨a, ha, hca⟩ := exists_of_consumers_pos hpos
    apply hR.write who (fun x hx => Finmap.lookup_erase_ne hx)
      (fun x hx => Function.update_of_ne hx _ _)
    · intro a' ha'
      rw [decConsumers, ha, Option.getD_some, Function.update_self, Option.some.injEq] at ha'
      rw [← ha']
      exact hR.providers_pos who a ha
    · rw [decConsumers, ha, Option.getD_some, consumers_update_self, hca, hcons, hshare']
      simp [AssetBalance.reference, hz]

end System

/-! ### The details the holder helpers leave -/

/-- `d'` is `d` with at most its accounts and zombies recounted. -/
def AssetDetails.Recounts (d d' : AssetDetails AccountId) : Prop :=
  d' = { d with accounts := d'.accounts, zombies := d'.zombies }

section Recounts

variable {d d' d'' : AssetDetails AccountId} (system : AccountId → Option SystemAccount)
  (who : AccountId)

omit [DecidableEq AccountId] in
theorem AssetDetails.Recounts.trans (h : d.Recounts d') (h' : d'.Recounts d'') : d.Recounts d'' := by
  rw [AssetDetails.Recounts] at h h' ⊢
  rw [h', h]

omit [DecidableEq AccountId] in
theorem AssetDetails.Recounts.fields (h : d.Recounts d') :
    d'.supply = d.supply ∧ d'.maxZombies = d.maxZombies ∧ d'.minBalance = d.minBalance := by
  rw [h]
  exact ⟨rfl, rfl, rfl⟩

theorem recounts_deadAccount (z : Bool) : d.Recounts (deadAccount system who d z).1 := by
  unfold deadAccount
  split_ifs <;> rfl

theorem recounts_dezombify (z : Bool) : d.Recounts (dezombify system who d z).2.1 := by
  unfold dezombify
  split_ifs <;> rfl

theorem zombies_deadAccount_le (z : Bool) : (deadAccount system who d z).1.zombies ≤ d.zombies := by
  unfold deadAccount
  split_ifs <;> dsimp only <;> omega

theorem zombies_dezombify_le (z : Bool) : (dezombify system who d z).2.1.zombies ≤ d.zombies := by
  unfold dezombify
  split_ifs <;> dsimp only <;> omega

theorem counters_deadAccount (z : Bool) (haccounts : 1 ≤ d.accounts)
    (hzombies : z = true → 1 ≤ d.zombies) :
    (deadAccount system who d z).1.counters + (0, 1, if z then 1 else 0) = d.counters := by
  cases z with
  | false =>
    simp [deadAccount, AssetDetails.counters]
    omega
  | true =>
    have := hzombies rfl
    simp [deadAccount, AssetDetails.counters]
    omega

theorem counters_dezombify (z : Bool) (hzombies : z = true → 1 ≤ d.zombies) :
    (dezombify system who d z).2.1.counters + (0, 0, if z then 1 else 0) =
      d.counters + (0, 0, if (dezombify system who d z).1 then 1 else 0) := by
  unfold dezombify
  by_cases hz : (z && accountExists system who) = true
  · rw [if_pos hz]
    rw [Bool.and_eq_true] at hz
    have := hzombies hz.1
    simp [AssetDetails.counters, hz.1]
    omega
  · rw [if_neg hz]

end Recounts

/-! ### Crediting a holder -/

section Credit

variable {maxBalance : ℕ} {base : AccountId → ℕ} {s : AssetState AccountId}
  {d d' : AssetDetails AccountId} {dest : AccountId} {x : ℕ} {a : AssetBalance}
  {system' : AccountId → Option SystemAccount}

theorem AssetState.entry_of_lookup {who : AccountId} {e : AssetBalance}
    (h : s.account.lookup who = some e) : s.entry who = e := by
  simp [AssetState.entry, h]

theorem AssetState.exists_lookup_of_balance_pos {who : AccountId} (h : 0 < (s.entry who).balance) :
    ∃ e, s.account.lookup who = some e ∧ s.entry who = e := by
  cases he : s.account.lookup who with
  | none => simp [AssetState.entry, he, AssetBalance.zero] at h
  | some e => exact ⟨e, rfl, AssetState.entry_of_lookup he⟩

@[simp]
theorem fst_share_counters (account : Finmap fun _ : AccountId => AssetBalance) (who : AccountId) :
    (Ledger.share account AssetBalance.counters who).1 = Ledger.share account (·.balance) who :=
  Ledger.map_share (AddMonoidHom.fst ℕ (ℕ × ℕ)) account _ who

/-- All that a successful credit does, for entries that hold a positive balance: a new holder
goes through `new_account`, an existing one keeps its flags; either way its balance grows by the
amount, cut at the largest `Balance`, to at least the minimum. -/
theorem credit_ok (hpos : ∀ e, s.account.lookup dest = some e → 0 < e.balance)
    (h : credit maxBalance s d dest x = .ok (a, d', system')) :
    d.minBalance ≤ a.balance ∧
      a.balance = min (Ledger.share s.account (·.balance) dest + x) maxBalance ∧
      ((s.account.lookup dest = none ∧ newAccount s.system dest d = .ok (a.isZombie, d', system')) ∨
        (∃ e, s.account.lookup dest = some e ∧ a.isZombie = e.isZombie ∧ d' = d ∧
          system' = s.system)) := by
  have hbalance : (s.entry dest).balance = Ledger.share s.account (·.balance) dest := by
    cases he : s.account.lookup dest <;> simp [AssetState.entry, Ledger.share, he, AssetBalance.zero]
  unfold credit at h
  dsimp only at h
  rw [hbalance] at h
  split_ifs at h with hlow hzero
  · split at h
    · rename_i z d'' system'' hnew
      cases h
      refine ⟨by dsimp only; omega, rfl, .inl ⟨?_, hnew⟩⟩
      cases he : s.account.lookup dest with
      | none => rfl
      | some e =>
        have := hpos e he
        rw [Ledger.share_of_lookup _ he] at hzero
        omega
    · cases h
  · cases h
    have hsome : s.account.lookup dest ≠ none := by
      intro hnone
      simp [Ledger.share, hnone] at hzero
    obtain ⟨e, he⟩ := Option.ne_none_iff_exists'.mp hsome
    exact ⟨by dsimp only; omega, rfl, .inr ⟨e, he, by rw [AssetState.entry_of_lookup he], rfl, rfl⟩⟩

theorem recounts_credit (hpos : ∀ e, s.account.lookup dest = some e → 0 < e.balance)
    (h : credit maxBalance s d dest x = .ok (a, d', system')) : d.Recounts d' := by
  obtain ⟨-, -, ⟨-, hnew⟩ | ⟨e, -, -, rfl, -⟩⟩ := credit_ok hpos h
  · rcases newAccount_ok hnew with ⟨-, -, rfl⟩ | ⟨-, -, -, -, rfl⟩ <;> rfl
  · rfl

theorem zombies_le_credit (hpos : ∀ e, s.account.lookup dest = some e → 0 < e.balance)
    (h : credit maxBalance s d dest x = .ok (a, d', system')) (hz : d.zombies ≤ d.maxZombies) :
    d'.zombies ≤ d'.maxZombies := by
  obtain ⟨-, -, ⟨-, hnew⟩ | ⟨e, -, -, rfl, -⟩⟩ := credit_ok hpos h
  · rcases newAccount_ok hnew with ⟨-, -, rfl⟩ | ⟨-, -, hroom, -, rfl⟩
    · exact hz
    · exact hroom
  · exact hz

theorem counters_credit (hpos : ∀ e, s.account.lookup dest = some e → 0 < e.balance)
    (h : credit maxBalance s d dest x = .ok (a, d', system')) :
    d'.counters + Ledger.share s.account AssetBalance.counters dest + (a.balance, 0, 0) =
      d.counters + a.counters + (Ledger.share s.account (·.balance) dest, 0, 0) := by
  obtain ⟨-, -, ⟨hnone, hnew⟩ | ⟨e, he, hz, rfl, -⟩⟩ := credit_ok hpos h
  · rw [Ledger.share_of_notMem _ (Finmap.lookup_eq_none.mp hnone),
      Ledger.share_of_notMem _ (Finmap.lookup_eq_none.mp hnone)]
    rcases newAccount_ok hnew with ⟨hz, -, rfl⟩ | ⟨hz, -, -, -, rfl⟩
    all_goals simp [AssetDetails.counters, AssetBalance.counters, hz]
  · rw [Ledger.share_of_lookup _ he, Ledger.share_of_lookup _ he]
    simp [Prod.ext_iff, AssetDetails.counters, AssetBalance.counters, hz]
    omega

theorem Referenced.credit (hR : Referenced base s.account s.system)
    (hpos : ∀ e, s.account.lookup dest = some e → 0 < e.balance)
    (h : credit maxBalance s d dest x = .ok (a, d', system')) :
    Referenced base (s.account.insert dest a) system' := by
  obtain ⟨-, -, ⟨hnone, hnew⟩ | ⟨e, he, hz, -, rfl⟩⟩ := credit_ok hpos h
  · exact hR.newAccount hnone hnew a rfl
  · exact hR.insert_of_isZombie_eq he hz

end Credit

/-! ## The calls keep the bookkeeping -/

section Calls

variable {maxBalance : ℕ} {base : AccountId → ℕ} {s s' : AssetState AccountId}

theorem invariant_mint {origin beneficiary : AccountId} {amount : ℕ}
    (hinv : s.Invariant maxBalance base) (h : mint maxBalance s origin beneficiary amount = .ok s') :
    s'.Invariant maxBalance base := by
  unfold mint at h
  split at h
  · cases h
  · rename_i d hd
    have hc := hinv.counted d hd
    split_ifs at h with hpermission hoverflow
    split at h
    · rename_i a d' system' hcredit
      cases h
      have hpos : ∀ e, s.account.lookup beneficiary = some e → 0 < e.balance := hc.balance_pos
      obtain ⟨hmin, hbalance, -⟩ := credit_ok hpos hcredit
      obtain ⟨hsupply, hmax, hminBalance⟩ := (recounts_credit hpos hcredit).fields
      refine ⟨hinv.referenced.credit hpos hcredit, fun d'' hd'' => ?_, fun h => by cases h⟩
      cases hd''
      refine Counted.of_counters ?_ (zombies_le_credit hpos hcredit hc.zombies_le) ?_ ?_ ?_
      · -- the beneficiary's new balance is its old one and the amount, below the cap
        have hcount := counters_credit hpos hcredit
        have hinsert := Ledger.tally_insert s.account beneficiary a AssetBalance.counters
        have hd := hc.counters_eq
        have hle := hc.balance_le_supply beneficiary
        simp [Prod.ext_iff, AssetDetails.counters, AssetBalance.counters] at hcount hinsert hd ⊢
        omega
      · rw [hsupply]
        dsimp only
        omega
      · rw [hminBalance]
        exact hc.minBalance_pos
      · rw [hminBalance]
        exact minBalance_le_insert hc.minBalance_le hmin
    · cases h

theorem invariant_burn {origin who : AccountId} {amount : ℕ}
    (hinv : s.Invariant maxBalance base) (h : burn s origin who amount = .ok s') :
    s'.Invariant maxBalance base := by
  unfold burn at h
  split at h
  · cases h
  · rename_i d hd
    have hc := hinv.counted d hd
    have hd := hc.counters_eq
    split_ifs at h with hpermission
    split at h
    · cases h
    · rename_i e he
      dsimp only at h
      split_ifs at h with hdust
      · -- the holder is removed, with its consumer reference or zombie slot
        cases h
        have herase := Ledger.tally_erase s.account who AssetBalance.counters
        rw [Ledger.share_of_lookup _ he] at herase
        have hdead := counters_deadAccount s.system who e.isZombie
          (hc.one_le_accounts he) (hc.one_le_zombies he)
        obtain ⟨hsupply, hmax, hminBalance⟩ :=
          (recounts_deadAccount (d := d) s.system who e.isZombie).fields
        refine ⟨hinv.referenced.deadAccount he d, fun d'' hd'' => ?_, fun h => by cases h⟩
        cases hd''
        refine Counted.of_counters ?_ ?_ ?_ ?_ ?_
        · simp [Prod.ext_iff, AssetDetails.counters, AssetBalance.counters] at hdead herase hd ⊢
          omega
        · exact (zombies_deadAccount_le s.system who e.isZombie).trans (hmax ▸ hc.zombies_le)
        · exact (Nat.sub_le _ _).trans hc.supply_le
        · exact hminBalance ▸ hc.minBalance_pos
        · exact hminBalance ▸ minBalance_le_erase hc.minBalance_le
      · -- the holder keeps the rest, at least the minimum
        cases h
        have hinsert := Ledger.tally_insert s.account who
          { e with balance := e.balance - min amount e.balance } AssetBalance.counters
        rw [Ledger.share_of_lookup _ he] at hinsert
        refine ⟨hinv.referenced.insert_of_isZombie_eq he rfl, fun d'' hd'' => ?_, fun h => by cases h⟩
        cases hd''
        refine Counted.of_counters ?_ hc.zombies_le ((Nat.sub_le _ _).trans hc.supply_le)
          hc.minBalance_pos (minBalance_le_insert hc.minBalance_le (by dsimp only; omega))
        simp [Prod.ext_iff, AssetDetails.counters, AssetBalance.counters] at hinsert hd ⊢
        omega

theorem invariant_moveBalance {d : AssetDetails AccountId} {source dest : AccountId}
    {e : AssetBalance} {amount : ℕ} (hinv : s.Invariant maxBalance base) (hd : s.asset = some d)
    (he : s.account.lookup source = some e) (hamount : amount ≤ e.balance) (hne : dest ≠ source)
    (h : moveBalance maxBalance s d source { e with balance := e.balance - amount } dest amount =
      .ok s') :
    s'.Invariant maxBalance base := by
  have hc := hinv.counted d hd
  have hpos : ∀ e, s.account.lookup dest = some e → 0 < e.balance := hc.balance_pos
  unfold moveBalance at h
  dsimp only at h
  generalize hdust : (if e.balance - amount < d.minBalance then e.balance - amount else 0) = dust at h
  have hdust_le : dust ≤ e.balance - amount := by
    rw [← hdust]
    split_ifs <;> omega
  have hkept : e.balance - amount - dust ≠ 0 → d.minBalance ≤ e.balance - amount - dust := by
    rw [← hdust]
    split_ifs <;> omega
  split at h
  · cases h
  · rename_i a d₁ system₁ hcredit
    obtain ⟨hmin, hbalance, -⟩ := credit_ok hpos hcredit
    have hrec₁ := recounts_credit hpos hcredit
    have hzombies₁ := zombies_le_credit hpos hcredit hc.zombies_le
    have hR₁ := hinv.referenced.credit hpos hcredit
    have hcount := counters_credit hpos hcredit
    have hinsert := Ledger.tally_insert s.account dest a AssetBalance.counters
    have hd' := hc.counters_eq
    have hboth := hc.balance_add_balance_le_supply hne
    rw [Ledger.share_of_lookup _ he] at hboth
    have hsource : (s.account.insert dest a).lookup source = some e := by
      rw [Finmap.lookup_insert_of_ne _ hne.symm]
      exact he
    have hsupply_le := hc.supply_le
    split_ifs at h with hzero
    · -- the source is emptied and removed
      cases h
      have herase := Ledger.tally_erase (s.account.insert dest a) source AssetBalance.counters
      rw [Ledger.share_of_lookup _ hsource] at herase
      simp [Prod.ext_iff, AssetDetails.counters, AssetBalance.counters] at hcount hinsert hd' herase
      have hdead := counters_deadAccount (d := d₁) system₁ source e.isZombie (by omega)
        (fun hz => by simp [hz] at herase; omega)
      obtain ⟨hsupply, hmax, hminBalance⟩ :=
        (hrec₁.trans (recounts_deadAccount system₁ source e.isZombie)).fields
      refine ⟨hR₁.deadAccount hsource d₁, fun d'' hd'' => ?_, fun h => by cases h⟩
      cases hd''
      refine Counted.of_counters ?_ ?_ ?_ ?_ ?_
      · simp [Prod.ext_iff, AssetDetails.counters] at hdead ⊢
        omega
      · have hmax₁ := (recounts_deadAccount (d := d₁) system₁ source e.isZombie).fields.2.1
        exact (zombies_deadAccount_le system₁ source e.isZombie).trans (hmax₁ ▸ hzombies₁)
      · exact hsupply ▸ hsupply_le
      · exact hminBalance ▸ hc.minBalance_pos
      · rw [hminBalance]
        exact minBalance_le_erase (minBalance_le_insert hc.minBalance_le hmin)
    · -- the source keeps the rest, de-zombified when its system account has appeared
      cases h
      have hinsert₂ := Ledger.tally_insert (s.account.insert dest a) source
        { e with balance := e.balance - amount - dust,
                 isZombie := (dezombify system₁ source d₁ e.isZombie).1 } AssetBalance.counters
      rw [Ledger.share_of_lookup _ hsource] at hinsert₂
      have hzombie : e.isZombie = true → 1 ≤ (Ledger.tally (s.account.insert dest a)
          AssetBalance.counters).2.2 := one_le_tally_zombies hsource
      simp [Prod.ext_iff, AssetDetails.counters,
        AssetBalance.counters] at hcount hinsert hd' hinsert₂
      have hdez := counters_dezombify (d := d₁) system₁ source e.isZombie
        (fun hz => by have := hzombie hz; omega)
      obtain ⟨hsupply, hmax, hminBalance⟩ :=
        (hrec₁.trans (recounts_dezombify system₁ source e.isZombie)).fields
      refine ⟨hR₁.dezombify hsource d₁ rfl, fun d'' hd'' => ?_, fun h => by cases h⟩
      cases hd''
      refine Counted.of_counters ?_ ?_ ?_ ?_ ?_
      · simp [Prod.ext_iff, AssetDetails.counters] at hdez ⊢
        omega
      · have hmax₁ := (recounts_dezombify (d := d₁) system₁ source e.isZombie).fields.2.1
        exact (zombies_dezombify_le system₁ source e.isZombie).trans (hmax₁ ▸ hzombies₁)
      · exact hsupply ▸ hsupply_le
      · exact hminBalance ▸ hc.minBalance_pos
      · rw [hminBalance]
        exact minBalance_le_insert (minBalance_le_insert hc.minBalance_le hmin) (hkept hzero)

theorem invariant_transfer {origin dest : AccountId} {amount : ℕ}
    (hinv : s.Invariant maxBalance base) (h : transfer maxBalance s origin dest amount = .ok s') :
    s'.Invariant maxBalance base := by
  unfold transfer at h
  dsimp only at h
  split_ifs at h with hzero hfrozen hlow hself
  · -- a transfer to oneself writes nothing
    split at h
    · cases h
    · split_ifs at h
      cases h
      exact hinv
  · split at h
    · cases h
    · rename_i d hd
      split_ifs at h with hfrozen'
      -- the origin holds at least the amount, so it has an entry
      obtain ⟨e, he, hentry⟩ := AssetState.exists_lookup_of_balance_pos
        (show 0 < (s.entry origin).balance by omega)
      rw [hentry] at h hlow
      exact invariant_moveBalance hinv hd he (by omega) hself h

theorem invariant_forceTransfer {origin source dest : AccountId} {amount : ℕ}
    (hinv : s.Invariant maxBalance base)
    (h : forceTransfer maxBalance s origin source dest amount = .ok s') :
    s'.Invariant maxBalance base := by
  unfold forceTransfer at h
  dsimp only at h
  split_ifs at h with hzero hself
  · cases h
    exact hinv
  · split at h
    · cases h
    · rename_i d hd
      split_ifs at h with hpermission
      obtain ⟨e, he, hentry⟩ := AssetState.exists_lookup_of_balance_pos
        (show 0 < (s.entry source).balance by omega)
      rw [hentry] at h
      exact invariant_moveBalance hinv hd he (min_le_right _ _) hself h

theorem invariant_createAsset {owner team : AccountId} {maxZombies minBalance : ℕ}
    {reserved : Bool} (hinv : s.Invariant maxBalance base)
    (h : createAsset s owner team maxZombies minBalance reserved = .ok s') :
    s'.Invariant maxBalance base := by
  unfold createAsset at h
  split_ifs at h with hinUse hzero hreserved
  cases h
  have hempty := hinv.empty (Option.not_isSome_iff_eq_none.mp hinUse)
  refine ⟨hinv.referenced, fun d hd => ?_, fun h => by cases h⟩
  cases hd
  rw [hempty]
  refine Counted.of_counters ?_ (Nat.zero_le _) (Nat.zero_le _) (Nat.pos_of_ne_zero hzero) ?_
  · simp [AssetDetails.counters]
  · intro who a ha
    simp at ha

theorem Referenced.empty_of_zombies {account : Finmap fun _ : AccountId => AssetBalance}
    {system : AccountId → Option SystemAccount} (hR : Referenced base account system)
    (hzombies : ∀ who a, account.lookup who = some a → a.isZombie = true) :
    Referenced base ∅ system where
  providers_pos := hR.providers_pos
  consumers_eq who := by
    rw [hR.consumers_eq who]
    cases ha : account.lookup who with
    | none => simp [Ledger.share, ha]
    | some a => simp [Ledger.share, ha, AssetBalance.reference, hzombies who a ha]
  base_lt := hR.base_lt

theorem Counted.isZombie_of_accounts_eq {account : Finmap fun _ : AccountId => AssetBalance}
    {d : AssetDetails AccountId} (hc : Counted maxBalance d account) (h : d.accounts = d.zombies) :
    ∀ who a, account.lookup who = some a → a.isZombie = true := by
  intro who a ha
  have hle : ∀ x ∈ account.keys, Ledger.share account (fun a => if a.isZombie then 1 else 0) x ≤
      Ledger.share account (fun _ => 1) x := by
    intro x _
    cases hx : account.lookup x with
    | none => simp [Ledger.share, hx]
    | some b => simp only [Ledger.share_of_lookup _ hx]; split_ifs <;> omega
  have heq := (Finset.sum_eq_sum_iff_of_le hle).mp (by
    rw [← Ledger.tally, ← Ledger.tally, ← hc.zombies_eq, ← hc.accounts_eq, h])
    who (Finmap.mem_keys.mpr (Finmap.mem_of_lookup_eq_some ha))
  rw [Ledger.share_of_lookup _ ha, Ledger.share_of_lookup _ ha] at heq
  simpa using heq

theorem invariant_destroyAsset {permitted : AssetDetails AccountId → Bool} {zombiesWitness : ℕ}
    (hinv : s.Invariant maxBalance base) (h : destroyAsset s permitted zombiesWitness = .ok s') :
    s'.Invariant maxBalance base := by
  unfold destroyAsset at h
  split at h
  · cases h
  · rename_i d hd
    split_ifs at h with hpermission hrefs hwitness
    cases h
    have hzombies := (hinv.counted d hd).isZombie_of_accounts_eq (not_not.mp hrefs)
    exact ⟨hinv.referenced.empty_of_zombies hzombies, fun _ h => (by cases h), fun _ => rfl⟩

theorem invariant_setFrozen {role : AssetDetails AccountId → AccountId} {isFrozen : Bool}
    {origin who : AccountId} (hinv : s.Invariant maxBalance base)
    (h : setFrozen s role isFrozen origin who = .ok s') : s'.Invariant maxBalance base := by
  unfold setFrozen at h
  split at h
  · cases h
  · rename_i d hd
    split_ifs at h with hpermission
    split at h
    · cases h
    · rename_i e he
      cases h
      refine ⟨hinv.referenced.insert_of_isZombie_eq he rfl, fun d' hd' => ?_,
        fun h => by rw [hd] at h; cases h⟩
      have hc := hinv.counted d' hd'
      -- the frozen flag is no part of the counters
      have hinsert := Ledger.tally_insert s.account who { e with isFrozen } AssetBalance.counters
      rw [Ledger.share_of_lookup _ he] at hinsert
      refine Counted.of_counters ?_ hc.zombies_le hc.supply_le hc.minBalance_pos
        (minBalance_le_insert hc.minBalance_le (hc.minBalance_le who e he))
      exact hc.counters_eq.trans (add_right_cancel hinsert).symm

theorem invariant_mutateDetails {permitted : AssetDetails AccountId → Bool}
    {f : AssetDetails AccountId → Except AssetError (AssetDetails AccountId)}
    (hf : ∀ d d', f d = .ok d' → d'.counters = d.counters ∧ d'.minBalance = d.minBalance ∧
      (d.zombies ≤ d.maxZombies → d'.zombies ≤ d'.maxZombies))
    (hinv : s.Invariant maxBalance base) (h : mutateDetails s permitted f = .ok s') :
    s'.Invariant maxBalance base := by
  unfold mutateDetails at h
  split at h
  · cases h
  · rename_i d hd
    split_ifs at h with hpermission
    split at h
    · rename_i d' hd'
      cases h
      obtain ⟨hcounters, hmin, hzombies⟩ := hf d d' hd'
      have hc := hinv.counted d hd
      refine ⟨hinv.referenced, fun d'' hd'' => ?_, fun h => by cases h⟩
      cases hd''
      exact hc.congr hcounters hmin (hzombies hc.zombies_le)
    · cases h

theorem invariant_setMaxZombies {origin : AccountId} {maxZombies : ℕ} {reserved : Bool}
    (hinv : s.Invariant maxBalance base) (h : setMaxZombies s origin maxZombies reserved = .ok s') :
    s'.Invariant maxBalance base := by
  refine invariant_mutateDetails (fun d d' hd' => ?_) hinv h
  split_ifs at hd' with hroom hreserved
  cases hd'
  exact ⟨rfl, rfl, fun _ => not_lt.mp hroom⟩

theorem invariant_transferOwnership {origin owner : AccountId} {repatriated : Bool}
    (hinv : s.Invariant maxBalance base)
    (h : transferOwnership s origin owner repatriated = .ok s') : s'.Invariant maxBalance base := by
  refine invariant_mutateDetails (fun d d' hd' => ?_) hinv h
  split_ifs at hd' <;> cases hd' <;> exact ⟨rfl, rfl, id⟩

/-! ### The system's provider references -/

theorem Referenced.incProviders {account : Finmap fun _ : AccountId => AssetBalance}
    {system : AccountId → Option SystemAccount} (hR : Referenced base account system)
    (who : AccountId) : Referenced base account (incProviders system who) := by
  unfold Tetcore.Assets.incProviders
  apply hR.write who (fun _ _ => rfl) (fun x hx => Function.update_of_ne hx _ _)
  · intro a ha
    rw [Function.update_self, Option.some.injEq] at ha
    rw [← ha]
    dsimp only
    split_ifs
    · exact Nat.one_pos
    · simp only [Saturating.add]
      omega
  · rw [consumers_update_self, ← hR.consumers_eq who]
    cases ha : system who <;> simp [consumers, ha]

theorem Referenced.decProviders {account : Finmap fun _ : AccountId => AssetBalance}
    {system system' : AccountId → Option SystemAccount} (hR : Referenced base account system)
    {who : AccountId} (h : decProviders system who = some system') :
    Referenced base account system' := by
  unfold Tetcore.Assets.decProviders at h
  split at h
  · cases h
    exact hR
  · rename_i a ha
    have hp := hR.providers_pos who a ha
    have hcons := hR.consumers_eq who
    rw [consumers_of_eq_some ha] at hcons
    split_ifs at h with hlast hconsumer
    · -- the last provider goes with the account, which then has no consumers
      cases h
      apply hR.write who (fun _ _ => rfl) (fun x hx => Function.update_of_ne hx _ _)
      · intro a' ha'
        simp at ha'
      · rw [consumers, Function.update_self]
        simp only [Option.map_none, Option.getD_none]
        omega
    · cases h
      apply hR.write who (fun _ _ => rfl) (fun x hx => Function.update_of_ne hx _ _)
      · intro a' ha'
        rw [Function.update_self, Option.some.injEq] at ha'
        rw [← ha']
        dsimp only
        omega
      · rw [consumers_update_self, ← hcons]

end Calls

/-! ## Every run keeps the bookkeeping -/

section Run

variable {maxBalance : ℕ} {base : AccountId → ℕ} {s : AssetState AccountId}

theorem invariant_commit {r : Except AssetError (AssetState AccountId)}
    (hinv : s.Invariant maxBalance base) (h : ∀ s', r = .ok s' → s'.Invariant maxBalance base) :
    (s.commit r).Invariant maxBalance base := by
  cases r with
  | ok s' => exact h s' rfl
  | error _ => exact hinv

theorem invariant_applyAssetCall (hinv : s.Invariant maxBalance base) (call : AssetCall AccountId) :
    (applyAssetCall maxBalance s call).Invariant maxBalance base := by
  cases call with
  | create => exact invariant_commit hinv fun _ h => invariant_createAsset hinv h
  | forceCreate => exact invariant_commit hinv fun _ h => invariant_createAsset hinv h
  | destroy => exact invariant_commit hinv fun _ h => invariant_destroyAsset hinv h
  | forceDestroy => exact invariant_commit hinv fun _ h => invariant_destroyAsset hinv h
  | mint => exact invariant_commit hinv fun _ h => invariant_mint hinv h
  | burn => exact invariant_commit hinv fun _ h => invariant_burn hinv h
  | transfer => exact invariant_commit hinv fun _ h => invariant_transfer hinv h
  | forceTransfer => exact invariant_commit hinv fun _ h => invariant_forceTransfer hinv h
  | freeze => exact invariant_commit hinv fun _ h => invariant_setFrozen hinv h
  | thaw => exact invariant_commit hinv fun _ h => invariant_setFrozen hinv h
  | freezeAsset =>
    exact invariant_commit hinv fun _ h => invariant_mutateDetails (fun _ _ hd => by
      cases hd
      exact ⟨rfl, rfl, id⟩) hinv h
  | thawAsset =>
    exact invariant_commit hinv fun _ h => invariant_mutateDetails (fun _ _ hd => by
      cases hd
      exact ⟨rfl, rfl, id⟩) hinv h
  | transferOwnership => exact invariant_commit hinv fun _ h => invariant_transferOwnership hinv h
  | setTeam =>
    exact invariant_commit hinv fun _ h => invariant_mutateDetails (fun _ _ hd => by
      cases hd
      exact ⟨rfl, rfl, id⟩) hinv h
  | setMaxZombies => exact invariant_commit hinv fun _ h => invariant_setMaxZombies hinv h
  | incProviders who => exact ⟨hinv.referenced.incProviders who, hinv.counted, hinv.empty⟩
  | decProviders who =>
    simp only [applyAssetCall]
    cases h : decProviders s.system who with
    | none => exact hinv
    | some system' => exact ⟨hinv.referenced.decProviders h, hinv.counted, hinv.empty⟩

theorem invariant_initial (hasset : s.asset = none) (haccount : s.account = ∅)
    (hsystem : ∀ who a, s.system who = some a → 0 < a.providers ∧ a.consumers < 2 ^ 32 - 1) :
    s.Invariant maxBalance (consumers s.system) := by
  refine ⟨⟨fun who a ha => (hsystem who a ha).1, fun who => ?_, fun who => ?_⟩,
    fun d hd => (by rw [hasset] at hd; cases hd), fun _ => haccount⟩
  · simp [haccount, Ledger.share]
  · cases ha : s.system who with
    | none => simp [consumers, ha]
    | some a => simpa [consumers, ha] using (hsystem who a ha).2

/-- Every class created and every call on it, successful or not, among any changes of the
providers of the system accounts: the supply is the sum of the balances, the accounts the number
of entries, each holding at least the minimum balance, and the zombies the number of zombie entries
and at most `max_zombies`; every system account's consumers are those held before, and one for each
holder of the class that is not a zombie. -/
theorem assetClass_bookkeeping (maxBalance : ℕ) (s : AssetState AccountId)
    (hasset : s.asset = none) (haccount : s.account = ∅)
    (hsystem : ∀ who a, s.system who = some a → 0 < a.providers ∧ a.consumers < 2 ^ 32 - 1)
    (calls : List (AssetCall AccountId)) :
    (StepMachine.run (applyAssetCall maxBalance) s calls).Invariant maxBalance
      (consumers s.system) := by
  have hstep : ∀ s' call, s'.Invariant maxBalance (consumers s.system) →
      (applyAssetCall maxBalance s' call).Invariant maxBalance (consumers s.system) :=
    fun _ call hinv => invariant_applyAssetCall hinv call
  exact StepMachine.run_invariant _ hstep calls (invariant_initial hasset haccount hsystem)

end Run

/-- No class yet, and one system account with a provider and no consumers. -/
def fundedStart : AssetState ℕ :=
  ⟨none, ∅, fun who => if who = 1 then some ⟨1, 0⟩ else none⟩

theorem assetClass_bookkeeping_fundedStart :
    (∀ who a, fundedStart.system who = some a → 0 < a.providers ∧ a.consumers < 2 ^ 32 - 1) ∧
      (StepMachine.run (applyAssetCall 100) fundedStart
        [.forceCreate 0 2 1, .mint 0 1 5, .mint 0 2 4, .transfer 1 2 4]).Invariant 100
        (consumers fundedStart.system) := by
  have hsystem : ∀ who a, fundedStart.system who = some a →
      0 < a.providers ∧ a.consumers < 2 ^ 32 - 1 := by
    intro who a ha
    simp only [fundedStart] at ha
    split_ifs at ha
    cases ha
    exact ⟨Nat.one_pos, by decide⟩
  exact ⟨hsystem, assetClass_bookkeeping 100 fundedStart rfl rfl hsystem _⟩

/-- No class yet, and one system account with a provider whose consumer count is at the cap. -/
def saturatedStart : AssetState ℕ :=
  ⟨none, ∅, fun who => if who = 1 then some ⟨1, 2 ^ 32 - 1⟩ else none⟩

/-- At the cap, the reference `new_account` takes is lost and the one `dead_account` releases is
another's: minting to the holder and burning it all leaves one consumer reference fewer. -/
theorem consumer_reference_lost_at_cap :
    consumers (StepMachine.run (applyAssetCall 100) saturatedStart
      [.forceCreate 0 0 1, .mint 0 1 5, .burn 0 1 5]).system 1 + 1 =
      consumers saturatedStart.system 1 := by
  decide

end Tetcore.Assets
