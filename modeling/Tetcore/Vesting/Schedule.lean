import Tetcore.Balances.Locks

/-!
# Vesting schedules and their lock

`fabric/vesting`. A vesting schedule of an account is kept in `Vesting`, and the amount it still
locks at the current block in a lock of the balances noble under `VESTING_ID`. `update_lock` keeps
the two together: it sets the lock to `locked_at(now)`, or removes the lock and the schedule once
nothing is locked, and fails with `NotVesting` when there is no schedule.

Every call keeps the lock and the schedule together, except `remove_vesting_schedule`: it removes
the schedule first and then calls `update_lock`, which finds no schedule, fails, and leaves the
lock in place; the error is ignored.
-/

namespace Tetcore.Vesting

open Balances

/-- `VestingInfo`. -/
structure VestingInfo where
  locked : ℕ
  perBlock : ℕ
  startingBlock : ℕ
  deriving DecidableEq, Repr

/-- The storage of the vesting calls: the balances noble with its locks, `Vesting`, and the block
number of the system noble. -/
structure VestingState (AccountId LockId : Type*) where
  currency : LockState AccountId LockId
  vesting : AccountId → Option VestingInfo
  now : ℕ

/-- The errors of the vesting calls, and those of the currency's `transfer`. -/
inductive VestingError
  | notVesting
  | amountLow
  | existingVestingSchedule
  | currency (e : Error)
  deriving DecidableEq, Repr

variable (cfg : Config) {AccountId LockId : Type*} [DecidableEq AccountId] [DecidableEq LockId]

/-- `checked_mul` on `Balance`. -/
def checkedMul (a b : ℕ) : Option ℕ :=
  if a * b ≤ cfg.maxBalance then some (a * b) else none

/-- `VestingInfo::locked_at`, with `BlockNumberToBalance` the identity: the locked amount less
`per_block` for each block since the start, zero when that product overflows the balance. -/
def VestingInfo.lockedAt (v : VestingInfo) (n : ℕ) : ℕ :=
  let vestedBlockCount := n - v.startingBlock
  match checkedMul cfg vestedBlockCount v.perBlock with
  | some balance => v.locked - balance
  | none => 0

theorem VestingInfo.lockedAt_antitone (v : VestingInfo) {t t' : ℕ} (h : t ≤ t') :
    v.lockedAt cfg t' ≤ v.lockedAt cfg t := by
  have hmul : (t - v.startingBlock) * v.perBlock ≤ (t' - v.startingBlock) * v.perBlock :=
    Nat.mul_le_mul_right _ (by omega)
  by_cases h' : (t' - v.startingBlock) * v.perBlock ≤ cfg.maxBalance
  case pos =>
    have h₀ : (t - v.startingBlock) * v.perBlock ≤ cfg.maxBalance := hmul.trans h'
    simp only [VestingInfo.lockedAt, checkedMul, if_pos h', if_pos h₀]
    omega
  -- the product overflows at the later block, where nothing is locked any more
  case neg =>
    simp [VestingInfo.lockedAt, checkedMul, if_neg h']

section Calls

variable (vestingId : LockId) (minVestedTransfer : ℕ)

/-- `Module::update_lock`. -/
def updateLock (s : VestingState AccountId LockId) (who : AccountId) :
    Except VestingError Unit × VestingState AccountId LockId :=
  match s.vesting who with
  | none => (.error .notVesting, s)
  | some vesting =>
    let lockedNow := vesting.lockedAt cfg s.now
    if lockedNow = 0 then
      (.ok (), { s with currency := removeLock cfg s.currency vestingId who,
                        vesting := Function.update s.vesting who none })
    else
      (.ok (), { s with currency := setLock cfg s.currency vestingId who lockedNow
                          {WithdrawReason.transfer, WithdrawReason.reserve} })

/-- `VestingSchedule::add_vesting_schedule`; the result of `update_lock` is ignored. -/
def addVestingSchedule (s : VestingState AccountId LockId) (who : AccountId)
    (locked perBlock startingBlock : ℕ) : Except VestingError Unit × VestingState AccountId LockId :=
  if locked = 0 then (.ok (), s)
  else if (s.vesting who).isSome then (.error .existingVestingSchedule, s)
  else
    let vestingSchedule : VestingInfo := ⟨locked, perBlock, startingBlock⟩
    let s := { s with vesting := Function.update s.vesting who (some vestingSchedule) }
    (.ok (), (updateLock cfg vestingId s who).2)

/-- `VestingSchedule::remove_vesting_schedule`: the schedule goes first, then `update_lock`, whose
result is ignored. -/
def removeVestingSchedule (s : VestingState AccountId LockId) (who : AccountId) :
    VestingState AccountId LockId :=
  let s := { s with vesting := Function.update s.vesting who none }
  (updateLock cfg vestingId s who).2

/-- The body of `vested_transfer` and `force_vested_transfer` from the account `source`. The
`expect` on `add_vesting_schedule` cannot fail: the schedule was checked absent, and `transfer`
does not touch `Vesting` (`addVestingSchedule_ok`). -/
def vestedTransferFrom (s : VestingState AccountId LockId) (source target : AccountId)
    (schedule : VestingInfo) : Except VestingError Unit × VestingState AccountId LockId :=
  if schedule.locked < minVestedTransfer then (.error .amountLow, s)
  else if (s.vesting target).isSome then (.error .existingVestingSchedule, s)
  else
    match transfer cfg s.currency.balances source target schedule.locked .allowDeath with
    | (.error e, balances) =>
      (.error (.currency e), { s with currency := { s.currency with balances := balances } })
    | (.ok (), balances) =>
      addVestingSchedule cfg vestingId { s with currency := { s.currency with balances := balances } }
        target schedule.locked schedule.perBlock schedule.startingBlock

/-- The calls of the vesting noble and of `VestingSchedule`, and the passing of blocks. -/
inductive VestingCall (AccountId : Type*)
  | vest (who : AccountId)
  | vestOther (target : AccountId)
  | vestedTransfer (transactor target : AccountId) (schedule : VestingInfo)
  | forceVestedTransfer (source target : AccountId) (schedule : VestingInfo)
  | addVestingSchedule (who : AccountId) (locked perBlock startingBlock : ℕ)
  | removeVestingSchedule (who : AccountId)
  | advance (blocks : ℕ)

/-- Issue one call; the state it leaves, whatever it returns. -/
def applyVestingCall (s : VestingState AccountId LockId) :
    VestingCall AccountId → VestingState AccountId LockId
  | .vest who => (updateLock cfg vestingId s who).2
  | .vestOther target => (updateLock cfg vestingId s target).2
  | .vestedTransfer transactor target schedule =>
    (vestedTransferFrom cfg vestingId minVestedTransfer s transactor target schedule).2
  | .forceVestedTransfer source target schedule =>
    (vestedTransferFrom cfg vestingId minVestedTransfer s source target schedule).2
  | .addVestingSchedule who locked perBlock startingBlock =>
    (addVestingSchedule cfg vestingId s who locked perBlock startingBlock).2
  | .removeVestingSchedule who => removeVestingSchedule cfg vestingId s who
  | .advance blocks => { s with now := s.now + blocks }

end Calls

/-! ## The lock follows the schedule -/

section Invariant

variable (vestingId : LockId)

/-- The amount of the `VESTING_ID` lock of an account. -/
def vestingLock (s : VestingState AccountId LockId) (who : AccountId) : Option ℕ :=
  (lockOf s.currency vestingId who).map (·.amount)

/-- The lock of one account follows its schedule: it has a vesting lock exactly when it has a
schedule, and the lock is what the schedule locked at some block up to now. -/
def Follows (s : VestingState AccountId LockId) (who : AccountId) : Prop :=
  ((s.vesting who).isSome ↔ (vestingLock vestingId s who).isSome) ∧
    ∀ v a, s.vesting who = some v → vestingLock vestingId s who = some a →
      ∃ t ≤ s.now, a = v.lockedAt cfg t

/-- The lock of every account follows its schedule. -/
def LockFollowsSchedule (s : VestingState AccountId LockId) : Prop :=
  ∀ who, Follows cfg vestingId s who

variable {cfg vestingId}

omit [DecidableEq AccountId] in
theorem Follows.congr {s s' : VestingState AccountId LockId} {who : AccountId}
    (h : Follows cfg vestingId s who) (hvesting : s'.vesting who = s.vesting who)
    (hlock : vestingLock vestingId s' who = vestingLock vestingId s who) (hnow : s.now ≤ s'.now) :
    Follows cfg vestingId s' who := by
  obtain ⟨hiff, hamount⟩ := h
  refine ⟨by rw [hvesting, hlock]; exact hiff, ?_⟩
  intro v a hv ha
  obtain ⟨t, ht, rfl⟩ := hamount v a (hvesting ▸ hv) (hlock ▸ ha)
  exact ⟨t, ht.trans hnow, rfl⟩

theorem updateLock_of_none {s : VestingState AccountId LockId} {who : AccountId}
    (h : s.vesting who = none) : updateLock cfg vestingId s who = (.error .notVesting, s) := by
  simp [updateLock, h]

theorem follows_updateLock_self {s : VestingState AccountId LockId} {who : AccountId}
    {v : VestingInfo} (h : s.vesting who = some v) :
    Follows cfg vestingId (updateLock cfg vestingId s who).2 who := by
  have hreasons : ({WithdrawReason.transfer, WithdrawReason.reserve} : Finset WithdrawReason) ≠ ∅ :=
    by decide
  by_cases hlocked : v.lockedAt cfg s.now = 0
  -- nothing is locked now: the lock and the schedule both go
  case pos =>
    have hvesting : (updateLock cfg vestingId s who).2.vesting who = none := by
      simp [updateLock, h, hlocked]
    have hlock : vestingLock vestingId (updateLock cfg vestingId s who).2 who = none := by
      simp [updateLock, h, hlocked, vestingLock, lockOf_removeLock]
    refine ⟨by simp [hvesting, hlock], fun v a hv _ => ?_⟩
    rw [hvesting] at hv
    cases hv
  -- the lock is set to what the schedule locks now
  case neg =>
    have hvesting : (updateLock cfg vestingId s who).2.vesting who = some v := by
      simp [updateLock, h, hlocked]
    have hlock : vestingLock vestingId (updateLock cfg vestingId s who).2 who =
        some (v.lockedAt cfg s.now) := by
      simp [updateLock, h, hlocked, vestingLock, lockOf_setLock cfg s.currency vestingId who hlocked
        hreasons]
    have hnow : (updateLock cfg vestingId s who).2.now = s.now := by
      simp [updateLock, h, hlocked]
    refine ⟨by simp [hvesting, hlock], ?_⟩
    intro v' a hv' ha
    rw [hvesting, Option.some.injEq] at hv'
    rw [hlock, Option.some.injEq] at ha
    subst hv' ha
    exact ⟨s.now, hnow.ge, rfl⟩

theorem updateLock_frame (s : VestingState AccountId LockId) {who k : AccountId} (hk : k ≠ who) :
    (updateLock cfg vestingId s who).2.vesting k = s.vesting k ∧
      vestingLock vestingId (updateLock cfg vestingId s who).2 k = vestingLock vestingId s k ∧
      (updateLock cfg vestingId s who).2.now = s.now := by
  cases hv : s.vesting who with
  | none => simp [updateLock, hv]
  | some v =>
    by_cases hlocked : v.lockedAt cfg s.now = 0
    · simp [updateLock, hv, hlocked, Function.update_of_ne hk, vestingLock,
        lockOf_removeLock_of_ne cfg _ _ _ hk]
    · simp [updateLock, hv, hlocked, vestingLock, setLock, lockOf_lockWith_of_ne cfg _ _ _ _ hk]

theorem lockFollowsSchedule_updateLock {s : VestingState AccountId LockId} {who : AccountId}
    (hs : ∀ k, k ≠ who → Follows cfg vestingId s k) {v : VestingInfo} (h : s.vesting who = some v) :
    LockFollowsSchedule cfg vestingId (updateLock cfg vestingId s who).2 := by
  intro k
  by_cases hk : k = who
  case pos =>
    subst hk
    exact follows_updateLock_self h
  case neg =>
    obtain ⟨hvesting, hlock, hnow⟩ := @updateLock_frame cfg AccountId LockId _ _ vestingId s who k hk
    exact (hs k hk).congr hvesting hlock hnow.ge

theorem lockFollowsSchedule_addVestingSchedule {s : VestingState AccountId LockId}
    (hs : LockFollowsSchedule cfg vestingId s) (who : AccountId) (locked perBlock startingBlock : ℕ) :
    LockFollowsSchedule cfg vestingId
      (addVestingSchedule cfg vestingId s who locked perBlock startingBlock).2 := by
  unfold addVestingSchedule
  split
  case isTrue => exact hs
  case isFalse =>
    split
    case isTrue => exact hs
    -- the new schedule is written, then `update_lock` sets its lock
    case isFalse =>
      apply lockFollowsSchedule_updateLock _ (Function.update_self _ _ _)
      intro k hk
      exact (hs k).congr (Function.update_of_ne hk _ _) rfl le_rfl

omit [DecidableEq AccountId] in
theorem lockFollowsSchedule_balances {s : VestingState AccountId LockId}
    (hs : LockFollowsSchedule cfg vestingId s) (balances : State AccountId) :
    LockFollowsSchedule cfg vestingId { s with currency := { s.currency with balances := balances } } :=
  fun k => (hs k).congr rfl rfl le_rfl

theorem lockFollowsSchedule_vestedTransferFrom {s : VestingState AccountId LockId}
    (hs : LockFollowsSchedule cfg vestingId s) (minVestedTransfer : ℕ) (source target : AccountId)
    (schedule : VestingInfo) :
    LockFollowsSchedule cfg vestingId
      (vestedTransferFrom cfg vestingId minVestedTransfer s source target schedule).2 := by
  unfold vestedTransferFrom
  split
  case isTrue => exact hs
  case isFalse =>
    split
    case isTrue => exact hs
    case isFalse =>
      split
      case h_1 => exact lockFollowsSchedule_balances hs _
      case h_2 =>
        exact lockFollowsSchedule_addVestingSchedule (lockFollowsSchedule_balances hs _) _ _ _ _

theorem lockFollowsSchedule_applyVestingCall (minVestedTransfer : ℕ)
    {s : VestingState AccountId LockId} (hs : LockFollowsSchedule cfg vestingId s)
    (call : VestingCall AccountId) (hcall : ∀ who, call ≠ .removeVestingSchedule who) :
    LockFollowsSchedule cfg vestingId (applyVestingCall cfg vestingId minVestedTransfer s call) := by
  cases call with
  | vest who | vestOther who =>
    cases hv : s.vesting who with
    | none => simpa [applyVestingCall, updateLock_of_none hv] using hs
    | some v => exact lockFollowsSchedule_updateLock (fun k _ => hs k) hv
  | vestedTransfer source target schedule | forceVestedTransfer source target schedule =>
    exact lockFollowsSchedule_vestedTransferFrom hs _ _ _ _
  | addVestingSchedule who locked perBlock startingBlock =>
    exact lockFollowsSchedule_addVestingSchedule hs _ _ _ _
  | removeVestingSchedule who => exact absurd rfl (hcall who)
  | advance blocks => exact fun k => (hs k).congr rfl rfl (Nat.le_add_right _ _)

theorem lockFollowsSchedule_run (minVestedTransfer : ℕ) (calls : List (VestingCall AccountId)) :
    ∀ {s : VestingState AccountId LockId}, LockFollowsSchedule cfg vestingId s →
      (∀ call ∈ calls, ∀ who, call ≠ .removeVestingSchedule who) →
      LockFollowsSchedule cfg vestingId
        (StepMachine.run (applyVestingCall cfg vestingId minVestedTransfer) s calls) := by
  induction calls with
  | nil => exact fun hs _ => hs
  | cons call calls ih =>
    intro s hs hcalls
    rw [StepMachine.run_cons]
    exact ih (lockFollowsSchedule_applyVestingCall minVestedTransfer hs call
      (hcalls call (List.mem_cons_self ..))) (fun c hc => hcalls c (List.mem_cons_of_mem _ hc))

/-- Two accounts, `true` with 30 free units and a provider, no lock and no schedule, at block 0. -/
def unvested : VestingState Bool ℕ :=
  { currency :=
      { balances :=
          { account := fun a => if a then some { providers := 1, data := { free := 30 } } else none
            totalIssuance := 30 }
        locks := fun _ => none }
    vesting := fun _ => none
    now := 0 }

theorem lockFollowsSchedule_run_vestedTransfer :
    LockFollowsSchedule edFive 0 unvested ∧
      (∀ call ∈ [VestingCall.addVestingSchedule true 10 1 0, .advance 3, .vest true,
          .vestedTransfer true false ⟨12, 2, 4⟩, .advance 2, .vestOther false],
        ∀ who, call ≠ .removeVestingSchedule who) ∧
      LockFollowsSchedule edFive 0 (StepMachine.run (applyVestingCall edFive 0 1) unvested
        [.addVestingSchedule true 10 1 0, .advance 3, .vest true,
          .vestedTransfer true false ⟨12, 2, 4⟩, .advance 2, .vestOther false]) := by
  have h₀ : LockFollowsSchedule edFive 0 unvested := fun who =>
    ⟨by simp [unvested, vestingLock, lockOf], fun v a hv => by cases hv⟩
  have hcalls : ∀ call ∈ [VestingCall.addVestingSchedule true 10 1 0, .advance 3, .vest true,
      .vestedTransfer true false ⟨12, 2, 4⟩, .advance 2, .vestOther false],
      ∀ who, call ≠ .removeVestingSchedule who := by
    simp
  exact ⟨h₀, hcalls, lockFollowsSchedule_run 1 _ h₀ hcalls⟩

omit [DecidableEq AccountId] in
theorem Follows.lockedAt_now_le {s : VestingState AccountId LockId} {who : AccountId}
    (h : Follows cfg vestingId s who) {v : VestingInfo} {a : ℕ} (hv : s.vesting who = some v)
    (ha : vestingLock vestingId s who = some a) : v.lockedAt cfg s.now ≤ a := by
  obtain ⟨t, ht, rfl⟩ := h.2 v a hv ha
  exact v.lockedAt_antitone cfg ht

end Invariant

/-! ## Removing a schedule -/

/-- One account with 20 free units and a provider, no lock and no schedule, at block 0. -/
def vestingExample : VestingState (Fin 1) ℕ :=
  { currency := { balances := { account := fun _ => some { providers := 1, data := { free := 20 } },
                                totalIssuance := 20 },
                  locks := fun _ => none },
    vesting := fun _ => none, now := 0 }

/-- With an existential deposit of 5, lock id `0` and a minimum vested transfer of 1: adding a
schedule of 10 locks 10; removing it drops the schedule and keeps the lock of 10, so the lock no
longer follows the schedule. -/
theorem removeVestingSchedule_keeps_lock :
    LockFollowsSchedule edFive 0 vestingExample ∧
      vestingLock 0 (applyVestingCall edFive 0 1 vestingExample (.addVestingSchedule 0 10 1 0)) 0 =
        some 10 ∧
      (StepMachine.run (applyVestingCall edFive 0 1) vestingExample
        [.addVestingSchedule 0 10 1 0, .removeVestingSchedule 0]).vesting 0 = none ∧
      vestingLock 0 (StepMachine.run (applyVestingCall edFive 0 1) vestingExample
        [.addVestingSchedule 0 10 1 0, .removeVestingSchedule 0]) 0 = some 10 ∧
      ¬LockFollowsSchedule edFive 0 (StepMachine.run (applyVestingCall edFive 0 1) vestingExample
        [.addVestingSchedule 0 10 1 0, .removeVestingSchedule 0]) := by
  have hvesting : (StepMachine.run (applyVestingCall edFive 0 1) vestingExample
      [.addVestingSchedule 0 10 1 0, .removeVestingSchedule 0]).vesting 0 = none := by decide
  have hlock : vestingLock 0 (StepMachine.run (applyVestingCall edFive 0 1) vestingExample
      [.addVestingSchedule 0 10 1 0, .removeVestingSchedule 0]) 0 = some 10 := by decide
  have hinit : LockFollowsSchedule edFive 0 vestingExample := by
    intro who
    refine ⟨by simp [vestingExample, vestingLock, lockOf], fun v a hv _ => ?_⟩
    simp [vestingExample] at hv
  refine ⟨hinit, by decide,
    hvesting, hlock, fun h => ?_⟩
  have hiff := (h 0).1
  rw [hvesting, hlock] at hiff
  simp at hiff

end Tetcore.Vesting
