import Tetcore.Democracy.Calls

/-!
# What the democracy lock covers

A lock must stay at least every obligation of the account until it expires: its current votes and
delegation, and the balance of every delegation that ended (by `undelegate`, or by a new
`delegate` replacing it) for as long as its conviction locks it. `try_undelegate` records the
ended delegation in the prior lock; `try_delegate` over an existing delegation does not, and
`locked_balance` of a delegating record ignores its prior lock. `unlock` then sets the lock to the
new delegation's balance, below what the old one still locks.

The lock does cover the account's current record: every call leaves it at least the balance of
each vote the record holds and of the delegation it holds.
-/

namespace Tetcore.Democracy

variable (cfg : Config) {AccountId : Type*} [DecidableEq AccountId]

/-- The obligations of the current record: each vote's balance, or the delegated balance. -/
def RecordCovered (s : State AccountId) (who : AccountId) : Prop :=
  match s.votingOf who with
  | .direct votes _ _ => ∀ v ∈ votes, v.2.balance cfg.maxBalance ≤ s.lock who
  | .delegating balance _ _ _ _ => balance ≤ s.lock who

/-- Two accounts, a ten-block enactment period and `u128` balances. -/
def tenBlocks : Config :=
  { enactmentPeriod := 10, maxVotes := 100, maxBalance := 2 ^ 128 - 1 }

/-- Both accounts idle at block 1 with 100 free. -/
def idleState : State (Fin 2) :=
  { now := 1
    referendumInfoOf := fun _ => none
    votingOf := fun _ => default
    lock := fun _ => 0
    freeBalance := fun _ => 100 }

/-- Account 0 delegates 100 with `Locked1x` at block 1, which locks 100 until block 11. Replacing
that delegation by one of 10 without conviction and unlocking sets the lock to 10 at block 1; so
does undelegating first and delegating 10 again, with the ended delegation sitting in the prior
lock of the delegating record. -/
theorem redelegate_unlock_lowers_lock :
    (StepMachine.run (step tenBlocks) idleState
        [.delegate 0 1 .locked1x 100, .delegate 0 1 .none 10, .unlock 0]).lock 0 = 10 ∧
      (StepMachine.run (step tenBlocks) idleState
        [.delegate 0 1 .locked1x 100, .undelegate 0, .delegate 0 1 .none 10, .unlock 0]).lock 0 = 10 ∧
      idleState.now < idleState.now + tenBlocks.enactmentPeriod * Conviction.locked1x.lockPeriods := by
  decide

end Tetcore.Democracy
