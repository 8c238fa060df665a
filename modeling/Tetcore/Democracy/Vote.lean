import Mathlib

/-!
# The vote data types of the democracy noble

`conviction.rs`, `vote.rs` and the `Tally` and `Delegations` of `types.rs`. Balances are natural
numbers below `maxBalance`, the `Balance::max_value()` of the runtime; `checked_*` return `none`
past it and `saturating_*` stop at it.
-/

namespace Tetcore.Democracy

/-- `Conviction`. -/
inductive Conviction
  | none
  | locked1x
  | locked2x
  | locked3x
  | locked4x
  | locked5x
  | locked6x
  deriving DecidableEq, Repr, Inhabited

/-- `impl From<Conviction> for u8`. -/
def Conviction.toU8 : Conviction → ℕ
  | .none => 0
  | .locked1x => 1
  | .locked2x => 2
  | .locked3x => 3
  | .locked4x => 4
  | .locked5x => 5
  | .locked6x => 6

/-- `Conviction::lock_periods`. -/
def Conviction.lockPeriods : Conviction → ℕ
  | .none => 0
  | .locked1x => 1
  | .locked2x => 2
  | .locked3x => 4
  | .locked4x => 8
  | .locked5x => 16
  | .locked6x => 32

/-- `Delegations`: post-conviction votes and raw capital. -/
structure Delegations where
  votes : ℕ := 0
  capital : ℕ := 0
  deriving DecidableEq, Repr, Inhabited

section Arithmetic

variable (maxBalance : ℕ)

/-- `checked_add` on `Balance`. -/
def checkedAdd (a b : ℕ) : Option ℕ :=
  if a + b ≤ maxBalance then some (a + b) else none

/-- `checked_sub` on `Balance`. -/
def checkedSub (a b : ℕ) : Option ℕ :=
  if b ≤ a then some (a - b) else none

/-- `saturating_add` on `Balance`. -/
def saturatingAdd (a b : ℕ) : ℕ :=
  min (a + b) maxBalance

/-- `Conviction::votes`: a tenth of the capital without conviction, otherwise the capital times the
conviction's `u8`, saturating at `max_value` when the product overflows. -/
def Conviction.votes (c : Conviction) (capital : ℕ) : Delegations :=
  { votes := match c with
      | .none => capital / 10
      | x => if capital * x.toU8 ≤ maxBalance then capital * x.toU8 else maxBalance
    capital := capital }

/-- `Saturating::saturating_add` for `Delegations`. -/
def Delegations.saturatingAdd (d o : Delegations) : Delegations :=
  { votes := Democracy.saturatingAdd maxBalance d.votes o.votes
    capital := Democracy.saturatingAdd maxBalance d.capital o.capital }

/-- `Saturating::saturating_sub` for `Delegations`. -/
def Delegations.saturatingSub (d o : Delegations) : Delegations :=
  { votes := d.votes - o.votes, capital := d.capital - o.capital }

end Arithmetic

/-- `Vote`: a direction and a conviction. -/
structure Vote where
  aye : Bool
  conviction : Conviction
  deriving DecidableEq, Repr

/-- `AccountVote`. -/
inductive AccountVote
  | standard (vote : Vote) (balance : ℕ)
  | split (aye nay : ℕ)
  deriving DecidableEq, Repr

namespace AccountVote

/-- `AccountVote::locked_if`: the lock periods and balance of a vote on the winning side. -/
def lockedIf (v : AccountVote) (approved : Bool) : Option (ℕ × ℕ) :=
  match v with
  | .standard vote balance => if vote.aye = approved then some (vote.conviction.lockPeriods, balance)
      else none
  | .split _ _ => none

/-- `AccountVote::balance`. -/
def balance (maxBalance : ℕ) : AccountVote → ℕ
  | .standard _ balance => balance
  | .split aye nay => saturatingAdd maxBalance aye nay

/-- `AccountVote::as_standard`. -/
def asStandard : AccountVote → Option Bool
  | .standard vote _ => some vote.aye
  | .split _ _ => none

end AccountVote

/-- `PriorLock(block, amount)`: a lock kept for past voting or delegating, until `block`. -/
structure PriorLock where
  block : ℕ := 0
  amount : ℕ := 0
  deriving DecidableEq, Repr, Inhabited

namespace PriorLock

/-- `PriorLock::accumulate`: the later end and the larger amount. -/
def accumulate (p : PriorLock) (unlockAt amount : ℕ) : PriorLock :=
  { block := max p.block unlockAt, amount := max p.amount amount }

/-- `PriorLock::locked`. -/
def locked (p : PriorLock) : ℕ := p.amount

/-- `PriorLock::rejig`: an expired prior lock is cleared. -/
def rejig (p : PriorLock) (now : ℕ) : PriorLock :=
  if now ≥ p.block then {} else p

end PriorLock

/-- `Voting`: the votes of an account, or its delegation. -/
inductive Voting (AccountId : Type*)
  | direct (votes : List (ℕ × AccountVote)) (delegations : Delegations) (prior : PriorLock)
  | delegating (balance : ℕ) (target : AccountId) (conviction : Conviction)
      (delegations : Delegations) (prior : PriorLock)
  deriving DecidableEq, Repr

namespace Voting

variable {AccountId : Type*}

instance : Inhabited (Voting AccountId) := ⟨.direct [] {} {}⟩

/-- `Voting::rejig`. -/
def rejig (v : Voting AccountId) (now : ℕ) : Voting AccountId :=
  match v with
  | .direct votes delegations prior => .direct votes delegations (prior.rejig now)
  | .delegating balance target conviction delegations prior =>
    .delegating balance target conviction delegations (prior.rejig now)

/-- `Voting::locked_balance`: the largest vote balance and the prior lock when voting directly,
the delegated balance when delegating. -/
def lockedBalance (maxBalance : ℕ) (v : Voting AccountId) : ℕ :=
  match v with
  | .direct votes _ prior => votes.foldl (fun a i => max a (i.2.balance maxBalance)) prior.locked
  | .delegating balance _ _ _ _ => balance

/-- `Voting::set_common`. -/
def setCommon (v : Voting AccountId) (delegations : Delegations) (prior : PriorLock) :
    Voting AccountId :=
  match v with
  | .direct votes _ _ => .direct votes delegations prior
  | .delegating balance target conviction _ _ => .delegating balance target conviction delegations prior

end Voting

/-- `Tally`. -/
structure Tally where
  ayes : ℕ := 0
  nays : ℕ := 0
  turnout : ℕ := 0
  deriving DecidableEq, Repr, Inhabited

namespace Tally

variable (maxBalance : ℕ)

/-- `Tally::add`. -/
def add (t : Tally) : AccountVote → Option Tally
  | .standard vote balance => do
    let d := vote.conviction.votes maxBalance balance
    let turnout ← checkedAdd maxBalance t.turnout d.capital
    if vote.aye then
      let ayes ← checkedAdd maxBalance t.ayes d.votes
      pure { t with turnout := turnout, ayes := ayes }
    else
      let nays ← checkedAdd maxBalance t.nays d.votes
      pure { t with turnout := turnout, nays := nays }
  | .split aye nay => do
    let aye := Conviction.none.votes maxBalance aye
    let nay := Conviction.none.votes maxBalance nay
    let turnout ← checkedAdd maxBalance t.turnout aye.capital
    let turnout ← checkedAdd maxBalance turnout nay.capital
    let ayes ← checkedAdd maxBalance t.ayes aye.votes
    let nays ← checkedAdd maxBalance t.nays nay.votes
    pure { turnout := turnout, ayes := ayes, nays := nays }

/-- `Tally::remove`. -/
def remove (t : Tally) : AccountVote → Option Tally
  | .standard vote balance => do
    let d := vote.conviction.votes maxBalance balance
    let turnout ← checkedSub t.turnout d.capital
    if vote.aye then
      let ayes ← checkedSub t.ayes d.votes
      pure { t with turnout := turnout, ayes := ayes }
    else
      let nays ← checkedSub t.nays d.votes
      pure { t with turnout := turnout, nays := nays }
  | .split aye nay => do
    let aye := Conviction.none.votes maxBalance aye
    let nay := Conviction.none.votes maxBalance nay
    let turnout ← checkedSub t.turnout aye.capital
    let turnout ← checkedSub turnout nay.capital
    let ayes ← checkedSub t.ayes aye.votes
    let nays ← checkedSub t.nays nay.votes
    pure { turnout := turnout, ayes := ayes, nays := nays }

/-- `Tally::increase`. -/
def increase (t : Tally) (approve : Bool) (d : Delegations) : Tally :=
  let t := { t with turnout := saturatingAdd maxBalance t.turnout d.capital }
  if approve then { t with ayes := saturatingAdd maxBalance t.ayes d.votes }
  else { t with nays := saturatingAdd maxBalance t.nays d.votes }

/-- `Tally::reduce`. -/
def reduce (t : Tally) (approve : Bool) (d : Delegations) : Tally :=
  let t := { t with turnout := t.turnout - d.capital }
  if approve then { t with ayes := t.ayes - d.votes } else { t with nays := t.nays - d.votes }

end Tally

/-- `ReferendumInfo`, with the fields of the ongoing status that the vote calls read. -/
inductive ReferendumInfo
  | ongoing (tally : Tally)
  | finished (approved : Bool) (endBlock : ℕ)
  deriving DecidableEq, Repr

end Tetcore.Democracy
