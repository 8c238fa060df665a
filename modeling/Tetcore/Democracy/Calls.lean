import Tetcore.Democracy.Vote
import Tetcore.Lib.Run

/-!
# Voting, delegating and the democracy lock

The storage the vote calls of `fabric/democracy` read and write: `ReferendumInfoOf`, `VotingOf`,
the `DEMOCRACY_ID` lock each account carries in the balances noble, the free balances the calls
check against, and the block number. A `VotingOf::try_mutate` writes nothing when its closure
fails, and nested mutations of other accounts made inside the closure before it fails do not
happen in the code either (every error is raised before them), so a failing call leaves the state
as it was.

The lock is the amount of the lock with identifier `DEMOCRACY_ID`, zero when the account has none:
`set_lock` and `extend_lock` are no-ops for a zero amount, `extend_lock` keeps the larger amount and
`remove_lock` drops the lock.
-/

namespace Tetcore.Democracy

/-- The runtime constants the calls read. -/
structure Config where
  enactmentPeriod : ℕ
  maxVotes : ℕ
  maxBalance : ℕ

/-- The democracy storage and the account state the vote calls touch. -/
structure State (AccountId : Type*) where
  now : ℕ
  referendumInfoOf : ℕ → Option ReferendumInfo
  votingOf : AccountId → Voting AccountId
  lock : AccountId → ℕ
  freeBalance : AccountId → ℕ

/-- The `Error` variants the vote calls raise. -/
inductive Error
  | referendumInvalid
  | insufficientFunds
  | underflow
  | overflow
  | maxVotesReached
  | alreadyDelegating
  | notVoter
  | noPermission
  | nonsense
  | votesExist
  | notDelegating
  deriving DecidableEq, Repr

/-- `UnvoteScope`. -/
inductive UnvoteScope
  | any
  | onlyExpired
  deriving DecidableEq, Repr

variable (cfg : Config) {AccountId : Type*} [DecidableEq AccountId]

namespace State

/-- `LockableCurrency::extend_lock` for `DEMOCRACY_ID`. -/
def extendLock (s : State AccountId) (who : AccountId) (amount : ℕ) : State AccountId :=
  if amount = 0 then s else { s with lock := Function.update s.lock who (max (s.lock who) amount) }

/-- `LockableCurrency::set_lock` for `DEMOCRACY_ID`. -/
def setLock (s : State AccountId) (who : AccountId) (amount : ℕ) : State AccountId :=
  if amount = 0 then s else { s with lock := Function.update s.lock who amount }

/-- `LockableCurrency::remove_lock` for `DEMOCRACY_ID`. -/
def removeLock (s : State AccountId) (who : AccountId) : State AccountId :=
  { s with lock := Function.update s.lock who 0 }

/-- Write `VotingOf[who]`. -/
def setVoting (s : State AccountId) (who : AccountId) (v : Voting AccountId) : State AccountId :=
  { s with votingOf := Function.update s.votingOf who v }

/-- Write `ReferendumInfoOf[r]`. -/
def setInfo (s : State AccountId) (r : ℕ) (info : ReferendumInfo) : State AccountId :=
  { s with referendumInfoOf := Function.update s.referendumInfoOf r (some info) }

/-- Apply `f` to the tally of each ongoing referendum a standard vote of `votes` is on. -/
def mapTallies (s : State AccountId) (f : Bool → Tally → Tally) :
    List (ℕ × AccountVote) → State AccountId
  | [] => s
  | (r, .standard vote _) :: rest =>
    let s' := match s.referendumInfoOf r with
      | some (.ongoing tally) => s.setInfo r (.ongoing (f vote.aye tally))
      | _ => s
    mapTallies s' f rest
  | (_, .split _ _) :: rest => mapTallies s f rest

end State

/-- The position `binary_search_by_key` finds for a referendum in the sorted vote list. -/
def votePosition (votes : List (ℕ × AccountVote)) (r : ℕ) : Option ℕ :=
  votes.findIdx? (·.1 == r)

/-- `votes.insert(i, ..)` at the insertion point `binary_search_by_key` returns. -/
def insertVote (r : ℕ) (v : AccountVote) : List (ℕ × AccountVote) → List (ℕ × AccountVote)
  | [] => [(r, v)]
  | (r', v') :: rest => if r < r' then (r, v) :: (r', v') :: rest else (r', v') :: insertVote r v rest

open State

/-- `try_vote`. -/
def tryVote (s : State AccountId) (who : AccountId) (refIndex : ℕ) (vote : AccountVote) :
    Except Error Unit × State AccountId :=
  match s.referendumInfoOf refIndex with
  | some (.ongoing tally) =>
    if vote.balance cfg.maxBalance ≤ s.freeBalance who then
      match s.votingOf who with
      | .direct votes delegations prior =>
        let replaced : Except Error (List (ℕ × AccountVote) × Tally) :=
          match votePosition votes refIndex with
          | some i =>
            match votes[i]? with
            | some (_, old) =>
              match tally.remove cfg.maxBalance old with
              | none => .error .underflow
              | some t =>
                let t := match old.asStandard with
                  | some approve => t.reduce approve delegations
                  | none => t
                .ok (votes.set i (refIndex, vote), t)
            | none => .ok (votes, tally)
          | none =>
            if votes.length ≤ cfg.maxVotes then .ok (insertVote refIndex vote votes, tally)
            else .error .maxVotesReached
        match replaced with
        | .error e => (.error e, s)
        | .ok (votes, t) =>
          match t.add cfg.maxBalance vote with
          | none => (.error .overflow, s)
          | some t =>
            let t := match vote.asStandard with
              | some approve => t.increase cfg.maxBalance approve delegations
              | none => t
            let s := s.setVoting who (.direct votes delegations prior)
            let s := s.extendLock who (vote.balance cfg.maxBalance)
            (.ok (), s.setInfo refIndex (.ongoing t))
      | .delegating .. => (.error .alreadyDelegating, s)
    else (.error .insufficientFunds, s)
  | _ => (.error .referendumInvalid, s)

/-- `try_remove_vote`. A vote on a finished referendum that won keeps its balance as a prior lock
until its lock periods end. -/
def tryRemoveVote (s : State AccountId) (who : AccountId) (refIndex : ℕ) (scope : UnvoteScope) :
    Except Error Unit × State AccountId :=
  match s.votingOf who with
  | .direct votes delegations prior =>
    match votePosition votes refIndex, (votePosition votes refIndex).bind (votes[·]?) with
    | some i, some (_, v) =>
      let remaining := votes.eraseIdx i
      match s.referendumInfoOf refIndex with
      | some (.ongoing tally) =>
        if scope ≠ .any then (.error .noPermission, s)
        else match tally.remove cfg.maxBalance v with
          | none => (.error .underflow, s)
          | some t =>
            let t := match v.asStandard with
              | some approve => t.reduce approve delegations
              | none => t
            let s := s.setInfo refIndex (.ongoing t)
            (.ok (), s.setVoting who (.direct remaining delegations prior))
      | some (.finished approved endBlock) =>
        match v.lockedIf approved with
        | some (lockPeriods, balance) =>
          let unlockAt := endBlock + cfg.enactmentPeriod * lockPeriods
          if s.now < unlockAt then
            if scope ≠ .any then (.error .noPermission, s)
            else (.ok (), s.setVoting who (.direct remaining delegations (prior.accumulate unlockAt balance)))
          else (.ok (), s.setVoting who (.direct remaining delegations prior))
        | none => (.ok (), s.setVoting who (.direct remaining delegations prior))
      | none => (.ok (), s.setVoting who (.direct remaining delegations prior))
    | _, _ => (.error .notVoter, s)
  | .delegating .. => (.ok (), s)

/-- `increase_upstream_delegation`. -/
def increaseUpstreamDelegation (s : State AccountId) (who : AccountId) (amount : Delegations) :
    State AccountId :=
  match s.votingOf who with
  | .delegating balance target conviction delegations prior =>
    s.setVoting who (.delegating balance target conviction (delegations.saturatingAdd cfg.maxBalance amount) prior)
  | .direct votes delegations prior =>
    let s := s.setVoting who (.direct votes (delegations.saturatingAdd cfg.maxBalance amount) prior)
    s.mapTallies (fun aye t => t.increase cfg.maxBalance aye amount) votes

/-- `reduce_upstream_delegation`. -/
def reduceUpstreamDelegation (s : State AccountId) (who : AccountId) (amount : Delegations) :
    State AccountId :=
  match s.votingOf who with
  | .delegating balance target conviction delegations prior =>
    s.setVoting who (.delegating balance target conviction (delegations.saturatingSub amount) prior)
  | .direct votes delegations prior =>
    let s := s.setVoting who (.direct votes (delegations.saturatingSub amount) prior)
    s.mapTallies (fun aye t => t.reduce aye amount) votes

/-- `try_delegate`. Replacing a delegation takes its delegations and prior lock over unchanged. -/
def tryDelegate (s : State AccountId) (who target : AccountId) (conviction : Conviction)
    (balance : ℕ) : Except Error Unit × State AccountId :=
  if who = target then (.error .nonsense, s)
  else if ¬balance ≤ s.freeBalance who then (.error .insufficientFunds, s)
  else
    let delegateTo (s : State AccountId) (delegations : Delegations) (prior : PriorLock) :=
      let s := increaseUpstreamDelegation cfg s target (conviction.votes cfg.maxBalance balance)
      let s := s.extendLock who balance
      s.setVoting who (.delegating balance target conviction delegations prior)
    match s.votingOf who with
    | .delegating oldBalance oldTarget oldConviction delegations prior =>
      let s := reduceUpstreamDelegation s oldTarget (oldConviction.votes cfg.maxBalance oldBalance)
      (.ok (), delegateTo s delegations prior)
    | .direct votes delegations prior =>
      if votes ≠ [] then (.error .votesExist, s)
      else (.ok (), delegateTo s delegations prior)

/-- `try_undelegate`: the ended delegation stays locked for its conviction's lock periods. -/
def tryUndelegate (s : State AccountId) (who : AccountId) : Except Error Unit × State AccountId :=
  match s.votingOf who with
  | .delegating balance target conviction delegations prior =>
    let s := reduceUpstreamDelegation s target (conviction.votes cfg.maxBalance balance)
    let prior := prior.accumulate (s.now + cfg.enactmentPeriod * conviction.lockPeriods) balance
    (.ok (), s.setVoting who (.direct [] delegations prior))
  | .direct .. => (.error .notDelegating, s)

/-- `update_lock`: the lock becomes what the rejigged record needs. -/
def updateLock (s : State AccountId) (who : AccountId) : State AccountId :=
  let voting := (s.votingOf who).rejig s.now
  let lockNeeded := voting.lockedBalance cfg.maxBalance
  let s := s.setVoting who voting
  if lockNeeded = 0 then s.removeLock who else s.setLock who lockNeeded

/-- The calls that set or lift the democracy lock on a voter's balance, and the two events around
them: a referendum finishing in `begin_block` and the block number advancing. -/
inductive Call (AccountId : Type*)
  | vote (who : AccountId) (refIndex : ℕ) (vote : AccountVote)
  | removeVote (who : AccountId) (refIndex : ℕ)
  | removeOtherVote (who target : AccountId) (refIndex : ℕ)
  | delegate (who target : AccountId) (conviction : Conviction) (balance : ℕ)
  | undelegate (who : AccountId)
  | unlock (target : AccountId)
  | finish (refIndex : ℕ) (approved : Bool)
  | advance (blocks : ℕ)

/-- One call or event. `begin_block` records a maturing referendum as finished at the current
block. -/
def step (s : State AccountId) : Call AccountId → State AccountId
  | .vote who refIndex vote => (tryVote cfg s who refIndex vote).2
  | .removeVote who refIndex => (tryRemoveVote cfg s who refIndex .any).2
  | .removeOtherVote who target refIndex =>
    (tryRemoveVote cfg s target refIndex (if target = who then .any else .onlyExpired)).2
  | .delegate who target conviction balance => (tryDelegate cfg s who target conviction balance).2
  | .undelegate who => (tryUndelegate cfg s who).2
  | .unlock target => updateLock cfg s target
  | .finish refIndex approved =>
    match s.referendumInfoOf refIndex with
    | some (.ongoing _) => s.setInfo refIndex (.finished approved s.now)
    | _ => s
  | .advance blocks => { s with now := s.now + blocks }

end Tetcore.Democracy
