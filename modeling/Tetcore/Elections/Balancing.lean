import Mathlib
import Tetcore.Elections.Model

/-!
# Balancing the edge weights

`primitives/npos-elections/src/balancing.rs`. `balance_voter` takes a voter's stake off its elected
edges and water-fills it back: the edges, sorted by the backed stake of their candidates, are
raised to a common level `excess / ways_to_split + last_stake` over the first `ways_to_split` of
them. The elected edges are borrowed from the voter's edge list; here they are paired with their
positions in it and written back at the end.
-/

namespace Tetcore.Elections

open Arithmetic

variable {A : Type} [DecidableEq A]

/-- The `for` loop of `balance_voter` that finds `last_index`: it stops at the first index whose
stake times the index passes the cumulative stake by more than the budget. The result is the
cumulative stake and `last_index`. -/
def splitPoint (budget : ℕ) : List ℕ → ℕ → ℕ → ℕ → ℕ × ℕ
  | [], _, cumulative, lastIndex => (cumulative, lastIndex)
  | stake :: stakes, index, cumulative, lastIndex =>
    if Saturating.mul 128 stake index - cumulative > budget then (cumulative, index - 1)
    else splitPoint budget stakes (index + 1) (Saturating.add 128 cumulative stake) lastIndex

/-- The final update of `balance_voter`: each of the first `ways_to_split` sorted edges is raised to
the common level, and its candidate's backed stake with it. -/
def raiseEdges (level : ℕ) :
    List (Candidate A) → List (Edge A × ℕ) → List (Candidate A) × List (Edge A × ℕ)
  | cs, [] => (cs, [])
  | cs, (e, pos) :: rest =>
    let newEdgeWeight := level - backedStakeOf cs e.candidate
    let cs := updateBacked cs e.candidate fun b => Saturating.add 128 b newEdgeWeight
    let (cs, rest) := raiseEdges level cs rest
    (cs, ({ e with weight := newEdgeWeight }, pos) :: rest)

/-- The weights of the borrowed edges, written back to their positions in the voter's list. -/
def writeBack (edges : List (Edge A)) (updated : List (Edge A × ℕ)) : List (Edge A) :=
  updated.foldl (fun edges (e, pos) => edges.modify pos fun _ => e) edges

/-- `try_normalize_elected` whose error is dropped (`let _ = ...`): the voter and the candidates stay
as they are. Balancing returns no error; only a panic passes through. -/
def Voter.normalizeElectedOrKeep (cs : List (Candidate A)) (v : Voter A) :
    Outcome Error (List (Candidate A) × Voter A) :=
  match v.tryNormalizeElected cs with
  | .ok r => .ok r
  | .err _ => .ok (cs, v)
  | .panic => .panic

/-- `balance_voter`: the new candidates and voter, and the difference it returns. -/
def balanceVoter (tolerance : ℕ) (cs : List (Candidate A)) (voter : Voter A) :
    Outcome Error (List (Candidate A) × Voter A × ℕ) :=
  let electedEdges := voter.edges.zipIdx.filter fun (e, _) => isElected cs e.candidate
  if electedEdges.length ≤ 1 then .ok (cs, voter, 0)
  else
    let stakeUsed := electedEdges.foldl (fun a (e, _) => Saturating.add 128 a e.weight) 0
    let backedStakes := electedEdges.map fun (e, _) => backedStakeOf cs e.candidate
    let backingBackedStake := electedEdges.filterMap fun (e, _) =>
      if e.weight > 0 then some (backedStakeOf cs e.candidate) else none
    let difference :=
      match backingBackedStake.max?, backedStakes.min? with
      | some maxStake, some minStake =>
        Saturating.add 128 (maxStake - minStake) (voter.budget - stakeUsed)
      | _, _ => voter.budget
    -- below the tolerance it returns before it changes anything
    if !backingBackedStake.isEmpty && difference < tolerance then .ok (cs, voter, difference)
    else
      -- remove all backings
      let cs := electedEdges.foldl (fun cs (e, _) => updateBacked cs e.candidate (· - e.weight)) cs
      let electedEdges := electedEdges.map fun (e, pos) => ({ e with weight := 0 }, pos)
      let electedEdges := sortByKey (fun (e, _) => backedStakeOf cs e.candidate) electedEdges
      let stakes := electedEdges.map fun (e, _) => backedStakeOf cs e.candidate
      let (cumulativeBackedStake, lastIndex) :=
        splitPoint voter.budget stakes 0 0 (electedEdges.length - 1)
      let lastStake := stakes.getD lastIndex 0
      let waysToSplit := lastIndex + 1
      let excess := Saturating.add 128 voter.budget cumulativeBackedStake -
        Saturating.mul 128 lastStake waysToSplit
      let (cs, raised) :=
        raiseEdges (Saturating.add 128 (excess / waysToSplit) lastStake) cs
          (electedEdges.take waysToSplit)
      let voter := { voter with
        edges := writeBack voter.edges (electedEdges.drop waysToSplit ++ raised) }
      (voter.normalizeElectedOrKeep cs).bind fun (cs, voter) => .ok (cs, voter, difference)

/-- One pass of `balance` over all voters, with the largest difference. -/
def balancePass (tolerance : ℕ) :
    List (Candidate A) → List (Voter A) → Outcome Error (List (Candidate A) × List (Voter A) × ℕ)
  | cs, [] => .ok (cs, [], 0)
  | cs, voter :: voters =>
    (balanceVoter tolerance cs voter).bind fun (cs, voter, diff) =>
      (balancePass tolerance cs voters).bind fun (cs, voters, maxDiff) =>
        .ok (cs, voter :: voters, max diff maxDiff)

/-- The `loop` of `balance` with `rounds` passes left; the result counts the passes made. -/
def balanceRounds (tolerance : ℕ) :
    ℕ → ℕ → List (Candidate A) → List (Voter A) →
      Outcome Error (List (Candidate A) × List (Voter A) × ℕ)
  | 0, iter, cs, voters => .ok (cs, voters, iter)
  | rounds + 1, iter, cs, voters =>
    (balancePass tolerance cs voters).bind fun (cs, voters, maxDiff) =>
      if maxDiff ≤ tolerance ∨ rounds = 0 then .ok (cs, voters, iter + 1)
      else balanceRounds tolerance rounds (iter + 1) cs voters

/-- `balance`. -/
def balance (cs : List (Candidate A)) (voters : List (Voter A)) (iterations tolerance : ℕ) :
    Outcome Error (List (Candidate A) × List (Voter A) × ℕ) :=
  if iterations = 0 then .ok (cs, voters, 0) else balanceRounds tolerance iterations 0 cs voters

end Tetcore.Elections
