import Mathlib
import Tetcore.Elections.Balancing

/-!
# Sequential Phragmén

`primitives/npos-elections/src/phragmen.rs`. Each round gives every unelected candidate the score
`1 / approval_stake` plus, for each voter backing it, the voter's load times its budget over the
approval stake; the least score wins, and the winner's score becomes the load of its voters. In the
end each elected edge gets the part of its voter's budget that its load is of the voter's load. The
scores and loads are `Rational128`s over the denominator `DEN = u128::MAX`, added and subtracted
lazily (the denominators are taken to agree).
-/

namespace Tetcore.Elections

open Arithmetic

variable {A : Type} [DecidableEq A]

/-- `DEN`. -/
def den : ℕ := u128Max

/-- `multiply_by_rational(..).unwrap_or(Bounded::max_value())`. -/
def multiplyByRationalOrMax (a b c : ℕ) : ℕ :=
  match multiplyByRational a b c with
  | .ok x => x
  | .error _ => u128Max

/-- Loop 1 of a round: an unelected candidate's score starts at `1 / approval_stake`, or at the
largest value when nobody approves it. -/
def initScore (c : Candidate A) : Candidate A :=
  if c.elected then c
  else { c with score := if c.approvalStake = 0 then Rational128.maxValue
    else Rational128.from (den / c.approvalStake) den }

/-- Loop 2 of a round, at one edge of `voter`. -/
def incrementScore (voter : Voter A) (cs : List (Candidate A)) (edge : Edge A) :
    List (Candidate A) :=
  cs.modify edge.candidate fun c =>
    if !c.elected && c.approvalStake ≠ 0 then
      let tempN := multiplyByRationalOrMax voter.load.n voter.budget c.approvalStake
      { c with score := c.score.lazySaturatingAdd (Rational128.from tempN voter.load.d) }
    else c

/-- Loop 3 of a round: `min_by_key` over the unelected candidates by score, which keeps the first
of equal scores. -/
def bestCandidate (cs : List (Candidate A)) : Option (ℕ × Candidate A) :=
  cs.zipIdx.foldl
    (fun best (c, i) =>
      if c.elected then best
      else
        match best with
        | none => some (i, c)
        | some (j, b) => if b.score.cmp c.score = .gt then some (i, c) else some (j, b))
    none

/-- The edges of a voter to the winner take the winner's score less the voter's load, and the
voter's load becomes the winner's score. -/
def applyWinnerEdges (who : A) (score : Rational128) :
    Rational128 → List (Edge A) → List (Edge A) × Rational128
  | load, [] => ([], load)
  | load, e :: es =>
    if e.who = who then
      let (es, load') := applyWinnerEdges who score score es
      ({ e with load := score.lazySaturatingSub load } :: es, load')
    else
      let (es, load') := applyWinnerEdges who score load es
      (e :: es, load')

def Voter.applyWinner (who : A) (score : Rational128) (v : Voter A) : Voter A :=
  let (edges, load) := applyWinnerEdges who score v.load v.edges
  { v with edges, load }

/-- One round of `seq_phragmen_core`; `none` when no candidate is left (`break`). -/
def phragmenRound (round : ℕ) (cs : List (Candidate A)) (voters : List (Voter A)) :
    Option (List (Candidate A) × List (Voter A)) :=
  let cs := cs.map initScore
  let cs := voters.foldl (fun cs voter => voter.edges.foldl (incrementScore voter) cs) cs
  (bestCandidate cs).map fun (w, winner) =>
    (cs.modify w fun c => { c with elected := true, round },
      voters.map (Voter.applyWinner winner.who winner.score))

/-- The main loop of `seq_phragmen_core` over the given rounds. -/
def phragmenRounds : List ℕ → List (Candidate A) → List (Voter A) →
    List (Candidate A) × List (Voter A)
  | [], cs, voters => (cs, voters)
  | round :: rounds, cs, voters =>
    match phragmenRound round cs voters with
    | none => (cs, voters)
    | some (cs, voters) => phragmenRounds rounds cs voters

/-- The weight of one edge at the end of `seq_phragmen_core`, added to its candidate's backing. -/
def assignWeight (voter : Voter A) :
    List (Candidate A) × List (Edge A) → Edge A → List (Candidate A) × List (Edge A)
  | (cs, edges), edge =>
    let weight := if isElected cs edge.candidate then
        multiplyByRationalOrMax voter.budget edge.load.n voter.load.n
      else 0
    (updateBacked cs edge.candidate fun b => Saturating.add 128 b weight,
      edges ++ [{ edge with weight }])

/-- The last loop of `seq_phragmen_core` at one voter: weights, zero edges removed, and the elected
weights normalized to the budget. -/
def Voter.finalize (cs : List (Candidate A)) (voter : Voter A) :
    Outcome Error (List (Candidate A) × Voter A) :=
  let (cs, edges) := voter.edges.foldl (assignWeight voter) (cs, [])
  let voter := { voter with edges := edges.filter fun e => e.weight > 0 }
  (voter.tryNormalizeElected cs).mapErr Error.arithmeticError

/-- `seq_phragmen_core`. -/
def seqPhragmenCore (rounds : ℕ) (cs : List (Candidate A)) (voters : List (Voter A)) :
    Outcome Error (List (Candidate A) × List (Voter A)) :=
  let toElect := min rounds cs.length
  let (cs, voters) := phragmenRounds (List.range toElect) cs voters
  voters.foldlM
    (fun (cs, done) voter =>
      (voter.finalize cs).bind fun (cs, voter) => .ok (cs, done ++ [voter]))
    (cs, [])

/-- The balancing of `seq_phragmen` when it is configured; its count of iterations is dropped. -/
def balanceWith (balancing : Option (ℕ × ℕ)) (cs : List (Candidate A)) (voters : List (Voter A)) :
    Outcome Error (List (Candidate A) × List (Voter A)) :=
  match balancing with
  | none => .ok (cs, voters)
  | some (iterations, tolerance) =>
    (balance cs voters iterations tolerance).bind fun (cs, voters, _) => .ok (cs, voters)

/-- The end of `seq_phragmen`: the winners in the order of their rounds with their backing, and the
voters' assignments normalized to `P::one()`. -/
def electionResult (P : PerThing) (rounds : ℕ) (cs : List (Candidate A)) (voters : List (Voter A)) :
    Outcome Error (ElectionResult A) :=
  let winners := sortByKey Candidate.round ((cs.filter (·.elected)).take rounds)
  let assignments := voters.filterMap (Voter.intoAssignment P)
  (assignments.mapM fun a => (Assignment.tryNormalize P a).mapErr Error.arithmeticError).bind
    fun assignments => .ok ⟨winners.map fun w => (w.who, w.backedStake), assignments⟩

/-- `seq_phragmen`. `balancing` is the `Option<(iterations, tolerance)>` of the source. -/
def seqPhragmen (P : PerThing) (rounds : ℕ) (initialCandidates : List A)
    (initialVoters : List (A × ℕ × List A)) (balancing : Option (ℕ × ℕ)) :
    Outcome Error (ElectionResult A) :=
  let (cs, voters) := setupInputs initialCandidates initialVoters
  (seqPhragmenCore rounds cs voters).bind fun (cs, voters) =>
    (balanceWith balancing cs voters).bind fun (cs, voters) => electionResult P rounds cs voters

-- `setup_inputs` drops repeated targets within a voter but not a repeated voter: two entries for
-- voter 100 become two voters, and the result holds two assignments of 100
example :
    seqPhragmen PerThing.perbill 1 [1] [(100, 10, [1]), (100, 10, [1])] none =
      .ok ⟨[(1, 20)], [⟨100, [(1, 10 ^ 9)]⟩, ⟨100, [(1, 10 ^ 9)]⟩]⟩ := by
  decide

end Tetcore.Elections
