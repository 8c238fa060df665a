import Mathlib
import Tetcore.Elections.Phragmen

/-!
# Supports and the score of an election

`primitives/npos-elections/src/lib.rs` and `helpers.rs`. Ratio assignments become stakes again
(`into_staked`, rounding each product to the nearest), are normalized to the voter's stake, and are
summed per winner into a support map; `evaluate` scores the supports by their minimum, their sum and
their sum of squares, each saturating in `u128`. The support map is a `BTreeMap`: here a list with
one entry per key, listed in the order of the keys when flattened.
-/

namespace Tetcore.Elections

open Arithmetic

variable {A : Type}

structure StakedAssignment (A : Type) where
  who : A
  distribution : List (A × ℕ)
  deriving DecidableEq

structure Support (A : Type) where
  total : ℕ
  voters : List (A × ℕ)
  deriving DecidableEq

/-- `ElectionScore`, the array `[min_support, sum, sum_squared]`. -/
structure ElectionScore where
  minSupport : ℕ
  sum : ℕ
  sumSquared : ℕ
  deriving DecidableEq

/-- `Assignment::into_staked`: each non-zero ratio times the stake. -/
def Assignment.intoStaked (P : PerThing) (a : Assignment A) (stake : ℕ) : StakedAssignment A :=
  ⟨a.who, a.distribution.filterMap fun (target, p) =>
    if p = 0 then none else some (target, P.mul p stake)⟩

/-- `StakedAssignment::try_normalize`: the stakes normalized to `stake` in `ExtendedBalance`. -/
def StakedAssignment.tryNormalize (a : StakedAssignment A) (stake : ℕ) :
    Outcome String (StakedAssignment A) :=
  (normalize (a.distribution.map (·.2)) stake u128Max).bind fun normalized =>
    .ok { a with distribution := overwrite a.distribution normalized }

/-- `assignment_ratio_to_staked_normalized`; `stakeOf` gives a voter's `VoteWeight`. -/
def assignmentRatioToStakedNormalized (P : PerThing) (ratio : List (Assignment A))
    (stakeOf : A → ℕ) : Outcome Error (List (StakedAssignment A)) :=
  (ratio.map fun a => a.intoStaked P (stakeOf a.who)).mapM fun a =>
    (a.tryNormalize (stakeOf a.who)).mapErr Error.arithmeticError

/-- `EvaluateSupport::evaluate`. -/
def evaluate (supports : List (A × Support A)) : ElectionScore :=
  supports.foldl
    (fun score (_, support) =>
      { minSupport := if support.total < score.minSupport then support.total else score.minSupport
        sum := Saturating.add 128 score.sum support.total
        sumSquared :=
          Saturating.add 128 score.sumSquared (Saturating.mul 128 support.total support.total) })
    ⟨u128Max, 0, 0⟩

section SupportMap

variable [LinearOrder A]

/-- `BTreeMap::insert`. -/
def insertKey {V : Type} (k : A) (v : V) : List (A × V) → List (A × V)
  | [] => [(k, v)]
  | (k', v') :: rest => if k' = k then (k, v) :: rest else (k', v') :: insertKey k v rest

/-- `supports.get_mut(c)` with the edge added, or `none` for a target that is no winner. -/
def addToSupport (who target : A) (weight : ℕ) :
    List (A × Support A) → Option (List (A × Support A))
  | [] => none
  | (k, s) :: rest =>
    if k = target then
      some ((k, ⟨Saturating.add 128 s.total weight, s.voters ++ [(who, weight)]⟩) :: rest)
    else (addToSupport who target weight rest).map ((k, s) :: ·)

/-- `to_support_map`. -/
def toSupportMap (winners : List A) (assignments : List (StakedAssignment A)) :
    Outcome Error (List (A × Support A)) :=
  let supports := winners.foldl (fun supports w => insertKey w ⟨0, []⟩ supports) []
  assignments.foldlM
    (fun supports a =>
      a.distribution.foldlM
        (fun supports (c, weight) =>
          match addToSupport a.who c weight supports with
          | some supports => .ok supports
          | none => .err Error.invalidSupportEdge)
        supports)
    supports

/-- `to_supports`: the map flattened in the order of its keys. -/
def toSupports (winners : List A) (assignments : List (StakedAssignment A)) :
    Outcome Error (List (A × Support A)) :=
  (toSupportMap winners assignments).bind fun supports =>
    .ok (supports.insertionSort fun a b => a.1 ≤ b.1)

/-- The score that the `phragmen_balancing` fuzzer computes for an election result. -/
def ElectionResult.score (P : PerThing) (result : ElectionResult A) (stakeOf : A → ℕ) :
    Outcome Error ElectionScore :=
  (assignmentRatioToStakedNormalized P result.assignments stakeOf).bind fun staked =>
    (toSupports (result.winners.map Prod.fst) staked).bind fun supports => .ok (evaluate supports)

/-- The `stake_of` of the `phragmen_balancing` fuzzer: the stake a voter is listed with (the last
listing, as collecting into a `BTreeMap` keeps it). -/
def stakeOfVoters (voters : List (A × ℕ × List A)) (who : A) : ℕ :=
  ((voters.reverse.find? (·.1 = who)).map (·.2.1)).getD 0

end SupportMap

/-- Two voters over three candidates: 100 with stake 5 votes for 1 and 3, and 101 with stake 15
votes for 3, 2 and 1. -/
def twoVoters : List (ℕ × ℕ × List ℕ) := [(100, 5, [1, 3]), (101, 15, [3, 2, 1])]

/-- One round of balancing with tolerance zero raises the sum of squares of the election of
`twoVoters` from 134 to 136, the supports of 1, 2 and 3 going from 7, 6, 7 to 8, 6, 6:
`balance_voter` fills the three edges of voter 101 to the level 6 and leaves 2 of its 15 over, and
`try_normalize_elected` adds both to the edge of least weight, the one to 1. -/
theorem balancing_raises_sumSquared :
    (seqPhragmen PerThing.perbill 3 [1, 2, 3] twoVoters none).bind
        (ElectionResult.score PerThing.perbill · (stakeOfVoters twoVoters)) =
      .ok ⟨6, 20, 134⟩ ∧
    (seqPhragmen PerThing.perbill 3 [1, 2, 3] twoVoters (some (1, 0))).bind
        (ElectionResult.score PerThing.perbill · (stakeOfVoters twoVoters)) =
      .ok ⟨6, 20, 136⟩ := by
  constructor
  · decide
  · decide

end Tetcore.Elections
