import Mathlib
import Tetcore.Arithmetic.PerThing
import Tetcore.Arithmetic.Rational
import Tetcore.Lib.Saturating

/-!
# Voters, candidates and edges of an NPoS election

`primitives/npos-elections/src/lib.rs`. A candidate is shared between the voters' edges through
`Rc<RefCell<Candidate>>`; here the candidates are one list and an edge holds the index of its
candidate in it, so that a write through any edge is a write to that list. `ExtendedBalance` is a
`u128`, and its saturating operations cut at `2 ^ 128 - 1`.

`setup_inputs` builds the edges, `try_normalize_elected` makes a voter's elected weights sum to
its budget (moving each candidate's backed stake with them), and `into_assignment` turns the
weights into ratios of `P`.
-/

namespace Tetcore.Elections

open Arithmetic

/-- The errors of `npos-elections` that the modelled functions return. -/
inductive Error
  | arithmeticError (msg : String)
  | invalidSupportEdge
  deriving DecidableEq

/-- `Rational128::default()`, the score and load a candidate and an edge start with. -/
def Rational128.default : Rational128 := ⟨0, 0⟩

structure Candidate (A : Type) where
  who : A
  score : Rational128
  approvalStake : ℕ
  backedStake : ℕ
  elected : Bool
  round : ℕ
  deriving DecidableEq

structure Edge (A : Type) where
  who : A
  load : Rational128
  /-- The position of `Rc<RefCell<Candidate>>` in the candidate list. -/
  candidate : ℕ
  weight : ℕ
  deriving DecidableEq

structure Voter (A : Type) where
  who : A
  edges : List (Edge A)
  budget : ℕ
  load : Rational128
  deriving DecidableEq

/-- A voter's stake as ratios of `P`, given as parts. -/
structure Assignment (A : Type) where
  who : A
  distribution : List (A × ℕ)
  deriving DecidableEq

structure ElectionResult (A : Type) where
  winners : List (A × ℕ)
  assignments : List (Assignment A)
  deriving DecidableEq

variable {A : Type} [DecidableEq A]

def Candidate.new (who : A) : Candidate A := ⟨who, Rational128.default, 0, 0, false, 0⟩

/-- `candidate.borrow().elected` through an edge. -/
def isElected (cs : List (Candidate A)) (i : ℕ) : Bool :=
  match cs[i]? with
  | some c => c.elected
  | none => false

def backedStakeOf (cs : List (Candidate A)) (i : ℕ) : ℕ :=
  match cs[i]? with
  | some c => c.backedStake
  | none => 0

/-- `candidate.backed_stake = f(candidate.backed_stake)` through an edge. -/
def updateBacked (cs : List (Candidate A)) (i : ℕ) (f : ℕ → ℕ) : List (Candidate A) :=
  cs.modify i fun c => { c with backedStake := f c.backedStake }

/-- `c_idx_cache` of `setup_inputs`: the map from a candidate id to its position, the later one
for an id listed twice. -/
def candidateIndex (initialCandidates : List A) : A → Option ℕ :=
  initialCandidates.zipIdx.foldl (fun cache (who, idx) v => if v = who then some idx else cache v)
    fun _ => none

/-- One vote of `setup_inputs`: a duplicate or a vote for a non-candidate is skipped, and a new edge
adds the voter's stake to its candidate's approval. -/
def addEdge (cache : A → Option ℕ) (stake : ℕ) :
    List (Candidate A) × List (Edge A) → A → List (Candidate A) × List (Edge A)
  | (cs, edges), v =>
    if edges.any (·.who = v) then (cs, edges)
    else
      match cache v with
      | some idx =>
        (cs.modify idx fun c => { c with approvalStake := Saturating.add 128 c.approvalStake stake },
          edges ++ [⟨v, Rational128.default, idx, 0⟩])
      | none => (cs, edges)

/-- `setup_inputs`. A voter without an edge is dropped. -/
def setupInputs (initialCandidates : List A) (initialVoters : List (A × ℕ × List A)) :
    List (Candidate A) × List (Voter A) :=
  let cache := candidateIndex initialCandidates
  initialVoters.foldl
    (fun (cs, voters) (who, stake, votes) =>
      let (cs, edges) := votes.foldl (addEdge cache stake) (cs, [])
      (cs, if edges.isEmpty then voters else voters ++ [⟨who, edges, stake, Rational128.zero⟩]))
    (initialCandidates.map Candidate.new, [])

/-- The write-back loop of `try_normalize` and `try_normalize_elected`: the selected edges, zipped
with the normalized weights, take them, and each moves its candidate's backed stake along. -/
def writeWeights (select : List (Candidate A) → Edge A → Bool) :
    List (Candidate A) → List (Edge A) → List ℕ → List (Candidate A) × List (Edge A)
  | cs, [], _ => (cs, [])
  | cs, e :: es, ns =>
    match select cs e, ns with
    | true, n :: ns =>
      let cs := updateBacked cs e.candidate fun b => Saturating.add 128 (b - e.weight) n
      let (cs, es) := writeWeights select cs es ns
      (cs, { e with weight := n } :: es)
    | _, ns =>
      let (cs, es) := writeWeights select cs es ns
      (cs, e :: es)

/-- `try_normalize` and `try_normalize_elected`: the weights of the selected edges normalized to the
budget, in `ExtendedBalance`. -/
def Voter.normalizeSelected (select : List (Candidate A) → Edge A → Bool) (cs : List (Candidate A))
    (v : Voter A) : Outcome String (List (Candidate A) × Voter A) :=
  (normalize ((v.edges.filter (select cs)).map (·.weight)) v.budget u128Max).bind fun normalized =>
    let (cs, edges) := writeWeights select cs v.edges normalized
    .ok (cs, { v with edges })

def Voter.tryNormalize : List (Candidate A) → Voter A → Outcome String (List (Candidate A) × Voter A) :=
  Voter.normalizeSelected fun _ _ => true

def Voter.tryNormalizeElected :
    List (Candidate A) → Voter A → Outcome String (List (Candidate A) × Voter A) :=
  Voter.normalizeSelected fun cs e => isElected cs e.candidate

/-- `Voter::into_assignment`: each weight as a ratio of the budget, zero ratios trimmed; `none` when
nothing is left. -/
def Voter.intoAssignment (P : PerThing) (v : Voter A) : Option (Assignment A) :=
  let distribution := v.edges.filterMap fun e =>
    let perThing := P.fromRationalApproximation e.weight v.budget
    if perThing = 0 then none else some (e.who, perThing)
  if distribution.length > 0 then some ⟨v.who, distribution⟩ else none

/-- `zip` then `*old = corrected`: the first values are replaced, the rest kept. -/
def overwrite {B : Type} : List (B × ℕ) → List ℕ → List (B × ℕ)
  | (t, _) :: rest, n :: ns => (t, n) :: overwrite rest ns
  | l, _ => l

/-- `Assignment::try_normalize`: the ratios normalized to `P::one()`. -/
def Assignment.tryNormalize (P : PerThing) (a : Assignment A) : Outcome String (Assignment A) :=
  (P.normalize (a.distribution.map (·.2)) P.accuracy).bind fun normalized =>
    .ok { a with distribution := overwrite a.distribution normalized }

end Tetcore.Elections
