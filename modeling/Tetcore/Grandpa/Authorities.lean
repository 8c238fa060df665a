import Mathlib
import Tetcore.ForkTree.Fallible

/-!
# GRANDPA authority sets

`client/finality-grandpa/src/authorities.rs`. An authority set holds the current authorities, the
id of the set, the standard changes pending in a fork tree, the forced changes pending in a
vector ordered by effective number and signal block, and the history of set changes as pairs
of a set id and a block number. Standard changes take effect on finality, forced changes on the
depth of the best block; `apply_forced_changes` returns the new set instead of changing the old.
Client errors of `is_descendent_of` are left out, as in the fork tree, up to the last section:
there `apply_standard_changes` takes the fallible oracle of the source and `&mut self`, and with
an oracle that never fails it is the call of the model.
-/

namespace Tetcore.Grandpa

inductive DelayKind (N : Type)
  | finalized
  | best (medianLastFinalized : N)

structure PendingChange (A H N : Type) where
  nextAuthorities : List (A × ℕ)
  delay : N
  canonHeight : N
  canonHash : H
  delayKind : DelayKind N

inductive Error (N : Type)
  | invalidAuthoritySet
  | duplicateAuthoritySetChange
  | multiplePendingForcedAuthoritySetChanges
  | forcedAuthoritySetChangeDependencyUnsatisfied (number : N)
  | forkTree (error : ForkTree.Error)

structure AuthoritySet (A H N : Type) where
  currentAuthorities : List (A × ℕ)
  setId : ℕ
  pendingStandardChanges : ForkTree H N (PendingChange A H N)
  pendingForcedChanges : List (PendingChange A H N)
  /-- `AuthoritySetChanges`: each set id with the last block of that set. -/
  authoritySetChanges : List (ℕ × N)

structure Status (H N : Type) where
  changed : Bool
  newSetBlock : Option (H × N)

variable {A H N : Type}

def PendingChange.effectiveNumber [Add N] (change : PendingChange A H N) : N :=
  change.canonHeight + change.delay

/-- `From<forktree::Error>`. -/
def Error.ofForkTree : ForkTree.Error → Error N
  | .duplicate => .duplicateAuthoritySetChange
  | e => .forkTree e

namespace AuthoritySet

def invalidAuthorityList (authorities : List (A × ℕ)) : Bool :=
  authorities.isEmpty || authorities.any fun authority => authority.2 == 0

def genesis (initial : List (A × ℕ)) : Option (AuthoritySet A H N) :=
  if invalidAuthorityList initial then none
  else some ⟨initial, 0, ForkTree.new, [], []⟩

variable [DecidableEq H] [LinearOrder N] [Add N] (isDescendentOf : H → H → Bool)

def addStandardChange (s : AuthoritySet A H N) (pending : PendingChange A H N) :
    Except (Error N) (AuthoritySet A H N) :=
  match s.pendingStandardChanges.importNode isDescendentOf pending.canonHash pending.canonHeight
      pending with
  | .ok (tree, _) => .ok { s with pendingStandardChanges := tree }
  | .error e => .error (.ofForkTree e)

/-- The loop of `add_forced_change` over the forced changes pending. -/
def checkForcedChanges (pending : PendingChange A H N) :
    List (PendingChange A H N) → Except (Error N) Unit
  | [] => .ok ()
  | change :: changes =>
    if change.canonHash = pending.canonHash then .error .duplicateAuthoritySetChange
    else if isDescendentOf change.canonHash pending.canonHash then
      .error .multiplePendingForcedAuthoritySetChanges
    else checkForcedChanges pending changes

/-- The order of the forced changes: by effective number, then by the number of the signal
block. -/
def forcedKey (change : PendingChange A H N) : Lex (N × N) :=
  toLex (change.effectiveNumber, change.canonHeight)

/-- `binary_search_by_key(&key, ..).unwrap_or_else(|i| i)` on a vector sorted by the key: the
first index whose key is not below `key`, one of the results the contract of the search allows
(any index of an equal key, or else the index where the key belongs). -/
def insertIndex (key : Lex (N × N)) (changes : List (PendingChange A H N)) : ℕ :=
  (changes.takeWhile fun change => decide (forcedKey change < key)).length

def addForcedChange (s : AuthoritySet A H N) (pending : PendingChange A H N) :
    Except (Error N) (AuthoritySet A H N) :=
  match checkForcedChanges isDescendentOf pending s.pendingForcedChanges with
  | .error e => .error e
  | .ok () =>
    .ok { s with
      pendingForcedChanges := s.pendingForcedChanges.insertIdx
        (insertIndex (forcedKey pending) s.pendingForcedChanges) pending }

def addPendingChange (s : AuthoritySet A H N) (pending : PendingChange A H N) :
    Except (Error N) (AuthoritySet A H N) :=
  if invalidAuthorityList pending.nextAuthorities then .error .invalidAuthoritySet
  else
    match pending.delayKind with
    | .best _ => s.addForcedChange isDescendentOf pending
    | .finalized => s.addStandardChange isDescendentOf pending

/-- The pending standard change a forced change waits for: the first root, in order, that takes
effect by the median last finalized block and was signalled above the forced change. -/
def dependency (s : AuthoritySet A H N) (change : PendingChange A H N) (median : N) : Option N :=
  (s.pendingStandardChanges.roots.find? fun root =>
      decide (root.label.data.effectiveNumber ≤ median) &&
        isDescendentOf root.label.data.canonHash change.canonHash).map
    fun root => root.label.data.effectiveNumber

/-- The loop of `apply_forced_changes`: the first change on the branch of the best block is
applied, into a new set. -/
def applyForcedChangesLoop (s : AuthoritySet A H N) (bestHash : H) :
    List (PendingChange A H N) → Outcome (Error N) (Option (N × AuthoritySet A H N))
  | [] => .ok none
  | change :: changes =>
    if decide (change.canonHash = bestHash) || isDescendentOf change.canonHash bestHash then
      match change.delayKind with
      | .finalized => .panic
      | .best median =>
        match s.dependency isDescendentOf change median with
        | some number => .err (.forcedAuthoritySetChangeDependencyUnsatisfied number)
        | none =>
          .ok (some (median, ⟨change.nextAuthorities, s.setId + 1, ForkTree.new, [],
            s.authoritySetChanges ++ [(s.setId, median)]⟩))
    else applyForcedChangesLoop s bestHash changes

def applyForcedChanges (s : AuthoritySet A H N) (bestHash : H) (bestNumber : N) :
    Outcome (Error N) (Option (N × AuthoritySet A H N)) :=
  s.applyForcedChangesLoop isDescendentOf bestHash
    ((s.pendingForcedChanges.takeWhile fun change =>
        decide (change.effectiveNumber ≤ bestNumber)).filter
      fun change => decide (change.effectiveNumber = bestNumber))

def applyStandardChanges (s : AuthoritySet A H N) (finalizedHash : H) (finalizedNumber : N) :
    Outcome (Error N) (AuthoritySet A H N × Status H N) :=
  -- the forced changes of later blocks on the branch of the finalized block are kept
  let kept := s.pendingForcedChanges.filter fun change =>
    decide (finalizedNumber < change.effectiveNumber) &&
      isDescendentOf finalizedHash change.canonHash
  match s.pendingStandardChanges.finalizeWithDescendentIf isDescendentOf finalizedHash
      finalizedNumber fun change => decide (change.effectiveNumber ≤ finalizedNumber) with
  | .err e => .err (.ofForkTree e)
  | .panic => .panic
  | .ok (tree, .unchanged) => .ok ({ s with pendingStandardChanges := tree }, ⟨false, none⟩)
  | .ok (tree, .changed none) =>
    .ok ({ s with pendingStandardChanges := tree, pendingForcedChanges := kept }, ⟨true, none⟩)
  | .ok (tree, .changed (some change)) =>
    .ok (⟨change.nextAuthorities, s.setId + 1, tree, kept,
      s.authoritySetChanges ++ [(s.setId, finalizedNumber)]⟩,
      ⟨true, some (finalizedHash, finalizedNumber)⟩)

end AuthoritySet

inductive Call (A H N : Type)
  | addPendingChange (pending : PendingChange A H N)
  | applyStandardChanges (finalizedHash : H) (finalizedNumber : N)
  | applyForcedChanges (bestHash : H) (bestNumber : N)

namespace AuthoritySet

variable [DecidableEq H] [LinearOrder N] [Add N] (isDescendentOf : H → H → Bool)

/-- The set after a call: an error leaves it as it was, and the set `apply_forced_changes`
returns replaces it. `none` when the call panics. -/
def exec (s : AuthoritySet A H N) : Call A H N → Option (AuthoritySet A H N)
  | .addPendingChange pending =>
    match s.addPendingChange isDescendentOf pending with
    | .ok s' => some s'
    | .error _ => some s
  | .applyStandardChanges hash number =>
    ((s.applyStandardChanges isDescendentOf hash number).bind fun r => .ok r.1).after s
  | .applyForcedChanges hash number =>
    match s.applyForcedChanges isDescendentOf hash number with
    | .ok (some (_, s')) => some s'
    | .ok none => some s
    | .err _ => some s
    | .panic => none

/-- The calls made from the genesis set of `initial`. -/
def run (initial : List (A × ℕ)) (calls : List (Call A H N)) : Option (AuthoritySet A H N) :=
  (genesis initial).bind fun s => calls.foldlM (exec isDescendentOf) s

end AuthoritySet

/-- A standard change signalled at block `1`, taking effect at once. -/
def standardChange : PendingChange ℕ ℕ ℕ := ⟨[(2, 1)], 0, 1, 1, .finalized⟩

/-- A forced change signalled at block `3`, two blocks deep, when block `0` was the median last
finalized block. -/
def forcedChange : PendingChange ℕ ℕ ℕ := ⟨[(3, 1)], 2, 3, 3, .best 0⟩

/-- On a chain where each block descends from the lower ones, block `1` is finalized, which
applies the standard change and keeps the forced change of block `3`; when block `5` becomes the
best block the forced change applies, and records its median, block `0`, after block `1`. -/
theorem forcedChange_appends_earlier_block :
    ∃ s, AuthoritySet.run (fun a b => decide (a < b)) [(1, 1)]
        [.addPendingChange standardChange, .addPendingChange forcedChange,
          .applyStandardChanges 1 1, .applyForcedChanges 5 5] = some s ∧
      s.authoritySetChanges = [(0, 1), (1, 0)] :=
  ⟨_, rfl, rfl⟩

/-! ### A fallible oracle -/

namespace Fallible

/-- `Error<N, E>`. -/
inductive Error (N E : Type)
  | invalidAuthoritySet
  | client (e : E)
  | duplicateAuthoritySetChange
  | multiplePendingForcedAuthoritySetChanges
  | forcedAuthoritySetChangeDependencyUnsatisfied (number : N)
  | forkTree (error : ForkTree.Fallible.Error E)

variable {E : Type}

/-- `From<fork_tree::Error<E>>`. -/
def Error.ofForkTree : ForkTree.Fallible.Error E → Error N E
  | .client e => .client e
  | .duplicate => .duplicateAuthoritySetChange
  | e => .forkTree e

/-- The errors of the model, which has no client error. -/
def Error.ofInfallible : Grandpa.Error N → Error N E
  | .invalidAuthoritySet => .invalidAuthoritySet
  | .duplicateAuthoritySetChange => .duplicateAuthoritySetChange
  | .multiplePendingForcedAuthoritySetChanges => .multiplePendingForcedAuthoritySetChanges
  | .forcedAuthoritySetChangeDependencyUnsatisfied number =>
    .forcedAuthoritySetChangeDependencyUnsatisfied number
  | .forkTree e => .forkTree (.ofForkTree e)

variable [DecidableEq H] [LinearOrder N] [Add N] (isDescendentOf : H → H → Except E Bool)

/-- `apply_standard_changes` on `&mut self` (its `initial_sync` only chooses how it logs): the
outcome and the set as the call leaves it. -/
def applyStandardChanges (s : AuthoritySet A H N) (finalizedHash : H) (finalizedNumber : N) :
    Outcome (Error N E) (Status H N) × AuthoritySet A H N :=
  match ForkTree.Fallible.finalizeWithDescendentIf isDescendentOf s.pendingStandardChanges
      finalizedHash finalizedNumber fun change => decide (change.effectiveNumber ≤ finalizedNumber) with
  | (.err e, tree) => (.err (.ofForkTree e), { s with pendingStandardChanges := tree })
  | (.panic, tree) => (.panic, { s with pendingStandardChanges := tree })
  | (.ok .unchanged, tree) => (.ok ⟨false, none⟩, { s with pendingStandardChanges := tree })
  | (.ok (.changed change), tree) =>
    -- `mem::replace` of the forced changes; those of later blocks on the branch are pushed back
    match Vec.retainTaken (fun change => ForkTree.Fallible.askIf isDescendentOf
        (decide (finalizedNumber < change.effectiveNumber)) finalizedHash change.canonHash)
        s.pendingForcedChanges with
    | (some e, kept) =>
      (.err (.client e), { s with pendingStandardChanges := tree, pendingForcedChanges := kept })
    | (none, kept) =>
      match change with
      | none => (.ok ⟨true, none⟩, { s with pendingStandardChanges := tree, pendingForcedChanges := kept })
      | some change =>
        (.ok ⟨true, some (finalizedHash, finalizedNumber)⟩,
          ⟨change.nextAuthorities, s.setId + 1, tree, kept,
            s.authoritySetChanges ++ [(s.setId, finalizedNumber)]⟩)

theorem applyStandardChanges_of_infallible (f : H → H → Bool) (s : AuthoritySet A H N)
    (finalizedHash : H) (finalizedNumber : N) :
    applyStandardChanges (fun a b => (.ok (f a b) : Except E Bool)) s finalizedHash finalizedNumber =
      match s.applyStandardChanges f finalizedHash finalizedNumber with
      | .ok (s', status) => (.ok status, s')
      | .err e => (.err (.ofInfallible e), s)
      | .panic => (.panic, s) := by
  unfold applyStandardChanges AuthoritySet.applyStandardChanges
  rw [ForkTree.Fallible.finalizeWithDescendentIf_of_infallible]
  rcases s.pendingStandardChanges.finalizeWithDescendentIf f finalizedHash finalizedNumber _
    with ⟨tree, change | _⟩ | e | _
  · simp only [ForkTree.Fallible.inPlace, ForkTree.Fallible.askIf_ok, Vec.retainTaken_ok]
    cases change <;> rfl
  · rfl
  · cases e <;> rfl
  · rfl

end Fallible

/-- One pending standard change, of block `1`, taking effect at once, and the forced change of
block `3`. -/
def pendingBoth : AuthoritySet ℕ ℕ ℕ :=
  ⟨[(1, 1)], 0, ⟨[.node ⟨1, 1, standardChange⟩ []], none⟩, [forcedChange], []⟩

/-- Every call of the oracle fails. Applying the standard changes at block `1` finalizes the
standard change, takes the forced changes out, and fails on the first of them: the client error is
returned with the standard change gone from the tree but not applied, and the forced change
dropped. -/
theorem clientError_loses_pendingChanges :
    Fallible.applyStandardChanges (fun _ _ => (.error () : Except Unit Bool)) pendingBoth 1 1 =
      (.err (.client ()), ⟨[(1, 1)], 0, ⟨[], some 1⟩, [], []⟩) :=
  rfl

end Tetcore.Grandpa
