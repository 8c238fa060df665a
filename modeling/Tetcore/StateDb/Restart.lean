import Tetcore.StateDb.NonCanonical
import Tetcore.Lib.Run

/-!
# Restarting the non-canonical overlay from its journal

The overlay beside the meta column of the database it journals into: every call writes the
commit set it returns or fills before the next call, as the caller of the state db does before
`apply_pending`. `NonCanonicalOverlay::new` rebuilds the overlay from that column after a
restart. It reads the journal of a block number from index `0` up to the first missing index;
`insert` journals a block under the index `level.len()`, which after `discard_descendants` has
dropped an earlier block of the level is an index a surviving block already holds.
-/

namespace Tetcore.StateDb

variable {H K D : Type} [DecidableEq H] [DecidableEq K]

namespace NonCanonicalOverlay

def empty : NonCanonicalOverlay H K D where
  lastCanonicalized := none
  levels := []
  parents := fun _ => none
  pendingCanonicalizations := []
  pendingInsertions := []
  values := fun _ => none
  pinned := fun _ => 0
  pinnedInsertions := ∅

/-- The calls on the overlay. -/
inductive Call (H K D : Type)
  | insert (hash : H) (number : ℕ) (parentHash : H) (changeset : ChangeSet K D)
  | canonicalize (hash : H)
  | applyPending
  | revertPending
  | revertOne
  | pin (hash : H)
  | unpin (hash : H)

/-- Write the commit set of a call that returns one; an error leaves both as they were. -/
def written (p : NonCanonicalOverlay H K D × MetaDb H K D) :
    Outcome Error (NonCanonicalOverlay H K D × CommitSet H K D) →
      Option (NonCanonicalOverlay H K D × MetaDb H K D)
  | .ok (ov, commit) => some (ov, p.2.commit commit)
  | .err _ => some p
  | .panic => none

/-- A call, with its commit set written; `none` when it panicked. `canonicalize` fills a fresh
commit set. -/
def exec (p : NonCanonicalOverlay H K D × MetaDb H K D) :
    Call H K D → Option (NonCanonicalOverlay H K D × MetaDb H K D)
  | .insert hash number parentHash changeset =>
    written p (p.1.insert hash number parentHash changeset)
  | .canonicalize hash => written p (p.1.canonicalize hash {})
  | .applyPending => p.1.applyPending.map (·, p.2)
  | .revertPending => p.1.revertPending.map (·, p.2)
  | .revertOne =>
    match p.1.revertOne with
    | some (ov, commit) => some (ov, p.2.commit commit)
    | none => some p
  | .pin hash => some (p.1.pin hash, p.2)
  | .unpin hash => some (p.1.unpin hash, p.2)

/-- The calls made from the empty overlay and the empty database. -/
def run (calls : List (Call H K D)) : Option (NonCanonicalOverlay H K D × MetaDb H K D) :=
  StepMachine.run (fun o c => o.bind (exec · c)) (some (empty, ∅)) calls

end NonCanonicalOverlay

open NonCanonicalOverlay

/-- Two forks `1 - 3` and `2 - 4` over block `0`; canonicalizing `2` discards `3`, the block at
index `0` of level `2`, and block `5` then goes in at index `1`, the index of `4`. -/
def journalCollision : List (Call ℕ ℕ ℕ) :=
  [.insert 1 1 0 {}, .insert 2 1 0 {}, .insert 3 2 1 {}, .insert 4 2 2 {}, .applyPending,
    .canonicalize 2, .applyPending, .insert 5 2 2 {}]

theorem journalCollision_loses_blocks :
    ∃ ov db restored, run journalCollision = some (ov, db) ∧
      NonCanonicalOverlay.new db = .ok restored ∧
      ov.levels.map (·.map (·.hash)) = [[4, 5]] ∧
      ov.levels.map (·.map (·.journalKey)) =
        [[.nonCanonicalJournal 2 1, .nonCanonicalJournal 2 1]] ∧
      restored.levels = [] :=
  ⟨_, _, _, rfl, rfl, rfl, rfl, rfl⟩

end Tetcore.StateDb
