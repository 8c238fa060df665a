import Mathlib
import Tetcore.Lib.Outcome

/-!
# The backing database of the state db

`client/state-db/src/lib.rs`. The state db never writes the database itself: its calls return or
fill a `CommitSet`, the state-node changes and the changes of the meta column, and the caller writes
it. The meta keys are `to_meta_key(suffix, data)`, the encoding of `data` followed by the suffix;
the four kinds of meta key the state db writes have encodings of four different lengths, each
injective in its data, so a meta key is modelled by what it encodes, and a meta value by the value
it decodes to. The meta column is written as `TestDb::commit` writes it: the insertions, then the
deletions.
-/

namespace Tetcore.StateDb

/-- `ChangeSet`. -/
structure ChangeSet (K V : Type) where
  inserted : List (K × V) := []
  deleted : List K := []

inductive MetaKey
  | lastCanonical
  | nonCanonicalJournal (block index : ℕ)
  | lastPruned
  | pruningJournal (block : ℕ)
  deriving DecidableEq, Repr

/-- The `JournalRecord` of the non-canonical overlay. -/
structure JournalRecord (H K D : Type) where
  hash : H
  parentHash : H
  inserted : List (K × D)
  deleted : List K

/-- The `JournalRecord` of the pruning window. -/
structure PruningRecord (H K : Type) where
  hash : H
  inserted : List K
  deleted : List K

inductive MetaValue (H K D : Type)
  | lastCanonical (hash : H) (number : ℕ)
  | nonCanonicalJournal (record : JournalRecord H K D)
  | lastPruned (number : ℕ)
  | pruningJournal (record : PruningRecord H K)

/-- `CommitSet`; `metaChanges` is the source's `meta`, a keyword of Lean. -/
structure CommitSet (H K D : Type) where
  data : ChangeSet K D := {}
  metaChanges : ChangeSet MetaKey (MetaValue H K D) := {}

/-- The errors the state db returns; the database in this model does not fail. -/
inductive Error
  | decoding
  | invalidBlock
  | invalidBlockNumber
  | invalidParent
  deriving DecidableEq, Repr

/-- The meta column of the database. -/
abbrev MetaDb (H K D : Type) := AList fun _ : MetaKey => MetaValue H K D

namespace MetaDb

variable {H K D : Type}

/-- Write the meta changes of a commit set. -/
def commit (db : MetaDb H K D) (c : CommitSet H K D) : MetaDb H K D :=
  c.metaChanges.deleted.foldl (fun db key => db.erase key)
    (c.metaChanges.inserted.foldl (fun db entry => db.insert entry.1 entry.2) db)

end MetaDb

end Tetcore.StateDb
