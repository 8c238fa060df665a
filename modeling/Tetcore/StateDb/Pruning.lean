import Tetcore.StateDb.Db

/-!
# The pruning window

`client/state-db/src/pruning.rs`. `RefWindow` keeps, for every canonical block not yet pruned, the
death row of the keys its change set deleted, and the index `death_index` from a key to the row
that deletes it last. A key a later block inserts again leaves its row. `prune_one` deletes the
keys of the oldest row, and `apply_pending` then drops the row and the index entries of its keys,
whichever row those entries name: a key that a later row deletes again loses its index entry, so
a later insertion of it no longer saves it from that row, and the journal, replayed by `new`,
no longer gives the same window.

A `HashSet` of keys is a list of its members here, and `death_index` a function.
-/

namespace Tetcore.StateDb

/-- `DeathRow`. -/
structure DeathRow (H K : Type) where
  hash : H
  journalKey : MetaKey
  deleted : List K

structure RefWindow (H K : Type) where
  deathRows : List (DeathRow H K)
  deathIndex : K → Option ℕ
  pendingNumber : ℕ
  pendingCanonicalizations : ℕ
  pendingPrunings : ℕ
  countInsertions : Bool

namespace RefWindow

variable {H K D : Type} [DecidableEq K] (w : RefWindow H K)

/-- The first loop of `import`: a key inserted again leaves the death row the index names. The
index into `death_rows` panics when it is out of the window. -/
def forget (k : K) : Option (RefWindow H K) :=
  match w.deathIndex k with
  | none => some w
  | some block =>
    if block < w.pendingNumber then none
    else match w.deathRows[block - w.pendingNumber]? with
      | none => none
      | some row => some { w with
          deathIndex := Function.update w.deathIndex k none
          deathRows := w.deathRows.set (block - w.pendingNumber)
            { row with deleted := row.deleted.filter (· ≠ k) } }

/-- `import` (a keyword of Lean): add the death row of a block. -/
def importRecord (hash : H) (journalKey : MetaKey) (inserted deleted : List K) :
    Option (RefWindow H K) := do
  let w ← if w.countInsertions then do
      let w ← inserted.foldlM (fun w k => w.forget k) w
      let importedBlock := w.pendingNumber + w.deathRows.length
      let deathIndex := deleted.foldl
        (fun index k => Function.update index k (some importedBlock)) w.deathIndex
      pure { w with deathIndex := deathIndex }
    else pure w
  pure { w with deathRows := w.deathRows ++ [⟨hash, journalKey, deleted⟩] }

/-- `prune_one`: the commit set deletes the keys of the oldest row not yet pruned. -/
def pruneOne (commit : CommitSet H K D) : RefWindow H K × CommitSet H K D :=
  match w.deathRows[w.pendingPrunings]? with
  | none => (w, commit)
  | some pruned =>
    let index := w.pendingNumber + w.pendingPrunings
    ({ w with pendingPrunings := w.pendingPrunings + 1 },
      { data := { commit.data with deleted := commit.data.deleted ++ pruned.deleted }
        metaChanges :=
          { inserted := commit.metaChanges.inserted ++ [(.lastPruned, .lastPruned index)]
            deleted := commit.metaChanges.deleted ++ [pruned.journalKey] } })

/-- `note_canonical`: the deletions of the commit set are taken out of it into a new death row,
and journalled. -/
def noteCanonical (hash : H) (commit : CommitSet H K D) :
    Option (RefWindow H K × CommitSet H K D) := do
  let inserted := if w.countInsertions then commit.data.inserted.map Prod.fst else []
  let deleted := commit.data.deleted
  let record : PruningRecord H K := ⟨hash, inserted, deleted⟩
  let journalKey := MetaKey.pruningJournal (w.pendingNumber + w.deathRows.length)
  let w ← w.importRecord hash journalKey inserted deleted
  pure ({ w with pendingCanonicalizations := w.pendingCanonicalizations + 1 },
    { data := { commit.data with deleted := [] }
      metaChanges := { commit.metaChanges with
        inserted := commit.metaChanges.inserted ++ [(journalKey, .pruningJournal record)] } })

/-- One round of `apply_pending`: drop the oldest row, and the index entries of its keys. -/
def applyPruning : Option (RefWindow H K) :=
  match w.deathRows with
  | [] => none
  | pruned :: rows =>
    let deathIndex := if w.countInsertions then
        pruned.deleted.foldl (fun index k => Function.update index k none) w.deathIndex
      else w.deathIndex
    some { w with deathRows := rows, deathIndex := deathIndex, pendingNumber := w.pendingNumber + 1 }

def applyPending : Option (RefWindow H K) := do
  let w' ← (List.replicate w.pendingPrunings ()).foldlM (fun w _ => w.applyPruning)
    { w with pendingCanonicalizations := 0 }
  pure { w' with pendingPrunings := 0 }

/-- `revert_pending`; the subtraction of `truncate` panics below zero. -/
def revertPending : Option (RefWindow H K) :=
  if w.deathRows.length < w.pendingCanonicalizations then none
  else
    let rows := w.deathRows.take (w.deathRows.length - w.pendingCanonicalizations)
    let newMaxBlock := rows.length + w.pendingNumber
    let deathIndex := if w.countInsertions then fun k => (w.deathIndex k).filter (· < newMaxBlock)
      else w.deathIndex
    some { w with
      deathRows := rows
      deathIndex := deathIndex
      pendingCanonicalizations := 0
      pendingPrunings := 0 }

/-- The loop of `new`: import the journal from `block` on, up to the first missing record. -/
def readJournal (db : MetaDb H K D) : ℕ → ℕ → RefWindow H K → Outcome Error (RefWindow H K)
  | 0, _, w => .ok w
  | fuel + 1, block, w =>
    match db.lookup (.pruningJournal block) with
    | none => .ok w
    | some (.pruningJournal record) =>
      match w.importRecord record.hash (.pruningJournal block) record.inserted record.deleted with
      | some w => readJournal db fuel (block + 1) w
      | none => .panic
    | some _ => .err .decoding

/-- `new`: the window after the last pruned block, rebuilt from the journal. Every round reads
another entry of the database, so `db.entries.length + 1` rounds are enough. -/
def new (db : MetaDb H K D) (countInsertions : Bool) : Outcome Error (RefWindow H K) := do
  let pendingNumber ← match db.lookup .lastPruned with
    | none => pure 0
    | some (.lastPruned number) => pure (number + 1)
    | some _ => .err .decoding
  readJournal db (db.entries.length + 1) pendingNumber
    ⟨[], fun _ => none, pendingNumber, 0, 0, countInsertions⟩

end RefWindow

end Tetcore.StateDb
