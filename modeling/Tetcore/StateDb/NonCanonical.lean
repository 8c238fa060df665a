import Tetcore.StateDb.Db

/-!
# The non-canonical overlay

`client/state-db/src/noncanonical.rs`. The overlay keeps the blocks not yet canonicalized, by
level (block number), with the values they inserted counted by reference, and journals every
block under the key `(number, index)` of its place in its level. `canonicalize` only marks a
block and deletes the journals of the blocks it discards; `apply_pending` then drops them from
the levels, by the walk of `discard_descendants`, and keeps the values of those with a pin in
their subtree in `pinned_insertions` until `unpin` releases them.

The hash maps of the source are functions here (`parents`, `values`, and `pinned`, whose absent
entries are `0`, a count the source never stores), except `pinned_insertions`, which is an
association list: `unpin` walks it. A `debug_assert!` is left out, as in a release build. The
recursion of `discard_descendants` is on the levels below the discarded block, passed as fuel:
every round keeps the number of levels. An `expect` that fails is a panic (`none`, or
`Outcome.panic`).
-/

namespace Tetcore.StateDb

/-- `BlockOverlay`. -/
structure BlockOverlay (H K : Type) where
  hash : H
  journalKey : MetaKey
  inserted : List K
  deleted : List K

structure NonCanonicalOverlay (H K D : Type) where
  lastCanonicalized : Option (H × ℕ)
  levels : List (List (BlockOverlay H K))
  parents : H → Option H
  pendingCanonicalizations : List H
  pendingInsertions : List H
  values : K → Option (ℕ × D)
  pinned : H → ℕ
  pinnedInsertions : AList fun _ : H => List K × ℕ

variable {H K D : Type} [DecidableEq H] [DecidableEq K]

section Values

variable (values : K → Option (ℕ × D))

/-- `insert_values`: one more reference to each inserted key, whose first value stays. -/
def insertValues (inserted : List (K × D)) : K → Option (ℕ × D) :=
  inserted.foldl (fun values entry =>
    Function.update values entry.1 (some (match values entry.1 with
      | some (counter, value) => (counter + 1, value)
      | none => (1, entry.2)))) values

/-- `discard_values`: one reference less to each key, and no entry once none is left. -/
def discardValues (inserted : List K) : K → Option (ℕ × D) :=
  inserted.foldl (fun values k =>
    match values k with
    | some (counter, value) =>
      Function.update values k (if counter - 1 = 0 then none else some (counter - 1, value))
    | none => values) values

end Values

/-- The maps `discard_descendants` writes. -/
structure Maps (H K D : Type) where
  values : K → Option (ℕ × D)
  parents : H → Option H
  pinnedInsertions : AList fun _ : H => List K × ℕ

/-- Drop a discarded block: keep its values while a block of its subtree is pinned, and drop
them and its parent entry otherwise. -/
def Maps.discardBlock (m : Maps H K D) (overlay : BlockOverlay H K) (numPinned : ℕ) :
    Maps H K D :=
  if numPinned ≠ 0 then
    { m with pinnedInsertions := m.pinnedInsertions.insert overlay.hash (overlay.inserted, numPinned) }
  else
    { m with
      parents := Function.update m.parents overlay.hash none
      values := discardValues m.values overlay.inserted }

/-- `discard_descendants`: remove the descendants of `hash` from the levels, the first of them
holding its children, and return how many pins their subtrees hold. -/
def discardDescendants (pinned : H → ℕ) :
    ℕ → List (List (BlockOverlay H K)) → Maps H K D → H →
      Option (List (List (BlockOverlay H K)) × Maps H K D × ℕ)
  | 0, levels, m, _ => some (levels, m, 0)
  | _ + 1, [], m, _ => some ([], m, 0)
  | n + 1, level :: rest, m, hash => do
    let (kept, rest, m, pinnedChildren) ← level.foldlM (fun acc overlay => do
        let (kept, rest, m, pinnedChildren) := acc
        let parent ← m.parents overlay.hash
        if parent = hash then
          let (rest, m, numPinned) ← discardDescendants pinned n rest m overlay.hash
          let numPinned := if pinned overlay.hash ≠ 0 then numPinned + 1 else numPinned
          pure (kept, rest, m.discardBlock overlay numPinned, pinnedChildren + numPinned)
        else pure (kept ++ [overlay], rest, m, pinnedChildren))
      (([] : List (BlockOverlay H K)), rest, m, 0)
    pure (kept :: rest, m, pinnedChildren)

/-- `discard_journals`: the journal keys of the descendants of `hash`, the first level holding its
children. -/
def discardJournals (parents : H → Option H) :
    List (List (BlockOverlay H K)) → H → Option (List MetaKey)
  | [], _ => some []
  | level :: rest, hash => level.foldlM (fun journals overlay => do
      let parent ← parents overlay.hash
      if parent = hash then
        let below ← discardJournals parents rest overlay.hash
        pure (journals ++ overlay.journalKey :: below)
      else pure journals) []

/-- The `position` of `revert_insertions`: the first level whose last block is `hash`. An empty
level before it panics (the `expect` on `last()`), and so does no such level. -/
def levelOfLast (hash : H) : List (List (BlockOverlay H K)) → Option ℕ
  | [] => none
  | level :: rest =>
    match level.getLast? with
    | none => none
    | some overlay => if overlay.hash = hash then some 0 else (levelOfLast hash rest).map (· + 1)

namespace NonCanonicalOverlay

variable (ov : NonCanonicalOverlay H K D)

def maps : Maps H K D := ⟨ov.values, ov.parents, ov.pinnedInsertions⟩

def withMaps (m : Maps H K D) : NonCanonicalOverlay H K D :=
  { ov with values := m.values, parents := m.parents, pinnedInsertions := m.pinnedInsertions }

def frontBlockNumber : ℕ := (ov.lastCanonicalized.map fun c => c.2 + 1).getD 0

/-- The checks of `insert`; on the first insert into an empty overlay, the parent is taken as
canonicalized, and the meta change that records it. -/
def checkInsert (number : ℕ) (parentHash : H) :
    Outcome Error (NonCanonicalOverlay H K D × List (MetaKey × MetaValue H K D)) :=
  let front := ov.frontBlockNumber
  if ov.levels.isEmpty ∧ ov.lastCanonicalized.isNone ∧ 0 < number then
    .ok ({ ov with lastCanonicalized := some (parentHash, number - 1) },
      [(.lastCanonical, .lastCanonical parentHash (number - 1))])
  else if ov.lastCanonicalized.isSome then
    if number < front ∨ front + ov.levels.length + 1 ≤ number then .err .invalidBlockNumber
    else if number = front then
      if ov.lastCanonicalized = some (parentHash, number - 1) then .ok (ov, [])
      else .err .invalidParent
    else if (ov.parents parentHash).isNone then .err .invalidParent
    else .ok (ov, [])
  else .ok (ov, [])

/-- `insert`: the block goes last into its level, under the journal key of its index there. -/
def insert (hash : H) (number : ℕ) (parentHash : H) (changeset : ChangeSet K D) :
    Outcome Error (NonCanonicalOverlay H K D × CommitSet H K D) := do
  let front := ov.frontBlockNumber
  let (ov, metaInserted) ← ov.checkInsert number parentHash
  -- the level the block goes into, as an index, and its blocks so far
  let (levelIndex, level) ←
    if ov.levels.isEmpty ∨ number = front + ov.levels.length then
      pure (ov.levels.length, ([] : List (BlockOverlay H K)))
    else match ov.levels[number - front]? with
      | some level => pure (number - front, level)
      | none => .panic
  let journalKey := MetaKey.nonCanonicalJournal number level.length
  let overlay : BlockOverlay H K :=
    ⟨hash, journalKey, changeset.inserted.map Prod.fst, changeset.deleted⟩
  let levels := if levelIndex = ov.levels.length then ov.levels ++ [[overlay]]
    else ov.levels.set levelIndex (level ++ [overlay])
  let record : JournalRecord H K D := ⟨hash, parentHash, changeset.inserted, changeset.deleted⟩
  pure ({ ov with
      levels := levels
      parents := Function.update ov.parents hash (some parentHash)
      values := insertValues ov.values changeset.inserted
      pendingInsertions := ov.pendingInsertions ++ [hash] },
    { metaChanges := { inserted := metaInserted ++ [(journalKey, .nonCanonicalJournal record)] } })

/-- `canonicalize`: mark the block of the next level to canonicalize, and add to the commit set
its changes, the deletion of the journals of that level and of every block it discards, and the
new last canonicalized block. -/
def canonicalize (hash : H) (commit : CommitSet H K D) :
    Outcome Error (NonCanonicalOverlay H K D × CommitSet H K D) := do
  let depth := ov.pendingCanonicalizations.length
  let level ← match ov.levels[depth]? with
    | some level => pure level
    | none => .err .invalidBlock
  let index ← match level.findIdx? (·.hash = hash) with
    | some index => pure index
    | none => .err .invalidBlock
  let discardedJournals ← match (level.zipIdx.foldlM (fun journals entry => do
      let below ←
        if entry.2 ≠ index then discardJournals ov.parents (ov.levels.drop (depth + 1)) entry.1.hash
        else some []
      pure (journals ++ below ++ [entry.1.journalKey])) []) with
    | some journals => pure journals
    | none => .panic
  let overlay ← match level[index]? with
    | some overlay => pure overlay
    | none => .panic
  let inserted ← match overlay.inserted.mapM (fun k => (ov.values k).map fun v => (k, v.2)) with
    | some inserted => pure inserted
    | none => .panic
  let canonicalized := (hash, ov.frontBlockNumber + depth)
  pure ({ ov with pendingCanonicalizations := ov.pendingCanonicalizations ++ [hash] },
    { data := { inserted := commit.data.inserted ++ inserted
                deleted := commit.data.deleted ++ overlay.deleted }
      metaChanges :=
        { inserted := commit.metaChanges.inserted ++
            [(.lastCanonical, .lastCanonical canonicalized.1 canonicalized.2)]
          deleted := commit.metaChanges.deleted ++ discardedJournals } })

/-- One round of `apply_canonicalizations`: pop the front level, and drop its blocks, the
siblings of the canonicalized one with their descendants. -/
def applyCanonicalization (hash : H) : Option (NonCanonicalOverlay H K D) := do
  let (level, levels) ← match ov.levels with
    | level :: levels => some (level, levels)
    | [] => none
  let index ← level.findIdx? (·.hash = hash)
  let (levels, m) ← level.zipIdx.foldlM (fun acc entry => do
      let (levels, m) := acc
      let (levels, m, pinnedChildren) ←
        if entry.2 ≠ index then discardDescendants ov.pinned levels.length levels m entry.1.hash
        else some (levels, m, 0)
      let pinnedChildren := if ov.pinned entry.1.hash ≠ 0 then pinnedChildren + 1 else pinnedChildren
      pure (levels, m.discardBlock entry.1 pinnedChildren)) (levels, ov.maps)
  pure { ov.withMaps m with levels := levels }

def applyCanonicalizations : Option (NonCanonicalOverlay H K D) := do
  let count := ov.pendingCanonicalizations.length
  let ov' ← ov.pendingCanonicalizations.foldlM (fun ov hash => ov.applyCanonicalization hash)
    { ov with pendingCanonicalizations := [] }
  pure (match ov.pendingCanonicalizations.getLast? with
    | some hash =>
      let number := (ov.lastCanonicalized.map (·.2 + count)).getD (count - 1)
      { ov' with lastCanonicalized := some (hash, number) }
    | none => ov')

/-- `get`. -/
def get (key : K) : Option D := (ov.values key).map (·.2)

/-- `revert_one`: drop the last level, and delete its journals. -/
def revertOne : Option (NonCanonicalOverlay H K D × CommitSet H K D) :=
  match ov.levels.getLast? with
  | none => none
  | some level => some (level.foldl (fun ov overlay =>
      { ov with
        parents := Function.update ov.parents overlay.hash none
        values := discardValues ov.values overlay.inserted })
      { ov with levels := ov.levels.dropLast },
    { metaChanges := { deleted := level.map (·.journalKey) } })

/-- One round of `revert_insertions`, for the block inserted last of those still pending. -/
def revertInsertion (hash : H) : Option (NonCanonicalOverlay H K D) := do
  let ov := { ov with parents := Function.update ov.parents hash none }
  let levelIndex ← levelOfLast hash ov.levels
  let level ← ov.levels[levelIndex]?
  let overlay ← level.getLast?
  let levels := ov.levels.set levelIndex level.dropLast
  -- an emptied level is dropped from the back, where it is when the blocks are inserted in order
  let levels := if level.dropLast.isEmpty then levels.dropLast else levels
  pure { ov with levels := levels, values := discardValues ov.values overlay.inserted }

def revertInsertions : Option (NonCanonicalOverlay H K D) :=
  ov.pendingInsertions.reverse.foldlM (fun ov hash => ov.revertInsertion hash)
    { ov with pendingInsertions := [] }

def applyPending : Option (NonCanonicalOverlay H K D) := do
  let ov ← ov.applyCanonicalizations
  pure { ov with pendingInsertions := [] }

def revertPending : Option (NonCanonicalOverlay H K D) :=
  { ov with pendingCanonicalizations := [] }.revertInsertions

def pin (hash : H) : NonCanonicalOverlay H K D :=
  if hash ∈ ov.pendingInsertions then ov
  else { ov with pinned := Function.update ov.pinned hash (ov.pinned hash + 1) }

/-- The walk of `unpin` up the parents: each block on it with kept values has one pin less in its
subtree, and its values go when none is left. It stops at the first block with none kept. -/
def unpinWalk : ℕ → Option H → NonCanonicalOverlay H K D → NonCanonicalOverlay H K D
  | 0, _, ov => ov
  | _ + 1, none, ov => ov
  | fuel + 1, some hash, ov =>
    let parent := ov.parents hash
    match ov.pinnedInsertions.lookup hash with
    | some (inserted, count) =>
      if count - 1 = 0 then
        unpinWalk fuel parent { ov with
          pinnedInsertions := ov.pinnedInsertions.erase hash
          values := discardValues ov.values inserted
          parents := Function.update ov.parents hash none }
      else
        unpinWalk fuel parent
          { ov with pinnedInsertions := ov.pinnedInsertions.insert hash (inserted, count - 1) }
    | none => ov

/-- Every round of the walk that does not stop takes one from a count of `pinned_insertions`, or
removes an entry, so this many rounds are enough. -/
def unpinFuel : ℕ := (ov.pinnedInsertions.entries.map fun e => e.2.2 + 1).sum

def unpin (hash : H) : NonCanonicalOverlay H K D :=
  match ov.pinned hash with
  | 0 => ov
  | count + 1 =>
    if count = 0 then
      unpinWalk ov.unpinFuel (some hash) { ov with pinned := Function.update ov.pinned hash 0 }
    else { ov with pinned := Function.update ov.pinned hash count }

/-- The inner loop of `new`: the journal records of one block number, from `index` on, up to the
first missing one. -/
def readLevel (db : MetaDb H K D) (block : ℕ) :
    ℕ → ℕ → Outcome Error (List (MetaKey × JournalRecord H K D))
  | 0, _ => .ok []
  | fuel + 1, index =>
    match db.lookup (.nonCanonicalJournal block index) with
    | none => .ok []
    | some (.nonCanonicalJournal record) => do
      let rest ← readLevel db block fuel (index + 1)
      pure ((.nonCanonicalJournal block index, record) :: rest)
    | some _ => .err .decoding

/-- The outer loop of `new`: the levels from `block` on, up to the first empty one. -/
def readLevels (db : MetaDb H K D) :
    ℕ → ℕ → Outcome Error (List (List (MetaKey × JournalRecord H K D)))
  | 0, _ => .ok []
  | fuel + 1, block => do
    let level ← readLevel db block (db.entries.length + 1) 0
    if level.isEmpty then pure []
    else
      let rest ← readLevels db fuel (block + 1)
      pure (level :: rest)

/-- `new`: read the last canonicalized block, then the journal from the block after it. Every
round of either loop reads another entry of the database, so `db.entries.length + 1` rounds are
enough. -/
def new (db : MetaDb H K D) : Outcome Error (NonCanonicalOverlay H K D) := do
  let lastCanonicalized ← match db.lookup .lastCanonical with
    | none => pure none
    | some (.lastCanonical hash number) => pure (some (hash, number))
    | some _ => .err .decoding
  let levels ← match lastCanonicalized with
    | some (_, block) => readLevels db (db.entries.length + 1) (block + 1)
    | none => pure []
  let records := levels.flatten.map (·.2)
  pure {
    lastCanonicalized := lastCanonicalized
    levels := levels.map (·.map fun entry =>
      ⟨entry.2.hash, entry.1, entry.2.inserted.map Prod.fst, entry.2.deleted⟩)
    parents := records.foldl (fun parents record =>
      Function.update parents record.hash (some record.parentHash)) fun _ => none
    pendingCanonicalizations := []
    pendingInsertions := []
    values := records.foldl (fun values record => insertValues values record.inserted) fun _ => none
    pinned := fun _ => 0
    pinnedInsertions := ∅ }

end NonCanonicalOverlay

end Tetcore.StateDb
