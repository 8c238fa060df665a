import Mathlib

/-!
# The leaf set of the client database

`client/api/src/leaves.rs` and the part of `Backend::try_commit_operation`
(`client/db/src/lib.rs`) that touches it. The leaf set lives in memory, shared by the backend,
and is written to the database only inside the transaction of a commit. `try_commit_operation`
imports the new block into the in-memory set (and, for a final block, `note_finalized` prunes
it with `finalize_height`) before the steps that can still fail: reading the parent's children,
looking up the new head, and the commit of the transaction itself. The displaced leaves returned
by `import` and `finalize_height` are dropped and `undo` is never called, so an error at any of
those steps leaves the in-memory set with the block in it while the database has no trace of it.

`Undo::undo_import` would not restore the set either: it puts the displaced parent back at the
height of the child.
-/

namespace Tetcore.Client

/-- `LeafSet`: the leaf hashes by block number, with the additions and removals not yet written.
The source keys the map by `Reverse<N>`, to iterate from the highest number; the model keys it by
the number. -/
structure LeafSet (H : Type) where
  storage : Std.TreeMap ℕ (List H) compare
  pendingAdded : List (H × ℕ)
  pendingRemoved : List H

/-- `ImportDisplaced`: the new leaf and the parent it displaced. -/
structure ImportDisplaced (H : Type) where
  newHash : H
  displacedHash : H
  displacedNumber : ℕ
  deriving DecidableEq, Repr

namespace LeafSet

variable {H : Type} [DecidableEq H]

/-- The hashes at a number, none when the number has no entry. -/
def leavesAt (s : LeafSet H) (number : ℕ) : List H :=
  s.storage[number]?.getD []

/-- `LeafSet::contains`. -/
def contains (s : LeafSet H) (number : ℕ) (hash : H) : Bool :=
  (s.leavesAt number).contains hash

/-- `LeafSet::insert_leaf`. -/
def insertLeaf (s : LeafSet H) (number : ℕ) (hash : H) : LeafSet H :=
  { s with storage := s.storage.insert number (s.leavesAt number ++ [hash]) }

/-- `LeafSet::remove_leaf`: whether the hash was a leaf at the number. The `retain` drops every
copy of the hash, and an entry it leaves empty is removed. -/
def removeLeaf (s : LeafSet H) (number : ℕ) (hash : H) : Bool × LeafSet H :=
  match s.storage[number]? with
  | none => (false, s)
  | some leaves =>
    let found := leaves.contains hash
    let leaves := leaves.filter (· != hash)
    if found && leaves.isEmpty then (found, { s with storage := s.storage.erase number })
    else (found, { s with storage := s.storage.insert number leaves })

/-- `LeafSet::import`: the parent stops being a leaf, the block becomes one. -/
def importBlock (s : LeafSet H) (hash : H) (number : ℕ) (parentHash : H) :
    Option (ImportDisplaced H) × LeafSet H :=
  let (displaced, s) : Option (ImportDisplaced H) × LeafSet H :=
    -- no parent below the genesis block
    if number ≠ 0 then
      let newNumber := number - 1
      let (wasDisplaced, s) := s.removeLeaf newNumber parentHash
      if wasDisplaced then
        (some ⟨hash, parentHash, newNumber⟩, { s with pendingRemoved := s.pendingRemoved ++ [parentHash] })
      else (none, s)
    else (none, s)
  let s := s.insertLeaf number hash
  (displaced, { s with pendingAdded := s.pendingAdded ++ [(hash, number)] })

/-- `LeafSet::finalize_height`: the leaves below the number leave the set, and are returned. -/
def finalizeHeight (s : LeafSet H) (number : ℕ) : Std.TreeMap ℕ (List H) compare × LeafSet H :=
  if number = 0 then (∅, s)
  else
    let boundary := number - 1
    -- `split_off(&Reverse(boundary))`: the entries at `boundary` and below
    let belowBoundary := s.storage.filter fun n _ => n ≤ boundary
    let storage := s.storage.filter fun n _ => boundary < n
    (belowBoundary, { s with storage := storage,
                             pendingRemoved := s.pendingRemoved ++
                               belowBoundary.toList.reverse.flatMap (·.2) })

/-- `LeafSet::prepare_transaction`: the entries written to the transaction, highest number first;
the pending lists are cleared. -/
def prepareTransaction (s : LeafSet H) : List (ℕ × List H) × LeafSet H :=
  (s.storage.toList.reverse, { s with pendingAdded := [], pendingRemoved := [] })

/-- `Undo::undo_import`. -/
def undoImport (s : LeafSet H) (displaced : ImportDisplaced H) : LeafSet H :=
  let newNumber := displaced.displacedNumber + 1
  let s := (s.removeLeaf newNumber displaced.newHash).2
  s.insertLeaf newNumber displaced.displacedHash

/-- `Undo::undo_finalization`: `BTreeMap::append` moves every displaced entry back into the set,
in place of what the set holds at its number. -/
def undoFinalization (s : LeafSet H) (displaced : Std.TreeMap ℕ (List H) compare) : LeafSet H :=
  { s with storage := s.storage.insertMany displaced.toList }

/-- `LeafSet::hashes`: every leaf, highest number first. -/
def hashes (s : LeafSet H) : List H :=
  s.storage.toList.reverse.flatMap (·.2)

/-- `LeafSet::count`: `storage.len()`, the number of entries of the map. -/
def count (s : LeafSet H) : ℕ :=
  s.storage.size

/-! The leaves at each number after each operation. -/

omit [DecidableEq H] in
@[simp]
theorem leavesAt_mk (s : LeafSet H) (pendingAdded : List (H × ℕ)) (pendingRemoved : List H)
    (m : ℕ) :
    ({ storage := s.storage, pendingAdded := pendingAdded, pendingRemoved := pendingRemoved } :
      LeafSet H).leavesAt m = s.leavesAt m := rfl

omit [DecidableEq H] in
theorem leavesAt_insert (s : LeafSet H) (storage : List H) (n m : ℕ) :
    ({ s with storage := s.storage.insert n storage } : LeafSet H).leavesAt m =
      if m = n then storage else s.leavesAt m := by
  by_cases hm : m = n
  case pos => simp [leavesAt, hm]
  case neg =>
    have hcmp : compare n m ≠ .eq := by rw [Ne, compare_eq_iff_eq]; exact Ne.symm hm
    simp [leavesAt, Std.TreeMap.getElem?_insert, hcmp, hm]

omit [DecidableEq H] in
theorem leavesAt_erase (s : LeafSet H) (n m : ℕ) :
    ({ s with storage := s.storage.erase n } : LeafSet H).leavesAt m =
      if m = n then [] else s.leavesAt m := by
  by_cases hm : m = n
  case pos => simp [leavesAt, hm]
  case neg =>
    have hcmp : compare n m ≠ .eq := by rw [Ne, compare_eq_iff_eq]; exact Ne.symm hm
    simp [leavesAt, Std.TreeMap.getElem?_erase, hcmp, hm]

omit [DecidableEq H] in
theorem leavesAt_insertLeaf (s : LeafSet H) (n m : ℕ) (hash : H) :
    (s.insertLeaf n hash).leavesAt m = if m = n then s.leavesAt n ++ [hash] else s.leavesAt m := by
  rw [insertLeaf, leavesAt_insert]

theorem leavesAt_removeLeaf (s : LeafSet H) (n m : ℕ) (hash : H) :
    (s.removeLeaf n hash).2.leavesAt m =
      if m = n then (s.leavesAt n).filter (· != hash) else s.leavesAt m := by
  unfold removeLeaf
  split
  case h_1 hnone =>
    by_cases hm : m = n
    · simp [hm, leavesAt, hnone]
    · simp [hm]
  case h_2 leaves hsome =>
    have hleaves : s.leavesAt n = leaves := by simp [leavesAt, hsome]
    dsimp only
    split
    case isTrue hempty =>
      simp only [Bool.and_eq_true, List.isEmpty_iff] at hempty
      rw [leavesAt_erase, hleaves, hempty.2]
    case isFalse => rw [leavesAt_insert, hleaves]

omit [DecidableEq H] in
theorem getElem?_finalizeHeight_storage (s : LeafSet H) (n m : ℕ) :
    (s.finalizeHeight n).2.storage[m]? = if m < n then none else s.storage[m]? := by
  unfold finalizeHeight
  by_cases hn : n = 0
  · simp [hn]
  · rw [if_neg hn]
    by_cases hm : m < n
    · simp [hm, Option.filter, show ¬n - 1 < m by omega]
      split <;> rfl
    · simp [hm, Option.filter, show n - 1 < m by omega]
      split <;> simp_all

omit [DecidableEq H] in
theorem getElem?_finalizeHeight_displaced (s : LeafSet H) (n m : ℕ) :
    (s.finalizeHeight n).1[m]? = if m < n then s.storage[m]? else none := by
  unfold finalizeHeight
  by_cases hn : n = 0
  · simp [hn]
  · rw [if_neg hn]
    by_cases hm : m < n
    · simp [hm, Option.filter, show m ≤ n - 1 by omega]
      split <;> simp_all
    · simp [hm, Option.filter, show ¬m ≤ n - 1 by omega]
      split <;> rfl

omit [DecidableEq H] in
theorem getElem?_undoFinalization_storage (s : LeafSet H) (displaced : Std.TreeMap ℕ (List H) compare)
    (m : ℕ) : (s.undoFinalization displaced).storage[m]? = displaced[m]?.or s.storage[m]? := by
  unfold undoFinalization
  dsimp only
  cases hd : displaced[m]? with
  | none =>
    -- the number is not a key of the displaced map
    have hkeys : (displaced.toList.map Prod.fst).contains m = false := by
      rw [Std.TreeMap.map_fst_toList_eq_keys, Std.TreeMap.contains_keys,
        Std.TreeMap.contains_eq_isSome_getElem?, hd]
      rfl
    rw [Std.TreeMap.getElem?_insertMany_list_of_contains_eq_false hkeys, Option.none_or]
  | some hashes =>
    have hmem : (m, hashes) ∈ displaced.toList := Std.TreeMap.mem_toList_iff_getElem?_eq_some.mpr hd
    rw [Std.TreeMap.getElem?_insertMany_list_of_mem (Std.compare_eq_iff_eq.mpr rfl)
      Std.TreeMap.distinct_keys_toList hmem, Option.some_or]

omit [DecidableEq H] in
/-- **`undo_finalization` undoes `finalize_height`.** Putting back the entries it displaced
restores the leaves at every number. -/
theorem leavesAt_undoFinalization_finalizeHeight (s : LeafSet H) (n m : ℕ) :
    ((s.finalizeHeight n).2.undoFinalization (s.finalizeHeight n).1).leavesAt m = s.leavesAt m := by
  unfold leavesAt
  rw [getElem?_undoFinalization_storage, getElem?_finalizeHeight_displaced,
    getElem?_finalizeHeight_storage]
  by_cases hm : m < n
  · rw [if_pos hm, if_pos hm, Option.or_none]
  · rw [if_neg hm, if_neg hm, Option.none_or]

theorem removeLeaf_fst (s : LeafSet H) (n : ℕ) (hash : H) :
    (s.removeLeaf n hash).1 = s.contains n hash := by
  unfold removeLeaf contains leavesAt
  split
  case h_1 hnone => simp [hnone]
  case h_2 leaves hsome =>
    simp only [hsome, Option.getD_some]
    split <;> rfl

theorem contains_importBlock_self (s : LeafSet H) (hash : H) (number : ℕ) (parentHash : H) :
    (s.importBlock hash number parentHash).2.contains number hash = true := by
  unfold importBlock
  simp [contains, leavesAt, insertLeaf]

theorem undoImport_misplaces (s : LeafSet H) {hash parentHash : H} {number : ℕ}
    {displaced : ImportDisplaced H} (hd : (s.importBlock hash number parentHash).1 = some displaced) :
    ((s.importBlock hash number parentHash).2.undoImport displaced).contains number parentHash =
        true ∧
      ((s.importBlock hash number parentHash).2.undoImport displaced).contains (number - 1)
        parentHash = false := by
  -- the import displaced the parent from the number below
  have hnumber : number ≠ 0 := by
    intro h0
    simp [importBlock, h0] at hd
  obtain ⟨rfl⟩ : displaced = ⟨hash, parentHash, number - 1⟩ := by
    unfold importBlock at hd
    simp only [ne_eq, hnumber, not_false_eq_true, if_true] at hd
    split at hd <;> simp_all
  have hsucc : number - 1 + 1 = number := by omega
  have hbelow : number - 1 ≠ number := by omega
  refine ⟨?_, ?_⟩
  · simp [undoImport, hsucc, contains, leavesAt_insertLeaf]
  · simp only [undoImport, hsucc, contains, leavesAt_insertLeaf, if_neg hbelow, leavesAt_removeLeaf]
    unfold importBlock
    simp only [ne_eq, hnumber, not_false_eq_true, if_true]
    split <;> simp [leavesAt_insertLeaf, hbelow, leavesAt_removeLeaf]

end LeafSet

/-! ## The commit -/

/-- The block of a commit, with whether it is imported as final. -/
structure PendingBlock (H : Type) where
  hash : H
  number : ℕ
  parentHash : H
  finalized : Bool
  deriving DecidableEq, Repr

/-- The parts of a `BlockImportOperation` the leaf set depends on. -/
structure CommitOperation (H : Type) where
  pendingBlock : Option (PendingBlock H)
  setHead : Option H
  deriving DecidableEq, Repr

/-- What the database answers during one commit: the children stored for a parent
(`children::read_children`), the number of a known block (`HeaderBackend::header`), and the result
of `db.commit(transaction)`. -/
structure DbAnswers (H : Type) where
  readChildren : H → Except String (List H)
  header : H → Option ℕ
  commit : Except String Unit

/-- The errors of the modelled steps. -/
inductive CommitError
  | backend (e : String)
  | unknownBlock
  deriving DecidableEq, Repr

variable {H : Type} [DecidableEq H]

/-- The pending block of `Backend::try_commit_operation`: `note_finalized` (through
`finalize_height`) for a final block, `import` and `prepare_transaction`, then the read of the
parent's children. -/
def importPending (db : DbAnswers H) (leaves : LeafSet H) (op : CommitOperation H) :
    Except CommitError Unit × LeafSet H :=
  match op.pendingBlock with
  | none => (.ok (), leaves)
  | some block =>
    let leaves := if block.finalized then (leaves.finalizeHeight block.number).2 else leaves
    let leaves := (leaves.importBlock block.hash block.number block.parentHash).2
    let leaves := leaves.prepareTransaction.2
    match db.readChildren block.parentHash with
    | .error e => (.error (.backend e), leaves)
    | .ok _ => (.ok (), leaves)

/-- The steps of `Backend::try_commit_operation` after the finalized blocks, with what they do to
the leaf set: `note_finalized` (through `finalize_height`) for a final block, `import` and
`prepare_transaction`, then the three steps that can fail. An error returns with the leaf set as
these steps left it. -/
def tryCommitOperation (db : DbAnswers H) (leaves : LeafSet H) (op : CommitOperation H) :
    Except CommitError Unit × LeafSet H :=
  match importPending db leaves op with
  | (.error e, leaves) => (.error e, leaves)
  | (.ok (), leaves) =>
    let head : Except CommitError Unit :=
      match op.setHead with
      | none => .ok ()
      | some setHead => if (db.header setHead).isSome then .ok () else .error .unknownBlock
    match head with
    | .error e => (.error e, leaves)
    | .ok () =>
      match db.commit with
      | .error e => (.error (.backend e), leaves)
      | .ok () => (.ok (), leaves)

/-- **The leaf set does not depend on the commit's outcome.** Whatever the database answers, the
in-memory leaf set after `try_commit_operation` is the one the import left: an error from reading
the children, from looking up the new head or from the commit of the transaction returns with the
block imported. -/
theorem tryCommitOperation_leaves (db : DbAnswers H) (leaves : LeafSet H) (op : CommitOperation H) :
    (tryCommitOperation db leaves op).2 =
      match op.pendingBlock with
      | none => leaves
      | some block =>
        ((if block.finalized then (leaves.finalizeHeight block.number).2 else leaves).importBlock
          block.hash block.number block.parentHash).2.prepareTransaction.2 := by
  have himport : (importPending db leaves op).2 =
      match op.pendingBlock with
      | none => leaves
      | some block =>
        ((if block.finalized then (leaves.finalizeHeight block.number).2 else leaves).importBlock
          block.hash block.number block.parentHash).2.prepareTransaction.2 := by
    unfold importPending
    cases op.pendingBlock with
    | none => rfl
    | some block =>
      dsimp only
      split <;> rfl
  rw [← himport]
  -- the steps after the import return the leaf set as they found it
  unfold tryCommitOperation
  dsimp only
  split
  case h_1 himported => rw [himported]
  case h_2 himported =>
    rw [himported]
    split
    · rfl
    · split <;> rfl

theorem contains_tryCommitOperation (db : DbAnswers H) (leaves : LeafSet H) (op : CommitOperation H)
    {block : PendingBlock H} (hblock : op.pendingBlock = some block) :
    (tryCommitOperation db leaves op).2.contains block.number block.hash = true := by
  rw [tryCommitOperation_leaves, hblock]
  exact LeafSet.contains_importBlock_self _ _ _ _

/-- The genesis block `0` as the only leaf. -/
def genesisLeaves : LeafSet ℕ :=
  ⟨(∅ : Std.TreeMap ℕ (List ℕ) compare).insert 0 [0], [], []⟩

/-- A database whose read of the children of a parent fails. -/
def failingChildren : DbAnswers ℕ :=
  ⟨fun _ => .error "io", fun _ => none, .ok ()⟩

/-- Importing block `1` on the genesis block when reading the genesis block's children fails: the
commit returns the error, and the in-memory leaf set has moved from the genesis block to block
`1`. -/
theorem commit_error_keeps_leaf_import :
    (tryCommitOperation failingChildren genesisLeaves ⟨some ⟨1, 1, 0, false⟩, none⟩).1 =
        .error (.backend "io") ∧
      genesisLeaves.storage.toList = [(0, [0])] ∧
      (tryCommitOperation failingChildren genesisLeaves ⟨some ⟨1, 1, 0, false⟩, none⟩).2.storage.toList =
        [(1, [1])] := by
  decide

/-- Two children of the genesis block are two leaves at height `1`: `hashes` lists both, while
`count` gives `1`, the number of heights. The second import displaced nothing and returns
`None`, so there is nothing to pass to `undo_import` for it. -/
theorem count_counts_heights :
    ((genesisLeaves.importBlock 1 1 0).2.importBlock 2 1 0).1 = none ∧
      ((genesisLeaves.importBlock 1 1 0).2.importBlock 2 1 0).2.hashes = [1, 2] ∧
      ((genesisLeaves.importBlock 1 1 0).2.importBlock 2 1 0).2.count = 1 := by
  decide

end Tetcore.Client
