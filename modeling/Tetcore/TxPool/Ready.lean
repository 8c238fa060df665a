import Mathlib
import Tetcore.Lib.AList
import Tetcore.Lib.Saturating
import Tetcore.Lib.Vec

/-!
# The ready queue of the transaction pool

`client/transaction-pool/graph/src/ready.rs`. A ready transaction has every tag it requires
provided by a ready transaction or already on chain. The queue keeps four indexes: the ready
transactions by hash, the transaction providing each tag, for each transaction the ones it
unlocks, with how many of their requirements are met outside the queue, and the set `best` of
the transactions nothing in the queue must precede.

A `HashMap` is an association list or a function, and a `HashSet` is walked in the order of its
list, one of the orders the source allows. A vector used as a stack keeps its top first. A failed
`assert!` or `expect` is `none`.
-/

namespace Tetcore.TxPool

structure Transaction (H T : Type) where
  hash : H
  priority : ℕ
  validTill : ℕ
  requires : List T
  provides : List T
  bytes : ℕ

structure TransactionRef (H T : Type) where
  transaction : Transaction H T
  insertionId : ℕ

/-- What `Ord for TransactionRef` compares: two references are the same element of a set when
these agree. -/
def TransactionRef.key {H T : Type} (r : TransactionRef H T) : ℕ × ℕ × ℕ :=
  (r.transaction.priority, r.transaction.validTill, r.insertionId)

structure ReadyTx (H T : Type) where
  transaction : TransactionRef H T
  unlocks : List H
  requiresOffset : ℕ

structure WaitingTransaction (H T : Type) where
  transaction : Transaction H T
  missingTags : List T
  importedAt : ℕ

inductive Error (H : Type)
  | tooLowPriority (old new : ℕ)
  | alreadyImported (hash : H)
  | rejectedFutureTransaction
  | cycleDetected
  deriving DecidableEq

abbrev ReadyMap (H T : Type) [DecidableEq H] := AList fun _ : H => ReadyTx H T

structure ReadyTransactions (H T : Type) [DecidableEq H] where
  insertionId : ℕ
  providedTags : T → Option H
  ready : ReadyMap H T
  best : List (TransactionRef H T)

variable {H T : Type} [DecidableEq H] [DecidableEq T]

/-- `remove_item`: the first occurrence is swap-removed. -/
def removeItem (vec : List H) (item : H) : List H :=
  match vec.findIdx? (· == item) with
  | some idx => ((Vec.swapRemove vec idx).map Prod.snd).getD vec
  | none => vec

/-- `BTreeSet::insert` on `best`, which keeps an element of the same key. -/
def bestInsert (best : List (TransactionRef H T)) (r : TransactionRef H T) :
    List (TransactionRef H T) :=
  if best.any (·.key == r.key) then best else r :: best

def bestRemove (best : List (TransactionRef H T)) (r : TransactionRef H T) :
    List (TransactionRef H T) :=
  best.filter (·.key != r.key)

/-- `get_mut` on the ready map, with the change made through the reference. -/
def modifyReady (ready : ReadyMap H T) (hash : H) (f : ReadyTx H T → ReadyTx H T) :
    ReadyMap H T :=
  match ready.lookup hash with
  | some tx => ready.replace hash (f tx)
  | none => ready

omit [DecidableEq T] in
@[simp]
theorem keys_modifyReady (ready : ReadyMap H T) (hash : H) (f : ReadyTx H T → ReadyTx H T) :
    (modifyReady ready hash f).keys = ready.keys := by
  unfold modifyReady
  split
  · exact AList.keys_replace _ _ _
  · rfl

/-- The loop of `remove_subtree_with_tag_filter` over the tags a removed transaction requires.
The binding `hash` of the provider shadows the hash of the transaction removed, so each
provider drops its own hash from its `unlocks`. -/
def unlinkRequires (providedTags : T → Option H) : ReadyMap H T → List T → ReadyMap H T
  | ready, [] => ready
  | ready, tag :: requires =>
    match providedTags tag with
    | some hash => unlinkRequires providedTags
        (modifyReady ready hash fun tx => { tx with unlocks := removeItem tx.unlocks hash })
        requires
    | none => unlinkRequires providedTags ready requires

omit [DecidableEq T] in
@[simp]
theorem keys_unlinkRequires (providedTags : T → Option H) (ready : ReadyMap H T)
    (requires : List T) : (unlinkRequires providedTags ready requires).keys = ready.keys := by
  induction requires generalizing ready with
  | nil => rfl
  | cons tag requires ih =>
    unfold unlinkRequires
    split <;> simp [ih]

omit [DecidableEq T] in
theorem length_keys_erase_lt {ready : ReadyMap H T} {hash : H} {tx : ReadyTx H T}
    (h : ready.lookup hash = some tx) : (ready.erase hash).keys.length < ready.keys.length := by
  have hmem : hash ∈ ready.keys := AList.mem_keys.mp (AList.lookup_isSome.mp (by simp [h]))
  rw [AList.keys_erase, List.length_erase_of_mem hmem]
  have := List.length_pos_of_mem hmem
  omega

namespace ReadyTransactions

def default : ReadyTransactions H T := ⟨0, fun _ => none, ∅, []⟩

def contains (rt : ReadyTransactions H T) (hash : H) : Bool := (rt.ready.lookup hash).isSome

def len (rt : ReadyTransactions H T) : ℕ := rt.ready.keys.length

/-- `bytes`, which the tracked map keeps as the sum of the sizes of its values. -/
def bytes (rt : ReadyTransactions H T) : ℕ :=
  (rt.ready.entries.map (·.2.transaction.transaction.bytes)).sum

/-- The tags of `provides` that are not in the filter: the filter holds the tags that stay. -/
def invalidated (filter : Option (List T)) (provides : List T) : List T :=
  provides.filter fun tag => (filter.map fun kept => !kept.contains tag).getD true

/-- One pass of the loop of `remove_subtree_with_tag_filter`, where `tx` is taken out of the queue
under `hash`: the queue after it and the stack of hashes still to remove. -/
def removeEntry (filter : Option (List T)) (rt : ReadyTransactions H T) (hash : H)
    (tx : ReadyTx H T) (toRemove : List H) : ReadyTransactions H T × List H :=
  let invalidated := invalidated filter tx.transaction.transaction.provides
  let providedTags := invalidated.foldl (fun m tag => Function.update m tag none) rt.providedTags
  let ready := unlinkRequires providedTags (rt.ready.erase hash) tx.transaction.transaction.requires
  (⟨rt.insertionId, providedTags, ready, bestRemove rt.best tx.transaction⟩,
    -- the transactions unlocked are removed only when a tag was taken from the map
    if invalidated.isEmpty then toRemove else tx.unlocks.reverse ++ toRemove)

@[simp]
theorem keys_removeEntry (filter : Option (List T)) (rt : ReadyTransactions H T) (hash : H)
    (tx : ReadyTx H T) (toRemove : List H) :
    (removeEntry filter rt hash tx toRemove).1.ready.keys = (rt.ready.erase hash).keys := by
  simp [removeEntry]

/-- The loop of `remove_subtree_with_tag_filter` over the stack of hashes to remove. -/
def removeSubtreeLoop (filter : Option (List T)) (rt : ReadyTransactions H T) :
    List H → List (Transaction H T) → ReadyTransactions H T × List (Transaction H T)
  | [], removed => (rt, removed)
  | hash :: toRemove, removed =>
    match _hhash : rt.ready.lookup hash with
    | none => removeSubtreeLoop filter rt toRemove removed
    | some tx =>
      let next := removeEntry filter rt hash tx toRemove
      removeSubtreeLoop filter next.1 next.2 (removed ++ [tx.transaction.transaction])
termination_by toRemove _ => (rt.ready.keys.length, toRemove.length)
decreasing_by
  · exact Prod.Lex.right _ (by simp)
  · apply Prod.Lex.left
    simpa using length_keys_erase_lt _hhash

theorem removeSubtreeLoop_cons (filter : Option (List T)) (rt : ReadyTransactions H T) (hash : H)
    (toRemove : List H) (removed : List (Transaction H T)) :
    removeSubtreeLoop filter rt (hash :: toRemove) removed =
      match rt.ready.lookup hash with
      | none => removeSubtreeLoop filter rt toRemove removed
      | some tx =>
        let next := removeEntry filter rt hash tx toRemove
        removeSubtreeLoop filter next.1 next.2 (removed ++ [tx.transaction.transaction]) := by
  rw [removeSubtreeLoop]
  split <;> rename_i hlookup <;> simp only [hlookup]

def removeSubtreeWithTagFilter (rt : ReadyTransactions H T) (toRemove : List H)
    (filter : Option (List T)) : ReadyTransactions H T × List (Transaction H T) :=
  removeSubtreeLoop filter rt toRemove.reverse []

def removeSubtree (rt : ReadyTransactions H T) (hashes : List H) :
    ReadyTransactions H T × List (Transaction H T) :=
  rt.removeSubtreeWithTagFilter hashes none

/-- `replace_previous`: the ready transactions providing a tag of `tx` are replaced, with the
transactions they unlock, when their priorities add up to less than its own. -/
def replacePrevious (rt : ReadyTransactions H T) (tx : Transaction H T) :
    ReadyTransactions H T × Except (Error H) (List (Transaction H T) × List H) :=
  let replaceHashes := (tx.provides.filterMap rt.providedTags).dedup
  if replaceHashes.isEmpty then (rt, .ok ([], []))
  else
    let replaced := replaceHashes.filterMap rt.ready.lookup
    let oldPriority := replaced.foldl (fun total r =>
      Saturating.add 64 total r.transaction.transaction.priority) 0
    if tx.priority ≤ oldPriority then (rt, .error (.tooLowPriority oldPriority tx.priority))
    else
      let unlocks := replaced.flatMap (·.unlocks)
      let (rt, removed) := rt.removeSubtreeWithTagFilter replaceHashes (some tx.provides)
      (rt, .ok (removed, unlocks))

/-- The loop of `import` over the tags required: a tag provided in the queue links the
transaction to its provider, and any other counts towards `requires_offset`. `none` when the
provider is not in the queue (`expect(HASH_READY)`). -/
def linkRequires (providedTags : T → Option H) (hash : H) :
    List T → ReadyMap H T → Bool → ℕ → Option (ReadyMap H T × Bool × ℕ)
  | [], ready, goesToBest, requiresOffset => some (ready, goesToBest, requiresOffset)
  | tag :: tags, ready, goesToBest, requiresOffset =>
    match providedTags tag with
    | some other =>
      match ready.lookup other with
      | some tx =>
        linkRequires providedTags hash tags
          (ready.replace other { tx with unlocks := tx.unlocks ++ [hash] }) false requiresOffset
      | none => none
    | none => linkRequires providedTags hash tags ready goesToBest (requiresOffset + 1)

/-- `import`: the queue after the call and what the call returns, the transactions replaced. -/
def importTx (rt : ReadyTransactions H T) (tx : WaitingTransaction H T) :
    Option (ReadyTransactions H T × Except (Error H) (List (Transaction H T))) :=
  if !tx.missingTags.isEmpty || rt.contains tx.transaction.hash then none
  else
    let insertionId := rt.insertionId + 1
    let hash := tx.transaction.hash
    match ({ rt with insertionId := insertionId }).replacePrevious tx.transaction with
    | (rt, .error e) => some (rt, .error e)
    | (rt, .ok (replaced, unlocks)) =>
      (linkRequires rt.providedTags hash tx.transaction.requires rt.ready true 0).map
        fun (ready, goesToBest, requiresOffset) =>
          let providedTags := tx.transaction.provides.foldl
            (fun m tag => Function.update m tag (some hash)) rt.providedTags
          let tref : TransactionRef H T := ⟨tx.transaction, insertionId⟩
          (⟨insertionId, providedTags, ready.insert hash ⟨tref, unlocks, requiresOffset⟩,
            if goesToBest then bestInsert rt.best tref else rt.best⟩, .ok replaced)

theorem replacePrevious_of_error {rt rt' : ReadyTransactions H T} {tx : Transaction H T}
    {e : Error H} (h : rt.replacePrevious tx = (rt', .error e)) : rt' = rt := by
  unfold replacePrevious at h
  dsimp only at h
  split at h
  case isTrue => cases h
  case isFalse =>
    split at h
    case isTrue =>
      cases h
      rfl
    case isFalse => simp at h

theorem importTx_error {rt rt' : ReadyTransactions H T} {tx : WaitingTransaction H T}
    {e : Error H} (h : rt.importTx tx = some (rt', .error e)) : rt'.ready = rt.ready := by
  unfold importTx at h
  split at h
  case isTrue => cases h
  case isFalse =>
    dsimp only at h
    split at h
    case h_1 rt'' e'' hrep =>
      cases h
      rw [replacePrevious_of_error hrep]
    case h_2 => simp at h

/-- `find_previous` in `prune_tags`: the provider of `tag` no longer unlocks `hash`, and when it
unlocks nothing more its tags are to be pruned as well. -/
def findPrevious (providedTags : T → Option H) (ready : ReadyMap H T) (hash : H) (tag : T) :
    ReadyMap H T × Option (List T) :=
  match providedTags tag with
  | none => (ready, none)
  | some prevHash =>
    match ready.lookup prevHash with
    | none => (ready, none)
    | some tx2 =>
      let unlocks := removeItem tx2.unlocks hash
      (ready.replace prevHash { tx2 with unlocks := unlocks },
        if unlocks.isEmpty then some tx2.transaction.transaction.provides else none)

/-- The loop of `prune_tags` over the tags the pruned transaction requires. -/
def prunePrevious (providedTags : T → Option H) (hash : H) :
    ReadyMap H T → List T → List T → ReadyMap H T × List T
  | ready, [], toRemove => (ready, toRemove)
  | ready, tag :: requires, toRemove =>
    match findPrevious providedTags ready hash tag with
    | (ready, some tags) => prunePrevious providedTags hash ready requires (tags.reverse ++ toRemove)
    | (ready, none) => prunePrevious providedTags hash ready requires toRemove

omit [DecidableEq T] in
@[simp]
theorem keys_findPrevious (providedTags : T → Option H) (ready : ReadyMap H T) (hash : H)
    (tag : T) : (findPrevious providedTags ready hash tag).1.keys = ready.keys := by
  unfold findPrevious
  split
  · rfl
  · split
    · rfl
    · exact AList.keys_replace _ _ _

omit [DecidableEq T] in
@[simp]
theorem keys_prunePrevious (providedTags : T → Option H) (hash : H) (ready : ReadyMap H T)
    (requires toRemove : List T) :
    (prunePrevious providedTags hash ready requires toRemove).1.keys = ready.keys := by
  induction requires generalizing ready toRemove with
  | nil => rfl
  | cons tag requires ih =>
    have hkeys := keys_findPrevious providedTags ready hash tag
    unfold prunePrevious
    split <;> rename_i heq <;> rw [ih, ← hkeys, heq]

/-- A transaction unlocked by a pruned one has one more requirement met outside the queue. -/
def unlock (rt : ReadyTransactions H T) (hash : H) : ReadyTransactions H T :=
  match rt.ready.lookup hash with
  | none => rt
  | some tx =>
    let tx := { tx with requiresOffset := tx.requiresOffset + 1 }
    let best := if tx.requiresOffset = tx.transaction.transaction.requires.length then
      bestInsert rt.best tx.transaction else rt.best
    { rt with ready := rt.ready.replace hash tx, best := best }

omit [DecidableEq T] in
@[simp]
theorem keys_foldl_unlock (rt : ReadyTransactions H T) (unlocks : List H) :
    (unlocks.foldl unlock rt).ready.keys = rt.ready.keys := by
  induction unlocks generalizing rt with
  | nil => rfl
  | cons hash unlocks ih =>
    rw [List.foldl_cons, ih]
    unfold unlock
    split
    · rfl
    · exact AList.keys_replace _ _ _

/-- The last loop of `prune_tags`: each tag the pruned transaction provides is taken from the
map, where it has to name the transaction (`assert_eq!`), or `none`. -/
def clearProvides (current : T) (hash : H) :
    (T → Option H) → List T → Option (T → Option H)
  | providedTags, [] => some providedTags
  | providedTags, tag :: tags =>
    if providedTags tag = (if current = tag then none else some hash) then
      clearProvides current hash (Function.update providedTags tag none) tags
    else none

/-- The body of the loop of `prune_tags` once `tx` is taken out of the queue under `hash`, for
`tag`, already gone from the map of `rt`: the queue after it and the stack of tags still to
prune. -/
def pruneEntry (rt : ReadyTransactions H T) (tag : T) (hash : H) (tx : ReadyTx H T)
    (toRemove : List T) : Option (ReadyTransactions H T × List T) :=
  let t := tx.transaction.transaction
  let previous := prunePrevious rt.providedTags t.hash (rt.ready.erase hash) t.requires toRemove
  let rt' := tx.unlocks.foldl unlock
    ⟨rt.insertionId, rt.providedTags, previous.1, bestRemove rt.best tx.transaction⟩
  (clearProvides tag t.hash rt'.providedTags t.provides).map fun providedTags =>
    ({ rt' with providedTags := providedTags }, previous.2)

theorem keys_of_pruneEntry {rt : ReadyTransactions H T} {tag : T} {hash : H} {tx : ReadyTx H T}
    {toRemove : List T} {next : ReadyTransactions H T × List T}
    (h : pruneEntry rt tag hash tx toRemove = some next) :
    next.1.ready.keys = (rt.ready.erase hash).keys := by
  simp only [pruneEntry, Option.map_eq_some_iff] at h
  obtain ⟨_, -, rfl⟩ := h
  simp

/-- The loop of `prune_tags` over the stack of tags to prune. -/
def pruneTagsLoop (rt : ReadyTransactions H T) :
    List T → List (Transaction H T) → Option (ReadyTransactions H T × List (Transaction H T))
  | [], removed => some (rt, removed)
  | tag :: toRemove, removed =>
    let rest := { rt with providedTags := Function.update rt.providedTags tag none }
    match rt.providedTags tag with
    | none => pruneTagsLoop rest toRemove removed
    | some hash =>
      match _htx : rt.ready.lookup hash with
      | none => pruneTagsLoop rest toRemove removed
      | some tx =>
        match _hnext : pruneEntry rest tag hash tx toRemove with
        | none => none
        | some next => pruneTagsLoop next.1 next.2 (removed ++ [tx.transaction.transaction])
termination_by toRemove _ => (rt.ready.keys.length, toRemove.length)
decreasing_by
  · exact Prod.Lex.right _ (by simp)
  · exact Prod.Lex.right _ (by simp)
  · apply Prod.Lex.left
    simpa [keys_of_pruneEntry _hnext, rest] using length_keys_erase_lt _htx

theorem pruneTagsLoop_cons (rt : ReadyTransactions H T) (tag : T) (toRemove : List T)
    (removed : List (Transaction H T)) :
    rt.pruneTagsLoop (tag :: toRemove) removed =
      let rest := { rt with providedTags := Function.update rt.providedTags tag none }
      match (rt.providedTags tag).bind fun hash => (rt.ready.lookup hash).map (hash, ·) with
      | none => rest.pruneTagsLoop toRemove removed
      | some (hash, tx) => (pruneEntry rest tag hash tx toRemove).bind fun next =>
          next.1.pruneTagsLoop next.2 (removed ++ [tx.transaction.transaction]) := by
  rw [pruneTagsLoop]
  split <;> rename_i hprov <;> simp only [hprov, Option.bind_none, Option.bind_some]
  split <;> rename_i hlookup <;> simp only [hlookup, Option.map_none, Option.map_some]
  split <;> rename_i hnext <;> simp only [hnext, Option.bind_none, Option.bind_some]

def pruneTags (rt : ReadyTransactions H T) (tag : T) :
    Option (ReadyTransactions H T × List (Transaction H T)) :=
  rt.pruneTagsLoop [tag] []

/-- The number of tags `u` requires that the map of provided tags sends to `hash`. -/
def linksTo (providedTags : T → Option H) (u : ReadyTx H T) (hash : H) : ℕ :=
  u.transaction.transaction.requires.countP fun tag => providedTags tag = some hash

/-- The four indexes of the queue agree: the map of provided tags, the `unlocks` lists, the
offsets and `best`. -/
structure Consistent (rt : ReadyTransactions H T) : Prop where
  provided : ∀ hash tx tag, rt.ready.lookup hash = some tx →
    tag ∈ tx.transaction.transaction.provides → ∃ hash' tx', rt.providedTags tag = some hash' ∧
      rt.ready.lookup hash' = some tx' ∧ tag ∈ tx'.transaction.transaction.provides
  onlyProvided : ∀ tag hash, rt.providedTags tag = some hash →
    ∃ tx, rt.ready.lookup hash = some tx ∧ tag ∈ tx.transaction.transaction.provides
  unlocks : ∀ hash tx, rt.ready.lookup hash = some tx → ∀ u,
    tx.unlocks.count u = ((rt.ready.lookup u).map fun ru => linksTo rt.providedTags ru hash).getD 0
  requiresOffset : ∀ hash tx, rt.ready.lookup hash = some tx →
    tx.requiresOffset = tx.transaction.transaction.requires.countP fun tag => rt.providedTags tag = none
  best : ∀ key, key ∈ rt.best.map TransactionRef.key ↔ ∃ hash tx, rt.ready.lookup hash = some tx ∧
    tx.transaction.key = key ∧ tx.requiresOffset = tx.transaction.transaction.requires.length

end ReadyTransactions

inductive Call (H T : Type)
  | importTx (tx : WaitingTransaction H T)
  | removeSubtree (hashes : List H)
  | pruneTags (tag : T)

namespace ReadyTransactions

/-- The queue after a call; `none` when the call panics. -/
def exec (rt : ReadyTransactions H T) : Call H T → Option (ReadyTransactions H T)
  | .importTx tx => (rt.importTx tx).map (·.1)
  | .removeSubtree hashes => some (rt.removeSubtree hashes).1
  | .pruneTags tag => (rt.pruneTags tag).map (·.1)

def run (calls : List (Call H T)) : Option (ReadyTransactions H T) :=
  calls.foldlM exec default

end ReadyTransactions

/-- A transaction that provides tag `0`. -/
def provider : WaitingTransaction ℕ ℕ := ⟨⟨1, 1, 0, [], [0], 0⟩, [], 0⟩

/-- A transaction that requires tag `0` and provides tag `1`. -/
def dependent : WaitingTransaction ℕ ℕ := ⟨⟨2, 1, 0, [0], [1], 0⟩, [], 0⟩

namespace ReadyTransactions

omit [DecidableEq T] in
theorem Consistent.mem_unlocks {rt : ReadyTransactions H T} (hc : rt.Consistent) {hash u : H}
    {tx : ReadyTx H T} (h : rt.ready.lookup hash = some tx) (hu : u ∈ tx.unlocks) :
    (rt.ready.lookup u).isSome := by
  have hcount := hc.unlocks hash tx h u
  rw [← List.count_pos_iff] at hu
  cases hlookup : rt.ready.lookup u with
  | none => simp [hlookup] at hcount; omega
  | some _ => rfl

/-- Removing the dependent transaction leaves its hash in the `unlocks` of its provider; once it
is imported again, pruning the provider's tag meets its one requirement twice. -/
theorem removeSubtree_keeps_stale_unlock :
    (∃ rt, run [.importTx provider, .importTx dependent, .removeSubtree [2]] = some rt ∧
      (rt.ready.lookup 1).map (·.unlocks) = some [2] ∧ rt.ready.lookup 2 = none ∧
      ¬ rt.Consistent) ∧
    ∃ rt, run [.importTx provider, .importTx dependent, .removeSubtree [2], .importTx dependent,
        .pruneTags 0] = some rt ∧
      (rt.ready.lookup 2).map (·.requiresOffset) = some 2 ∧ ¬ rt.Consistent := by
  constructor
  · obtain ⟨rt, hrun, hprovider, hdependent⟩ : ∃ rt,
        run [.importTx provider, .importTx dependent, .removeSubtree [2]] = some rt ∧
          rt.ready.lookup 1 = some ⟨⟨provider.transaction, 1⟩, [2], 0⟩ ∧
          rt.ready.lookup 2 = none := by
      simp [run, exec, removeSubtree, removeSubtreeWithTagFilter, removeSubtreeLoop_cons,
        removeSubtreeLoop, removeEntry, importTx, replacePrevious, linkRequires, provider,
        dependent, ReadyTransactions.default, contains, AList.lookup_replace, unlinkRequires,
        modifyReady, invalidated, removeItem, -AList.insert_empty, AList.lookup_empty]
    refine ⟨rt, hrun, by simp [hprovider], hdependent, fun hc => ?_⟩
    simpa [hdependent] using hc.mem_unlocks hprovider (u := 2) (by simp)
  · obtain ⟨rt, hrun, hdependent, htag⟩ : ∃ rt,
        run [.importTx provider, .importTx dependent, .removeSubtree [2], .importTx dependent,
          .pruneTags 0] = some rt ∧
          rt.ready.lookup 2 = some ⟨⟨dependent.transaction, 3⟩, [], 2⟩ ∧
          rt.providedTags 0 = none := by
      simp [run, exec, removeSubtree, removeSubtreeWithTagFilter, removeSubtreeLoop_cons,
        removeSubtreeLoop, removeEntry, importTx, replacePrevious, linkRequires, provider,
        dependent, ReadyTransactions.default, contains, AList.lookup_replace, unlinkRequires,
        modifyReady, invalidated, removeItem, -AList.insert_empty, AList.lookup_empty,
        pruneTags, pruneTagsLoop_cons, pruneTagsLoop, pruneEntry, prunePrevious, unlock,
        clearProvides]
    refine ⟨rt, hrun, by simp [hdependent], fun hc => ?_⟩
    have hoffset := hc.requiresOffset 2 _ hdependent
    simp [dependent, htag] at hoffset

end ReadyTransactions

end Tetcore.TxPool
