import Mathlib
import Tetcore.TxPool.Future

/-!
# The transaction pool

`client/transaction-pool/graph/src/base_pool.rs`. The pool holds a ready and a future queue and
the tags pruned by its last two calls of `prune_tags`. A transaction whose requirements are all
met goes to the ready queue together with the future transactions it unlocks; each call reports
what it promoted, replaced, pruned, removed or failed to import.
-/

namespace Tetcore.TxPool

/-- `RECENTLY_PRUNED_TAGS`. -/
abbrev recentlyPrunedTags : ℕ := 2

inductive Imported (H T : Type)
  | ready (hash : H) (promoted failed : List H) (removed : List (Transaction H T))
  | future (hash : H)

structure PruneStatus (H T : Type) where
  promoted : List (Imported H T)
  failed : List H
  pruned : List (Transaction H T)

structure Limit where
  count : ℕ
  totalBytes : ℕ

def Limit.isExceeded (limit : Limit) (count bytes : ℕ) : Bool :=
  limit.count < count || limit.totalBytes < bytes

structure BasePool (H T : Type) [DecidableEq H] where
  rejectFutureTransactions : Bool
  future : FutureTransactions H T
  ready : ReadyTransactions H T
  recentlyPruned : Fin recentlyPrunedTags → List T
  recentlyPrunedIndex : Fin recentlyPrunedTags

namespace BasePool

variable {H T : Type} [DecidableEq H] [DecidableEq T]

/-- `RECENTLY_PRUNED_TAGS` is not zero, so the index of the set of recently pruned tags wraps
around it. -/
local instance neZero_recentlyPrunedTags : NeZero recentlyPrunedTags := ⟨by decide⟩

def new (rejectFutureTransactions : Bool) : BasePool H T :=
  ⟨rejectFutureTransactions, .default, .default, fun _ => [], 0⟩

def isImported (pool : BasePool H T) (hash : H) : Bool :=
  pool.future.contains hash || pool.ready.contains hash

/-- The loop of `import_to_ready` over the stack of transactions to import, with the hashes
promoted, the hashes failed and the transactions replaced so far. The error of the first
transaction is returned at once, with the queues as the loop left them. -/
def importLoop (pool : BasePool H T) :
    List (WaitingTransaction H T) → Bool → List H → List H → List (Transaction H T) →
      Option (BasePool H T × Except (Error H) (List H × List H × List (Transaction H T)))
  | [], _, promoted, failed, removed => some (pool, .ok (promoted, failed, removed))
  | tx :: toImport, first, promoted, failed, removed =>
    match _hsat : pool.future.satisfyTags tx.transaction.provides [] with
    | none => none
    | some (future, satisfied) =>
      let toImport := satisfied.reverse ++ toImport
      let currentHash := tx.transaction.hash
      match pool.ready.importTx tx with
      | none => none
      | some (ready, .ok replaced) =>
        importLoop { pool with future := future, ready := ready } toImport false
          (if first then promoted else promoted ++ [currentHash]) failed (removed ++ replaced)
      | some (ready, .error e) =>
        if first then some ({ pool with future := future, ready := ready }, .error e)
        else importLoop { pool with future := future, ready := ready } toImport false promoted
          (failed ++ [currentHash]) removed
termination_by toImport => pool.future.len + toImport.length
decreasing_by
  all_goals
    have hlen := FutureTransactions.satisfyTags_length _hsat
    simp only [List.length_nil, add_zero] at hlen
    simp only [List.length_append, List.length_reverse, List.length_cons]
    omega

theorem importLoop_cons (pool : BasePool H T) (tx : WaitingTransaction H T)
    (toImport : List (WaitingTransaction H T)) (first : Bool) (promoted failed : List H)
    (removed : List (Transaction H T)) :
    pool.importLoop (tx :: toImport) first promoted failed removed =
      match pool.future.satisfyTags tx.transaction.provides [] with
      | none => none
      | some (future, satisfied) =>
        match pool.ready.importTx tx with
        | none => none
        | some (ready, .ok replaced) =>
          importLoop { pool with future := future, ready := ready } (satisfied.reverse ++ toImport)
            false (if first then promoted else promoted ++ [tx.transaction.hash]) failed
            (removed ++ replaced)
        | some (ready, .error e) =>
          if first then some ({ pool with future := future, ready := ready }, .error e)
          else importLoop { pool with future := future, ready := ready }
            (satisfied.reverse ++ toImport) false promoted (failed ++ [tx.transaction.hash])
            removed := by
  rw [importLoop]
  split <;> rename_i hsat <;> simp only [hsat]

def importToReady (pool : BasePool H T) (tx : WaitingTransaction H T) :
    Option (BasePool H T × Except (Error H) (Imported H T)) :=
  let hash := tx.transaction.hash
  (pool.importLoop [tx] true [] [] []).map fun (pool, result) =>
    match result with
    | .error e => (pool, .error e)
    | .ok (promoted, failed, removed) =>
      if removed.any (·.hash == hash) then
        ({ pool with ready := (pool.ready.removeSubtree promoted).1 }, .error .cycleDetected)
      else (pool, .ok (.ready hash promoted failed removed))

/-- `import`, at the time `now`. -/
def importTx (pool : BasePool H T) (tx : Transaction H T) (now : ℕ) :
    Option (BasePool H T × Except (Error H) (Imported H T)) :=
  if pool.isImported tx.hash then some (pool, .error (.alreadyImported tx.hash))
  else
    let tx := WaitingTransaction.new tx pool.ready.providedTags (List.ofFn pool.recentlyPruned) now
    if !tx.isReady then
      if pool.rejectFutureTransactions then some (pool, .error .rejectedFutureTransaction)
      else (pool.future.importTx tx).map fun future =>
        ({ pool with future := future }, .ok (.future tx.transaction.hash))
    else pool.importToReady tx

theorem importLoop_ok_of_not_first (pool : BasePool H T) (toImport : List (WaitingTransaction H T))
    (first : Bool) (promoted failed : List H) (removed : List (Transaction H T))
    (hfirst : first = false) {r} (h : pool.importLoop toImport first promoted failed removed = some r) :
    ∃ res, r.2 = .ok res := by
  -- on the loop's own recursion; the stack only changes between rounds
  fun_induction importLoop pool toImport first promoted failed removed
  case case1 =>
    rw [← Option.some.inj h]
    exact ⟨_, rfl⟩
  case case2 => cases h
  case case3 => cases h
  case case4 =>
    rename_i ih
    exact ih rfl h
  case case5 => cases hfirst
  case case6 =>
    rename_i ih
    exact ih rfl h

/-- `import_to_ready` fails with `CycleDetected`, or when the first transaction fails to enter
the ready queue; then the ready queue holds the transactions it held and the future queue has
lost those the transaction unlocked. -/
theorem importToReady_error {pool pool' : BasePool H T} {tx : WaitingTransaction H T} {e : Error H}
    (h : pool.importToReady tx = some (pool', .error e)) :
    e = .cycleDetected ∨ pool'.ready.ready = pool.ready.ready ∧
      ∃ satisfied, pool.future.satisfyTags tx.transaction.provides [] =
        some (pool'.future, satisfied) := by
  unfold importToReady at h
  rw [importLoop_cons] at h
  cases hsat : pool.future.satisfyTags tx.transaction.provides [] with
  | none => simp [hsat] at h
  | some p =>
    obtain ⟨future, satisfied⟩ := p
    cases hready : pool.ready.importTx tx with
    | none => simp [hsat, hready] at h
    | some q =>
      obtain ⟨ready, res⟩ := q
      cases res with
      | error e' =>
        simp only [hsat, hready, if_true, Option.map_some] at h
        -- the first transaction failed: the queues as the loop left them
        obtain ⟨rfl, -⟩ := Prod.mk.inj (Option.some.inj h)
        exact Or.inr ⟨ReadyTransactions.importTx_error hready, satisfied, rfl⟩
      | ok replaced =>
        simp only [hsat, hready] at h
        obtain ⟨r, hloop, hr⟩ := Option.map_eq_some_iff.mp h
        obtain ⟨res, hres⟩ := importLoop_ok_of_not_first _ _ false _ _ _ rfl hloop
        obtain ⟨pool'', result⟩ := r
        dsimp only at hres hr
        subst hres
        obtain ⟨promoted, failed, removed⟩ := res
        dsimp only at hr
        split at hr
        case isTrue =>
          obtain ⟨-, he⟩ := Prod.mk.inj hr
          exact Or.inl (Except.error.inj he).symm
        case isFalse => cases hr

theorem importTx_error_cases {pool pool' : BasePool H T} {tx : Transaction H T} {now : ℕ}
    {e : Error H} (h : pool.importTx tx now = some (pool', .error e)) :
    pool' = pool ∨ e = .cycleDetected ∨ pool'.ready.ready = pool.ready.ready ∧
      ∃ satisfied, pool.future.satisfyTags tx.provides [] = some (pool'.future, satisfied) := by
  unfold importTx at h
  split at h
  case isTrue =>
    cases h
    exact Or.inl rfl
  case isFalse =>
    dsimp only at h
    split at h
    case isTrue =>
      split at h
      case isTrue =>
        cases h
        exact Or.inl rfl
      case isFalse => simp at h
    case isFalse => exact Or.inr (importToReady_error h)

def removeSubtree (pool : BasePool H T) (hashes : List H) :
    BasePool H T × List (Transaction H T) :=
  let (ready, removedReady) := pool.ready.removeSubtree hashes
  let (future, removedFuture) := pool.future.remove hashes
  ({ pool with ready := ready, future := future }, removedReady ++ removedFuture)

def clearFuture (pool : BasePool H T) : BasePool H T × List (Transaction H T) :=
  let (future, removed) := pool.future.clear
  ({ pool with future := future }, removed)

/-- The loop of `prune_tags` over the tags: the future transactions each tag makes ready and the
ready transactions it prunes; the tag joins the set of recently pruned tags at `index`. -/
def pruneTagsLoop (index : Fin recentlyPrunedTags) (pool : BasePool H T) :
    List T → List (WaitingTransaction H T) → List (Transaction H T) →
      Option (BasePool H T × List (WaitingTransaction H T) × List (Transaction H T))
  | [], toImport, pruned => some (pool, toImport, pruned)
  | tag :: tags, toImport, pruned =>
    (pool.future.satisfyTags [tag] []).bind fun (future, satisfied) =>
      (pool.ready.pruneTags tag).bind fun (ready, prunedReady) =>
        let recentlyPruned := Function.update pool.recentlyPruned index
          ((pool.recentlyPruned index).insert tag)
        pruneTagsLoop index
          ⟨pool.rejectFutureTransactions, future, ready, recentlyPruned, pool.recentlyPrunedIndex⟩
          tags (toImport ++ satisfied) (pruned ++ prunedReady)

/-- The loop of `prune_tags` over the transactions to promote: a failed one is reported by its
hash. -/
def promote (pool : BasePool H T) :
    List (WaitingTransaction H T) → List (Imported H T) → List H →
      Option (BasePool H T × List (Imported H T) × List H)
  | [], promoted, failed => some (pool, promoted, failed)
  | tx :: toImport, promoted, failed =>
    (pool.importToReady tx).bind fun (pool, result) =>
      match result with
      | .ok imported => promote pool toImport (promoted ++ [imported]) failed
      | .error _ => promote pool toImport promoted (failed ++ [tx.transaction.hash])

def pruneTags (pool : BasePool H T) (tags : List T) : Option (BasePool H T × PruneStatus H T) :=
  let index := pool.recentlyPrunedIndex
  let pool := { pool with
    recentlyPruned := Function.update pool.recentlyPruned index []
    recentlyPrunedIndex := index + 1 }
  (pool.pruneTagsLoop index tags [] []).bind fun (pool, toImport, pruned) =>
    (pool.promote toImport [] []).map fun (pool, promoted, failed) =>
      (pool, ⟨promoted, failed, pruned⟩)

/-- The fold of `enforce_limits` over the ready queue: the transaction inserted first. -/
def minimalReady (ready : ReadyMap H T) : Option (TransactionRef H T) :=
  ready.entries.foldl (fun minimal current =>
    match minimal with
    | none => some current.2.transaction
    | some tx =>
      if tx.insertionId > current.2.transaction.insertionId then some current.2.transaction
      else some tx) none

/-- The fold of `enforce_limits` over the future queue: the first transaction imported earliest. -/
def minimalFuture (waiting : WaitingMap H T) : Option (WaitingTransaction H T) :=
  waiting.entries.foldl (fun minimal current =>
    match minimal with
    | none => some current.2
    | some tx => if tx.importedAt > current.2.importedAt then some current.2 else some tx) none

/-- The first loop of `enforce_limits`. Each round that removes a ready transaction spends one
unit of `fuel`, which starts at the number of ready transactions; a round that removes none
leaves the queue as it was, so the source loops for ever, and the fuel runs out (`none`). -/
def enforceReady (limit : Limit) :
    ℕ → BasePool H T → List (Transaction H T) → Option (BasePool H T × List (Transaction H T))
  | fuel, pool, removed =>
    if limit.isExceeded pool.ready.len pool.ready.bytes then
      match fuel, minimalReady pool.ready.ready with
      | _, none => some (pool, removed)
      | 0, some _ => none
      | fuel + 1, some minimal =>
        let (pool, removedNow) := pool.removeSubtree [minimal.transaction.hash]
        enforceReady limit fuel pool (removed ++ removedNow)
    else some (pool, removed)

/-- The second loop of `enforce_limits`, with fuel as in `enforceReady`. -/
def enforceFuture (limit : Limit) :
    ℕ → BasePool H T → List (Transaction H T) → Option (BasePool H T × List (Transaction H T))
  | fuel, pool, removed =>
    if limit.isExceeded pool.future.len pool.future.bytes then
      match fuel, minimalFuture pool.future.waiting with
      | _, none => some (pool, removed)
      | 0, some _ => none
      | fuel + 1, some minimal =>
        let (pool, removedNow) := pool.removeSubtree [minimal.transaction.hash]
        enforceFuture limit fuel pool (removed ++ removedNow)
    else some (pool, removed)

def enforceLimits (pool : BasePool H T) (ready future : Limit) :
    Option (BasePool H T × List (Transaction H T)) :=
  (enforceReady ready pool.ready.len pool []).bind fun (pool, removed) =>
    enforceFuture future pool.future.len pool removed

inductive Call (H T : Type)
  | importTx (tx : Transaction H T) (now : ℕ)
  | removeSubtree (hashes : List H)
  | pruneTags (tags : List T)
  | enforceLimits (ready future : Limit)
  | clearFuture

/-- The pool after a call; `none` when the call panics or does not return. -/
def exec (pool : BasePool H T) : Call H T → Option (BasePool H T)
  | .importTx tx now => (pool.importTx tx now).map (·.1)
  | .removeSubtree hashes => some (pool.removeSubtree hashes).1
  | .pruneTags tags => (pool.pruneTags tags).map (·.1)
  | .enforceLimits ready future => (pool.enforceLimits ready future).map (·.1)
  | .clearFuture => some pool.clearFuture.1

def run (calls : List (Call H T)) : Option (BasePool H T) :=
  calls.foldlM exec (new false)

end BasePool

/-- A ready transaction of priority `10` that provides tag `0`. -/
def readyProvider : Transaction ℕ ℕ := ⟨1, 10, 0, [], [0], 0⟩

/-- A transaction of priority `1` that waits for tag `2` and provides tags `0` and `1`. -/
def futureProvider : Transaction ℕ ℕ := ⟨2, 1, 0, [2], [0, 1], 0⟩

/-- A transaction that waits for tag `1`. -/
def futureDependent : Transaction ℕ ℕ := ⟨3, 1, 0, [1], [], 0⟩

open BasePool in
/-- `prune_tags` makes `futureProvider` ready, whose import takes `futureDependent` out of the
future queue and then fails, since the ready provider of tag `0` has the higher priority: the
dependent transaction leaves the pool, and the report names only the failed one. -/
theorem pruneTags_drops_unlocked_future :
    ∃ pool pool', run [.importTx readyProvider 0, .importTx futureProvider 0,
        .importTx futureDependent 0] = some pool ∧
      pool.isImported futureDependent.hash = true ∧
      pool.pruneTags [2] = some (pool', ⟨[], [futureProvider.hash], []⟩) ∧
      pool'.isImported futureDependent.hash = false := by
  simp [run, exec, BasePool.importTx, new, isImported, FutureTransactions.contains,
    ReadyTransactions.contains, ReadyTransactions.default, FutureTransactions.default,
    WaitingTransaction.new, WaitingTransaction.isReady, importToReady, importLoop_cons, importLoop,
    ReadyTransactions.importTx, ReadyTransactions.replacePrevious, ReadyTransactions.linkRequires,
    FutureTransactions.importTx, readyProvider, futureProvider, futureDependent,
    -AList.insert_empty, AList.lookup_empty, FutureTransactions.satisfyTags,
    FutureTransactions.satisfyHashes, WaitingTransaction.satisfyTag, BasePool.pruneTags,
    pruneTagsLoop, promote, ReadyTransactions.pruneTags, ReadyTransactions.pruneTagsLoop_cons,
    ReadyTransactions.pruneTagsLoop, Saturating.add]

/-- A ready transaction of priority `1` that provides tags `0` and `1`. -/
def lowProvider : Transaction ℕ ℕ := ⟨4, 1, 0, [], [0, 1], 0⟩

open BasePool in
/-- `import` of `lowProvider` takes `futureDependent` out of the future queue, then fails with
`TooLowPriority` since the ready provider of tag `0` has the higher priority: the call returns an
error and the dependent transaction has left the pool. -/
theorem import_error_drops_unlocked_future :
    ∃ pool pool' e, run [.importTx readyProvider 0, .importTx futureDependent 0] = some pool ∧
      pool.isImported futureDependent.hash = true ∧
      pool.importTx lowProvider 0 = some (pool', .error e) ∧
      pool'.isImported futureDependent.hash = false := by
  simp [run, exec, BasePool.importTx, new, isImported, FutureTransactions.contains,
    ReadyTransactions.contains, ReadyTransactions.default, FutureTransactions.default,
    WaitingTransaction.new, WaitingTransaction.isReady, importToReady, importLoop_cons, importLoop,
    ReadyTransactions.importTx, ReadyTransactions.replacePrevious, ReadyTransactions.linkRequires,
    FutureTransactions.importTx, readyProvider, lowProvider, futureDependent,
    -AList.insert_empty, AList.lookup_empty, FutureTransactions.satisfyTags,
    FutureTransactions.satisfyHashes, WaitingTransaction.satisfyTag, Saturating.add]

end Tetcore.TxPool
