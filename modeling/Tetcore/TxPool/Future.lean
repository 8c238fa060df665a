import Mathlib
import Tetcore.TxPool.Ready

/-!
# The future queue of the transaction pool

`client/transaction-pool/graph/src/future.rs`. A future transaction misses some of the tags it
requires; for each tag the queue keeps the set of waiting transactions that want it, and
`satisfy_tags` hands back the transactions that miss nothing more. A `HashSet` is a list without
duplicates, and `Instant::now()` is a number the caller passes.
-/

namespace Tetcore.TxPool

variable {H T : Type} [DecidableEq H] [DecidableEq T]

namespace WaitingTransaction

/-- `WaitingTransaction::new`: the tags required that neither a ready transaction nor a recent
pruning provides. -/
def new (transaction : Transaction H T) (provided : T → Option H) (recentlyPruned : List (List T))
    (importedAt : ℕ) : WaitingTransaction H T :=
  let isProvided tag := (provided tag).isSome || recentlyPruned.any fun pruned => pruned.contains tag
  ⟨transaction, (transaction.requires.filter fun tag => !isProvided tag).dedup, importedAt⟩

def satisfyTag (tx : WaitingTransaction H T) (tag : T) : WaitingTransaction H T :=
  { tx with missingTags := tx.missingTags.erase tag }

def isReady (tx : WaitingTransaction H T) : Bool := tx.missingTags.isEmpty

end WaitingTransaction

abbrev WaitingMap (H T : Type) [DecidableEq H] := AList fun _ : H => WaitingTransaction H T

structure FutureTransactions (H T : Type) [DecidableEq H] where
  wantedTags : T → List H
  waiting : WaitingMap H T

namespace FutureTransactions

def default : FutureTransactions H T := ⟨fun _ => [], ∅⟩

def contains (future : FutureTransactions H T) (hash : H) : Bool :=
  (future.waiting.lookup hash).isSome

/-- `import`: `none` when an assertion fails. -/
def importTx (future : FutureTransactions H T) (tx : WaitingTransaction H T) :
    Option (FutureTransactions H T) :=
  if tx.isReady || future.contains tx.transaction.hash then none
  else
    let hash := tx.transaction.hash
    some ⟨tx.missingTags.foldl (fun wanted tag => Function.update wanted tag ((wanted tag).insert hash))
      future.wantedTags, future.waiting.insert hash tx⟩

/-- The loop of `satisfy_tags` over the transactions that wanted `tag`; `none` when one of them
is not waiting (`expect(WAITING_PROOF)`). -/
def satisfyHashes (tag : T) : WaitingMap H T → List H → List (WaitingTransaction H T) →
    Option (WaitingMap H T × List (WaitingTransaction H T))
  | waiting, [], becameReady => some (waiting, becameReady)
  | waiting, hash :: hashes, becameReady =>
    match waiting.lookup hash with
    | none => none
    | some tx =>
      let tx := tx.satisfyTag tag
      if tx.isReady then satisfyHashes tag (waiting.erase hash) hashes (becameReady ++ [tx])
      else satisfyHashes tag (waiting.replace hash tx) hashes becameReady

/-- `satisfy_tags`: the queue after it and the transactions that became ready, in order. -/
def satisfyTags (future : FutureTransactions H T) :
    List T → List (WaitingTransaction H T) →
      Option (FutureTransactions H T × List (WaitingTransaction H T))
  | [], becameReady => some (future, becameReady)
  | tag :: tags, becameReady =>
    (satisfyHashes tag future.waiting (future.wantedTags tag) becameReady).bind
      fun (waiting, becameReady) =>
        satisfyTags ⟨Function.update future.wantedTags tag [], waiting⟩ tags becameReady

/-- `remove`: the queue after it and the transactions it removed, in order. -/
def remove (future : FutureTransactions H T) :
    List H → FutureTransactions H T × List (Transaction H T)
  | [] => (future, [])
  | hash :: hashes =>
    match future.waiting.lookup hash with
    | none => remove future hashes
    | some waitingTx =>
      let wantedTags := waitingTx.missingTags.foldl
        (fun wanted tag => Function.update wanted tag ((wanted tag).erase hash)) future.wantedTags
      let (future, removed) := remove ⟨wantedTags, future.waiting.erase hash⟩ hashes
      (future, waitingTx.transaction :: removed)

def clear (future : FutureTransactions H T) : FutureTransactions H T × List (Transaction H T) :=
  (default, future.waiting.entries.map (·.2.transaction))

def len (future : FutureTransactions H T) : ℕ := future.waiting.keys.length

def bytes (future : FutureTransactions H T) : ℕ :=
  (future.waiting.entries.map (·.2.transaction.bytes)).sum

theorem satisfyHashes_length {tag : T} {waiting waiting' : WaitingMap H T} {hashes : List H}
    {becameReady becameReady' : List (WaitingTransaction H T)}
    (h : satisfyHashes tag waiting hashes becameReady = some (waiting', becameReady')) :
    waiting'.keys.length + becameReady'.length = waiting.keys.length + becameReady.length := by
  induction hashes generalizing waiting becameReady with
  | nil =>
    simp only [satisfyHashes, Option.some.injEq, Prod.mk.injEq] at h
    obtain ⟨rfl, rfl⟩ := h
    rfl
  | cons hash hashes ih =>
    simp only [satisfyHashes] at h
    split at h
    · cases h
    · rename_i tx hlookup
      split at h
      · have hmem : hash ∈ waiting.keys :=
          AList.mem_keys.mp (AList.lookup_isSome.mp (by simp [hlookup]))
        rw [ih h, AList.keys_erase, List.length_erase_of_mem hmem, List.length_append,
          List.length_singleton]
        have := List.length_pos_of_mem hmem
        omega
      · rw [ih h, AList.keys_replace]

theorem satisfyTags_length {future future' : FutureTransactions H T} {tags : List T}
    {becameReady becameReady' : List (WaitingTransaction H T)}
    (h : future.satisfyTags tags becameReady = some (future', becameReady')) :
    future'.len + becameReady'.length = future.len + becameReady.length := by
  induction tags generalizing future becameReady with
  | nil =>
    simp only [satisfyTags, Option.some.injEq, Prod.mk.injEq] at h
    obtain ⟨rfl, rfl⟩ := h
    rfl
  | cons tag tags ih =>
    simp only [satisfyTags, Option.bind_eq_some_iff] at h
    obtain ⟨⟨waiting, becameReady''⟩, hsat, hrest⟩ := h
    rw [ih hrest]
    exact satisfyHashes_length hsat

end FutureTransactions

end Tetcore.TxPool
