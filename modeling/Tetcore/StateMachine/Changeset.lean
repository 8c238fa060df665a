import Mathlib
import Tetcore.Lib.Outcome

/-!
# The transactional overlay of storage changes

`primitives/state-machine/src/overlayed_changes/changeset.rs`. An `OverlayedMap` keeps, for each
key it changed, the versions of the value written by the open transactions (one per transaction
that wrote the key) over the committed one, and for each open transaction the set of keys it
wrote. `OverlayedChangeSet` is the map of storage keys to optional values, with `modify` and
`clear_where` on top.

Versions are kept newest first, where the `SmallVec` keeps them newest last; the dirty-key sets
are a list, innermost transaction first. A set is a list without repeated keys; it is iterated in
list order, one of the orders a `HashSet` may use. An entry carries a proof that it has a version,
as `PROOF_OVERLAY_NON_EMPTY` states; the `expect`s that rely on something else panic in the model.
-/

namespace Tetcore.StateMachine

/-- `Extrinsics`: the indices of the extrinsics that wrote a version, in order. -/
structure Extrinsics where
  indices : List ℕ := []
  deriving DecidableEq, Repr

namespace Extrinsics

/-- `Extrinsics::insert`: an index equal to the last one is not repeated. -/
def insert (e : Extrinsics) (ext : ℕ) : Extrinsics :=
  if e.indices.getLast? = some ext then e else ⟨e.indices ++ [ext]⟩

/-- `Extrinsics::extend`. -/
def extend (e other : Extrinsics) : Extrinsics := ⟨e.indices ++ other.indices⟩

end Extrinsics

/-- `InnerValue`. -/
structure InnerValue (V : Type) where
  value : V
  extrinsics : Extrinsics
  deriving DecidableEq, Repr

variable {K V : Type}

/-- `OverlayedEntry::set` on the versions of an entry, `or_default()` giving none: a first write in
a transaction, or a write to no version, pushes a version; another write replaces the newest. -/
def setVersions (transactions : List (InnerValue V)) (value : V) (firstWriteInTx : Bool)
    (atExtrinsic : Option ℕ) : List (InnerValue V) :=
  let transactions :=
    if firstWriteInTx || transactions.isEmpty then ⟨value, {}⟩ :: transactions
    else match transactions with
      | t :: ts => { t with value } :: ts
      | [] => []
  match atExtrinsic, transactions with
  | some ext, t :: ts => { t with extrinsics := t.extrinsics.insert ext } :: ts
  | _, ts => ts

theorem setVersions_ne_nil (transactions : List (InnerValue V)) (value : V) (firstWriteInTx : Bool)
    (atExtrinsic : Option ℕ) : setVersions transactions value firstWriteInTx atExtrinsic ≠ [] := by
  unfold setVersions
  cases transactions <;> cases firstWriteInTx <;> cases atExtrinsic <;> simp

/-- `OverlayedEntry`: the versions of a value, newest first, at least one. -/
structure OverlayedEntry (V : Type) where
  transactions : List (InnerValue V)
  nonempty : transactions ≠ []

namespace OverlayedEntry

/-- `OverlayedEntry::value_ref`: the newest version. -/
def valueRef (e : OverlayedEntry V) : V := (e.transactions.head e.nonempty).value

/-- `OverlayedEntry::set`. -/
def set (e : OverlayedEntry V) (value : V) (firstWriteInTx : Bool) (atExtrinsic : Option ℕ) :
    OverlayedEntry V :=
  ⟨setVersions e.transactions value firstWriteInTx atExtrinsic, setVersions_ne_nil _ _ _ _⟩

/-- `OverlayedEntry::extrinsics`: the indices recorded by any version. -/
def extrinsics (e : OverlayedEntry V) : Finset ℕ :=
  (e.transactions.flatMap fun t => t.extrinsics.indices).toFinset

end OverlayedEntry

/-- `ExecutionMode`. -/
inductive ExecutionMode
  | client
  | runtime
  deriving DecidableEq, Repr

/-- `NoOpenTransaction`. -/
structure NoOpenTransaction where
  deriving DecidableEq, Repr

/-- `AlreadyInRuntime`. -/
structure AlreadyInRuntime where
  deriving DecidableEq, Repr

/-- `NotInRuntime`. -/
structure NotInRuntime where
  deriving DecidableEq, Repr

/-- `insert_dirty`: whether this is the first write of the key in the innermost transaction. -/
def insertDirty [DecidableEq K] (dirtyKeys : List (List K)) (key : K) : Bool × List (List K) :=
  match dirtyKeys with
  | [] => (false, [])
  | d :: ds => if key ∈ d then (false, d :: ds) else (true, (key :: d) :: ds)

/-- `OverlayedMap`. -/
structure OverlayedMap (K V : Type) [Ord K] where
  changes : Std.TreeMap K (OverlayedEntry V) compare
  dirtyKeys : List (List K)
  numClientTransactions : ℕ
  executionMode : ExecutionMode

/-- `OverlayedChangeSet`: values are optional, `None` for a deleted value. -/
abbrev OverlayedChangeSet (K W : Type) [Ord K] := OverlayedMap K (Option W)

namespace OverlayedMap

variable [Ord K] [DecidableEq K]

/-- `OverlayedMap::default`. -/
def empty : OverlayedMap K V := ⟨∅, [], 0, .client⟩

variable (m : OverlayedMap K V)

/-- `OverlayedMap::get`. -/
def get (key : K) : Option (OverlayedEntry V) := m.changes[key]?

/-- `OverlayedMap::transaction_depth`. -/
def transactionDepth : ℕ := m.dirtyKeys.length

/-- `OverlayedMap::is_empty`. -/
def isEmpty : Bool := m.changes.isEmpty

/-- `OverlayedMap::spawn_child`: no changes, and the transaction state of the parent. -/
def spawnChild : OverlayedMap K V :=
  ⟨∅, List.replicate m.transactionDepth [], m.numClientTransactions, m.executionMode⟩

/-- The versions `or_default()` gives for a key. -/
def versionsOf (key : K) : List (InnerValue V) := ((m.get key).map (·.transactions)).getD []

/-- `OverlayedMap::set`. -/
def set (key : K) (value : V) (atExtrinsic : Option ℕ) : OverlayedMap K V :=
  let dirty := insertDirty m.dirtyKeys key
  { m with
    changes := m.changes.insert key
      ⟨setVersions (m.versionsOf key) value dirty.1 atExtrinsic, setVersions_ne_nil _ _ _ _⟩
    dirtyKeys := dirty.2 }

/-- `OverlayedMap::start_transaction`. -/
def startTransaction : OverlayedMap K V := { m with dirtyKeys := [] :: m.dirtyKeys }

/-- `OverlayedMap::has_open_runtime_transactions`. -/
def hasOpenRuntimeTransactions : Bool := m.transactionDepth > m.numClientTransactions

/-- The body of the loop of `close_transaction` for one key of the closed transaction, with that
transaction's dirty set already popped. Rollback drops the key's newest version and the entry with
it when it was the last; commit merges the newest version into the one below when the parent
transaction, or the committed set, already had one: `!dirty_keys.insert(key)` on the parent's
dirty set, or `transactions.len() > 1` when no transaction is left. -/
def closeKey (rollback : Bool) (m : OverlayedMap K V) (key : K) :
    Outcome NoOpenTransaction (OverlayedMap K V) :=
  match m.changes[key]? with
  | none => .panic
  | some overlayed =>
    if rollback then
      match overlayed.transactions with
      | [] => .panic
      | [_] => .ok { m with changes := m.changes.erase key }
      | _ :: t :: ts => .ok { m with changes := m.changes.insert key ⟨t :: ts, List.cons_ne_nil _ _⟩ }
    else
      let parent := insertDirty m.dirtyKeys key
      let hasPredecessor :=
        if m.dirtyKeys.isEmpty then decide (overlayed.transactions.length > 1) else !parent.1
      if hasPredecessor then
        match overlayed.transactions with
        | dropped :: t :: ts =>
          .ok { m with
            changes := m.changes.insert key
              ⟨{ value := dropped.value, extrinsics := t.extrinsics.extend dropped.extrinsics } :: ts,
                List.cons_ne_nil _ _⟩
            dirtyKeys := parent.2 }
        | _ => .panic
      else .ok { m with dirtyKeys := parent.2 }

/-- `OverlayedMap::close_transaction`: the runtime may not close a transaction the client opened. -/
def closeTransaction (rollback : Bool) : Outcome NoOpenTransaction (OverlayedMap K V) :=
  if m.executionMode = .runtime ∧ m.hasOpenRuntimeTransactions = false then .err ⟨⟩
  else match m.dirtyKeys with
    | [] => .err ⟨⟩
    | top :: rest => top.foldlM (closeKey rollback) { m with dirtyKeys := rest }

/-- `OverlayedMap::rollback_transaction`. -/
def rollbackTransaction : Outcome NoOpenTransaction (OverlayedMap K V) := m.closeTransaction true

/-- `OverlayedMap::commit_transaction`. -/
def commitTransaction : Outcome NoOpenTransaction (OverlayedMap K V) := m.closeTransaction false

/-- `OverlayedMap::enter_runtime`. -/
def enterRuntime : Except AlreadyInRuntime (OverlayedMap K V) :=
  match m.executionMode with
  | .runtime => .error ⟨⟩
  | .client => .ok { m with executionMode := .runtime, numClientTransactions := m.transactionDepth }

/-- The loop of `exit_runtime`: roll back while the runtime left transactions open. Each round
closes one transaction, so the depth is enough rounds. -/
def rollbackRuntimeTransactions : ℕ → OverlayedMap K V → Outcome NotInRuntime (OverlayedMap K V)
  | 0, m => .ok m
  | fuel + 1, m =>
    if m.hasOpenRuntimeTransactions then
      match m.rollbackTransaction with
      | .ok m => rollbackRuntimeTransactions fuel m
      | _ => .panic
    else .ok m

/-- `OverlayedMap::exit_runtime`. -/
def exitRuntime : Outcome NotInRuntime (OverlayedMap K V) :=
  match m.executionMode with
  | .client => .err ⟨⟩
  | .runtime => rollbackRuntimeTransactions m.transactionDepth { m with executionMode := .client }

/-- `OverlayedMap::drain_commited`: the newest version of every key, in key order. -/
def drainCommited : Outcome Empty (List (K × V)) :=
  if m.transactionDepth = 0 then .ok (m.changes.toList.map fun (k, e) => (k, e.valueRef))
  else .panic

end OverlayedMap

namespace OverlayedChangeSet

variable {W : Type} [Ord K] [DecidableEq K] (m : OverlayedChangeSet K W)

/-- `OverlayedChangeSet::modify`, with the write the caller makes through the returned reference:
the first write of a transaction copies the newest version, a key with no version starts from
`Some(init())`, and `write` then changes the newest version. -/
def modify (key : K) (init : W) (write : Option W → Option W) (atExtrinsic : Option ℕ) :
    OverlayedChangeSet K W :=
  let transactions := m.versionsOf key
  let dirty := insertDirty m.dirtyKeys key
  let cloneIntoNewTx := match transactions with
    | t :: _ => if dirty.1 then some t.value else none
    | [] => some (some init)
  let overlayed : OverlayedEntry (Option W) := match cloneIntoNewTx, transactions with
    | some cloned, ts => ⟨setVersions ts cloned dirty.1 atExtrinsic, setVersions_ne_nil _ _ _ _⟩
    | none, t :: ts => ⟨t :: ts, List.cons_ne_nil _ _⟩
    | none, [] => ⟨[⟨some init, {}⟩], List.cons_ne_nil _ _⟩
  let written : OverlayedEntry (Option W) := match overlayed with
    | ⟨t :: ts, _⟩ => ⟨{ t with value := write t.value } :: ts, List.cons_ne_nil _ _⟩
  { m with changes := m.changes.insert key written, dirtyKeys := dirty.2 }

/-- The body of the loop of `clear_where` for one entry, as the iteration yields it. -/
def clearEntry (predicate : K → OverlayedEntry (Option W) → Bool) (atExtrinsic : Option ℕ)
    (m : OverlayedChangeSet K W) (entry : K × OverlayedEntry (Option W)) : OverlayedChangeSet K W :=
  let (key, val) := entry
  if predicate key val then
    let dirty := insertDirty m.dirtyKeys key
    { m with changes := m.changes.insert key (val.set none dirty.1 atExtrinsic), dirtyKeys := dirty.2 }
  else m

/-- `OverlayedChangeSet::clear_where`: every entry the predicate selects gets the value `None`,
recorded like a `set`. -/
def clearWhere (predicate : K → OverlayedEntry (Option W) → Bool) (atExtrinsic : Option ℕ) :
    OverlayedChangeSet K W :=
  m.changes.toList.foldl (clearEntry predicate atExtrinsic) m

/-- The calls on a change set. -/
inductive Call (K W : Type)
  | set (key : K) (value : Option W) (atExtrinsic : Option ℕ)
  | modify (key : K) (init : W) (write : Option W → Option W) (atExtrinsic : Option ℕ)
  | clearWhere (predicate : K → OverlayedEntry (Option W) → Bool) (atExtrinsic : Option ℕ)
  | startTransaction
  | commitTransaction
  | rollbackTransaction
  | enterRuntime
  | exitRuntime

/-- Make a call: the change set after it, `none` when it panicked. A call that returns an error
leaves the change set as it was. -/
def exec : Call K W → Option (OverlayedChangeSet K W)
  | .set key value atExtrinsic => some (m.set key value atExtrinsic)
  | .modify key init write atExtrinsic => some (modify m key init write atExtrinsic)
  | .clearWhere predicate atExtrinsic => some (clearWhere m predicate atExtrinsic)
  | .startTransaction => some m.startTransaction
  | .commitTransaction => m.commitTransaction.after m
  | .rollbackTransaction => m.rollbackTransaction.after m
  | .enterRuntime => (Outcome.ofExcept m.enterRuntime).after m
  | .exitRuntime => m.exitRuntime.after m

end OverlayedChangeSet

end Tetcore.StateMachine
