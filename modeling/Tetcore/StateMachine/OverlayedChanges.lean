import Tetcore.StateMachine.Changeset
import Tetcore.Lib.Run

/-!
# The overlay of all storage changes

`primitives/state-machine/src/overlayed_changes/mod.rs`. `OverlayedChanges` holds the change set of
the top trie, one change set per child trie, and the offchain overlay, and makes every
transaction call on all of them; the calls on the children and on the offchain overlay `expect`
to succeed once the top one has.

A child trie's `ChildInfo` is its storage key (`ChildInfo::new_default`), so the children are
keyed by the storage key alone and the `try_update` of `set_child_storage` always succeeds. The
extrinsic index a write records, which `extrinsic_index` reads from storage, is a parameter of the
call; the read and write statistics are left out. The children map is a `HashMap` in the source;
its order of iteration decides nothing here, since a failing child panics whichever comes first.
-/

namespace Tetcore.StateMachine

/-- `StorageKey`. -/
abbrev StorageKey := List UInt8

/-- `StorageValue`. -/
abbrev StorageValue := List UInt8

/-- `OffchainOverlayedChange`. -/
inductive OffchainOverlayedChange
  | remove
  | setValue (value : List UInt8)
  deriving DecidableEq, Repr

/-- The offchain overlay is keyed by a prefix and a key, in lexicographic order. -/
instance : Ord (StorageKey × StorageKey) := lexOrd

/-- `offchain::STORAGE_PREFIX`, `b"storage"`. -/
def storagePrefix : StorageKey := [0x73, 0x74, 0x6f, 0x72, 0x61, 0x67, 0x65]

/-- `OffchainOverlayedChanges`. -/
abbrev OffchainOverlayedChanges := OverlayedMap (StorageKey × StorageKey) OffchainOverlayedChange

/-- The change sets of the child tries, by storage key. -/
abbrev ChildChanges := Std.TreeMap StorageKey (OverlayedChangeSet StorageKey StorageValue) compare

/-- `OverlayedChanges`. -/
structure OverlayedChanges where
  top : OverlayedChangeSet StorageKey StorageValue
  children : ChildChanges
  offchain : OffchainOverlayedChanges

/-- Make a call on every child change set: a child for which it fails panics (the `expect`), and
`keep` says which children stay in the map (`retain_map` drops those a rollback emptied). -/
def forEachChild {ε ε' : Type}
    (f : OverlayedChangeSet StorageKey StorageValue →
      Outcome ε (OverlayedChangeSet StorageKey StorageValue))
    (keep : OverlayedChangeSet StorageKey StorageValue → Bool) (children : ChildChanges) :
    Outcome ε' ChildChanges :=
  children.toList.foldlM (fun acc entry => do
    let changeset ← (f entry.2).expect
    pure (if keep changeset then acc.insert entry.1 changeset else acc.erase entry.1)) children

namespace OverlayedChanges

variable (oc : OverlayedChanges)

/-- `OverlayedChanges::default`. -/
def empty : OverlayedChanges := ⟨.empty, ∅, .empty⟩

/-- `OverlayedChanges::transaction_depth`: the top change set's. -/
def transactionDepth : ℕ := oc.top.transactionDepth

/-- The change set of a child trie, `top.spawn_child()` when it has none yet. -/
def childOrSpawn (storageKey : StorageKey) : OverlayedChangeSet StorageKey StorageValue :=
  oc.children[storageKey]?.getD oc.top.spawnChild

def setStorage (key : StorageKey) (val : Option StorageValue) (atExtrinsic : Option ℕ) :
    OverlayedChanges :=
  { oc with top := oc.top.set key val atExtrinsic }

def setChildStorage (storageKey key : StorageKey) (val : Option StorageValue)
    (atExtrinsic : Option ℕ) : OverlayedChanges :=
  { oc with
    children := oc.children.insert storageKey ((oc.childOrSpawn storageKey).set key val atExtrinsic) }

def clearChildStorage (storageKey : StorageKey) (atExtrinsic : Option ℕ) : OverlayedChanges :=
  { oc with
    children := oc.children.insert storageKey
      (OverlayedChangeSet.clearWhere (oc.childOrSpawn storageKey) (fun _ _ => true) atExtrinsic) }

def clearPrefix (keyPrefix : StorageKey) (atExtrinsic : Option ℕ) : OverlayedChanges :=
  { oc with
    top := OverlayedChangeSet.clearWhere oc.top (fun key _ => keyPrefix.isPrefixOf key) atExtrinsic }

def clearChildPrefix (storageKey keyPrefix : StorageKey) (atExtrinsic : Option ℕ) :
    OverlayedChanges :=
  { oc with
    children := oc.children.insert storageKey
      (OverlayedChangeSet.clearWhere (oc.childOrSpawn storageKey)
        (fun key _ => keyPrefix.isPrefixOf key) atExtrinsic) }

/-- `value_mut_or_insert_with`, with the write the caller makes through the returned reference:
a deleted value is first set back to the empty value. -/
def valueMutOrInsertWith (key : StorageKey) (init : StorageValue)
    (write : StorageValue → StorageValue) (atExtrinsic : Option ℕ) : OverlayedChanges :=
  { oc with
    top := OverlayedChangeSet.modify oc.top key init (fun v => some (write (v.getD []))) atExtrinsic }

def setOffchainStorage (key : StorageKey) (value : Option StorageValue) : OverlayedChanges :=
  { oc with
    offchain := oc.offchain.set (storagePrefix, key)
      (match value with
        | some value => .setValue value
        | none => .remove) none }

def startTransaction : OverlayedChanges where
  top := oc.top.startTransaction
  children := oc.children.map fun _ changeset => changeset.startTransaction
  offchain := oc.offchain.startTransaction

/-- The shape of the four transaction calls: the call on the top change set, whose error is
returned, then on every child and on the offchain overlay, which `expect` it to succeed. -/
def transactionCall {ε : Type}
    (call : ∀ {K V : Type} [Ord K] [DecidableEq K], OverlayedMap K V → Outcome ε (OverlayedMap K V))
    (keep : OverlayedChangeSet StorageKey StorageValue → Bool) : Outcome ε OverlayedChanges := do
  let top ← call oc.top
  let children ← forEachChild call keep oc.children
  let offchain ← (call oc.offchain).expect
  pure ⟨top, children, offchain⟩

/-- `rollback_transaction`: `retain_map` drops the children the rollback emptied. -/
def rollbackTransaction : Outcome NoOpenTransaction OverlayedChanges :=
  oc.transactionCall OverlayedMap.rollbackTransaction fun changeset => !changeset.isEmpty

def commitTransaction : Outcome NoOpenTransaction OverlayedChanges :=
  oc.transactionCall OverlayedMap.commitTransaction fun _ => true

def enterRuntime : Outcome AlreadyInRuntime OverlayedChanges :=
  oc.transactionCall (fun m => Outcome.ofExcept m.enterRuntime) fun _ => true

def exitRuntime : Outcome NotInRuntime OverlayedChanges :=
  oc.transactionCall OverlayedMap.exitRuntime fun _ => true

/-- The calls on the overlay. -/
inductive Call
  | setStorage (key : StorageKey) (val : Option StorageValue) (atExtrinsic : Option ℕ)
  | setChildStorage (storageKey key : StorageKey) (val : Option StorageValue)
      (atExtrinsic : Option ℕ)
  | clearChildStorage (storageKey : StorageKey) (atExtrinsic : Option ℕ)
  | clearPrefix (keyPrefix : StorageKey) (atExtrinsic : Option ℕ)
  | clearChildPrefix (storageKey keyPrefix : StorageKey) (atExtrinsic : Option ℕ)
  | valueMutOrInsertWith (key : StorageKey) (init : StorageValue)
      (write : StorageValue → StorageValue) (atExtrinsic : Option ℕ)
  | setOffchainStorage (key : StorageKey) (value : Option StorageValue)
  | startTransaction
  | commitTransaction
  | rollbackTransaction
  | enterRuntime
  | exitRuntime

/-- Make a call: the overlay after it, `none` when it panicked. -/
def exec : Call → Option OverlayedChanges
  | .setStorage key val x => some (oc.setStorage key val x)
  | .setChildStorage storageKey key val x => some (oc.setChildStorage storageKey key val x)
  | .clearChildStorage storageKey x => some (oc.clearChildStorage storageKey x)
  | .clearPrefix keyPrefix x => some (oc.clearPrefix keyPrefix x)
  | .clearChildPrefix storageKey keyPrefix x => some (oc.clearChildPrefix storageKey keyPrefix x)
  | .valueMutOrInsertWith key init write x => some (oc.valueMutOrInsertWith key init write x)
  | .setOffchainStorage key value => some (oc.setOffchainStorage key value)
  | .startTransaction => some oc.startTransaction
  | .commitTransaction => oc.commitTransaction.after oc
  | .rollbackTransaction => oc.rollbackTransaction.after oc
  | .enterRuntime => oc.enterRuntime.after oc
  | .exitRuntime => oc.exitRuntime.after oc

/-- The overlay after the calls, made from the empty one; `none` once a call panicked. -/
def run (calls : List Call) : Option OverlayedChanges :=
  StepMachine.run (fun o c => o.bind (exec · c)) (some empty) calls

end OverlayedChanges

end Tetcore.StateMachine
