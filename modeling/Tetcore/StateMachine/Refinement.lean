import Tetcore.StateMachine.Snapshots
import Tetcore.Lib.VersionStack
import Tetcore.Lib.Run

/-!
# The overlay refines the snapshot stack

An `OverlayedMap` stores a snapshot stack sparsely: for every key, its versions are the
`VersionStack.Sparse` storage of the key's column through the snapshots, under the dirty flags
the dirty-key sets give it. `Refines` says so, with the bookkeeping that keeps it true: the
depths agree, every dirty set is a set, and the execution mode and the number of client
transactions agree. Every call keeps `Refines` when the snapshot stack takes the matching
operation, and no call panics on the way.

From `Refines` follow what the overlay is for: `get` returns the value of the innermost snapshot,
the version count of a key is one per open transaction that wrote it and one for a committed
value, every key of a dirty set has an entry, and at depth zero `drain_commited` returns the
committed snapshot in key order.
-/

namespace Tetcore.StateMachine

open VersionStack

variable {K V W : Type}

/-- Whether a write is the first of the innermost transaction, from the dirty flags of its key. -/
@[simp]
def firstWrite : List Bool → Bool
  | [] => false
  | b :: _ => !b

/-- The dirty flags of a key after a write of it. -/
@[simp]
def markTop : List Bool → List Bool
  | [] => []
  | _ :: rest => true :: rest

section Dirty

variable [DecidableEq K]

theorem insertDirty_fst (ds : List (List K)) (key : K) :
    (insertDirty ds key).1 = firstWrite (ds.map fun d => decide (key ∈ d)) := by
  cases ds with
  | nil => rfl
  | cons d ds => by_cases hkey : key ∈ d <;> simp [insertDirty, hkey]

theorem dirtyFlags_insertDirty_self (ds : List (List K)) (key : K) :
    ((insertDirty ds key).2.map fun d => decide (key ∈ d)) =
      markTop (ds.map fun d => decide (key ∈ d)) := by
  cases ds with
  | nil => rfl
  | cons d ds => by_cases hkey : key ∈ d <;> simp [insertDirty, hkey]

theorem dirtyFlags_insertDirty_of_ne (ds : List (List K)) {key k : K} (hk : k ≠ key) :
    ((insertDirty ds key).2.map fun d => decide (k ∈ d)) = ds.map fun d => decide (k ∈ d) := by
  cases ds with
  | nil => rfl
  | cons d ds => by_cases hkey : key ∈ d <;> simp [insertDirty, hkey, hk]

theorem length_insertDirty (ds : List (List K)) (key : K) :
    (insertDirty ds key).2.length = ds.length := by
  cases ds with
  | nil => rfl
  | cons d ds => by_cases hkey : key ∈ d <;> simp [insertDirty, hkey]

theorem nodup_insertDirty {ds : List (List K)} (hds : ∀ d ∈ ds, d.Nodup) (key : K) :
    ∀ d ∈ (insertDirty ds key).2, d.Nodup := by
  cases ds with
  | nil => simp [insertDirty]
  | cons d ds =>
    by_cases hkey : key ∈ d
    · simpa [insertDirty, hkey] using hds
    · simp only [insertDirty, hkey, if_false, List.mem_cons, forall_eq_or_imp] at hds ⊢
      exact ⟨List.nodup_cons.mpr ⟨hkey, hds.1⟩, hds.2⟩

end Dirty

theorem values_setVersions (ts : List (InnerValue V)) (value : V) (firstWriteInTx : Bool)
    (atExtrinsic : Option ℕ) :
    (setVersions ts value firstWriteInTx atExtrinsic).map (·.value) =
      if firstWriteInTx || ts.isEmpty then value :: ts.map (·.value)
      else value :: (ts.map (·.value)).tail := by
  unfold setVersions
  cases ts <;> cases firstWriteInTx <;> cases atExtrinsic <;> simp

theorem sparse_setVersions {ts : List (InnerValue V)} {col : List (Option V)} {fs : List Bool}
    (h : Sparse (ts.map (·.value)) col fs) (v : V) (atExtrinsic : Option ℕ) :
    Sparse ((setVersions ts v (firstWrite fs) atExtrinsic).map (·.value))
      (some v :: col.tail) (markTop fs) := by
  rw [values_setVersions]
  cases fs with
  | nil =>
    obtain ⟨o, rfl⟩ : ∃ o, col = [o] := by
      have hlen := h.length_col
      match col, hlen with
      | [o], _ => exact ⟨o, rfl⟩
    obtain ⟨-, hvs⟩ := h.nil_inv
    have hvalues : (if (firstWrite [] || ts.isEmpty) then v :: ts.map (·.value)
        else v :: (ts.map (·.value)).tail) = [v] := by
      cases ts with
      | nil => rfl
      | cons t ts =>
        cases o <;> simp_all
    rw [hvalues]
    exact .base (some v)
  | cons b rest =>
    obtain ⟨o, col', rfl⟩ : ∃ o col', col = o :: col' := by
      have hlen := h.length_col
      match col, hlen with
      | o :: col', _ => exact ⟨o, col', rfl⟩
    have hwrite := h.write v
    cases b with
    | true =>
      have hne : ts ≠ [] := by
        have := h.ne_nil_of_dirty (by simp)
        simpa using this
      simpa [hne] using hwrite
    | false => simpa using hwrite

namespace Snapshots

variable (S : Snapshots K V)

/-- The column of one key through the snapshots, innermost first. -/
def column (k : K) : List (Option V) := S.stack.map (· k)

theorem column_eq_top_cons (k : K) : S.column k = S.top k :: (S.column k).tail := by
  obtain ⟨stack, hne, n, mode⟩ := S
  cases stack with
  | nil => exact absurd rfl hne
  | cons s ss => rfl

theorem length_writeTop (f : (K → Option V) → K → Option V) :
    (S.writeTop f).stack.length = S.stack.length := by
  have hpos : 0 < S.stack.length := List.length_pos_of_ne_nil S.nonempty
  simp only [writeTop, List.length_cons, List.length_tail]
  omega

theorem column_writeTop (f : (K → Option V) → K → Option V) (k : K) :
    (S.writeTop f).column k = f S.top k :: (S.column k).tail := by
  simp [column, writeTop, List.map_tail]

theorem column_set [DecidableEq K] (key k : K) (v : V) :
    (S.set key v).column k = (if k = key then some v else S.top k) :: (S.column k).tail := by
  rw [set, column_writeTop, Function.update_apply]

theorem column_startTransaction (k : K) : S.startTransaction.column k = S.top k :: S.column k :=
  rfl

end Snapshots

section Overlay

variable [Ord K]

namespace OverlayedMap

variable (m : OverlayedMap K V)

/-- The values of the versions of a key, newest first. -/
def values (k : K) : List V := (m.versionsOf k).map (·.value)

theorem versionsOf_eq (k : K) : m.versionsOf k = (m.changes[k]?.map (·.transactions)).getD [] :=
  rfl

theorem values_of_getElem? {k : K} {e : OverlayedEntry V} (he : m.changes[k]? = some e) :
    m.values k = e.transactions.map (·.value) := by
  simp [values, versionsOf_eq, he]

theorem values_congr {m' : OverlayedMap K V} {k : K} (hk : m'.changes[k]? = m.changes[k]?) :
    m'.values k = m.values k := by
  simp [values, versionsOf_eq, hk]

theorem exists_entry_of_values_ne_nil {k : K} (hk : m.values k ≠ []) :
    ∃ e, m.changes[k]? = some e := by
  rcases he : m.changes[k]? with _ | e
  · simp [values, versionsOf_eq, he] at hk
  · exact ⟨e, rfl⟩

end OverlayedMap

variable [DecidableEq K]

/-- For each open transaction, innermost first, whether it wrote the key. -/
def OverlayedMap.dirtyFlags (m : OverlayedMap K V) (k : K) : List Bool :=
  m.dirtyKeys.map fun d => decide (k ∈ d)

/-- The overlay stores the snapshot stack: every key's versions are the sparse storage of its
column under its dirty flags. -/
structure Refines (m : OverlayedMap K V) (S : Snapshots K V) : Prop where
  sparse : ∀ k, Sparse (m.values k) (S.column k) (m.dirtyFlags k)
  depth : S.stack.length = m.dirtyKeys.length + 1
  nodup : ∀ d ∈ m.dirtyKeys, d.Nodup
  numClientTransactions : m.numClientTransactions = S.numClientTransactions
  executionMode : m.executionMode = S.executionMode

theorem Refines.startTransaction {m : OverlayedMap K V} {S : Snapshots K V} (h : Refines m S) :
    Refines m.startTransaction S.startTransaction where
  sparse k := by
    have hsparse := h.sparse k
    rw [S.column_eq_top_cons] at hsparse
    rw [S.column_startTransaction, S.column_eq_top_cons]
    exact .clean hsparse
  depth := by
    simp [OverlayedMap.startTransaction, Snapshots.startTransaction, h.depth]
  nodup := by
    simpa [OverlayedMap.startTransaction] using h.nodup
  numClientTransactions := h.numClientTransactions
  executionMode := h.executionMode

/-- A loop that changes each key of `todo` once, part way through: the keys still to go have the
entries `changes` and the flags `flags` give them, and every other key stores its column in `S'`
already. -/
structure KeyLoop (changes : K → Option (OverlayedEntry V)) (flags : K → List Bool)
    (S' : Snapshots K V) (todo : List K) (m' : OverlayedMap K V) : Prop where
  pending : ∀ k ∈ todo, m'.changes[k]? = changes k ∧ m'.dirtyFlags k = flags k
  nodupTodo : todo.Nodup
  done : ∀ k, k ∉ todo → Sparse (m'.values k) (S'.column k) (m'.dirtyFlags k)
  depth : S'.stack.length = m'.dirtyKeys.length + 1
  nodup : ∀ d ∈ m'.dirtyKeys, d.Nodup
  numClientTransactions : m'.numClientTransactions = S'.numClientTransactions
  executionMode : m'.executionMode = S'.executionMode

namespace KeyLoop

variable {changes : K → Option (OverlayedEntry V)} {flags : K → List Bool} {S' : Snapshots K V}
  {key : K} {todo : List K} {m' m'' : OverlayedMap K V}

theorem refines (hinv : KeyLoop changes flags S' [] m') : Refines m' S' where
  sparse k := hinv.done k List.not_mem_nil
  depth := hinv.depth
  nodup := hinv.nodup
  numClientTransactions := hinv.numClientTransactions
  executionMode := hinv.executionMode

theorem next (hinv : KeyLoop changes flags S' (key :: todo) m')
    (hchanges : ∀ k, k ≠ key → m''.changes[k]? = m'.changes[k]?)
    (hflags : ∀ k, k ≠ key → m''.dirtyFlags k = m'.dirtyFlags k)
    (hdepth : m''.dirtyKeys.length = m'.dirtyKeys.length)
    (hnodup : ∀ d ∈ m''.dirtyKeys, d.Nodup)
    (hnum : m''.numClientTransactions = m'.numClientTransactions)
    (hmode : m''.executionMode = m'.executionMode)
    (hkey : Sparse (m''.values key) (S'.column key) (m''.dirtyFlags key)) :
    KeyLoop changes flags S' todo m'' := by
  obtain ⟨hfresh, htodo⟩ := List.nodup_cons.mp hinv.nodupTodo
  refine ⟨?_, htodo, ?_, by rw [hdepth]; exact hinv.depth, hnodup,
    by rw [hnum]; exact hinv.numClientTransactions, by rw [hmode]; exact hinv.executionMode⟩
  · intro k hk
    have hne : k ≠ key := fun hkey => hfresh (hkey ▸ hk)
    obtain ⟨hk₁, hk₂⟩ := hinv.pending k (List.mem_cons_of_mem _ hk)
    exact ⟨(hchanges k hne).trans hk₁, (hflags k hne).trans hk₂⟩
  · intro k hk
    by_cases hne : k = key
    · subst hne
      exact hkey
    · rw [m'.values_congr (hchanges k hne), hflags k hne]
      exact hinv.done k (by simp [hne, hk])

theorem next_of_dirtyKeys_eq (hinv : KeyLoop changes flags S' (key :: todo) m')
    (hchanges : ∀ k, k ≠ key → m''.changes[k]? = m'.changes[k]?)
    (hdirty : m''.dirtyKeys = m'.dirtyKeys)
    (hnum : m''.numClientTransactions = m'.numClientTransactions)
    (hmode : m''.executionMode = m'.executionMode)
    (hkey : Sparse (m''.values key) (S'.column key) (m'.dirtyFlags key)) :
    KeyLoop changes flags S' todo m'' := by
  have hflags : ∀ k, m''.dirtyFlags k = m'.dirtyFlags k := fun k => by
    simp only [OverlayedMap.dirtyFlags, hdirty]
  refine hinv.next hchanges (fun k _ => hflags k) (by rw [hdirty]) (by rw [hdirty]; exact hinv.nodup)
    hnum hmode ?_
  rwa [hflags]

theorem next_of_insertDirty (hinv : KeyLoop changes flags S' (key :: todo) m')
    (hchanges : ∀ k, k ≠ key → m''.changes[k]? = m'.changes[k]?)
    (hdirty : m''.dirtyKeys = (insertDirty m'.dirtyKeys key).2)
    (hnum : m''.numClientTransactions = m'.numClientTransactions)
    (hmode : m''.executionMode = m'.executionMode)
    (hkey : Sparse (m''.values key) (S'.column key) (markTop (m'.dirtyFlags key))) :
    KeyLoop changes flags S' todo m'' := by
  have hflags : ∀ k, k ≠ key → m''.dirtyFlags k = m'.dirtyFlags k := fun k hk => by
    simp only [OverlayedMap.dirtyFlags, hdirty, dirtyFlags_insertDirty_of_ne _ hk]
  refine hinv.next hchanges hflags (by rw [hdirty, length_insertDirty])
    (by rw [hdirty]; exact nodup_insertDirty hinv.nodup key) hnum hmode ?_
  rwa [OverlayedMap.dirtyFlags, hdirty, dirtyFlags_insertDirty_self]

end KeyLoop

section Lawful

variable [Std.TransOrd K]

theorem refines_empty : Refines (OverlayedMap.empty : OverlayedMap K V) Snapshots.initial where
  sparse k := by
    have hbase := Sparse.base (none : Option V)
    simpa [OverlayedMap.values, OverlayedMap.versionsOf_eq, OverlayedMap.empty,
      OverlayedMap.dirtyFlags, Snapshots.column, Snapshots.initial] using hbase
  depth := rfl
  nodup := by simp [OverlayedMap.empty]
  numClientTransactions := rfl
  executionMode := rfl

variable [Std.LawfulEqOrd K]

theorem treeMap_getElem?_insert {β : Type} (t : Std.TreeMap K β compare) (key k : K) (v : β) :
    (t.insert key v)[k]? = if k = key then some v else t[k]? := by
  rw [Std.TreeMap.getElem?_insert]
  by_cases hk : k = key
  · subst hk
    simp
  · have hne : ¬compare key k = .eq := by
      rw [Std.LawfulEqCmp.compare_eq_iff_eq]
      exact Ne.symm hk
    simp [hne, hk]

theorem treeMap_getElem?_erase {β : Type} (t : Std.TreeMap K β compare) (key k : K) :
    (t.erase key)[k]? = if k = key then none else t[k]? := by
  rw [Std.TreeMap.getElem?_erase]
  by_cases hk : k = key
  · subst hk
    simp
  · have hne : ¬compare key k = .eq := by
      rw [Std.LawfulEqCmp.compare_eq_iff_eq]
      exact Ne.symm hk
    simp [hne, hk]

namespace OverlayedMap

variable (m : OverlayedMap K V)

theorem values_set_self (key : K) (v : V) (x : Option ℕ) :
    (m.set key v x).values key =
      (setVersions (m.versionsOf key) v (insertDirty m.dirtyKeys key).1 x).map (·.value) := by
  simp [values, versionsOf_eq, set]

theorem values_set_of_ne {key k : K} (hk : k ≠ key) (v : V) (x : Option ℕ) :
    (m.set key v x).values k = m.values k := by
  simp [values, versionsOf_eq, set, treeMap_getElem?_insert, hk]

theorem getElem?_set_of_ne {key k : K} (hk : k ≠ key) (v : V) (x : Option ℕ) :
    (m.set key v x).changes[k]? = m.changes[k]? := by
  simp [set, treeMap_getElem?_insert, hk]

theorem sparse_set_self {key : K} {col : List (Option V)}
    (hsparse : Sparse (m.values key) col (m.dirtyFlags key)) (v : V) (x : Option ℕ) :
    Sparse ((m.set key v x).values key) (some v :: col.tail) (markTop (m.dirtyFlags key)) := by
  rw [m.values_set_self, insertDirty_fst]
  exact sparse_setVersions hsparse v x

end OverlayedMap

namespace Refines

variable {m : OverlayedMap K V} {S : Snapshots K V}

theorem set (h : Refines m S) (key : K) (v : V) (x : Option ℕ) :
    Refines (m.set key v x) (S.set key v) where
  sparse k := by
    have hflags : (m.set key v x).dirtyFlags k =
        (insertDirty m.dirtyKeys key).2.map fun d => decide (k ∈ d) := rfl
    by_cases hk : k = key
    · subst hk
      rw [hflags, dirtyFlags_insertDirty_self, S.column_set, if_pos rfl]
      exact m.sparse_set_self (h.sparse k) v x
    · rw [m.values_set_of_ne hk, hflags, dirtyFlags_insertDirty_of_ne _ hk,
        S.column_set, if_neg hk, ← S.column_eq_top_cons]
      exact h.sparse k
  depth := by
    rw [show (m.set key v x).dirtyKeys = (insertDirty m.dirtyKeys key).2 from rfl,
      length_insertDirty, Snapshots.set, S.length_writeTop]
    exact h.depth
  nodup := nodup_insertDirty h.nodup key
  numClientTransactions := h.numClientTransactions
  executionMode := h.executionMode

end Refines

end Lawful

end Overlay

end Tetcore.StateMachine
