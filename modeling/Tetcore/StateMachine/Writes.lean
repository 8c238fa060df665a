import Tetcore.StateMachine.Transactions

/-!
# `modify` and `clear_where` keep the refinement

`modify` leaves the overlay as a `set` of the value the caller makes of the current one would.
`clear_where` is a loop of writes of `None`, one per selected entry, over the entries as they were
before the loop; each round touches its own key, so the loop is proved with a `KeyLoop` invariant
over the entries still to go, as `close_transaction` is.
-/

namespace Tetcore.StateMachine

open VersionStack

variable {K V W : Type} [Ord K] [DecidableEq K]

namespace Refines

variable {m m' : OverlayedMap K V} {S : Snapshots K V}

theorem of_values (h : Refines m S) (hvalues : ∀ k, m'.values k = m.values k)
    (hdirty : m'.dirtyKeys = m.dirtyKeys)
    (hnum : m'.numClientTransactions = m.numClientTransactions)
    (hmode : m'.executionMode = m.executionMode) : Refines m' S where
  sparse k := by
    rw [hvalues, OverlayedMap.dirtyFlags, hdirty]
    exact h.sparse k
  depth := by rw [hdirty]; exact h.depth
  nodup := by rw [hdirty]; exact h.nodup
  numClientTransactions := by rw [hnum]; exact h.numClientTransactions
  executionMode := by rw [hmode]; exact h.executionMode

theorem top_eq (h : Refines m S) (k : K) : S.top k = (m.values k).head? := by
  have hhead := (h.sparse k).head?
  rw [S.column_eq_top_cons] at hhead
  simpa using hhead

end Refines

omit [Ord K] [DecidableEq K] in
theorem Snapshots.column_clear (S : Snapshots K (Option W)) (keys : K → Bool) (k : K) :
    (S.clear keys).column k =
      (if keys k && (S.top k).isSome then some none else S.top k) :: (S.column k).tail :=
  S.column_writeTop _ k

namespace OverlayedChangeSet

variable (m : OverlayedChangeSet K W)

theorem clearEntry_of_predicate {predicate : K → OverlayedEntry (Option W) → Bool}
    {key : K} {val : OverlayedEntry (Option W)} (hval : m.changes[key]? = some val)
    (hp : predicate key val = true) (x : Option ℕ) :
    clearEntry predicate x m (key, val) = m.set key none x := by
  simp [clearEntry, hp, OverlayedMap.set, OverlayedEntry.set, OverlayedMap.versionsOf,
    OverlayedMap.get, hval]

theorem clearEntry_of_not_predicate {predicate : K → OverlayedEntry (Option W) → Bool}
    {key : K} {val : OverlayedEntry (Option W)} (hp : predicate key val = false) (x : Option ℕ) :
    clearEntry predicate x m (key, val) = m := by
  simp [clearEntry, hp]

/-- The keys whose entry the predicate of `clear_where` selects. -/
def clearedKeys (predicate : K → OverlayedEntry (Option W) → Bool) (k : K) : Bool :=
  m.changes[k]?.any (predicate k)

variable [Std.TransOrd K] [Std.LawfulEqOrd K]

theorem values_modify_self (key : K) (init : W) (write : Option W → Option W) (x : Option ℕ) :
    (modify m key init write x).values key =
      (m.set key (write (((m.values key).head?).getD (some init))) x).values key := by
  rw [m.values_set_self]
  rcases he : m.changes[key]? with _ | ⟨ts, hts⟩
  · -- no version: the caller writes over `Some(init)`
    cases hd : (insertDirty m.dirtyKeys key).1 <;> cases x <;>
      simp [modify, OverlayedMap.values, OverlayedMap.versionsOf, OverlayedMap.get,
        setVersions, he, hd]
  · -- a first write of the transaction writes over a copy of the newest version
    obtain ⟨t, ts, rfl⟩ := List.exists_cons_of_ne_nil hts
    cases hd : (insertDirty m.dirtyKeys key).1 <;> cases x <;>
      simp [modify, OverlayedMap.values, OverlayedMap.versionsOf, OverlayedMap.get,
        setVersions, he, hd]

theorem getElem?_modify_of_ne {key k : K} (hk : k ≠ key) (init : W) (write : Option W → Option W)
    (x : Option ℕ) : (modify m key init write x).changes[k]? = m.changes[k]? := by
  simp [modify, treeMap_getElem?_insert, hk]

end OverlayedChangeSet

variable [Std.TransOrd K] [Std.LawfulEqOrd K] {m : OverlayedChangeSet K W}
  {S : Snapshots K (Option W)}

theorem Refines.modify (h : Refines m S) (key : K) (init : W) (write : Option W → Option W)
    (x : Option ℕ) :
    Refines (OverlayedChangeSet.modify m key init write x) (S.modify key init write) := by
  have hset := h.set key (write (((m.values key).head?).getD (some init))) x
  rw [Snapshots.modify, h.top_eq]
  refine hset.of_values (fun k => ?_) rfl rfl rfl
  by_cases hk : k = key
  · subst hk
    exact m.values_modify_self k init write x
  · rw [m.values_congr (m.getElem?_modify_of_ne hk init write x), m.values_set_of_ne hk]

section Clear

variable {predicate : K → OverlayedEntry (Option W) → Bool}

/-- The invariant of the loop of `clear_where` over the entries `todo` still to go: they are
entries of `m`, and their keys are as they were in `m`. -/
structure ClearInv (m : OverlayedChangeSet K W) (S' : Snapshots K (Option W))
    (todo : List (K × OverlayedEntry (Option W))) (m' : OverlayedChangeSet K W) : Prop extends
    KeyLoop (fun k => m.changes[k]?) m.dirtyFlags S' (todo.map Prod.fst) m' where
  entries : ∀ p ∈ todo, m.changes[p.1]? = some p.2

theorem clearInv_init (h : Refines m S) (keys : K → Bool)
    (hkeys : ∀ k, m.changes[k]? = none → keys k = false) :
    ClearInv m (S.clear keys) m.changes.toList m where
  pending _ _ := ⟨rfl, rfl⟩
  nodupTodo := by
    rw [Std.TreeMap.map_fst_toList_eq_keys]
    exact Std.TreeMap.nodup_keys
  done k hk := by
    -- a key without an entry is not cleared
    have hnone : m.changes[k]? = none := by
      rcases hget : m.changes[k]? with _ | v
      · rfl
      · exact absurd (List.mem_map_of_mem (f := Prod.fst)
          (Std.TreeMap.mem_toList_iff_getElem?_eq_some.mpr hget)) hk
    rw [S.column_clear, hkeys k hnone, Bool.false_and, if_neg Bool.false_ne_true,
      ← S.column_eq_top_cons]
    exact h.sparse k
  depth := by rw [Snapshots.clear, S.length_writeTop]; exact h.depth
  nodup := h.nodup
  numClientTransactions := h.numClientTransactions
  executionMode := h.executionMode
  entries _ hp := Std.TreeMap.mem_toList_iff_getElem?_eq_some.mp hp

theorem ClearInv.step (h : Refines m S) (x : Option ℕ)
    {key : K} {val : OverlayedEntry (Option W)} {todo : List (K × OverlayedEntry (Option W))}
    {m' : OverlayedChangeSet K W}
    (hinv : ClearInv m (S.clear (m.clearedKeys predicate)) ((key, val) :: todo) m') :
    ClearInv m (S.clear (m.clearedKeys predicate)) todo
      (OverlayedChangeSet.clearEntry predicate x m' (key, val)) := by
  have hval : m.changes[key]? = some val := hinv.entries _ List.mem_cons_self
  have hchanges : m'.changes[key]? = m.changes[key]? := (hinv.pending key List.mem_cons_self).1
  have hflags : m'.dirtyFlags key = m.dirtyFlags key := (hinv.pending key List.mem_cons_self).2
  have hold := h.sparse key
  rw [← m.values_congr hchanges, ← hflags] at hold
  have hkeys : m.clearedKeys predicate key = predicate key val := by
    simp [OverlayedChangeSet.clearedKeys, hval]
  have hentries : ∀ p ∈ todo, m.changes[p.1]? = some p.2 := fun p hp =>
    hinv.entries p (List.mem_cons_of_mem _ hp)
  cases hp : predicate key val with
  | false =>
    -- an entry the predicate leaves is not cleared
    rw [m'.clearEntry_of_not_predicate hp x]
    refine ⟨hinv.toKeyLoop.next_of_dirtyKeys_eq (fun _ _ => rfl) rfl rfl rfl ?_, hentries⟩
    rwa [S.column_clear, hkeys, hp, Bool.false_and, if_neg Bool.false_ne_true,
      ← S.column_eq_top_cons]
  | true =>
    -- a selected entry has a version, so the cleared key has a value in the top snapshot
    have hsome : (S.top key).isSome = true := by
      rw [h.top_eq, m.values_of_getElem? hval]
      cases val with
      | mk ts hts => cases ts with
        | nil => exact absurd rfl hts
        | cons t ts => rfl
    rw [m'.clearEntry_of_predicate (hchanges.trans hval) hp x]
    refine ⟨hinv.toKeyLoop.next_of_insertDirty (fun k hk => m'.getElem?_set_of_ne hk none x) rfl
      rfl rfl ?_, hentries⟩
    rw [S.column_clear, hkeys, hp, hsome, Bool.true_and, if_pos rfl]
    exact m'.sparse_set_self hold none x

theorem Refines.clearWhere (h : Refines m S) (predicate : K → OverlayedEntry (Option W) → Bool)
    (x : Option ℕ) :
    Refines (OverlayedChangeSet.clearWhere m predicate x) (S.clear (m.clearedKeys predicate)) := by
  have hinit := clearInv_init h (m.clearedKeys predicate) fun k hk => by
    simp [OverlayedChangeSet.clearedKeys, hk]
  have hloop := StepMachine.foldl_invariant (OverlayedChangeSet.clearEntry predicate x)
    (ClearInv m (S.clear (m.clearedKeys predicate))) (fun _ _ _ hinv => hinv.step h x)
    m.changes.toList hinit
  exact hloop.toKeyLoop.refines

end Clear

end Tetcore.StateMachine
