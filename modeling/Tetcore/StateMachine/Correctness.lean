import Tetcore.StateMachine.Writes

/-!
# The change set stores a snapshot stack over every run

A run of calls on an `OverlayedChangeSet` goes side by side with the run of the snapshot
operations the calls stand for (`pairedStep`). Every call keeps `Refines`, so by the invariant
rule of `StepMachine` no call panics in any run from the empty change set, and what the change
set shows after it is what the snapshot stack holds: `get` the innermost snapshot, and
`drain_commited` at depth zero the committed one in key order. Every key of a dirty set has an
entry, and a key has one version per open transaction that wrote it over one for a committed
value.
-/

namespace Tetcore.StateMachine

open VersionStack

variable {K V W : Type}

theorem Snapshots.getLast?_column (S : Snapshots K V) (k : K) :
    (S.column k).getLast? = some (S.bottom k) := by
  rw [Snapshots.column, List.getLast?_map, List.getLast?_eq_some_getLast S.nonempty]
  rfl

theorem Snapshots.bottom_eq_top (S : Snapshots K V) (hdepth : S.depth = 0) : S.bottom = S.top := by
  obtain ⟨stack, hne, n, mode⟩ := S
  match stack, hne, hdepth with
  | [s], _, _ => rfl

variable [Ord K] [DecidableEq K]

section Observations

variable {m : OverlayedMap K V} {S : Snapshots K V}

theorem Refines.get_map_valueRef (h : Refines m S) (k : K) :
    (m.get k).map (·.valueRef) = S.top k := by
  rw [h.top_eq]
  rcases he : m.changes[k]? with _ | ⟨ts, hts⟩
  · simp [OverlayedMap.get, OverlayedMap.values, OverlayedMap.versionsOf_eq, he]
  · rw [m.values_of_getElem? he]
    obtain ⟨t, ts, rfl⟩ := List.exists_cons_of_ne_nil hts
    simp [OverlayedMap.get, OverlayedEntry.valueRef, he]

theorem Refines.get_isSome_of_dirty (h : Refines m S) {d : List K} (hd : d ∈ m.dirtyKeys) {k : K}
    (hk : k ∈ d) : (m.get k).isSome := by
  have hflag : true ∈ m.dirtyFlags k := List.mem_map.mpr ⟨d, hd, by simp [hk]⟩
  obtain ⟨e, he⟩ := m.exists_entry_of_values_ne_nil ((h.sparse k).ne_nil_of_dirty hflag)
  simp [OverlayedMap.get, he]

theorem Refines.length_versionsOf (h : Refines m S) (k : K) :
    (m.versionsOf k).length =
      (if (S.bottom k).isSome then 1 else 0) + m.dirtyKeys.countP (fun d => decide (k ∈ d)) := by
  have hlen := (h.sparse k).length (S.getLast?_column k)
  rw [OverlayedMap.values, List.length_map] at hlen
  rw [hlen, OverlayedMap.dirtyFlags, List.count, List.countP_map]
  simp [Function.comp_def]

theorem Refines.drainCommited [Std.TransOrd K] [Std.LawfulEqOrd K] (h : Refines m S)
    (hdepth : m.transactionDepth = 0) :
    ∃ l, m.drainCommited = .ok l ∧ l.Pairwise (fun a b => compare a.1 b.1 = .lt) ∧
      ∀ k v, (k, v) ∈ l ↔ S.bottom k = some v := by
  have hdrain : m.drainCommited = .ok (m.changes.toList.map fun p => (p.1, p.2.valueRef)) := by
    simp [OverlayedMap.drainCommited, hdepth]
  refine ⟨_, hdrain, ?_, fun k v => ?_⟩
  · rw [List.pairwise_map]
    exact Std.TreeMap.ordered_keys_toList
  · rw [S.bottom_eq_top (by rw [h.depth_eq, hdepth]), ← h.get_map_valueRef]
    constructor
    · intro hmem
      obtain ⟨⟨k', e⟩, hp, heq⟩ := List.mem_map.mp hmem
      simp only [Prod.mk.injEq] at heq
      obtain ⟨rfl, rfl⟩ := heq
      simp [OverlayedMap.get, Std.TreeMap.mem_toList_iff_getElem?_eq_some.mp hp]
    · intro hget
      obtain ⟨e, he, rfl⟩ : ∃ e, m.changes[k]? = some e ∧ e.valueRef = v := by
        simpa [OverlayedMap.get] using hget
      exact List.mem_map.mpr ⟨(k, e), Std.TreeMap.mem_toList_iff_getElem?_eq_some.mpr he, rfl⟩

end Observations

namespace OverlayedChangeSet

/-- The snapshot operation a call stands for. Which keys `clear_where` clears depends on the
entries its predicate reads. -/
def Call.toOp (m : OverlayedChangeSet K W) : Call K W → Snapshots.Op K W
  | .set key value _ => .set key value
  | .modify key init write _ => .modify key init write
  | .clearWhere predicate _ => .clear (m.clearedKeys predicate)
  | .startTransaction => .startTransaction
  | .commitTransaction => .commitTransaction
  | .rollbackTransaction => .rollbackTransaction
  | .enterRuntime => .enterRuntime
  | .exitRuntime => .exitRuntime

/-- A call on the change set beside the snapshot operation it stands for; after a panic there is
no change set any more. -/
def pairedStep (p : Option (OverlayedChangeSet K W) × Snapshots K (Option W)) (c : Call K W) :
    Option (OverlayedChangeSet K W) × Snapshots K (Option W) :=
  match p.1 with
  | some m => (m.exec c, p.2.apply (c.toOp m))
  | none => p

/-- The calls made from the empty change set, beside the snapshot stack they stand for. -/
def runCalls (calls : List (Call K W)) : Option (OverlayedChangeSet K W) × Snapshots K (Option W) :=
  StepMachine.run pairedStep (some OverlayedMap.empty, Snapshots.initial) calls

end OverlayedChangeSet

open OverlayedChangeSet

variable [Std.TransOrd K] [Std.LawfulEqOrd K]

theorem Refines.exec {m : OverlayedChangeSet K W} {S : Snapshots K (Option W)} (h : Refines m S)
    (c : Call K W) : ∃ m', m.exec c = some m' ∧ Refines m' (S.apply (c.toOp m)) := by
  cases c with
  | set key value x => exact ⟨_, rfl, h.set key value x⟩
  | modify key init write x => exact ⟨_, rfl, h.modify key init write x⟩
  | clearWhere predicate x => exact ⟨_, rfl, h.clearWhere predicate x⟩
  | startTransaction => exact ⟨_, rfl, h.startTransaction⟩
  | commitTransaction => exact h.commitTransaction
  | rollbackTransaction => exact h.rollbackTransaction
  | enterRuntime => exact h.enterRuntime
  | exitRuntime => exact h.exitRuntime

theorem refines_runCalls (calls : List (Call K W)) :
    ∃ m, (runCalls calls).1 = some m ∧ Refines m (runCalls calls).2 := by
  have hstep : ∀ (p : Option (OverlayedChangeSet K W) × Snapshots K (Option W)) c,
      (∃ m, p.1 = some m ∧ Refines m p.2) →
        ∃ m, (pairedStep p c).1 = some m ∧ Refines m (pairedStep p c).2 := by
    rintro ⟨o, S⟩ c ⟨m, hm, h⟩
    subst hm
    exact h.exec c
  exact StepMachine.run_invariant pairedStep hstep calls ⟨_, rfl, refines_empty⟩

theorem changeSet_refines_snapshots (calls : List (Call K W)) :
    let S := (runCalls calls).2
    ∃ m, (runCalls calls).1 = some m ∧ m.transactionDepth = S.depth ∧
      (∀ k, (m.get k).map (·.valueRef) = S.top k) ∧
      (m.transactionDepth = 0 → ∃ l, m.drainCommited = .ok l ∧
        l.Pairwise (fun a b => compare a.1 b.1 = .lt) ∧ ∀ k v, (k, v) ∈ l ↔ S.bottom k = some v) ∧
      (∀ d ∈ m.dirtyKeys, ∀ k ∈ d, (m.get k).isSome) ∧
      ∀ k, (m.versionsOf k).length =
        (if (S.bottom k).isSome then 1 else 0) + m.dirtyKeys.countP (fun d => decide (k ∈ d)) := by
  intro S
  obtain ⟨m, hm, h⟩ := refines_runCalls calls
  exact ⟨m, hm, h.depth_eq.symm, h.get_map_valueRef, h.drainCommited,
    fun d hd k hk => h.get_isSome_of_dirty hd hk, h.length_versionsOf⟩

theorem changeSet_refines_snapshots_sample :
    let S := (runCalls (K := ℕ) (W := ℕ) [.startTransaction, .set 1 (some 7) none]).2
    ∃ m, (runCalls [.startTransaction, .set 1 (some 7) none]).1 = some m ∧
      m.transactionDepth = S.depth ∧
      (∀ k, (m.get k).map (·.valueRef) = S.top k) ∧
      (m.transactionDepth = 0 → ∃ l, m.drainCommited = .ok l ∧
        l.Pairwise (fun a b => compare a.1 b.1 = .lt) ∧ ∀ k v, (k, v) ∈ l ↔ S.bottom k = some v) ∧
      (∀ d ∈ m.dirtyKeys, ∀ k ∈ d, (m.get k).isSome) ∧
      ∀ k, (m.versionsOf k).length =
        (if (S.bottom k).isSome then 1 else 0) + m.dirtyKeys.countP (fun d => decide (k ∈ d)) :=
  changeSet_refines_snapshots _

end Tetcore.StateMachine
