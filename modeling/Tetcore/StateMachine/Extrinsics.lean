import Tetcore.StateMachine.Refinement

/-!
# The extrinsic indices of a change

`primitives/state-machine/src/overlayed_changes/changeset.rs`. Each version of a value records
the indices of the extrinsics that wrote it, and `OverlayedEntry::extrinsics` collects them over
the versions. `set` and `clear_where` record the index through `OverlayedEntry::set`; `modify`,
behind `value_mut_or_insert_with` and so behind storage appends, calls `OverlayedEntry::set` only
when it makes a new version, and otherwise hands out the newest value without recording the index.
-/

namespace Tetcore.StateMachine

variable {K V : Type}

@[simp]
theorem Extrinsics.mem_insert_self (e : Extrinsics) (ext : ℕ) : ext ∈ (e.insert ext).indices := by
  unfold Extrinsics.insert
  split
  case isTrue h => exact List.mem_of_getLast? h
  case isFalse => exact List.mem_append_right _ (List.mem_singleton_self ext)

theorem mem_extrinsics_setVersions (ts : List (InnerValue V)) (value : V) (first : Bool)
    (ext : ℕ) :
    ext ∈ (⟨setVersions ts value first (some ext), setVersions_ne_nil _ _ _ _⟩ :
      OverlayedEntry V).extrinsics := by
  cases ts <;> cases first <;> simp [setVersions, OverlayedEntry.extrinsics]

namespace OverlayedMap

variable [Ord K] [DecidableEq K] (m : OverlayedMap K V)

/-- The extrinsics of the entry of `key`, none when it has no entry. -/
def extrinsicsOf (key : K) : Finset ℕ := ((m.get key).map (·.extrinsics)).getD ∅

variable [Std.TransOrd K] [Std.LawfulEqOrd K]

theorem mem_extrinsicsOf_set (key : K) (value : V) (ext : ℕ) :
    ext ∈ (m.set key value (some ext)).extrinsicsOf key := by
  simp only [extrinsicsOf, get, set, treeMap_getElem?_insert, if_pos, Option.map_some,
    Option.getD_some]
  exact mem_extrinsics_setVersions _ _ _ ext

theorem extrinsicsOf_modify_of_not_first {W : Type} (m : OverlayedChangeSet K W) {key : K}
    {t : InnerValue (Option W)} {ts : List (InnerValue (Option W))}
    (hv : m.versionsOf key = t :: ts) (hd : (insertDirty m.dirtyKeys key).1 = false)
    (init : W) (write : Option W → Option W) (ext : Option ℕ) :
    (OverlayedChangeSet.modify m key init write ext).extrinsicsOf key = m.extrinsicsOf key := by
  obtain ⟨e, he, hts⟩ : ∃ e, m.get key = some e ∧ e.transactions = t :: ts := by
    unfold versionsOf at hv
    cases hget : m.get key with
    | none => simp [hget] at hv
    | some e =>
      rw [hget] at hv
      exact ⟨e, rfl, hv⟩
  simp only [OverlayedChangeSet.modify, hv, hd, Bool.false_eq_true, if_false, extrinsicsOf, get,
    treeMap_getElem?_insert, if_pos, Option.map_some, Option.getD_some]
  rw [← get, he]
  simp [OverlayedEntry.extrinsics, hts]

end OverlayedMap

open OverlayedMap OverlayedChangeSet in
/-- Two `modify` calls on key `0` at extrinsics `1` and `2`, outside any transaction or inside
one, record only the index `1`; two `set` calls record both. -/
theorem modify_drops_extrinsic_index :
    (modify (modify (empty : OverlayedChangeSet ℕ ℕ) 0 7 id (some 1)) 0 7 id (some 2)).extrinsicsOf
        0 = {1} ∧
      (modify (modify (empty : OverlayedChangeSet ℕ ℕ).startTransaction 0 7 id (some 1)) 0 7 id
        (some 2)).extrinsicsOf 0 = {1} ∧
      (((empty : OverlayedChangeSet ℕ ℕ).set 0 (some 7) (some 1)).set 0 (some 7)
        (some 2)).extrinsicsOf 0 = {1, 2} := by
  decide

end Tetcore.StateMachine
