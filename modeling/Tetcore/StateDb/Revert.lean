import Tetcore.StateDb.NonCanonical
import Tetcore.Lib.Run

/-!
# Reverting the pending changes of the overlay

`revert_pending` undoes the insertions since the last `apply_pending`, block by block in reverse
order, and forgets the pending canonicalizations; a caller uses it when the commit sets of those
calls were not written. `insert` has one more effect that is not in its commit set's undo: on the
first insertion into an empty overlay that has no last canonicalized block, it takes the parent
as canonicalized. Nothing undoes that, so after `revert_pending` the overlay keeps a last
canonicalized block it did not have, and rejects block numbers it accepted before.
-/

namespace Tetcore.StateDb

namespace NonCanonicalOverlay

variable {H K D : Type} [DecidableEq H] [DecidableEq K]

omit [DecidableEq K] in
theorem checkInsert_lastCanonicalized {ov ov₁ : NonCanonicalOverlay H K D} {number : ℕ}
    {parentHash : H} {metaInserted : List (MetaKey × MetaValue H K D)}
    (h : ov.checkInsert number parentHash = .ok (ov₁, metaInserted)) :
    ov₁ = ov ∨ ov.levels = [] ∧ ov.lastCanonicalized = none ∧
      ov₁ = { ov with lastCanonicalized := some (parentHash, number - 1) } := by
  unfold checkInsert at h
  dsimp only at h
  split at h
  case isTrue hfirst =>
    cases h
    exact Or.inr ⟨List.isEmpty_iff.mp hfirst.1, Option.isNone_iff_eq_none.mp hfirst.2.1, rfl⟩
  case isFalse =>
    -- every other branch returns the overlay as it was, or an error
    left
    split at h
    case isTrue =>
      split at h
      case isTrue => cases h
      case isFalse =>
        split at h
        case isTrue =>
          split at h
          case isTrue =>
            cases h
            rfl
          case isFalse => cases h
        case isFalse =>
          split at h
          case isTrue => cases h
          case isFalse =>
            cases h
            rfl
    case isFalse =>
      cases h
      rfl

theorem insert_lastCanonicalized {ov ov' : NonCanonicalOverlay H K D} {hash : H} {number : ℕ}
    {parentHash : H} {changeset : ChangeSet K D} {c : CommitSet H K D}
    (h : ov.insert hash number parentHash changeset = .ok (ov', c)) :
    ov'.lastCanonicalized = ov.lastCanonicalized ∨
      ov.levels = [] ∧ ov.lastCanonicalized = none ∧
        ov'.lastCanonicalized = some (parentHash, number - 1) := by
  unfold insert at h
  simp only [Outcome.bind_eq] at h
  obtain ⟨⟨ov₁, metaInserted⟩, hc, h⟩ := Outcome.bind_eq_ok.mp h
  -- the rest of `insert` writes the levels, the parents, the values and the pending insertions
  have hlc : ov'.lastCanonicalized = ov₁.lastCanonicalized := by
    dsimp only at h
    split at h
    case isTrue =>
      cases h
      rfl
    case isFalse =>
      split at h
      case h_1 =>
        cases h
        rfl
      case h_2 => cases h
  rw [hlc]
  rcases checkInsert_lastCanonicalized hc with rfl | ⟨hl, hn, rfl⟩
  · exact Or.inl rfl
  · exact Or.inr ⟨hl, hn, rfl⟩

theorem revertInsertion_lastCanonicalized {ov ov' : NonCanonicalOverlay H K D} {hash : H}
    (h : ov.revertInsertion hash = some ov') : ov'.lastCanonicalized = ov.lastCanonicalized := by
  unfold revertInsertion at h
  simp only [bind, Option.bind_eq_some_iff] at h
  obtain ⟨_, -, _, -, _, -, h⟩ := h
  rw [← Option.some.inj h]

theorem revertPending_lastCanonicalized {ov ov' : NonCanonicalOverlay H K D}
    (h : ov.revertPending = some ov') : ov'.lastCanonicalized = ov.lastCanonicalized :=
  StepMachine.foldlM_option_preserves _ (fun s => s.lastCanonicalized = ov.lastCanonicalized)
    (fun _ _ _ hs hP => (revertInsertion_lastCanonicalized hs).trans hP) _ h rfl

end NonCanonicalOverlay

open NonCanonicalOverlay in
/-- The overlay built from the empty database takes the parent `0` of block `1` as canonicalized
at number `0`; after `revert_pending` its levels are empty again but it keeps that block, and
block `2` at number `5`, which the fresh overlay accepts, is now rejected. -/
theorem revertPending_keeps_assumed_parent :
    ∃ s s₁ c s₂, NonCanonicalOverlay.new (∅ : MetaDb ℕ ℕ ℕ) = .ok s ∧
      s.insert 1 1 0 {} = .ok (s₁, c) ∧ s₁.revertPending = some s₂ ∧
      s₂.levels = s.levels ∧ s₂.lastCanonicalized ≠ s.lastCanonicalized ∧
      (∃ s₃ c₃, s.insert 2 5 4 {} = .ok (s₃, c₃)) ∧
      s₂.insert 2 5 4 {} = .err .invalidBlockNumber :=
  ⟨_, _, _, _, rfl, rfl, rfl, rfl, by decide, ⟨_, _, rfl⟩, rfl⟩

end Tetcore.StateDb
