import Mathlib.Algebra.Order.BigOperators.Group.List
import Mathlib.Algebra.Order.Group.Nat
import Tetcore.StateDb.Restart

/-!
# Pins on discarded blocks

`apply_pending` keeps a discarded block in `pinned_insertions`, with its values and the number of
pins its discarded subtree holds, while that number is not zero. `unpin` walks up from the block
it unpins and takes one from the count of every kept block on the way. `pin` adds nothing to
that count, and a kept block can still be pinned: pinning it and unpinning it again takes its
count down all the same, so a kept block whose descendant is still pinned loses its values.
-/

namespace Tetcore.StateDb.NonCanonicalOverlay

variable {H K D : Type} [DecidableEq H] [DecidableEq K] (ov : NonCanonicalOverlay H K D)
  {hash : H}

omit [DecidableEq K] in
theorem pin_of_not_pending (hpending : hash ∉ ov.pendingInsertions) :
    ov.pin hash = { ov with pinned := Function.update ov.pinned hash (ov.pinned hash + 1) } := by
  simp [pin, hpending]

theorem unpin_of_last (hlast : ov.pinned hash = 1) :
    ov.unpin hash =
      unpinWalk ov.unpinFuel (some hash) { ov with pinned := Function.update ov.pinned hash 0 } := by
  simp [unpin, hlast]

theorem unpinWalk_of_kept_last {inserted : List K}
    (hkept : ov.pinnedInsertions.lookup hash = some (inserted, 1)) (fuel : ℕ) :
    unpinWalk (fuel + 1) (some hash) ov =
      unpinWalk fuel (ov.parents hash) { ov with
        pinnedInsertions := ov.pinnedInsertions.erase hash
        values := discardValues ov.values inserted
        parents := Function.update ov.parents hash none } := by
  simp [unpinWalk, hkept]

theorem lookup_unpinWalk_of_none : ∀ (fuel : ℕ) (o : Option H) (ov : NonCanonicalOverlay H K D),
    ov.pinnedInsertions.lookup hash = none →
      (unpinWalk fuel o ov).pinnedInsertions.lookup hash = none
  | 0, _, _, hnone => hnone
  | _ + 1, none, _, hnone => hnone
  | fuel + 1, some hash', ov, hnone => by
    rcases hkept : ov.pinnedInsertions.lookup hash' with _ | ⟨inserted, count⟩
    · simpa [unpinWalk, hkept] using hnone
    · -- the walk writes the entry of `hash'`, which is kept, so it is not `hash`
      have hne : hash ≠ hash' := by
        rintro rfl
        rw [hnone] at hkept
        cases hkept
      by_cases hcount : count - 1 = 0
      · simp only [unpinWalk, hkept, hcount, if_true]
        exact lookup_unpinWalk_of_none fuel _ _ (by rw [AList.lookup_erase_ne hne]; exact hnone)
      · simp only [unpinWalk, hkept, hcount, if_false]
        exact lookup_unpinWalk_of_none fuel _ _ (by rw [AList.lookup_insert_ne hne]; exact hnone)

omit [DecidableEq K] in
theorem unpinFuel_pos {entry : List K × ℕ} (hkept : ov.pinnedInsertions.lookup hash = some entry) :
    0 < ov.unpinFuel := by
  have hmem : (⟨hash, entry⟩ : Σ _ : H, List K × ℕ) ∈ ov.pinnedInsertions.entries :=
    AList.mem_lookup_iff.mp hkept
  have hle : entry.2 + 1 ≤ ov.unpinFuel :=
    List.le_sum_of_mem (List.mem_map_of_mem (f := fun e : Σ _ : H, List K × ℕ => e.2.2 + 1) hmem)
  omega

theorem unpin_pin_of_kept (hpending : hash ∉ ov.pendingInsertions) (hpinned : ov.pinned hash = 0)
    {inserted : List K} (hkept : ov.pinnedInsertions.lookup hash = some (inserted, 1)) :
    ((ov.pin hash).unpin hash).pinnedInsertions.lookup hash = none := by
  have hpin := ov.pin_of_not_pending hpending
  have hlast : (ov.pin hash).pinned hash = 1 := by simp [hpin, hpinned]
  obtain ⟨fuel, hfuel⟩ : ∃ fuel, (ov.pin hash).unpinFuel = fuel + 1 :=
    Nat.exists_eq_add_one.mpr ((ov.pin hash).unpinFuel_pos (by rw [hpin]; exact hkept))
  rw [unpin_of_last _ hlast, hfuel, unpinWalk_of_kept_last _ (by rw [hpin]; exact hkept)]
  exact lookup_unpinWalk_of_none fuel _ _ (AList.lookup_erase hash _)

end Tetcore.StateDb.NonCanonicalOverlay

namespace Tetcore.StateDb

open NonCanonicalOverlay

/-- Block `3`, a child of block `1`, is pinned; canonicalizing the sibling `2` of `1` discards
both and keeps them with their values. Block `1` inserted key `10`. -/
def pinnedDescendant : List (Call ℕ ℕ ℕ) :=
  [.insert 1 1 0 { inserted := [(10, 100)] }, .insert 2 1 0 {}, .insert 3 2 1 {}, .applyPending,
    .pin 3, .canonicalize 2, .applyPending]

theorem pinnedDescendant_drops_ancestor_values :
    (∃ ov db, run pinnedDescendant = some (ov, db) ∧ ov.get 10 = some 100) ∧
      ∃ ov db, run (pinnedDescendant ++ [.pin 1, .unpin 1]) = some (ov, db) ∧
        ov.pinned 3 = 1 ∧ ov.parents 3 = some 1 ∧ (ov.pinnedInsertions.lookup 3).isSome ∧
        ov.get 10 = none :=
  ⟨⟨_, _, rfl, rfl⟩, _, _, rfl, rfl, rfl, rfl, rfl⟩

end Tetcore.StateDb
