import Tetcore.StateDb.Pruning
import Tetcore.Lib.Run

/-!
# Runs of the pruning window

The window beside the meta column it journals into, every commit set written before the next
call. In every run the index names, for each of its keys, a row of the window that deletes the
key, and the pending counts stay within the window (`Sound`), so neither the indexing of
`import` nor the `expect` of `apply_pending` nor the `truncate` of `revert_pending` panics.

The index loses more than it should, though: `apply_pending` drops the index entry of every key
of a pruned row, also when the entry names a later row that deletes the key again. A later block
that inserts the key then no longer takes it out of that row, so `prune_one` deletes it, and the
journal no longer replays to the same window.
-/

namespace Tetcore.StateDb

theorem foldl_update_apply {α β : Type} [DecidableEq α] (l : List α) (v : β) (f : α → β) (a : α) :
    l.foldl (fun g k => Function.update g k v) f a = if a ∈ l then v else f a := by
  induction l generalizing f with
  | nil => simp
  | cons k l ih =>
    rw [List.foldl_cons, ih]
    by_cases ha : a = k
    · subst ha
      simp
    · simp [ha]

namespace RefWindow

variable {H K D : Type} [DecidableEq K]

/-- The index holds entries only when insertions are counted, and each names a row of the window
that deletes its key. -/
def IndexSound (w : RefWindow H K) : Prop :=
  ∀ k b, w.deathIndex k = some b → w.countInsertions = true ∧ w.pendingNumber ≤ b ∧
    ∃ row, w.deathRows[b - w.pendingNumber]? = some row ∧ k ∈ row.deleted

structure Sound (w : RefWindow H K) : Prop where
  prunings : w.pendingPrunings ≤ w.deathRows.length
  canonicalizations : w.pendingCanonicalizations ≤ w.deathRows.length
  index : w.IndexSound

variable {w : RefWindow H K}

theorem IndexSound.forget (h : w.IndexSound) (k : K) :
    ∃ index rows, w.forget k = some { w with deathIndex := index, deathRows := rows } ∧
      rows.length = w.deathRows.length ∧
      IndexSound { w with deathIndex := index, deathRows := rows } := by
  rcases hk : w.deathIndex k with _ | b
  · exact ⟨w.deathIndex, w.deathRows, by simp [RefWindow.forget, hk], rfl, h⟩
  · obtain ⟨-, hle, row, hrow, -⟩ := h k b hk
    let row' : DeathRow H K := { row with deleted := row.deleted.filter (· ≠ k) }
    refine ⟨Function.update w.deathIndex k none, w.deathRows.set (b - w.pendingNumber) row', ?_,
      List.length_set .., fun k' b' hk' => ?_⟩
    · simp [RefWindow.forget, hk, hrow, Nat.not_lt.mpr hle, row']
    · -- the entry of `k` is gone; every other entry still names its row
      dsimp only at hk' ⊢
      have hne : k' ≠ k := by
        rintro rfl
        simp at hk'
      rw [Function.update_of_ne hne] at hk'
      obtain ⟨hcount, hle', row'', hrow'', hmem''⟩ := h k' b' hk'
      refine ⟨hcount, hle', ?_⟩
      by_cases hsame : b' - w.pendingNumber = b - w.pendingNumber
      · rw [hsame, hrow] at hrow''
        cases hrow''
        refine ⟨row', ?_, by simp [row', hmem'', hne]⟩
        rw [hsame, List.getElem?_set_self (List.getElem?_eq_some_iff.mp hrow).1]
      · exact ⟨row'', by rw [List.getElem?_set_ne (Ne.symm hsame)]; exact hrow'', hmem''⟩

theorem IndexSound.importRecord (h : w.IndexSound) (hash : H) (journalKey : MetaKey)
    (inserted deleted : List K) :
    ∃ index rows, w.importRecord hash journalKey inserted deleted =
        some { w with deathIndex := index, deathRows := rows } ∧
      rows.length = w.deathRows.length + 1 ∧
      IndexSound { w with deathIndex := index, deathRows := rows } := by
  cases hcount : w.countInsertions with
  | false =>
    -- nothing is indexed: the row is pushed and the index stays empty
    refine ⟨w.deathIndex, w.deathRows ++ [⟨hash, journalKey, deleted⟩], ?_, by simp, ?_⟩
    · simp [RefWindow.importRecord, hcount]
    · intro k b hk
      rw [(h k b hk).1] at hcount
      cases hcount
  | true =>
    -- the loop of `forget` keeps the rows' number and the rest of the window
    have hloop := StepMachine.foldlM_option_invariant (fun w k => RefWindow.forget w k)
      (fun s => s.IndexSound ∧ ∃ index rows, s = { w with deathIndex := index, deathRows := rows } ∧
        rows.length = w.deathRows.length)
      (by
        rintro s k ⟨hs, index, rows, rfl, hlen⟩
        obtain ⟨index', rows', hforget, hlen', hs'⟩ := hs.forget k
        exact ⟨_, hforget, hs', index', rows', rfl, hlen'.trans hlen⟩)
      inserted ⟨h, w.deathIndex, w.deathRows, rfl, rfl⟩
    obtain ⟨s, hfold, hs, index, rows, rfl, hlen⟩ := hloop
    let block := w.pendingNumber + rows.length
    refine ⟨deleted.foldl (fun index k => Function.update index k (some block)) index,
      rows ++ [⟨hash, journalKey, deleted⟩], ?_, by simp [hlen], fun k b hk => ?_⟩
    · simp [RefWindow.importRecord, hcount, hfold, block]
    · simp only at hk
      rw [foldl_update_apply] at hk
      split at hk
      · -- a deleted key names the new row
        rename_i hmem
        cases hk
        refine ⟨rfl, by simp [block], ⟨hash, journalKey, deleted⟩, ?_, hmem⟩
        simp [block]
      · obtain ⟨-, hle, row, hrow, hmem⟩ := hs k b hk
        have hlt : b - w.pendingNumber < rows.length := (List.getElem?_eq_some_iff.mp hrow).1
        exact ⟨rfl, hle, row, by rw [List.getElem?_append_left hlt]; exact hrow, hmem⟩

theorem Sound.noteCanonical (h : Sound w) (hash : H) (commit : CommitSet H K D) :
    ∃ w' commit', w.noteCanonical hash commit = some (w', commit') ∧ Sound w' := by
  obtain ⟨index, rows, himport, hlen, hindex⟩ := h.index.importRecord hash
    (.pruningJournal (w.pendingNumber + w.deathRows.length))
    (if w.countInsertions then commit.data.inserted.map Prod.fst else []) commit.data.deleted
  simp only [RefWindow.noteCanonical]
  rw [himport]
  refine ⟨_, _, rfl, ?_, ?_, hindex⟩
  · have := h.prunings
    simp only
    omega
  · have := h.canonicalizations
    simp only
    omega

omit [DecidableEq K] in
theorem Sound.pruneOne (h : Sound w) (commit : CommitSet H K D) : Sound (w.pruneOne commit).1 := by
  unfold RefWindow.pruneOne
  split
  · exact h
  · rename_i pruned hpruned
    exact ⟨Nat.succ_le_of_lt (List.getElem?_eq_some_iff.mp hpruned).1, h.canonicalizations,
      h.index⟩

theorem IndexSound.applyPruning (h : w.IndexSound) (hne : w.deathRows ≠ []) :
    ∃ w', w.applyPruning = some w' ∧ w'.IndexSound ∧
      w'.deathRows.length + 1 = w.deathRows.length ∧
      w'.pendingCanonicalizations = w.pendingCanonicalizations := by
  obtain ⟨pruned, rows, hrows⟩ := List.exists_cons_of_ne_nil hne
  let deathIndex := if w.countInsertions then
      pruned.deleted.foldl (fun index k => Function.update index k none) w.deathIndex
    else w.deathIndex
  refine ⟨{ w with deathRows := rows, deathIndex := deathIndex, pendingNumber := w.pendingNumber + 1 },
    by rw [RefWindow.applyPruning, hrows], fun k b hk => ?_, by simp [hrows], rfl⟩
  simp only [deathIndex] at hk
  cases hcount : w.countInsertions with
  | false =>
    simp only [hcount] at hk
    rw [(h k b hk).1] at hcount
    cases hcount
  | true =>
    simp only [hcount, if_true, foldl_update_apply] at hk
    split at hk
    · cases hk
    · rename_i hnotin
      obtain ⟨-, hle, row, hrow, hmem⟩ := h k b hk
      rw [hrows] at hrow
      -- the entry does not name the pruned row, which deletes none of its keys any more
      have hpos : b - w.pendingNumber ≠ 0 := by
        intro hzero
        rw [hzero] at hrow
        cases hrow
        exact hnotin hmem
      dsimp only
      refine ⟨rfl, by omega, row, ?_, hmem⟩
      have hsub : b - w.pendingNumber = b - (w.pendingNumber + 1) + 1 := by omega
      rw [hsub, List.getElem?_cons_succ] at hrow
      exact hrow

theorem IndexSound.applyPrunings : ∀ (p : ℕ) (w : RefWindow H K), w.IndexSound →
    p ≤ w.deathRows.length →
      ∃ w', (List.replicate p ()).foldlM (fun w _ => w.applyPruning) w = some w' ∧
        w'.IndexSound ∧ w'.pendingCanonicalizations = w.pendingCanonicalizations
  | 0, w, h, _ => ⟨w, rfl, h, rfl⟩
  | p + 1, w, h, hp => by
    have hne : w.deathRows ≠ [] := by
      intro hnil
      simp [hnil] at hp
    obtain ⟨w₁, hw₁, h₁, hlen, hcanon⟩ := h.applyPruning hne
    obtain ⟨w₂, hw₂, h₂, hcanon₂⟩ := applyPrunings p w₁ h₁ (by omega)
    refine ⟨w₂, ?_, h₂, hcanon₂.trans hcanon⟩
    rw [List.replicate_succ, List.foldlM_cons, hw₁]
    exact hw₂

theorem Sound.applyPending (h : Sound w) : ∃ w', w.applyPending = some w' ∧ Sound w' := by
  obtain ⟨w', hloop, hindex, hcanon⟩ := IndexSound.applyPrunings w.pendingPrunings
    { w with pendingCanonicalizations := 0 } h.index h.prunings
  refine ⟨{ w' with pendingPrunings := 0 }, by rw [RefWindow.applyPending, hloop]; rfl,
    Nat.zero_le _, ?_, hindex⟩
  dsimp only
  rw [hcanon]
  exact Nat.zero_le _

omit [DecidableEq K] in
theorem Sound.revertPending (h : Sound w) : ∃ w', w.revertPending = some w' ∧ Sound w' := by
  rw [RefWindow.revertPending, if_neg (Nat.not_lt.mpr h.canonicalizations)]
  refine ⟨_, rfl, Nat.zero_le _, Nat.zero_le _, fun k b hk => ?_⟩
  cases hcount : w.countInsertions with
  | false =>
    simp only [hcount] at hk
    rw [(h.index k b hk).1] at hcount
    cases hcount
  | true =>
    -- an entry left names a row below the new end of the window
    simp only [hcount, if_true, Option.filter_eq_some_iff, decide_eq_true_eq] at hk
    obtain ⟨hk, hlt⟩ := hk
    obtain ⟨-, hle, row, hrow, hmem⟩ := h.index k b hk
    refine ⟨rfl, hle, row, ?_, hmem⟩
    dsimp only
    simp only [List.length_take] at hlt
    rw [List.getElem?_take_of_lt (by omega)]
    exact hrow

/-- The calls on the window. -/
inductive Call (H K D : Type)
  | noteCanonical (hash : H) (changeset : ChangeSet K D)
  | pruneOne
  | applyPending
  | revertPending

/-- A call, with its commit set written; `none` when it panicked. -/
def exec (p : RefWindow H K × MetaDb H K D) : Call H K D → Option (RefWindow H K × MetaDb H K D)
  | .noteCanonical hash changeset =>
    (p.1.noteCanonical hash { data := changeset }).map fun r => (r.1, p.2.commit r.2)
  | .pruneOne =>
    let r := p.1.pruneOne ({} : CommitSet H K D)
    some (r.1, p.2.commit r.2)
  | .applyPending => p.1.applyPending.map (·, p.2)
  | .revertPending => p.1.revertPending.map (·, p.2)

/-- `RefWindow::new` on an empty database. -/
def empty (countInsertions : Bool) : RefWindow H K :=
  ⟨[], fun _ => none, 0, 0, 0, countInsertions⟩

def run (countInsertions : Bool) (calls : List (Call H K D)) :
    Option (RefWindow H K × MetaDb H K D) :=
  StepMachine.run (fun o c => o.bind (exec · c)) (some (empty countInsertions, ∅)) calls

theorem Sound.exec {p : RefWindow H K × MetaDb H K D} (h : Sound p.1) (c : Call H K D) :
    ∃ p', exec p c = some p' ∧ Sound p'.1 := by
  cases c with
  | noteCanonical hash changeset =>
    obtain ⟨w', commit', hnote, h'⟩ := h.noteCanonical hash { data := changeset }
    exact ⟨_, by rw [RefWindow.exec, hnote]; rfl, h'⟩
  | pruneOne => exact ⟨_, rfl, h.pruneOne {}⟩
  | applyPending =>
    obtain ⟨w', happly, h'⟩ := h.applyPending
    exact ⟨_, by rw [RefWindow.exec, happly]; rfl, h'⟩
  | revertPending =>
    obtain ⟨w', hrevert, h'⟩ := h.revertPending
    exact ⟨_, by rw [RefWindow.exec, hrevert]; rfl, h'⟩

/-- No run panics, and the window stays sound. -/
theorem refWindow_never_panics (countInsertions : Bool) (calls : List (Call H K D)) :
    ∃ w db, run countInsertions calls = some (w, db) ∧ Sound w := by
  have hstep : ∀ (o : Option (RefWindow H K × MetaDb H K D)) c,
      (∃ w db, o = some (w, db) ∧ Sound w) → ∃ w db, o.bind (exec · c) = some (w, db) ∧ Sound w := by
    rintro o c ⟨w, db, rfl, h⟩
    obtain ⟨⟨w', db'⟩, hexec, h'⟩ := Sound.exec (p := (w, db)) h c
    exact ⟨w', db', hexec, h'⟩
  have hempty : Sound (empty countInsertions : RefWindow H K) :=
    ⟨Nat.zero_le _, Nat.zero_le _, fun k b hk => by simp [empty] at hk⟩
  exact StepMachine.run_invariant _ hstep calls ⟨_, _, rfl, hempty⟩

end RefWindow

open RefWindow

/-- Blocks `1` and `2` both delete key `7`; block `1` is pruned, then block `3` inserts `7`
again. -/
def reinsertAfterPrune : List (RefWindow.Call ℕ ℕ ℕ) :=
  [.noteCanonical 1 { deleted := [7] }, .noteCanonical 2 { deleted := [7] }, .applyPending,
    .pruneOne, .applyPending, .noteCanonical 3 { inserted := [(7, 0)] }]

theorem reinsertAfterPrune_deletes_reinserted :
    ∃ w db restored, RefWindow.run true reinsertAfterPrune = some (w, db) ∧
      RefWindow.new db true = .ok restored ∧
      w.deathRows.map (·.hash) = [2, 3] ∧ w.deathRows.map (·.deleted) = [[7], []] ∧
      restored.deathRows.map (·.deleted) = [[], []] ∧
      (w.pruneOne ({} : CommitSet ℕ ℕ ℕ)).2.data.deleted = [7] := by
  refine ⟨_, _, _, rfl, rfl, ?_, ?_, ?_, ?_⟩ <;> rfl

end Tetcore.StateDb
