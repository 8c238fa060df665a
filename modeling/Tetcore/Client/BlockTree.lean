import Tetcore.Client.Leaves
import Tetcore.Lib.Run

/-!
# The leaf set tracks the childless blocks

`LeafSet` answers which blocks have no child yet: the heads a new block is built on, and the forks
finality cuts off. What it stands for is the tree of imported blocks, each a hash, a number and a
parent hash, together with the highest height handed to `finalize_height`: its leaves are the
imported blocks that no imported block names as parent, at or above that height.

`import` removes the parent at the height below and adds the block; `finalize_height` drops the
heights below its number. Together they keep, height by height, exactly the leaves of the tree,
each hash once, as long as blocks arrive the way the client imports them: each block once, after
its parent, one height above it, and not below the finalized height. The proof is a simulation of
the tree by the leaf set, one call at a time, under that guard on the tree.
-/

namespace Tetcore.Client

variable {H : Type} [DecidableEq H]

/-- A block as the leaf set sees it. -/
structure Block (H : Type) where
  hash : H
  number : ℕ
  parentHash : H
  deriving DecidableEq, Repr

/-- The imported blocks, most recent first, and the highest height finalized. -/
structure BlockTree (H : Type) where
  blocks : List (Block H)
  finalized : ℕ

/-- The calls of the leaf set that the backend makes as blocks are imported and finalized. -/
inductive LeafCall (H : Type)
  | importBlock (hash : H) (number : ℕ) (parentHash : H)
  | finalizeHeight (number : ℕ)

namespace BlockTree

/-- No block imported, nothing finalized. -/
def empty : BlockTree H := ⟨[], 0⟩

/-- A leaf of the tree: an imported block at the number, that no imported block names as parent,
not below the finalized height. -/
def IsLeaf (t : BlockTree H) (hash : H) (number : ℕ) : Prop :=
  (∃ b ∈ t.blocks, b.hash = hash ∧ b.number = number) ∧
    (∀ b ∈ t.blocks, b.parentHash ≠ hash) ∧ t.finalized ≤ number

/-- Import a block. -/
def importBlock (t : BlockTree H) (b : Block H) : BlockTree H :=
  { t with blocks := b :: t.blocks }

/-- Finalize a height: finality never moves back. -/
def finalize (t : BlockTree H) (number : ℕ) : BlockTree H :=
  { t with finalized := max t.finalized number }

/-- A block the client may import: a new hash that no imported block names as parent, whose
parent, if imported, is one height below, which is not its own parent, and which is not below the
finalized height. -/
def Fresh (t : BlockTree H) (b : Block H) : Prop :=
  (∀ b' ∈ t.blocks, b'.hash ≠ b.hash ∧ b'.parentHash ≠ b.hash ∧
      (b'.hash = b.parentHash → b'.number + 1 = b.number)) ∧
    b.parentHash ≠ b.hash ∧ t.finalized ≤ b.number

instance decidableFresh (t : BlockTree H) (b : Block H) : Decidable (t.Fresh b) :=
  inferInstanceAs (Decidable (_ ∧ _ ∧ _))

/-- One call on the tree. -/
def exec (t : BlockTree H) : LeafCall H → BlockTree H
  | .importBlock hash number parentHash => t.importBlock ⟨hash, number, parentHash⟩
  | .finalizeHeight number => t.finalize number

/-- The guard of a call: an import must be fresh. -/
def Allowed (t : BlockTree H) : LeafCall H → Prop
  | .importBlock hash number parentHash => t.Fresh ⟨hash, number, parentHash⟩
  | .finalizeHeight _ => True

instance decidableAllowed (t : BlockTree H) : (call : LeafCall H) → Decidable (t.Allowed call)
  | .importBlock hash number parentHash => decidableFresh t ⟨hash, number, parentHash⟩
  | .finalizeHeight _ => instDecidableTrue

/-! ### Leaves of the tree after each call -/

variable {t : BlockTree H}

omit [DecidableEq H] in
theorem Fresh.not_isLeaf {b : Block H} (h : t.Fresh b) (number : ℕ) : ¬t.IsLeaf b.hash number := by
  rintro ⟨⟨b', hb', hhash, -⟩, -, -⟩
  exact (h.1 b' hb').1 hhash

omit [DecidableEq H] in
theorem Fresh.number_of_isLeaf {b : Block H} (h : t.Fresh b) {number : ℕ}
    (hleaf : t.IsLeaf b.parentHash number) : number + 1 = b.number := by
  obtain ⟨⟨b', hb', hhash, rfl⟩, -, -⟩ := hleaf
  exact (h.1 b' hb').2.2 hhash

omit [DecidableEq H] in
theorem Fresh.ne_parentHash {b : Block H} (h : t.Fresh b) {hash : H} {number : ℕ}
    (hleaf : t.IsLeaf hash number) (hnumber : number + 1 ≠ b.number) : hash ≠ b.parentHash := by
  rintro rfl
  exact hnumber (h.number_of_isLeaf hleaf)

omit [DecidableEq H] in
theorem isLeaf_importBlock {b : Block H} (h : t.Fresh b) (hash : H) (number : ℕ) :
    (t.importBlock b).IsLeaf hash number ↔
      (hash = b.hash ∧ number = b.number) ∨ (t.IsLeaf hash number ∧ hash ≠ b.parentHash) := by
  obtain ⟨hblocks, hself, habove⟩ := h
  simp only [IsLeaf, importBlock, List.mem_cons, forall_eq_or_imp, exists_eq_or_imp]
  constructor
  · rintro ⟨hexists, ⟨hparent, hchild⟩, hfin⟩
    rcases hexists with ⟨rfl, rfl⟩ | hold
    · exact .inl ⟨rfl, rfl⟩
    · exact .inr ⟨⟨hold, hchild, hfin⟩, Ne.symm hparent⟩
  · rintro (⟨rfl, rfl⟩ | ⟨⟨hold, hchild, hfin⟩, hparent⟩)
    · exact ⟨.inl ⟨rfl, rfl⟩, ⟨hself, fun b' hb' => (hblocks b' hb').2.1⟩, habove⟩
    · exact ⟨.inr hold, ⟨Ne.symm hparent, hchild⟩, hfin⟩

omit [DecidableEq H] in
theorem isLeaf_finalize (n : ℕ) (hash : H) (number : ℕ) :
    (t.finalize n).IsLeaf hash number ↔ t.IsLeaf hash number ∧ n ≤ number := by
  simp only [IsLeaf, finalize, max_le_iff]
  tauto

end BlockTree

namespace LeafSet

/-- `LeafSet::new`: no leaf, nothing pending. -/
def new : LeafSet H := ⟨∅, [], []⟩

/-- One call on the leaf set, the displaced leaves it returns dropped. -/
def exec (s : LeafSet H) : LeafCall H → LeafSet H
  | .importBlock hash number parentHash => (s.importBlock hash number parentHash).2
  | .finalizeHeight number => (s.finalizeHeight number).2

/-! ### Leaves of the set after each call -/

omit [DecidableEq H] in
@[simp]
theorem leavesAt_new (m : ℕ) : (new : LeafSet H).leavesAt m = [] := by
  simp [new, leavesAt]

theorem leavesAt_importBlock (s : LeafSet H) (hash : H) (number : ℕ) (parentHash : H) (m : ℕ) :
    (s.importBlock hash number parentHash).2.leavesAt m =
      if m = number then s.leavesAt number ++ [hash]
      else if number ≠ 0 ∧ m = number - 1 then (s.leavesAt m).filter (· != parentHash)
      else s.leavesAt m := by
  by_cases hnumber : number = 0
  · -- the genesis block displaces nothing
    subst hnumber
    have hstorage : (s.importBlock hash 0 parentHash).2.leavesAt m = (s.insertLeaf 0 hash).leavesAt m := rfl
    rw [hstorage, leavesAt_insertLeaf]
    simp
  · -- the parent is removed from the height below whether or not it was a leaf there
    have hstorage : (s.importBlock hash number parentHash).2.leavesAt m =
        ((s.removeLeaf (number - 1) parentHash).2.insertLeaf number hash).leavesAt m := by
      unfold importBlock
      simp only [ne_eq, hnumber, not_false_eq_true, if_true]
      rcases s.removeLeaf (number - 1) parentHash with ⟨_ | _, s₁⟩ <;> rfl
    have hat := leavesAt_removeLeaf s (number - 1) number parentHash
    rw [if_neg (by omega)] at hat
    rw [hstorage, leavesAt_insertLeaf, hat, leavesAt_removeLeaf]
    by_cases hm : m = number
    · simp only [hm, if_true]
    · by_cases hbelow : m = number - 1
      · have hguard : number ≠ 0 ∧ m = number - 1 := ⟨hnumber, hbelow⟩
        rw [if_neg hm, if_neg hm, if_pos hbelow, if_pos hguard, hbelow]
      · have hguard : ¬(number ≠ 0 ∧ m = number - 1) := fun h => hbelow h.2
        rw [if_neg hm, if_neg hm, if_neg hbelow, if_neg hguard]

omit [DecidableEq H] in
theorem leavesAt_finalizeHeight (s : LeafSet H) (n m : ℕ) :
    (s.finalizeHeight n).2.leavesAt m = if m < n then [] else s.leavesAt m := by
  unfold leavesAt
  rw [getElem?_finalizeHeight_storage]
  split_ifs <;> rfl

end LeafSet

/-! ### The simulation -/

/-- The leaf set holds at each height exactly the leaves of the tree there, each once. -/
structure Tracks (s : LeafSet H) (t : BlockTree H) : Prop where
  mem_iff : ∀ number hash, hash ∈ s.leavesAt number ↔ t.IsLeaf hash number
  nodup : ∀ number, (s.leavesAt number).Nodup

omit [DecidableEq H] in
theorem tracks_new : Tracks (LeafSet.new : LeafSet H) BlockTree.empty where
  mem_iff number hash := by
    simp [BlockTree.IsLeaf, BlockTree.empty]
  nodup number := by
    simp

variable {s : LeafSet H} {t : BlockTree H}

theorem Tracks.importBlock (h : Tracks s t) {hash : H} {number : ℕ} {parentHash : H}
    (hfresh : t.Fresh ⟨hash, number, parentHash⟩) :
    Tracks (s.importBlock hash number parentHash).2 (t.importBlock ⟨hash, number, parentHash⟩) where
  mem_iff m x := by
    rw [LeafSet.leavesAt_importBlock, BlockTree.isLeaf_importBlock hfresh]
    split_ifs with hm hbelow
    · -- the block's own height: the leaves there, and the block
      subst hm
      simp only [List.mem_append, List.mem_singleton, h.mem_iff]
      constructor
      · rintro (hleaf | rfl)
        · exact .inr ⟨hleaf, hfresh.ne_parentHash hleaf (Nat.succ_ne_self m)⟩
        · exact .inl ⟨rfl, trivial⟩
      · rintro (⟨rfl, -⟩ | ⟨hleaf, -⟩)
        · exact .inr rfl
        · exact .inl hleaf
    · -- the height below: the parent leaves it
      simp only [List.mem_filter, bne_iff_ne, ne_eq, h.mem_iff]
      constructor
      · rintro ⟨hleaf, hx⟩
        exact .inr ⟨hleaf, hx⟩
      · rintro (⟨-, rfl⟩ | hleaf)
        · exact absurd rfl hm
        · exact hleaf
    · -- any other height: the parent is not a leaf there
      rw [h.mem_iff]
      constructor
      · -- a leaf elsewhere is not the parent, which is one height below the block
        intro hleaf
        refine .inr ⟨hleaf, hfresh.ne_parentHash hleaf fun hnumber : m + 1 = number => ?_⟩
        exact hbelow ⟨by omega, by omega⟩
      · rintro (⟨-, rfl⟩ | ⟨hleaf, -⟩)
        · exact absurd rfl hm
        · exact hleaf
  nodup m := by
    rw [LeafSet.leavesAt_importBlock]
    split_ifs with hm
    · -- the block's hash is new at its height
      subst hm
      have hfresh' : hash ∉ s.leavesAt m := fun hmem =>
        hfresh.not_isLeaf m ((h.mem_iff m hash).mp hmem)
      exact List.nodup_append.mpr ⟨h.nodup m, List.nodup_singleton hash,
        fun a ha b hb => by rintro rfl; exact hfresh' (List.mem_singleton.mp hb ▸ ha)⟩
    · exact (h.nodup m).filter _
    · exact h.nodup m

omit [DecidableEq H] in
theorem Tracks.finalizeHeight (h : Tracks s t) (n : ℕ) :
    Tracks (s.finalizeHeight n).2 (t.finalize n) where
  mem_iff m x := by
    rw [LeafSet.leavesAt_finalizeHeight, BlockTree.isLeaf_finalize]
    split_ifs with hm
    · simp only [List.not_mem_nil, false_iff, not_and, not_le]
      exact fun _ => hm
    · rw [h.mem_iff]
      exact ⟨fun hleaf => ⟨hleaf, by omega⟩, fun hleaf => hleaf.1⟩
  nodup m := by
    rw [LeafSet.leavesAt_finalizeHeight]
    split_ifs
    · exact List.nodup_nil
    · exact h.nodup m

theorem Tracks.exec (h : Tracks s t) {call : LeafCall H} (hallowed : t.Allowed call) :
    Tracks (s.exec call) (t.exec call) := by
  cases call with
  | importBlock hash number parentHash => exact h.importBlock hallowed
  | finalizeHeight number => exact h.finalizeHeight number

/-- **The leaf set tracks the childless blocks.** Over every sequence of imports and
finalizations from the empty set, in which each block is imported once, after its parent, one
height above it and not below the finalized height, the leaf set holds at each height exactly the
imported blocks there that no imported block names as parent and that are not below the highest
finalized height, each once. -/
theorem leafSet_tracks_leaves (calls : List (LeafCall H))
    (hallowed : ∀ n (h : n < calls.length),
      (StepMachine.run BlockTree.exec BlockTree.empty (calls.take n)).Allowed calls[n]) :
    Tracks (StepMachine.run LeafSet.exec LeafSet.new calls)
      (StepMachine.run BlockTree.exec BlockTree.empty calls) :=
  StepMachine.run_guarded_simulation LeafSet.exec BlockTree.exec
    (fun _ _ _ h hallowed => h.exec hallowed) calls tracks_new hallowed

/-- Genesis `0`, two children `1` and `2`, a grandchild `3` of `1`, height `1` finalized, then a
child `4` of `3`. -/
def forkThenFinalize : List (LeafCall ℕ) :=
  [.importBlock 0 0 100, .importBlock 1 1 0, .importBlock 2 1 0, .importBlock 3 2 1,
    .finalizeHeight 1, .importBlock 4 3 3]

theorem leafSet_tracks_leaves_forkThenFinalize :
    (∀ n (h : n < forkThenFinalize.length),
      (StepMachine.run BlockTree.exec BlockTree.empty (forkThenFinalize.take n)).Allowed
        forkThenFinalize[n]) ∧
      Tracks (StepMachine.run LeafSet.exec LeafSet.new forkThenFinalize)
        (StepMachine.run BlockTree.exec BlockTree.empty forkThenFinalize) := by
  have hallowed : ∀ n (h : n < forkThenFinalize.length),
      (StepMachine.run BlockTree.exec BlockTree.empty (forkThenFinalize.take n)).Allowed
        forkThenFinalize[n] := by
    decide
  exact ⟨hallowed, leafSet_tracks_leaves forkThenFinalize hallowed⟩

end Tetcore.Client
