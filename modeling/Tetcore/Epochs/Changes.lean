import Tetcore.ForkTree.FalliblePrune

/-!
# Epoch changes

`client/consensus/epochs/src/lib.rs`. `EpochChanges` keeps the epochs signalled on every fork
twice: a fork tree of the blocks that signalled one, each with the header of its epoch (its start
and end slot), and a map from the block's hash and number to the whole epoch. `import` adds to
both; `prune_finalized` prunes the tree at the deepest epoch still live after a finalized block
and removes from the map what the tree hands back; `epoch_descriptor_for_child_of` finds in the
tree the epoch a new block falls in, by an identifier that `epoch` then looks up in the map.

Along every run of `import`, each block imported once, and of `prune_finalized` calls that return
`Ok`, the tree and the map describe the same epochs (`Lockstep`), so every identifier the search
gives names an epoch of the map. A `prune_finalized` whose oracle fails in its loop over the
children of the new root leaves the tree with no node and every entry of the map.

The oracle of `import` is a function of two hashes: a client error of the fork tree's `import`
returns before anything is written, to the tree or to the map. The source builds each oracle from
the block's parent (`build_is_descendent_of`) and `fake_head_hash` flips the first bit of the
parent's hash; here the calls take both as they are given.
-/

namespace Tetcore.Epochs

open ForkTree
open Rose hiding label children node

/-- `Epoch`: the slots an epoch covers, `start_slot .. end_slot`. -/
class Epoch (E : Type) (Slot : outParam Type) where
  startSlot : E → Slot
  endSlot : E → Slot

/-- `EpochHeader`. -/
structure EpochHeader (Slot : Type) where
  startSlot : Slot
  endSlot : Slot
  deriving DecidableEq, Repr

variable {H N E S : Type} [Epoch E S]

/-- `From<&E> for EpochHeader<E>`. -/
def EpochHeader.ofEpoch (epoch : E) : EpochHeader S :=
  ⟨Epoch.startSlot epoch, Epoch.endSlot epoch⟩

/-- `PersistedEpoch`: the first two epochs are kept together. -/
inductive PersistedEpoch (E : Type)
  | genesis (epoch0 epoch1 : E)
  | regular (epochN : E)
  deriving DecidableEq, Repr

/-- `PersistedEpochHeader`, the data of a node of the tree. -/
inductive PersistedEpochHeader (S : Type)
  | genesis (epoch0 epoch1 : EpochHeader S)
  | regular (epochN : EpochHeader S)
  deriving DecidableEq, Repr

/-- `From<&PersistedEpoch<E>> for PersistedEpochHeader<E>`. -/
def PersistedEpochHeader.ofEpoch : PersistedEpoch E → PersistedEpochHeader S
  | .genesis epoch0 epoch1 => .genesis (.ofEpoch epoch0) (.ofEpoch epoch1)
  | .regular epochN => .regular (.ofEpoch epochN)

inductive EpochIdentifierPosition
  | genesis0
  | genesis1
  | regular
  deriving DecidableEq, Repr

structure EpochIdentifier (H N : Type) where
  position : EpochIdentifierPosition
  hash : H
  number : N
  deriving DecidableEq, Repr

inductive ViableEpochDescriptor (H N S : Type)
  | unimportedGenesis (slot : S)
  | signaled (identifier : EpochIdentifier H N) (header : EpochHeader S)
  deriving DecidableEq, Repr

/-- The epoch at a position of a `PersistedEpoch`: the match of `epoch`, whose guards compare the
position of the identifier. -/
def PersistedEpoch.atPosition : PersistedEpoch E → EpochIdentifierPosition → Option E
  | .genesis epoch0 _, .genesis0 => some epoch0
  | .genesis _ epoch1, .genesis1 => some epoch1
  | .regular epochN, .regular => some epochN
  | _, _ => none

/-- `EpochChanges`; the `BTreeMap` of the epochs is a function to `Option`. -/
structure EpochChanges (H N E S : Type) where
  inner : ForkTree H N (PersistedEpochHeader S)
  epochs : H × N → Option (PersistedEpoch E)

namespace EpochChanges

def new : EpochChanges H N E S := ⟨ForkTree.new, fun _ => none⟩

/-- `epoch`. -/
def epoch (c : EpochChanges H N E S) (id : EpochIdentifier H N) : Option E :=
  (c.epochs (id.hash, id.number)).bind fun v => v.atPosition id.position

variable [DecidableEq H] [LinearOrder N]

/-- `import`. A block the tree refuses as a duplicate is still written to the map. -/
def importEpoch (c : EpochChanges H N E S) (isDescendentOf : H → H → Bool) (hash : H) (number : N)
    (epoch : PersistedEpoch E) : Except ForkTree.Error Unit × EpochChanges H N E S :=
  match c.inner.importNode isDescendentOf hash number (.ofEpoch epoch) with
  | .ok (inner, _) => (.ok (), ⟨inner, Function.update c.epochs (hash, number) (some epoch)⟩)
  | .error .duplicate => (.ok (), { c with epochs := Function.update c.epochs (hash, number) (some epoch) })
  | .error e => (.error e, c)

/-- The loop of `prune_finalized` over what the tree hands back: `self.epochs.remove(&(hash, number))`. -/
def removeAll {V : Type} (epochs : H × N → Option (PersistedEpoch E)) (removed : List (H × N × V)) :
    H × N → Option (PersistedEpoch E) :=
  removed.foldl (fun epochs x => Function.update epochs (x.1, x.2.1) none) epochs

variable [LinearOrder S]

/-- The predicate of `prune_finalized`: the epoch is over by `slot`. -/
def endedBy (slot : S) : PersistedEpochHeader S → Bool
  | .genesis _ epoch1 => decide (epoch1.endSlot ≤ slot)
  | .regular epochN => decide (epochN.endSlot ≤ slot)

/-- `prune_finalized`, with the tree as the call leaves it also when it fails. -/
def pruneFinalized {ε : Type} (c : EpochChanges H N E S) (isDescendentOf : H → H → Except ε Bool)
    (hash : H) (number : N) (slot : S) : Outcome (Fallible.Error ε) Unit × EpochChanges H N E S :=
  match Fallible.prune isDescendentOf c.inner hash number (endedBy slot) with
  | (.ok removed, inner) => (.ok (), ⟨inner, removeAll c.epochs (removedIter removed)⟩)
  | (.err e, inner) => (.err e, { c with inner })
  | (.panic, inner) => (.panic, { c with inner })

/-- The predicate of `epoch_descriptor_for_child_of`: the epoch has started by `slot`; of the first
two, the first decides. -/
def startedBy (slot : S) : PersistedEpochHeader S → Bool
  | .genesis epoch0 _ => decide (epoch0.startSlot ≤ slot)
  | .regular epochN => decide (epochN.startSlot ≤ slot)

/-- Which epoch of the node found a child at `slot` is in, and its header. -/
def viableHeader (slot : S) : PersistedEpochHeader S → EpochIdentifierPosition × EpochHeader S
  | .genesis epoch0 epoch1 =>
    if epoch1.startSlot ≤ slot then (.genesis1, epoch1) else (.genesis0, epoch0)
  | .regular epochN => (.regular, epochN)

/-- `epoch_descriptor_for_child_of`: the deepest node above the fake child of the parent whose
epoch has started by `slot`. -/
def epochDescriptorForChildOf [Zero N] [One N] [Add N] {ε : Type} (c : EpochChanges H N E S)
    (isDescendentOf : H → H → Except ε Bool) (fakeHeadHash : H → H) (parentHash : H)
    (parentNumber : N) (slot : S) : Outcome (Fallible.Error ε) (Option (ViableEpochDescriptor H N S)) :=
  if parentNumber = 0 then .ok (some (.unimportedGenesis slot))
  else
    (Fallible.findNodeWhere isDescendentOf c.inner (fakeHeadHash parentHash) (parentNumber + 1)
      (startedBy slot)).bind fun found =>
        .ok (found.map fun node =>
          .signaled ⟨(viableHeader slot node.label.data).1, node.label.hash, node.label.number⟩
            (viableHeader slot node.label.data).2)

/-! ### The map after a prune -/

omit [LinearOrder S] in
theorem removeAll_apply {V : Type} (epochs : H × N → Option (PersistedEpoch E))
    (removed : List (H × N × V)) (key : H × N) :
    removeAll epochs removed key =
      if key ∈ removed.map (fun x => (x.1, x.2.1)) then none else epochs key := by
  induction removed generalizing epochs with
  | nil => simp [removeAll]
  | cons x removed ih =>
    show removeAll (Function.update epochs (x.1, x.2.1) none) removed key = _
    rw [ih]
    by_cases hkey : key = (x.1, x.2.1)
    · simp [hkey]
    · rw [Function.update_of_ne hkey]
      simp only [List.map_cons, List.mem_cons, hkey, false_or]

omit [DecidableEq H] [LinearOrder N] [LinearOrder S] in
theorem mem_keys_removedIter {removed : List (Node H N (PersistedEpochHeader S))} {key : H × N} :
    key ∈ (removedIter removed).map (fun x => (x.1, x.2.1)) ↔
      ∃ y ∈ labels removed, (y.hash, y.number) = key := by
  have hrev := labels_perm (List.reverse_perm removed)
  rw [removedIter_eq, List.map_map]
  simp only [List.mem_map, Function.comp_apply]
  exact ⟨fun ⟨y, hy, hyk⟩ => ⟨y, hrev.subset hy, hyk⟩, fun ⟨y, hy, hyk⟩ => ⟨y, hrev.symm.subset hy, hyk⟩⟩

/-! ### The tree and the map in lockstep -/

/-- The tree and the map describe the same epochs: every node has its epoch in the map under its
hash and number, with the header the node keeps, and every key of the map is a node's. No two
nodes share a hash, and each hash was imported. -/
structure Lockstep (c : EpochChanges H N E S) (imported : List H) : Prop where
  hashes_nodup : ((labels c.inner.roots).map NodeInfo.hash).Nodup
  hash_mem : ∀ x ∈ labels c.inner.roots, x.hash ∈ imported
  epoch_of_node : ∀ x ∈ labels c.inner.roots,
    ∃ epoch, c.epochs (x.hash, x.number) = some epoch ∧ PersistedEpochHeader.ofEpoch epoch = x.data
  node_of_epoch : ∀ key epoch, c.epochs key = some epoch →
    ∃ x ∈ labels c.inner.roots, (x.hash, x.number) = key

section Lockstep

variable {c : EpochChanges H N E S} {imported : List H}

omit [DecidableEq H] [LinearOrder N] [LinearOrder S] in
theorem Lockstep.new : Lockstep (EpochChanges.new : EpochChanges H N E S) [] where
  hashes_nodup := List.nodup_nil
  hash_mem := fun _ hx => nomatch hx
  epoch_of_node := fun _ hx => nomatch hx
  node_of_epoch := fun _ _ hkey => nomatch hkey

omit [DecidableEq H] [LinearOrder N] [LinearOrder S] in
theorem Lockstep.mono (h : Lockstep c imported) {imported' : List H} (hsub : imported ⊆ imported') :
    Lockstep c imported' :=
  { h with hash_mem := fun x hx => hsub (h.hash_mem x hx) }

omit [LinearOrder S] in
theorem Lockstep.insert (h : Lockstep c imported) {inner : ForkTree H N (PersistedEpochHeader S)}
    {hash : H} {number : N} {epoch : PersistedEpoch E}
    (hfresh : ∀ x ∈ labels c.inner.roots, x.hash ≠ hash)
    (hperm : (labels inner.roots).Perm
      (labels c.inner.roots ++ [⟨hash, number, PersistedEpochHeader.ofEpoch epoch⟩])) :
    Lockstep ⟨inner, Function.update c.epochs (hash, number) (some epoch)⟩ (hash :: imported) where
  hashes_nodup := by
    rw [(hperm.map NodeInfo.hash).nodup_iff, List.map_append, List.nodup_append]
    refine ⟨h.hashes_nodup, List.nodup_singleton _, ?_⟩
    intro a ha b hb
    obtain ⟨x, hx, rfl⟩ := List.mem_map.mp ha
    rw [List.map_singleton, List.mem_singleton] at hb
    exact hb ▸ hfresh x hx
  hash_mem := fun x hx => by
    rcases List.mem_append.mp (hperm.subset hx) with hx | hx
    · exact List.mem_cons_of_mem _ (h.hash_mem x hx)
    · rw [List.mem_singleton.mp hx]
      exact List.mem_cons_self
  epoch_of_node := fun x hx => by
    dsimp only
    rcases List.mem_append.mp (hperm.subset hx) with hx | hx
    · -- an old node: its key is not the new one
      have hne : (x.hash, x.number) ≠ (hash, number) := fun heq =>
        hfresh x hx (Prod.mk.inj heq).1
      rw [Function.update_of_ne hne]
      exact h.epoch_of_node x hx
    · rw [List.mem_singleton.mp hx]
      exact ⟨epoch, Function.update_self _ _ _, rfl⟩
  node_of_epoch := fun key e hkey => by
    dsimp only at hkey
    by_cases hk : key = (hash, number)
    · subst hk
      exact ⟨⟨hash, number, _⟩, hperm.symm.subset (List.mem_append_right _ List.mem_cons_self), rfl⟩
    · rw [Function.update_of_ne hk] at hkey
      obtain ⟨x, hx, hxk⟩ := h.node_of_epoch key e hkey
      exact ⟨x, hperm.symm.subset (List.mem_append_left _ hx), hxk⟩

omit [LinearOrder S] in
theorem Lockstep.remove (h : Lockstep c imported) {inner : ForkTree H N (PersistedEpochHeader S)}
    {removed : List (Node H N (PersistedEpochHeader S))}
    (hperm : (labels c.inner.roots).Perm (labels inner.roots ++ labels removed)) :
    Lockstep ⟨inner, removeAll c.epochs (removedIter removed)⟩ imported := by
  have hsplit := (hperm.map NodeInfo.hash).nodup_iff.mp h.hashes_nodup
  rw [List.map_append, List.nodup_append] at hsplit
  obtain ⟨hinner, -, hapart⟩ := hsplit
  -- a node left is not one handed back, so its key stays
  have hkept : ∀ x ∈ labels inner.roots,
      (x.hash, x.number) ∉ (removedIter removed).map (fun y => (y.1, y.2.1)) := by
    intro x hx hmem
    obtain ⟨y, hy, hyx⟩ := mem_keys_removedIter.mp hmem
    exact hapart _ (List.mem_map_of_mem hx) _ (List.mem_map_of_mem hy) (Prod.mk.inj hyx).1.symm
  refine ⟨hinner, fun x hx => h.hash_mem x (hperm.symm.subset (List.mem_append_left _ hx)), ?_, ?_⟩
  · intro x hx
    dsimp only
    rw [removeAll_apply, if_neg (hkept x hx)]
    exact h.epoch_of_node x (hperm.symm.subset (List.mem_append_left _ hx))
  · intro key e hkey
    dsimp only at hkey
    rw [removeAll_apply] at hkey
    split_ifs at hkey with hremoved
    obtain ⟨x, hx, hxk⟩ := h.node_of_epoch key e hkey
    rcases List.mem_append.mp (hperm.subset hx) with hx | hx
    · exact ⟨x, hx, hxk⟩
    · exact absurd (mem_keys_removedIter.mpr ⟨x, hx, hxk⟩) hremoved

omit [LinearOrder S] in
theorem Lockstep.importEpoch (h : Lockstep c imported) (isDescendentOf : H → H → Bool) {hash : H}
    (number : N) (epoch : PersistedEpoch E) (hfresh : hash ∉ imported) :
    Lockstep (c.importEpoch isDescendentOf hash number epoch).2 (hash :: imported) := by
  have hnode : ∀ x ∈ labels c.inner.roots, x.hash ≠ hash := fun x hx hxh =>
    hfresh (hxh ▸ h.hash_mem x hx)
  unfold EpochChanges.importEpoch
  split
  · rename_i inner isRoot himp
    exact h.insert hnode (labels_importNode isDescendentOf hash number _ himp).1
  · -- the tree meets no node of the block's hash, so it never reports a duplicate
    rename_i himp
    rcases importNode_error_cases isDescendentOf hash number _ himp with ⟨hrevert, -⟩ | ⟨-, x, hx, hxh⟩
    · cases hrevert
    · exact absurd hxh (hnode x hx)
  · exact h.mono (List.subset_cons_self _ _)

theorem Lockstep.pruneFinalized (h : Lockstep c imported) {ε : Type}
    (isDescendentOf : H → H → Except ε Bool) (hash : H) (number : N) (slot : S)
    (hok : (c.pruneFinalized isDescendentOf hash number slot).1 = .ok ()) :
    Lockstep (c.pruneFinalized isDescendentOf hash number slot).2 imported := by
  unfold EpochChanges.pruneFinalized at hok ⊢
  rcases hprune : Fallible.prune isDescendentOf c.inner hash number (endedBy slot) with
    ⟨_ | _ | _, inner⟩
  · rename_i removed
    have hperm := Fallible.labels_prune_of_ok (congrArg Prod.fst hprune)
    rw [hprune] at hperm
    exact h.remove hperm
  · rw [hprune] at hok
    cases hok
  · rw [hprune] at hok
    cases hok

end Lockstep

/-! ### Runs -/

/-- The states a run of `import`, each block imported once, and of `prune_finalized` calls that
return `Ok` reaches from the empty state, with the hashes imported. -/
inductive Reachable : EpochChanges H N E S → List H → Prop
  | new : Reachable EpochChanges.new []
  | importEpoch {c : EpochChanges H N E S} {imported : List H} (isDescendentOf : H → H → Bool)
      (hash : H) (number : N) (epoch : PersistedEpoch E) :
      Reachable c imported → hash ∉ imported →
        Reachable (c.importEpoch isDescendentOf hash number epoch).2 (hash :: imported)
  | pruneFinalized {c : EpochChanges H N E S} {imported : List H} {ε : Type}
      (isDescendentOf : H → H → Except ε Bool) (hash : H) (number : N) (slot : S) :
      Reachable c imported → (c.pruneFinalized isDescendentOf hash number slot).1 = .ok () →
        Reachable (c.pruneFinalized isDescendentOf hash number slot).2 imported

theorem Reachable.lockstep {c : EpochChanges H N E S} {imported : List H}
    (hc : Reachable c imported) : Lockstep c imported := by
  induction hc with
  | new => exact Lockstep.new
  | importEpoch isDescendentOf hash number epoch _ hfresh ih =>
    exact ih.importEpoch isDescendentOf number epoch hfresh
  | pruneFinalized isDescendentOf hash number slot _ hok ih =>
    exact ih.pruneFinalized isDescendentOf hash number slot hok

/-! ### The epochs the search names -/

omit [DecidableEq H] [LinearOrder N] in
theorem atPosition_viableHeader (epoch : PersistedEpoch E) (slot : S) :
    (epoch.atPosition (viableHeader slot (PersistedEpochHeader.ofEpoch epoch)).1).isSome := by
  cases epoch with
  | genesis epoch0 epoch1 =>
    simp only [PersistedEpochHeader.ofEpoch, viableHeader]
    split_ifs <;> rfl
  | regular epochN => rfl

omit [DecidableEq H] in
theorem Lockstep.epoch_isSome [Zero N] [One N] [Add N] {c : EpochChanges H N E S}
    {imported : List H} (h : Lockstep c imported) {ε : Type} {isDescendentOf : H → H → Except ε Bool}
    {fakeHeadHash : H → H} {parentHash : H} {parentNumber : N} {slot : S}
    {id : EpochIdentifier H N} {header : EpochHeader S}
    (hdesc : c.epochDescriptorForChildOf isDescendentOf fakeHeadHash parentHash parentNumber slot =
      .ok (some (.signaled id header))) :
    (c.epoch id).isSome := by
  unfold EpochChanges.epochDescriptorForChildOf at hdesc
  split_ifs at hdesc
  · cases hdesc
  obtain ⟨found, hfound, hmap⟩ := Outcome.bind_eq_ok.mp hdesc
  -- the descriptor names the node found, a node of the tree
  obtain ⟨node, rfl, hsignaled⟩ := Option.map_eq_some_iff.mp (Outcome.ok.inj hmap)
  cases hsignaled
  obtain ⟨epoch, hepoch, hheader⟩ := h.epoch_of_node _ (Fallible.label_mem_of_findNodeWhere hfound)
  rw [EpochChanges.epoch, hepoch, Option.bind_some, ← hheader]
  exact atPosition_viableHeader epoch slot

/-- **The tree and the map in lockstep.** After every run of `import`, each block imported once,
and of `prune_finalized` calls that return `Ok`, the keys of the map are the hashes and numbers
of the nodes of the tree, each node keeps the header of its epoch in the map, and every identifier
`epoch_descriptor_for_child_of` gives names an epoch `epoch` finds. -/
theorem epochChanges_lockstep [Zero N] [One N] [Add N] {c : EpochChanges H N E S}
    {imported : List H} (hc : Reachable c imported) :
    (∀ key, (c.epochs key).isSome ↔ ∃ x ∈ labels c.inner.roots, (x.hash, x.number) = key) ∧
    (∀ x ∈ labels c.inner.roots, ∃ epoch, c.epochs (x.hash, x.number) = some epoch ∧
      PersistedEpochHeader.ofEpoch epoch = x.data) ∧
    ∀ {ε : Type} (isDescendentOf : H → H → Except ε Bool) (fakeHeadHash : H → H) (parentHash : H)
      (parentNumber : N) (slot : S) (id : EpochIdentifier H N) (header : EpochHeader S),
      c.epochDescriptorForChildOf isDescendentOf fakeHeadHash parentHash parentNumber slot =
        .ok (some (.signaled id header)) → (c.epoch id).isSome := by
  have h := hc.lockstep
  refine ⟨fun key => ⟨fun hkey => ?_, ?_⟩, h.epoch_of_node, fun _ _ _ _ _ _ _ hdesc =>
    h.epoch_isSome hdesc⟩
  · obtain ⟨epoch, hepoch⟩ := Option.isSome_iff_exists.mp hkey
    exact h.node_of_epoch key epoch hepoch
  · rintro ⟨x, hx, rfl⟩
    obtain ⟨epoch, hepoch, -⟩ := h.epoch_of_node x hx
    rw [hepoch]
    rfl

end EpochChanges

/-! ### Three epochs on one chain -/

/-- An epoch that is only its slots. -/
instance : Epoch (EpochHeader ℕ) ℕ := ⟨EpochHeader.startSlot, EpochHeader.endSlot⟩

/-- The blocks above a block are those of smaller hash. -/
def chainOrder (base target : ℕ) : Bool := decide (base < target)

/-- Blocks `1`, `2` and `3`, each signalling an epoch of five slots, on one chain. -/
def threeEpochs : EpochChanges ℕ ℕ (EpochHeader ℕ) ℕ :=
  let one := (EpochChanges.new.importEpoch chainOrder 1 1 (.regular ⟨0, 5⟩)).2
  let two := (one.importEpoch chainOrder 2 2 (.regular ⟨5, 10⟩)).2
  (two.importEpoch chainOrder 3 3 (.regular ⟨10, 15⟩)).2

theorem threeEpochs_reachable : EpochChanges.Reachable threeEpochs [3, 2, 1] :=
  .importEpoch chainOrder 3 3 _
    (.importEpoch chainOrder 2 2 _ (.importEpoch chainOrder 1 1 _ .new (by decide)) (by decide))
    (by decide)

theorem epochChanges_lockstep_threeEpochs :
    EpochChanges.Reachable threeEpochs [3, 2, 1] ∧
    ((∀ key, (threeEpochs.epochs key).isSome ↔
        ∃ x ∈ labels threeEpochs.inner.roots, (x.hash, x.number) = key) ∧
      (∀ x ∈ labels threeEpochs.inner.roots, ∃ epoch, threeEpochs.epochs (x.hash, x.number) =
        some epoch ∧ PersistedEpochHeader.ofEpoch epoch = x.data) ∧
      ∀ {ε : Type} (isDescendentOf : ℕ → ℕ → Except ε Bool) (fakeHeadHash : ℕ → ℕ)
        (parentHash : ℕ) (parentNumber : ℕ) (slot : ℕ) (id : EpochIdentifier ℕ ℕ)
        (header : EpochHeader ℕ),
        threeEpochs.epochDescriptorForChildOf isDescendentOf fakeHeadHash parentHash parentNumber
          slot = .ok (some (.signaled id header)) → (threeEpochs.epoch id).isSome) :=
  ⟨threeEpochs_reachable, EpochChanges.epochChanges_lockstep threeEpochs_reachable⟩

/-- The oracle asked about block `2` fails; every other block is above every block. -/
def failingAtTwo (base _ : ℕ) : Except Unit Bool := if base = 2 then .error () else .ok true

/-- Finalizing block `5` at slot `5` after the three epochs: the search finds block `1`, whose
epoch is over, having learnt from block `3` that block `2` is above the block without asking; the
loop over the children of block `1` then asks about block `2` and fails. The tree is left with no
node, and the map with every epoch. -/
theorem pruneFinalized_empties_tree :
    EpochChanges.Reachable threeEpochs [3, 2, 1] ∧
      (threeEpochs.pruneFinalized failingAtTwo 5 5 5).1 = .err (.client ()) ∧
      (threeEpochs.pruneFinalized failingAtTwo 5 5 5).2.inner.roots = [] ∧
      (threeEpochs.pruneFinalized failingAtTwo 5 5 5).2.epochs (2, 2) = some (.regular ⟨5, 10⟩) :=
  ⟨threeEpochs_reachable, rfl, rfl, rfl⟩

end Tetcore.Epochs
