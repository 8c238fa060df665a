import Tetcore.ForkTree.Search

/-!
# Pruning at the deepest node above a block

`prune` takes out the subtree of the node `find_node_index_where` finds and keeps it as the only
root, with at most one of its children: the first on the way to the block. It hands back the rest,
the old roots without that subtree and the children it dropped, and `RemovedIterator` yields every
node of those. No node is lost or yielded twice (`labels_prune`). Both ways the tree is rebalanced
at the end, which sorts the children of every node by depth; when nothing is found that is all that
happens to it.
-/

namespace Tetcore.ForkTree

open Rose hiding label children node

variable {H N V : Type}

theorem map_label_nodeIterFrom (F : List (Node H N V)) :
    (nodeIterFrom F).map Rose.label = labels F := by
  fun_induction nodeIterFrom F with
  | case1 => rfl
  | case2 node stack ih =>
    obtain ⟨a, cs⟩ := node
    rw [List.map_cons, ih, labels_append, labels_node_cons]
    rfl

theorem removedIter_eq (removed : List (Node H N V)) :
    removedIter removed = (labels removed.reverse).map fun x => (x.hash, x.number, x.data) := by
  rw [removedIter, ← map_label_nodeIterFrom, List.map_map]
  rfl

theorem labels_rebalance (t : ForkTree H N V) : (labels t.rebalance.roots).Perm (labels t.roots) :=
  (entries_rebalance t).map Prod.fst

theorem labels_singleton (a : NodeInfo H N V) (cs : List (Node H N V)) :
    labels [Rose.node a cs] = a :: labels cs := by
  rw [labels_node_cons]
  simp [labels, entries]

section Keep

variable [DecidableEq H] [LinearOrder N] (isDescendentOf : H → H → Bool) (hash : H) (number : N)

/-- The test `prune` puts each child of the new root to: the block itself, or a block above it
with a smaller number. -/
def onTheWay (child : Node H N V) : Bool :=
  decide (child.label.number = number) && decide (child.label.hash = hash) ||
    decide (child.label.number < number) && isDescendentOf child.label.hash hash

theorem keepChildren_perm : ∀ (isFirst : Bool) (children : List (Node H N V)),
    ((keepChildren isDescendentOf hash number isFirst children).1 ++
      (keepChildren isDescendentOf hash number isFirst children).2).Perm children
  | _, [] => List.Perm.nil
  | isFirst, child :: children => by
    rw [keepChildren]
    split_ifs
    · exact (keepChildren_perm false children).cons child
    · -- a child removed goes in front of the later ones removed
      exact List.perm_middle.trans ((keepChildren_perm isFirst children).cons child)

theorem keepChildren_fst_false : ∀ children : List (Node H N V),
    (keepChildren isDescendentOf hash number false children).1 = [] := by
  intro children
  induction children with
  | nil => rfl
  | cons child children ih =>
    rw [keepChildren, if_neg (by simp)]
    exact ih

theorem keepChildren_fst_true : ∀ children : List (Node H N V),
    (keepChildren isDescendentOf hash number true children).1 =
      (children.find? (onTheWay isDescendentOf hash number)).toList := by
  intro children
  induction children with
  | nil => rfl
  | cons child children ih =>
    rw [keepChildren]
    by_cases hc : onTheWay isDescendentOf hash number child = true
    · rw [if_pos (by simpa [onTheWay] using hc), List.find?_cons_of_pos hc]
      show child :: (keepChildren isDescendentOf hash number false children).1 = [child]
      rw [keepChildren_fst_false]
    · rw [if_neg (by simpa [onTheWay] using hc), List.find?_cons_of_neg hc]
      exact ih

variable {isDescendentOf hash number}

theorem onTheWay_above {child : Node H N V} (h : onTheWay isDescendentOf hash number child = true) :
    child.label.hash = hash ∨ isDescendentOf child.label.hash hash = true := by
  simp only [onTheWay, Bool.or_eq_true, Bool.and_eq_true, decide_eq_true_eq] at h
  rcases h with ⟨-, heq⟩ | ⟨-, habove⟩
  · exact .inl heq
  · exact .inr habove

end Keep

section Prune

variable [DecidableEq H] [LinearOrder N] {isDescendentOf : H → H → Bool} {t : ForkTree H N V}
  {hash : H} {number : N} {predicate : V → Bool}

theorem prune_of_findNodeIndexWhere_none
    (h : t.findNodeIndexWhere isDescendentOf hash number predicate = none) :
    t.prune isDescendentOf hash number predicate = some (t.rebalance, []) := by
  rw [prune, h]

theorem prune_of_extract {path : List ℕ} {root : Node H N V} {oldRoots kept rem : List (Node H N V)}
    (h : t.findNodeIndexWhere isDescendentOf hash number predicate = some path)
    (hex : extract t.roots path.reverse = some (root, oldRoots))
    (hkeep : keepChildren isDescendentOf hash number true root.children = (kept, rem)) :
    t.prune isDescendentOf hash number predicate =
      some ((⟨[.node root.label kept], t.bestFinalizedNumber⟩ : ForkTree H N V).rebalance,
        oldRoots ++ rem) := by
  simp only [prune, h, hex, hkeep]

open List in
theorem labels_prune {t' : ForkTree H N V} {removed : List (Node H N V)}
    (h : t.prune isDescendentOf hash number predicate = some (t', removed)) :
    (labels t.roots).Perm (labels t'.roots ++ labels removed) := by
  cases hidx : t.findNodeIndexWhere isDescendentOf hash number predicate with
  | none =>
    rw [prune_of_findNodeIndexWhere_none hidx, Option.some.injEq, Prod.mk.injEq] at h
    obtain ⟨rfl, rfl⟩ := h
    rw [show labels ([] : List (Node H N V)) = [] from rfl, List.append_nil]
    exact (labels_rebalance t).symm
  | some path =>
    cases hex : extract t.roots path.reverse with
    | none =>
      rw [prune, hidx] at h
      simp [hex] at h
    | some r =>
      obtain ⟨⟨a, cs⟩, oldRoots⟩ := r
      rcases hkeep : keepChildren isDescendentOf hash number true cs with ⟨kept, rem⟩
      rw [prune_of_extract hidx hex hkeep, Option.some.injEq, Prod.mk.injEq] at h
      obtain ⟨rfl, rfl⟩ := h
      have hcs : (labels cs).Perm (labels kept ++ labels rem) := by
        have hperm := keepChildren_perm isDescendentOf hash number true cs
        rw [hkeep] at hperm
        rw [← labels_append]
        exact (labels_perm hperm).symm
      calc labels t.roots
          _ ~ a :: (labels cs ++ labels oldRoots) := by
            rw [← labels_node_cons]
            exact labels_extract _ _ hex
          _ ~ a :: ((labels kept ++ labels rem) ++ labels oldRoots) := (hcs.append_right _).cons a
          _ ~ a :: (labels kept ++ (labels oldRoots ++ labels rem)) := by
            rw [List.append_assoc]
            exact (List.perm_append_comm.append_left _).cons a
          _ = labels [Rose.node a kept] ++ (labels oldRoots ++ labels rem) := by
            rw [labels_singleton, List.cons_append]
          _ ~ labels (⟨[.node a kept], t.bestFinalizedNumber⟩ : ForkTree H N V).rebalance.roots ++
              labels (oldRoots ++ rem) := by
            rw [labels_append]
            exact (labels_rebalance ⟨[.node a kept], t.bestFinalizedNumber⟩).symm.append_right _

end Prune

section WellFormed

variable [DecidableEq H] [LinearOrder N] {isDescendentOf : H → H → Bool} {num : H → N}
  {t : ForkTree H N V} (horder : ForestOrder fun a b : H => isDescendentOf a b = true)
  (hnum : ∀ a b, isDescendentOf a b = true → num a < num b)
  (ht : t.WellFormed isDescendentOf num)
include horder ht

omit [DecidableEq H] [LinearOrder N] in
theorem WellFormed.eq_of_children_above {p : List ℕ} {x : Node H N V}
    (hx : nodeAt t.roots p = some x) {hash : H} {c c' : Node H N V} (hc : c ∈ x.children)
    (hc' : c' ∈ x.children) (hch : c.label.hash = hash ∨ isDescendentOf c.label.hash hash = true)
    (hc'h : c'.label.hash = hash ∨ isDescendentOf c'.label.hash hash = true) : c = c' := by
  obtain ⟨Q, -, hsub⟩ := nodeAt_sublist hx
  have hroots : (x.children.map fun d => (d.label, Q ++ [x.label])).Sublist (entries t.roots) := by
    obtain ⟨a, cs⟩ := x
    rw [entriesFrom_node] at hsub
    exact (roots_sublist_forestEntriesFrom _ cs).trans ((List.sublist_cons_self _ _).trans hsub)
  by_cases hhash : c.label.hash = c'.label.hash
  · have hnodup := ht.tree.nodup.sublist (hroots.map _)
    rw [List.map_map] at hnodup
    exact List.inj_on_of_nodup_map hnodup hc hc' hhash
  have hirr : ∀ y : NodeInfo H N V, ¬isDescendentOf y.hash y.hash = true := fun y =>
    horder.irrefl y.hash
  have hmem : (c.label, Q ++ [x.label]) ∈ entries t.roots := hsub.subset (child_mem_entriesFrom Q hc)
  have hmem' : (c'.label, Q ++ [x.label]) ∈ entries t.roots :=
    hsub.subset (child_mem_entriesFrom Q hc')
  have hnot : ¬isDescendentOf c'.label.hash c.label.hash = true :=
    ht.tree.not_rel_of_path_eq hirr hmem hmem' rfl
  have hnot' : ¬isDescendentOf c.label.hash c'.label.hash = true :=
    ht.tree.not_rel_of_path_eq hirr hmem' hmem rfl
  exfalso
  rcases hch with hch | hch <;> rcases hc'h with hc'h | hc'h
  · exact hhash (hch.trans hc'h.symm)
  · exact hnot (by rw [hch]; exact hc'h)
  · exact hnot' (by rw [hc'h]; exact hch)
  · rcases horder.chain _ _ _ hch hc'h with heq | hrel | hrel
    · exact hhash heq
    · exact hnot' hrel
    · exact hnot hrel

include hnum

/-- **`prune`.** It loses and duplicates no node: the nodes before are those after and those
`RemovedIterator` yields. When `find_node_where` finds `x`, the tree after is `x` alone with at
most one child, a child that is the block or above it; when the number asked for is the block's,
it is that child of `x`. When nothing is found, nothing is removed and the tree is rebalanced. -/
theorem prune_partition (hash : H) (number : N) (predicate : V → Bool) :
    (∀ t' removed, t.prune isDescendentOf hash number predicate = some (t', removed) →
      ((labels t.roots).map fun x => (x.hash, x.number, x.data)).Perm
        ((labels t'.roots).map (fun x => (x.hash, x.number, x.data)) ++ removedIter removed)) ∧
    (∀ x, t.findNodeWhere isDescendentOf hash number predicate = some (some x) →
      ∃ kept removed, t.prune isDescendentOf hash number predicate =
          some ((⟨[.node x.label kept], t.bestFinalizedNumber⟩ : ForkTree H N V).rebalance,
            removed) ∧
        kept.length ≤ 1 ∧
        (∀ c ∈ kept, c ∈ x.children ∧
          (c.label.hash = hash ∨ isDescendentOf c.label.hash hash = true)) ∧
        (number = num hash → ∀ c ∈ x.children,
          (c.label.hash = hash ∨ isDescendentOf c.label.hash hash = true) → kept = [c])) ∧
    (t.findNodeWhere isDescendentOf hash number predicate = some none →
      t.prune isDescendentOf hash number predicate = some (t.rebalance, []) ∧
        (entries t.rebalance.roots).Perm (entries t.roots)) := by
  have hbind := findNodeWhere_eq_bind hash number predicate horder hnum ht
  refine ⟨fun t' removed h => ?_, fun x hx => ?_, fun hx => ?_⟩
  · -- the iterator yields the nodes of the removed subtrees, in another order
    have hperm := (labels_prune h).map fun x : NodeInfo H N V => (x.hash, x.number, x.data)
    rw [List.map_append] at hperm
    rw [removedIter_eq]
    exact hperm.trans (((labels_perm (List.reverse_perm removed)).symm.map _).append_left _)
  · rw [hbind, Option.some.injEq, Option.bind_eq_some_iff] at hx
    obtain ⟨path, hidx, hpath⟩ := hx
    obtain ⟨oldRoots, hex⟩ := extract_of_nodeAt _ _ hpath
    rcases hkeep : keepChildren isDescendentOf hash number true x.children with ⟨kept, rem⟩
    have hkept : kept = (x.children.find? (onTheWay isDescendentOf hash number)).toList := by
      rw [← keepChildren_fst_true, hkeep]
    refine ⟨kept, oldRoots ++ rem, prune_of_extract hidx hex hkeep, ?_, ?_, ?_⟩
    · rw [hkept]
      exact Option.length_toList_le
    · intro c hc
      rw [hkept, Option.mem_toList] at hc
      exact ⟨List.mem_of_find?_eq_some hc, onTheWay_above (List.find?_some hc)⟩
    · intro hnumber c hc hch
      -- the child on the way has the block's number or a smaller one, so the test takes it
      have hcmem : c.label ∈ labels t.roots := by
        obtain ⟨Q, -, hsub⟩ := nodeAt_sublist hpath
        exact List.mem_map_of_mem (hsub.subset (child_mem_entriesFrom Q hc))
      have hcnum := ht.numbered c.label hcmem
      have hpass : onTheWay isDescendentOf hash number c = true := by
        rcases hch with hch | hch
        · simp [onTheWay, hcnum, hch, hnumber]
        · have hlt : c.label.number < number := by
            rw [hcnum, hnumber]
            exact hnum _ _ hch
          simp [onTheWay, hlt, hch]
      obtain ⟨c', hc'⟩ := Option.isSome_iff_exists.mp (List.find?_isSome.mpr ⟨c, hc, hpass⟩)
      have heq := ht.eq_of_children_above horder hpath hc (List.mem_of_find?_eq_some hc') hch
        (onTheWay_above (List.find?_some hc'))
      rw [hkept, hc', ← heq]
      rfl
  · have hidx : t.findNodeIndexWhere isDescendentOf hash number predicate = none := by
      rcases findNodeIndexWhere_none_or_deepest hash number predicate horder hnum ht with
        ⟨hidx, -⟩ | ⟨path, j, rest, y, hidx, hpath, hdeep⟩
      · exact hidx
      · rw [hbind, hidx, Option.bind_some, hpath, hdeep.1] at hx
        cases hx
    exact ⟨prune_of_findNodeIndexWhere_none hidx, entries_rebalance t⟩

end WellFormed

/-- Pruning at block `4`, under the order of the numbers, with the data test `2` keeps block `2` as
the only root, with block `3`, its child above block `4`. -/
theorem prune_partition_threeBlocks :
    ∃ kept removed, threeBlocks.prune (fun a b => decide (a < b)) 4 4 (· == 2) =
        some ((⟨[.node ⟨2, 2, 2⟩ kept], none⟩ : ForkTree ℕ ℕ ℕ).rebalance, removed) ∧
      kept = [.node ⟨3, 3, 3⟩ []] := by
  obtain ⟨kept, removed, hprune, -, -, hkept⟩ :=
    (prune_partition forestOrder_lt (fun a b h => by simpa using h) threeBlocks_wellFormed 4 4
      (· == 2)).2.1 (.node ⟨2, 2, 2⟩ [.node ⟨3, 3, 3⟩ []]) rfl
  exact ⟨kept, removed, hprune, hkept rfl _ (List.mem_singleton_self _) (.inr rfl)⟩

/-- The blocks before a block are those with a smaller number and the same last digit: `2` is
before `12`, and `1` is before neither. -/
def sameLastDigit (a b : ℕ) : Bool := decide (a < b) && a % 10 == b % 10

theorem forestOrder_sameLastDigit : ForestOrder fun a b : ℕ => sameLastDigit a b = true where
  irrefl a := by simp [sameLastDigit]
  trans a b c hab hbc := by
    simp only [sameLastDigit, Bool.and_eq_true, decide_eq_true_eq, beq_iff_eq] at *
    omega
  chain a b c hac hbc := by
    simp only [sameLastDigit, Bool.and_eq_true, decide_eq_true_eq, beq_iff_eq] at *
    omega

/-- Root `1`, then root `2` with its child `12`: the deeper root comes second. -/
def unsortedRoots : ForkTree ℕ ℕ ℕ :=
  ⟨[.node ⟨1, 1, 1⟩ [], .node ⟨2, 2, 2⟩ [.node ⟨12, 12, 12⟩ []]], none⟩

theorem unsortedRoots_wellFormed : unsortedRoots.WellFormed sameLastDigit id where
  tree := {
    nodup := by decide
    ancestors := by
      intro e he b hb
      simp [unsortedRoots, entries] at he hb
      rcases he with rfl | rfl | rfl <;> rcases hb with rfl | rfl | rfl <;> simp [sameLastDigit] }
  numbered x hx := by
    simp [unsortedRoots, labels, entries] at hx
    rcases hx with rfl | rfl | rfl <;> rfl

/-- On a well-formed tree whose roots are not sorted by depth, `prune` below every number finds
nothing and removes nothing, but the tree it leaves has its roots the other way round. -/
theorem prune_rebalances_unsortedRoots :
    ForestOrder (fun a b : ℕ => sameLastDigit a b = true) ∧
      (∀ a b, sameLastDigit a b = true → id a < id b) ∧
      unsortedRoots.WellFormed sameLastDigit id ∧
      unsortedRoots.findNodeWhere sameLastDigit 5 0 (fun _ => true) = some none ∧
      unsortedRoots.prune sameLastDigit 5 0 (fun _ => true) =
        some (⟨[.node ⟨2, 2, 2⟩ [.node ⟨12, 12, 12⟩ []], .node ⟨1, 1, 1⟩ []], none⟩, []) ∧
      (⟨[.node ⟨2, 2, 2⟩ [.node ⟨12, 12, 12⟩ []], .node ⟨1, 1, 1⟩ []], none⟩ : ForkTree ℕ ℕ ℕ) ≠
        unsortedRoots := by
  refine ⟨forestOrder_sameLastDigit, fun a b h => ?_, unsortedRoots_wellFormed, rfl, rfl, ?_⟩
  · simp only [sameLastDigit, Bool.and_eq_true, decide_eq_true_eq] at h
    exact h.1
  · simp [unsortedRoots]

end Tetcore.ForkTree
