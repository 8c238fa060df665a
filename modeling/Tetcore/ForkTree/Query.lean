import Tetcore.ForkTree.WellFormed

/-!
# What `finalizes_any_with_descendent_if` predicts

The query takes the first node in pre-order that passes the predicate and is the block or above
it; `finalize_with_descendent_if` takes the first such root. On a well-formed tree, under a forest
order, the nodes that are the block or above it lie on one path from a root. The two searches
then differ only when the root of that path fails the predicate and a node below it passes: the
query answers for that node, which is not a root, and fails when one of its children is above the
block, while the mutation finalizes no root and does not fail.
-/

namespace Tetcore.ForkTree

open Rose hiding label children node WellFormed

variable {H N V : Type}

theorem subtree_of_mem_nodeIterFrom : ∀ (Q : List (NodeInfo H N V)) {F : List (Node H N V)}
    {y : Node H N V}, y ∈ nodeIterFrom F →
      ∃ P, (entriesFrom (Q ++ P) y).Sublist (forestEntriesFrom Q F)
  | _, [], _, h => by simp [nodeIterFrom.eq_1] at h
  | Q, .node a cs :: F, y, h => by
    rw [nodeIterFrom_cons, List.mem_cons, List.mem_append] at h
    rw [forestEntriesFrom_cons, entriesFrom_node]
    rcases h with rfl | h | h
    · exact ⟨[], by rw [List.append_nil, entriesFrom_node]; exact List.sublist_append_left _ _⟩
    · -- a node below the root `a`
      obtain ⟨P, hP⟩ := subtree_of_mem_nodeIterFrom (Q ++ [a]) h
      refine ⟨a :: P, ?_⟩
      rw [← List.singleton_append, ← List.append_assoc]
      exact (hP.trans (List.sublist_cons_self _ _)).trans (List.sublist_append_left _ _)
    · obtain ⟨P, hP⟩ := subtree_of_mem_nodeIterFrom Q h
      exact ⟨P, hP.trans (List.sublist_append_right _ _)⟩
termination_by _ F => (entries F).length
decreasing_by all_goals simp only [length_entries_cons, Rose.children]; omega

section Search

variable [DecidableEq H] [LinearOrder N] (isDescendentOf : H → H → Bool) (hash : H) (number : N)
  (predicate : V → Bool)

/-- The test of both searches: the node passes the predicate and is the block or above it. -/
def passes (node : Node H N V) : Bool :=
  predicate node.label.data &&
    (decide (node.label.hash = hash) || isDescendentOf node.label.hash hash)

/-- The check made on the node found: one of its children, not after the block, is above it. -/
def unfinalizedChild (node : Node H N V) : Bool :=
  node.children.any fun child =>
    decide (child.label.number ≤ number) && isDescendentOf child.label.hash hash

theorem finalizesAnyWithDescendentIf_eq (t : ForkTree H N V) :
    t.finalizesAnyWithDescendentIf isDescendentOf hash number predicate =
      if t.reverts number then .error .revert
      else
        match t.nodeIter.find? (passes isDescendentOf hash predicate) with
        | none => .ok none
        | some node =>
          if unfinalizedChild isDescendentOf hash number node then .error .unfinalizedAncestor
          else .ok (some (t.roots.any fun root => decide (root.label.hash = node.label.hash))) :=
  rfl

theorem descendentPosition_of_find?_none : ∀ (i : ℕ) {roots : List (Node H N V)},
    roots.find? (passes isDescendentOf hash predicate) = none →
      descendentPosition isDescendentOf hash number predicate i roots = .ok none
  | _, [], _ => rfl
  | i, root :: roots, h => by
    rw [List.find?_cons] at h
    cases hroot : passes isDescendentOf hash predicate root
    · rw [hroot] at h
      have hroot' : (predicate root.label.data &&
          (decide (root.label.hash = hash) || isDescendentOf root.label.hash hash)) = false := hroot
      rw [descendentPosition, hroot', if_neg Bool.false_ne_true]
      exact descendentPosition_of_find?_none (i + 1) h
    · rw [hroot] at h
      cases h

theorem descendentPosition_of_find?_some : ∀ (i : ℕ) {roots : List (Node H N V)}
    {root : Node H N V}, roots.find? (passes isDescendentOf hash predicate) = some root →
      (unfinalizedChild isDescendentOf hash number root = true →
        descendentPosition isDescendentOf hash number predicate i roots =
          .error .unfinalizedAncestor) ∧
      (unfinalizedChild isDescendentOf hash number root = false →
        ∃ j, descendentPosition isDescendentOf hash number predicate i roots = .ok (some (i + j)) ∧
          roots[j]? = some root)
  | _, [], _, h => by cases h
  | i, first :: roots, root, h => by
    rw [List.find?_cons] at h
    cases hfirst : passes isDescendentOf hash predicate first
    · rw [hfirst] at h
      have hfirst' : (predicate first.label.data &&
          (decide (first.label.hash = hash) || isDescendentOf first.label.hash hash)) = false :=
        hfirst
      rw [descendentPosition, hfirst', if_neg Bool.false_ne_true]
      obtain ⟨hfail, hfound⟩ := descendentPosition_of_find?_some (i + 1) h
      refine ⟨hfail, fun hchild => ?_⟩
      obtain ⟨j, hj, hget⟩ := hfound hchild
      exact ⟨j + 1, by rw [hj, Nat.add_assoc, Nat.add_comm 1 j], hget⟩
    · rw [hfirst, Option.some.injEq] at h
      subst h
      have hfirst' : (predicate first.label.data &&
          (decide (first.label.hash = hash) || isDescendentOf first.label.hash hash)) = true :=
        hfirst
      refine ⟨fun hchild => ?_, fun hchild => ⟨0, ?_, rfl⟩⟩
      · have hchild' : (first.children.any fun child =>
            decide (child.label.number ≤ number) && isDescendentOf child.label.hash hash) = true :=
          hchild
        rw [descendentPosition, hfirst', if_pos rfl, hchild', if_pos rfl]
      · have hchild' : (first.children.any fun child =>
            decide (child.label.number ≤ number) && isDescendentOf child.label.hash hash) = false :=
          hchild
        rw [descendentPosition, hfirst', if_pos rfl, hchild', if_neg Bool.false_ne_true,
          Nat.add_zero]

variable {t : ForkTree H N V}

theorem finalizeWithDescendentIf_of_find?_none (hrevert : t.reverts number = false)
    (h : t.roots.find? (passes isDescendentOf hash predicate) = none) :
    ∃ t', t.finalizeWithDescendentIf isDescendentOf hash number predicate =
        .ok (t', .changed none) ∨
      t.finalizeWithDescendentIf isDescendentOf hash number predicate = .ok (t', .unchanged) := by
  rw [finalizeWithDescendentIf, if_neg (by rw [hrevert]; exact Bool.false_ne_true),
    descendentPosition_of_find?_none isDescendentOf hash number predicate 0 h]
  dsimp only
  split
  · exact ⟨_, .inr rfl⟩
  · exact ⟨_, .inl rfl⟩

theorem finalizeWithDescendentIf_of_unfinalizedChild (hrevert : t.reverts number = false)
    {root : Node H N V} (h : t.roots.find? (passes isDescendentOf hash predicate) = some root)
    (hchild : unfinalizedChild isDescendentOf hash number root = true) :
    t.finalizeWithDescendentIf isDescendentOf hash number predicate =
      .err .unfinalizedAncestor := by
  rw [finalizeWithDescendentIf, if_neg (by rw [hrevert]; exact Bool.false_ne_true),
    (descendentPosition_of_find?_some isDescendentOf hash number predicate 0 h).1 hchild]

theorem finalizeWithDescendentIf_of_find?_some (hrevert : t.reverts number = false)
    {root : Node H N V} (h : t.roots.find? (passes isDescendentOf hash predicate) = some root)
    (hchild : unfinalizedChild isDescendentOf hash number root = false) :
    ∃ t', t.finalizeWithDescendentIf isDescendentOf hash number predicate =
      .ok (t', .changed (some root.label.data)) := by
  obtain ⟨j, hj, hget⟩ := (descendentPosition_of_find?_some isDescendentOf hash number predicate 0
    h).2 hchild
  have hat : t.finalizeRootAt j = some (⟨root.children, some root.label.number⟩, root.label.data) := by
    simp [finalizeRootAt, Vec.swapRemove, hget]
  rw [finalizeWithDescendentIf, if_neg (by rw [hrevert]; exact Bool.false_ne_true), hj,
    Nat.zero_add]
  dsimp only
  rw [hat]
  exact ⟨_, rfl⟩

section Order

variable (horder : ForestOrder fun a b : H => isDescendentOf a b = true)
include horder

omit [LinearOrder N] in
theorem find?_nodeIterFrom_cases : ∀ {F : List (Node H N V)},
    Rose.WellFormed NodeInfo.hash (fun a b => isDescendentOf a.hash b.hash = true) F →
      (nodeIterFrom F).find? (passes isDescendentOf hash predicate) =
          F.find? (passes isDescendentOf hash predicate) ∨
        F.find? (passes isDescendentOf hash predicate) = none ∧
          ∃ y, (nodeIterFrom F).find? (passes isDescendentOf hash predicate) = some y ∧
            ∀ root ∈ F, root.label.hash ≠ y.label.hash
  | [], _ => by rw [nodeIterFrom.eq_1]; exact .inl rfl
  | .node a cs :: F, hF => by
    have hF' := hF.pruned (pruned_of_sublist (List.sublist_cons_self _ F))
    have hirr : ∀ x : NodeInfo H N V, ¬isDescendentOf x.hash x.hash = true :=
      fun x => horder.irrefl x.hash
    have haE : (a, []) ∈ entries (.node a cs :: F) := by simp [entries_cons]
    have hrootE : ∀ root ∈ F, (root.label, []) ∈ entries F := fun root hroot =>
      mem_forestEntriesFrom.mpr ⟨root, hroot, root_mem_entriesFrom [] root⟩
    rw [nodeIterFrom_cons, List.find?_cons, List.find?_cons]
    cases hroot : passes isDescendentOf hash predicate (.node a cs)
    · dsimp only
      rw [List.find?_append]
      cases hbelow : (nodeIterFrom (Rose.node a cs).children).find?
          (passes isDescendentOf hash predicate) with
      | none =>
        -- nothing below the first root: the search goes on with the other roots
        rw [Option.none_or]
        rcases find?_nodeIterFrom_cases hF' with h | ⟨hnone, y, hy, hne⟩
        · exact .inl h
        · refine .inr ⟨hnone, y, hy, fun root hmem => ?_⟩
          rcases List.mem_cons.mp hmem with rfl | hmem
          · obtain ⟨P, hP⟩ := subtree_of_mem_nodeIterFrom [] (List.mem_of_find?_eq_some hy)
            exact hF.key_ne_of_mem_cons (root_mem_entriesFrom [] _)
              (hP.subset (root_mem_entriesFrom _ y))
          · exact hne root hmem
      | some y =>
        -- a node below the first root passes: that root is above the block, and no other root is
        have hpass := List.find?_some hbelow
        obtain ⟨P, hP⟩ := subtree_of_mem_nodeIterFrom [a] (List.mem_of_find?_eq_some hbelow)
        have hyE : (y.label, a :: P) ∈ entriesFrom [] (.node a cs) := by
          rw [entriesFrom_node]
          exact List.mem_cons_of_mem _ (hP.subset (root_mem_entriesFrom _ y))
        have hay : isDescendentOf a.hash y.label.hash = true :=
          (hF.ancestors _ (by rw [entries_cons]; exact List.mem_append_left _ hyE) _ haE).mp
            List.mem_cons_self
        have habove : isDescendentOf a.hash hash = true := by
          simp only [passes, Bool.and_eq_true, Bool.or_eq_true, decide_eq_true_eq] at hpass
          rcases hpass.2 with heq | hyh
          · rwa [← heq]
          · exact horder.trans _ _ _ hay hyh
        have hothers : ∀ root ∈ F, passes isDescendentOf hash predicate root = false := by
          intro root hmem
          have hE := hrootE root hmem
          have hne : a.hash ≠ root.label.hash :=
            hF.key_ne_of_mem_cons (root_mem_entriesFrom [] (.node a cs)) hE
          have hunrel : ∀ x z : NodeInfo H N V, (x, []) ∈ entries (.node a cs :: F) →
              (z, []) ∈ entries (.node a cs :: F) → ¬isDescendentOf x.hash z.hash = true :=
            fun x z hx hz => hF.not_rel_of_path_eq hirr hz hx rfl
          have hrootE' : (root.label, []) ∈ entries (.node a cs :: F) := by
            rw [entries_cons]
            exact List.mem_append_right _ hE
          simp only [passes, Bool.and_eq_false_iff, Bool.or_eq_false_iff, decide_eq_false_iff_not]
          refine .inr ⟨fun heq => hunrel _ _ haE hrootE' (heq ▸ habove), Bool.eq_false_iff.mpr fun hdesc => ?_⟩
          rcases horder.chain _ _ _ habove hdesc with heq | hrel | hrel
          · exact hne heq
          · exact hunrel _ _ haE hrootE' hrel
          · exact hunrel _ _ hrootE' haE hrel
        refine .inr ⟨List.find?_eq_none.mpr fun root hmem => by simp [hothers root hmem],
          y, by rw [Option.some_or], fun root hmem => ?_⟩
        rcases List.mem_cons.mp hmem with rfl | hmem
        · exact fun heq => hirr y.label (heq ▸ hay)
        · exact fun heq => hF.key_ne_of_mem_cons hyE (hrootE root hmem) heq.symm
    · exact .inl rfl

variable {num : H → N} {t : ForkTree H N V}

theorem finalizesAny_predicts_finalize (ht : t.WellFormed isDescendentOf num) :
    (t.finalizesAnyWithDescendentIf isDescendentOf hash number predicate = .error .revert ↔
        t.finalizeWithDescendentIf isDescendentOf hash number predicate = .err .revert) ∧
      (t.finalizesAnyWithDescendentIf isDescendentOf hash number predicate = .ok (some true) ↔
        ∃ t' root, root ∈ t.roots ∧ predicate root.label.data = true ∧
          (root.label.hash = hash ∨ isDescendentOf root.label.hash hash = true) ∧
          t.finalizeWithDescendentIf isDescendentOf hash number predicate =
            .ok (t', .changed (some root.label.data))) ∧
      (t.finalizeWithDescendentIf isDescendentOf hash number predicate =
          .err .unfinalizedAncestor →
        t.finalizesAnyWithDescendentIf isDescendentOf hash number predicate =
          .error .unfinalizedAncestor) ∧
      ((∃ t', t.finalizeWithDescendentIf isDescendentOf hash number predicate =
            .ok (t', .changed none) ∨
          t.finalizeWithDescendentIf isDescendentOf hash number predicate = .ok (t', .unchanged)) ↔
        t.finalizesAnyWithDescendentIf isDescendentOf hash number predicate = .ok (some false) ∨
          t.finalizesAnyWithDescendentIf isDescendentOf hash number predicate = .ok none ∨
          t.finalizesAnyWithDescendentIf isDescendentOf hash number predicate =
              .error .unfinalizedAncestor ∧
            t.finalizeWithDescendentIf isDescendentOf hash number predicate ≠
              .err .unfinalizedAncestor) := by
  cases hrevert : t.reverts number
  case true =>
    -- both fail with `Revert`
    have hq : t.finalizesAnyWithDescendentIf isDescendentOf hash number predicate =
        .error .revert := by rw [finalizesAnyWithDescendentIf, if_pos hrevert]
    have hm : t.finalizeWithDescendentIf isDescendentOf hash number predicate = .err .revert := by
      rw [finalizeWithDescendentIf, if_pos hrevert]
    simp [hq, hm]
  case false =>
  have hquery := finalizesAnyWithDescendentIf_eq isDescendentOf hash number predicate t
  rw [if_neg (by rw [hrevert]; exact Bool.false_ne_true), nodeIter] at hquery
  rcases find?_nodeIterFrom_cases isDescendentOf hash predicate horder ht.tree with
    hsame | ⟨hnone, y, hy, hroots⟩
  · rw [hsame] at hquery
    rcases hfind : t.roots.find? (passes isDescendentOf hash predicate) with _ | root
    · -- no node passes
      rw [hfind] at hquery
      obtain ⟨t', hm⟩ :=
        finalizeWithDescendentIf_of_find?_none isDescendentOf hash number predicate hrevert hfind
      rcases hm with hm | hm <;> simp [hquery, hm]
    · -- the first root that passes decides both
      rw [hfind] at hquery
      simp only at hquery
      have hmem := List.mem_of_find?_eq_some hfind
      have hany : (t.roots.any fun r => decide (r.label.hash = root.label.hash)) = true :=
        List.any_eq_true.mpr ⟨root, hmem, decide_eq_true rfl⟩
      cases hchild : unfinalizedChild isDescendentOf hash number root
      · obtain ⟨t', hm⟩ := finalizeWithDescendentIf_of_find?_some isDescendentOf hash number
          predicate hrevert hfind hchild
        rw [hchild, if_neg Bool.false_ne_true, hany] at hquery
        have hpass := List.find?_some hfind
        simp only [passes, Bool.and_eq_true, Bool.or_eq_true, decide_eq_true_eq] at hpass
        refine ⟨by simp [hquery, hm], ⟨fun _ => ⟨t', root, hmem, hpass.1, hpass.2, hm⟩,
          fun _ => hquery⟩, by simp [hm], by simp [hquery, hm]⟩
      · have hm := finalizeWithDescendentIf_of_unfinalizedChild isDescendentOf hash number
          predicate hrevert hfind hchild
        rw [hchild, if_pos rfl] at hquery
        simp [hquery, hm]
  · -- the node found is no root: the query answers for it, the mutation finalizes no root
    rw [hy] at hquery
    simp only at hquery
    obtain ⟨t', hm⟩ :=
      finalizeWithDescendentIf_of_find?_none isDescendentOf hash number predicate hrevert hnone
    have hany : (t.roots.any fun r => decide (r.label.hash = y.label.hash)) = false := by
      simpa using hroots
    rw [hany] at hquery
    rcases hm with hm | hm <;> cases hchild : unfinalizedChild isDescendentOf hash number y <;>
      rw [hchild] at hquery <;> simp [hquery, hm]

end Order

end Search

/-- Blocks `1`, `2` and `3` in a chain below one root, each with its number as data. -/
def threeBlocks : ForkTree ℕ ℕ ℕ :=
  ⟨[.node ⟨1, 1, 1⟩ [.node ⟨2, 2, 2⟩ [.node ⟨3, 3, 3⟩ []]]], none⟩

theorem threeBlocks_wellFormed : threeBlocks.WellFormed (fun a b => decide (a < b)) id := by
  have hreach : Reachable (fun a b => decide (a < b)) id threeBlocks :=
    .step (c := .importNode 3 3 3) (.step (c := .importNode 2 2 2)
      (.step (c := .importNode 1 1 1) .init ⟨rfl, by decide⟩ rfl) ⟨rfl, by decide⟩ rfl)
      ⟨rfl, by decide⟩ rfl
  exact hreach.wellFormed forestOrder_lt fun a b h => by simpa using h

theorem finalizesAny_predicts_finalize_threeBlocks :
    ForestOrder (fun a b : ℕ => decide (a < b) = true) ∧
      threeBlocks.WellFormed (fun a b => decide (a < b)) id ∧
      (threeBlocks.finalizesAnyWithDescendentIf (fun a b => decide (a < b)) 4 4 (· == 1) =
          .error .revert ↔
        threeBlocks.finalizeWithDescendentIf (fun a b => decide (a < b)) 4 4 (· == 1) =
          .err .revert) ∧
      (threeBlocks.finalizesAnyWithDescendentIf (fun a b => decide (a < b)) 4 4 (· == 1) =
          .ok (some true) ↔
        ∃ t' root, root ∈ threeBlocks.roots ∧ (root.label.data == 1) = true ∧
          (root.label.hash = 4 ∨ decide (root.label.hash < 4) = true) ∧
          threeBlocks.finalizeWithDescendentIf (fun a b => decide (a < b)) 4 4 (· == 1) =
            .ok (t', .changed (some root.label.data))) ∧
      (threeBlocks.finalizeWithDescendentIf (fun a b => decide (a < b)) 4 4 (· == 1) =
          .err .unfinalizedAncestor →
        threeBlocks.finalizesAnyWithDescendentIf (fun a b => decide (a < b)) 4 4 (· == 1) =
          .error .unfinalizedAncestor) ∧
      ((∃ t', threeBlocks.finalizeWithDescendentIf (fun a b => decide (a < b)) 4 4 (· == 1) =
            .ok (t', .changed none) ∨
          threeBlocks.finalizeWithDescendentIf (fun a b => decide (a < b)) 4 4 (· == 1) =
            .ok (t', .unchanged)) ↔
        threeBlocks.finalizesAnyWithDescendentIf (fun a b => decide (a < b)) 4 4 (· == 1) =
            .ok (some false) ∨
          threeBlocks.finalizesAnyWithDescendentIf (fun a b => decide (a < b)) 4 4 (· == 1) =
            .ok none ∨
          threeBlocks.finalizesAnyWithDescendentIf (fun a b => decide (a < b)) 4 4 (· == 1) =
              .error .unfinalizedAncestor ∧
            threeBlocks.finalizeWithDescendentIf (fun a b => decide (a < b)) 4 4 (· == 1) ≠
              .err .unfinalizedAncestor) :=
  ⟨forestOrder_lt, threeBlocks_wellFormed,
    finalizesAny_predicts_finalize (fun a b => decide (a < b)) 4 4 (· == 1) forestOrder_lt
      threeBlocks_wellFormed⟩

/-- Finalizing block `4` under the order of the numbers, with a predicate that only block `2`
passes: the query stops at block `2`, whose child `3` is above block `4`, and fails, while the
mutation, which looks at the roots only, leaves the tree as it was. -/
theorem finalizesAny_fails_below_root :
    ForestOrder (fun a b : ℕ => decide (a < b) = true) ∧
      threeBlocks.WellFormed (fun a b => decide (a < b)) id ∧
      threeBlocks.finalizesAnyWithDescendentIf (fun a b => decide (a < b)) 4 4 (· == 2) =
        .error .unfinalizedAncestor ∧
      threeBlocks.finalizeWithDescendentIf (fun a b => decide (a < b)) 4 4 (· == 2) =
        .ok (⟨threeBlocks.roots, some 4⟩, .unchanged) := by
  have hiter : threeBlocks.nodeIter = [.node ⟨1, 1, 1⟩ [.node ⟨2, 2, 2⟩ [.node ⟨3, 3, 3⟩ []]],
      .node ⟨2, 2, 2⟩ [.node ⟨3, 3, 3⟩ []], .node ⟨3, 3, 3⟩ []] := by
    simp [nodeIter, threeBlocks, nodeIterFrom_cons, nodeIterFrom.eq_1, Rose.children]
  refine ⟨forestOrder_lt, threeBlocks_wellFormed, ?_, rfl⟩
  rw [finalizesAnyWithDescendentIf, hiter]
  rfl

end Tetcore.ForkTree
