import Tetcore.ForkTree.Fallible
import Tetcore.ForkTree.Prune

/-!
# Search and pruning with a fallible ancestry oracle

`find_node_index_where`, `find_node_where` and `prune` of `utils/forktree/src/lib.rs`, with
`is_descendent_of` as the source takes it: a call that returns `Result<bool, E>`, its error passed
on by `?`. The searches change nothing. `prune` moves all roots out with `mem::take` before its loop
over the children of the new root, and that loop calls the oracle too: an error there returns with
no root at all, and drops the subtrees it took out.

A search or a prune that returns `Ok` asked the oracle only questions it answered, so it did what
the function of the model does with the oracle that answers `false` where this one fails
(`findNodeIndexWhere_eq_of_ok`, `prune_eq_of_ok`); from there `prune` loses no node
(`labels_prune_of_ok`). A node `find_node_where` returns is a node of the tree, whatever the
oracle answered (`label_mem_of_findNodeWhere`).
-/

namespace Tetcore.ForkTree

namespace Fallible

open Rose hiding label children node

variable {H N V E : Type}

/-- The answers of a fallible oracle, `false` where it fails. -/
def orFalse (isDescendentOf : H → H → Except E Bool) (base target : H) : Bool :=
  match isDescendentOf base target with
  | .ok answer => answer
  | .error _ => false

section Answers

variable {isDescendentOf : H → H → Except E Bool} {base target : H} {answer : Bool}

theorem askUnless_eq_ok {flag : Bool} (h : askUnless isDescendentOf flag base target = .ok answer) :
    (flag || orFalse isDescendentOf base target) = answer := by
  cases flag with
  | true => cases h; rfl
  | false =>
    have hask : isDescendentOf base target = .ok answer := h
    simp only [orFalse, hask, Bool.false_or]

theorem askIf_eq_ok {test : Bool} (h : askIf isDescendentOf test base target = .ok answer) :
    (test && orFalse isDescendentOf base target) = answer := by
  cases test with
  | true =>
    have hask : isDescendentOf base target = .ok answer := h
    simp only [orFalse, hask, Bool.true_and]
  | false => cases h; rfl

end Answers

variable [DecidableEq H] [LinearOrder N] (isDescendentOf : H → H → Except E Bool)

/-! ### Search -/

mutual
/-- `Node::find_node_index_where`. -/
def Node.findNodeIndexWhere (hash : H) (number : N) (predicate : V → Bool) :
    Node H N V → Except (Error E) (FindOutcome (List ℕ))
  | .node info children =>
    if number < info.number then .ok (.failure false)
    else
      match findInChildren hash number predicate 0 children with
      | .error e => .error e
      | .ok .abort => .ok .abort
      | .ok (.found x) => .ok (.found x)
      | .ok (.failure knownDescendentOf) =>
        match askUnless isDescendentOf knownDescendentOf info.hash hash with
        | .error e => .error (.client e)
        | .ok isDescendent =>
          .ok (if isDescendent && predicate info.data then .found [] else .failure isDescendent)

/-- The loop of `Node::find_node_index_where` over the children, from index `i`. -/
def findInChildren (hash : H) (number : N) (predicate : V → Bool) (i : ℕ) :
    List (Node H N V) → Except (Error E) (FindOutcome (List ℕ))
  | [] => .ok (.failure false)
  | node :: nodes =>
    match Node.findNodeIndexWhere hash number predicate node with
    | .error e => .error e
    | .ok .abort => .ok .abort
    | .ok (.found x) => .ok (.found (x ++ [i]))
    | .ok (.failure true) => .ok (.failure true)
    | .ok (.failure false) => findInChildren hash number predicate (i + 1) nodes
end

/-- The loop of `ForkTree::find_node_index_where` over the roots, from index `index`. -/
def findInRoots (hash : H) (number : N) (predicate : V → Bool) (index : ℕ) :
    List (Node H N V) → Except (Error E) (Option (List ℕ))
  | [] => .ok none
  | root :: roots =>
    match Node.findNodeIndexWhere isDescendentOf hash number predicate root with
    | .error e => .error e
    | .ok (.found node) => .ok (some (node ++ [index]))
    | .ok _ => findInRoots hash number predicate (index + 1) roots

def findNodeIndexWhere (t : ForkTree H N V) (hash : H) (number : N) (predicate : V → Bool) :
    Except (Error E) (Option (List ℕ)) :=
  findInRoots isDescendentOf hash number predicate 0 t.roots

/-- `Node::find_node_where`: follow the indices found, the last one first, down from the node;
`cur.children[i]` panics on an index out of range. -/
def Node.findNodeWhere (hash : H) (number : N) (predicate : V → Bool) (node : Node H N V) :
    Outcome (Error E) (FindOutcome (Node H N V)) :=
  match Node.findNodeIndexWhere isDescendentOf hash number predicate node with
  | .error e => .err e
  | .ok .abort => .ok .abort
  | .ok (.failure f) => .ok (.failure f)
  | .ok (.found indexes) =>
    match subtreeAt node indexes.reverse with
    | none => .panic
    | some found => .ok (.found found)

/-- The loop of `ForkTree::find_node_where` over the roots. -/
def findNodeWhereIn (hash : H) (number : N) (predicate : V → Bool) :
    List (Node H N V) → Outcome (Error E) (Option (Node H N V))
  | [] => .ok none
  | root :: roots =>
    match Node.findNodeWhere isDescendentOf hash number predicate root with
    | .err e => .err e
    | .panic => .panic
    | .ok (.found node) => .ok (some node)
    | .ok _ => findNodeWhereIn hash number predicate roots

def findNodeWhere (t : ForkTree H N V) (hash : H) (number : N) (predicate : V → Bool) :
    Outcome (Error E) (Option (Node H N V)) :=
  findNodeWhereIn isDescendentOf hash number predicate t.roots

/-! ### Pruning -/

/-- The test of the loop of `prune` over the children of the new root: the first child that is the
block, or above it with a smaller number. The oracle is asked only when the number is smaller and
no child was kept yet. -/
def keptByPrune (hash : H) (number : N) (isFirst : Bool) (child : Node H N V) : Except E Bool :=
  if isFirst && decide (child.label.number = number) && decide (child.label.hash = hash) then .ok true
  else askIf isDescendentOf (isFirst && decide (child.label.number < number)) child.label.hash hash

/-- The loop of `prune` over the children of the new root: the children kept and those removed. -/
def keepChildren (hash : H) (number : N) :
    Bool → List (Node H N V) → Except E (List (Node H N V) × List (Node H N V))
  | _, [] => .ok ([], [])
  | isFirst, child :: children =>
    match keptByPrune isDescendentOf hash number isFirst child with
    | .error e => .error e
    | .ok true =>
      match keepChildren hash number false children with
      | .error e => .error e
      | .ok (kept, removed) => .ok (child :: kept, removed)
    | .ok false =>
      match keepChildren hash number isFirst children with
      | .error e => .error e
      | .ok (kept, removed) => .ok (kept, child :: removed)

/-- `prune`: the outcome, with the subtrees removed, and the tree as the call leaves it. -/
def prune (t : ForkTree H N V) (hash : H) (number : N) (predicate : V → Bool) :
    Outcome (Error E) (List (Node H N V)) × ForkTree H N V :=
  match findNodeIndexWhere isDescendentOf t hash number predicate with
  | .error e => (.err e, t)
  | .ok none => (.ok [], t.rebalance)
  | .ok (some rootIndex) =>
    -- `mem::take(&mut self.roots)`: from here on an error leaves no root
    match extract t.roots rootIndex.reverse with
    | none => (.panic, ⟨[], t.bestFinalizedNumber⟩)
    | some (root, oldRoots) =>
      match keepChildren isDescendentOf hash number true root.children with
      | .error e => (.err (.client e), ⟨[], t.bestFinalizedNumber⟩)
      | .ok (kept, removed) =>
        (.ok (oldRoots ++ removed), { t with roots := [Rose.node root.label kept] }.rebalance)

/-! ### What a call that returns `Ok` did -/

section OfOk

variable {isDescendentOf} {hash : H} {number : N} {predicate : V → Bool}

omit [DecidableEq H] in
mutual
theorem Node.findNodeIndexWhere_eq_of_ok : ∀ (n : Node H N V) {r : FindOutcome (List ℕ)},
    Node.findNodeIndexWhere isDescendentOf hash number predicate n = .ok r →
      ForkTree.Node.findNodeIndexWhere (orFalse isDescendentOf) hash number predicate n = r
  | .node info children, r, h => by
    unfold Node.findNodeIndexWhere at h
    rw [ForkTree.Node.findNodeIndexWhere]
    split_ifs at h ⊢
    · cases h
      rfl
    split at h
    · cases h
    · rename_i hchildren
      cases h
      rw [findInChildren_eq_of_ok children hchildren]
    · rename_i x hchildren
      cases h
      rw [findInChildren_eq_of_ok children hchildren]
    · -- no child found the node: the node itself is asked, unless a child was above the block
      rename_i known hchildren
      rw [findInChildren_eq_of_ok children hchildren]
      split at h
      · cases h
      · rename_i isDescendent hask
        cases h
        dsimp only
        rw [askUnless_eq_ok hask]

theorem findInChildren_eq_of_ok : ∀ {i : ℕ} (nodes : List (Node H N V)) {r : FindOutcome (List ℕ)},
    findInChildren isDescendentOf hash number predicate i nodes = .ok r →
      ForkTree.findInChildren (orFalse isDescendentOf) hash number predicate i nodes = r
  | _, [], r, h => by
    cases h
    rfl
  | i, n :: nodes, r, h => by
    unfold findInChildren at h
    rw [ForkTree.findInChildren]
    split at h
    · cases h
    all_goals
      rename_i hn
      rw [Node.findNodeIndexWhere_eq_of_ok n hn]
    · cases h
      rfl
    · cases h
      rfl
    · cases h
      rfl
    · exact findInChildren_eq_of_ok nodes h
end

omit [DecidableEq H] in
theorem findInRoots_eq_of_ok : ∀ {index : ℕ} (roots : List (Node H N V)) {r : Option (List ℕ)},
    findInRoots isDescendentOf hash number predicate index roots = .ok r →
      ForkTree.findInRoots (orFalse isDescendentOf) hash number predicate index roots = r
  | _, [], r, h => by
    cases h
    rfl
  | index, root :: roots, r, h => by
    unfold findInRoots at h
    rw [ForkTree.findInRoots]
    cases hroot : Node.findNodeIndexWhere isDescendentOf hash number predicate root with
    | error e =>
      rw [hroot] at h
      cases h
    | ok outcome =>
      rw [hroot] at h
      rw [Node.findNodeIndexWhere_eq_of_ok root hroot]
      -- a root that found nothing passes the search on to the next
      cases outcome with
      | found node =>
        cases h
        rfl
      | failure f => exact findInRoots_eq_of_ok roots h
      | abort => exact findInRoots_eq_of_ok roots h

omit [DecidableEq H] in
theorem findNodeIndexWhere_eq_of_ok {t : ForkTree H N V} {r : Option (List ℕ)}
    (h : findNodeIndexWhere isDescendentOf t hash number predicate = .ok r) :
    t.findNodeIndexWhere (orFalse isDescendentOf) hash number predicate = r :=
  findInRoots_eq_of_ok t.roots h

theorem keptByPrune_eq_ok {isFirst : Bool} {child : Node H N V} {kept : Bool}
    (h : keptByPrune isDescendentOf hash number isFirst child = .ok kept) :
    (isFirst && (decide (child.label.number = number) && decide (child.label.hash = hash) ||
      decide (child.label.number < number) && orFalse isDescendentOf child.label.hash hash)) =
        kept := by
  unfold keptByPrune at h
  split_ifs at h with hfound
  · -- the block itself: no question asked
    cases h
    simp only [Bool.and_eq_true, decide_eq_true_eq] at hfound
    obtain ⟨⟨rfl, hnumber⟩, hhash⟩ := hfound
    simp [hnumber, hhash]
  · rw [← askIf_eq_ok h]
    cases isFirst with
    | false => rfl
    | true =>
      -- not the block itself: the oracle's answer, when the number is smaller
      have hblock : (decide (child.label.number = number) && decide (child.label.hash = hash)) =
          false := by
        simpa using hfound
      simp only [Bool.true_and, hblock, Bool.false_or]

theorem keepChildren_eq_of_ok : ∀ (isFirst : Bool) (children : List (Node H N V))
    {kept removed : List (Node H N V)},
    keepChildren isDescendentOf hash number isFirst children = .ok (kept, removed) →
      ForkTree.keepChildren (orFalse isDescendentOf) hash number isFirst children = (kept, removed)
  | _, [], _, _, h => by
    cases h
    rfl
  | isFirst, child :: children, kept, removed, h => by
    unfold keepChildren at h
    rw [ForkTree.keepChildren]
    split at h
    · cases h
    · -- the child is kept
      rename_i htest
      rw [if_pos (keptByPrune_eq_ok htest)]
      split at h
      · cases h
      · rename_i kept' removed' hrest
        cases h
        rw [keepChildren_eq_of_ok false children hrest]
    · rename_i htest
      rw [if_neg (by rw [keptByPrune_eq_ok htest]; decide)]
      split at h
      · cases h
      · rename_i kept' removed' hrest
        cases h
        rw [keepChildren_eq_of_ok isFirst children hrest]

theorem prune_eq_of_ok {t : ForkTree H N V} {removed : List (Node H N V)}
    (h : (prune isDescendentOf t hash number predicate).1 = .ok removed) :
    t.prune (orFalse isDescendentOf) hash number predicate =
      some ((prune isDescendentOf t hash number predicate).2, removed) := by
  -- the outcome of each call `prune` makes, in the order it makes them
  cases hfind : findNodeIndexWhere isDescendentOf t hash number predicate with
  | error e =>
    simp only [prune, hfind] at h
    cases h
  | ok found =>
    have hmodel := findNodeIndexWhere_eq_of_ok hfind
    cases found with
    | none =>
      simp only [prune, hfind] at h ⊢
      cases h
      rw [ForkTree.prune, hmodel]
    | some rootIndex =>
      cases hextract : extract t.roots rootIndex.reverse with
      | none =>
        simp only [prune, hfind, hextract] at h
        cases h
      | some extracted =>
        obtain ⟨root, oldRoots⟩ := extracted
        cases hkeep : keepChildren isDescendentOf hash number true root.children with
        | error e =>
          simp only [prune, hfind, hextract, hkeep] at h
          cases h
        | ok parts =>
          obtain ⟨kept, rem⟩ := parts
          simp only [prune, hfind, hextract, hkeep] at h ⊢
          cases h
          rw [ForkTree.prune, hmodel]
          simp only [hextract, keepChildren_eq_of_ok true root.children hkeep]

open List in
theorem labels_prune_of_ok {t : ForkTree H N V} {removed : List (Node H N V)}
    (h : (prune isDescendentOf t hash number predicate).1 = .ok removed) :
    (labels t.roots).Perm (labels (prune isDescendentOf t hash number predicate).2.roots ++
      labels removed) :=
  labels_prune (prune_eq_of_ok h)

end OfOk

/-! ### The node found is a node of the tree -/

section Found

variable {isDescendentOf} {hash : H} {number : N} {predicate : V → Bool}

omit [DecidableEq H] [LinearOrder N] in
theorem label_mem_of_subtreeAt {root found : Node H N V} {path : List ℕ}
    (h : subtreeAt root path = some found) : found.label ∈ labels [root] := by
  obtain ⟨Q, -, hsub⟩ := subtreeAt_sublist [] h
  have hmem := hsub.subset (root_mem_entriesFrom _ found)
  rw [labels, entries_singleton]
  exact List.mem_map_of_mem hmem

omit [DecidableEq H] in
theorem Node.label_mem_of_findNodeWhere {root found : Node H N V}
    (h : Node.findNodeWhere isDescendentOf hash number predicate root = .ok (.found found)) :
    found.label ∈ labels [root] := by
  unfold Node.findNodeWhere at h
  split at h
  · cases h
  · cases h
  · cases h
  · split at h
    · cases h
    · rename_i hsub
      cases h
      exact label_mem_of_subtreeAt hsub

omit [DecidableEq H] in
theorem label_mem_of_findNodeWhereIn : ∀ {roots : List (Node H N V)} {found : Node H N V},
    findNodeWhereIn isDescendentOf hash number predicate roots = .ok (some found) →
      found.label ∈ labels roots
  | [], _, h => by cases h
  | root :: roots, found, h => by
    rw [labels_cons]
    unfold findNodeWhereIn at h
    split at h
    · cases h
    · cases h
    · rename_i node hroot
      cases h
      exact List.mem_append_left _ (Node.label_mem_of_findNodeWhere hroot)
    · exact List.mem_append_right _ (label_mem_of_findNodeWhereIn h)

omit [DecidableEq H] in
theorem label_mem_of_findNodeWhere {t : ForkTree H N V} {found : Node H N V}
    (h : findNodeWhere isDescendentOf t hash number predicate = .ok (some found)) :
    found.label ∈ labels t.roots :=
  label_mem_of_findNodeWhereIn h

end Found

end Fallible

end Tetcore.ForkTree
