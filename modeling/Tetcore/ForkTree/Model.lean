import Mathlib.Data.List.Sort
import Tetcore.Lib.Outcome
import Tetcore.Lib.Rose
import Tetcore.Lib.Run
import Tetcore.Lib.Vec

/-!
# The fork tree

`utils/forktree/src/lib.rs`. A node holds a block's hash, number and data, and the nodes imported
below it; the tree is a forest of roots with the number of the last finalized block. Ancestry is
the caller's `is_descendent_of`, a function of two hashes here: its client error is left out.
Where the source panics (an index out of range, an `expect`) the model returns `none`.
-/

namespace Tetcore

namespace ForkTree

structure NodeInfo (H N V : Type) where
  hash : H
  number : N
  data : V

abbrev Node (H N V : Type) := Rose (NodeInfo H N V)

inductive Error
  | duplicate
  | unfinalizedAncestor
  | revert
  deriving DecidableEq, Repr

inductive FinalizationResult (V : Type)
  | changed (data : Option V)
  | unchanged
  deriving DecidableEq, Repr

inductive FindOutcome (T : Type)
  | found (value : T)
  | failure (isDescendent : Bool)
  | abort

end ForkTree

structure ForkTree (H N V : Type) where
  roots : List (ForkTree.Node H N V)
  bestFinalizedNumber : Option N

namespace ForkTree

open Rose hiding label children node
open Vec

variable {H N V : Type}

def new : ForkTree H N V := ⟨[], none⟩

/-! ### Rebalancing -/

mutual
def Node.maxDepth : Node H N V → ℕ
  | .node _ children => maxDepthOf children + 1

/-- The loop of `max_depth` over the children. -/
def maxDepthOf : List (Node H N V) → ℕ
  | [] => 0
  | node :: nodes => max (Node.maxDepth node) (maxDepthOf nodes)
end

/-- `sort_by_key(|n| Reverse(n.max_depth()))`, a stable sort, deepest first. -/
def sortByDepth (nodes : List (Node H N V)) : List (Node H N V) :=
  nodes.insertionSort fun a b => Node.maxDepth b ≤ Node.maxDepth a

mutual
/-- `Node::rebalance`. The source sorts the children and then rebalances each; this rebalances
them first, which changes no depth (`rebalance_node`). -/
def Node.rebalance : Node H N V → Node H N V
  | .node info children => .node info (sortByDepth (rebalanceAll children))

def rebalanceAll : List (Node H N V) → List (Node H N V)
  | [] => []
  | node :: nodes => Node.rebalance node :: rebalanceAll nodes
end

def rebalance (t : ForkTree H N V) : ForkTree H N V :=
  { t with roots := sortByDepth (rebalanceAll t.roots) }

theorem rebalanceAll_eq_map (nodes : List (Node H N V)) :
    rebalanceAll nodes = nodes.map Node.rebalance := by
  induction nodes with
  | nil => rfl
  | cons node nodes ih => rw [rebalanceAll, ih, List.map_cons]

theorem maxDepthOf_perm {nodes nodes' : List (Node H N V)} (h : nodes.Perm nodes') :
    maxDepthOf nodes = maxDepthOf nodes' := by
  induction h with
  | nil => rfl
  | cons node _ ih => rw [maxDepthOf, maxDepthOf, ih]
  | swap a b nodes => simp only [maxDepthOf]; omega
  | trans _ _ ih ih' => exact ih.trans ih'

mutual
theorem maxDepth_rebalance : ∀ node : Node H N V, (Node.rebalance node).maxDepth = node.maxDepth
  | .node info children => by
    rw [Node.rebalance, Node.maxDepth, Node.maxDepth, sortByDepth,
      maxDepthOf_perm (List.perm_insertionSort _ _), maxDepthOf_rebalanceAll children]

theorem maxDepthOf_rebalanceAll : ∀ nodes : List (Node H N V),
    maxDepthOf (rebalanceAll nodes) = maxDepthOf nodes
  | [] => rfl
  | node :: nodes => by
    rw [rebalanceAll, maxDepthOf, maxDepthOf, maxDepth_rebalance node, maxDepthOf_rebalanceAll nodes]
end

theorem rebalance_node (info : NodeInfo H N V) (children : List (Node H N V)) :
    Node.rebalance (.node info children) =
      .node info ((sortByDepth children).map Node.rebalance) := by
  rw [Node.rebalance, sortByDepth, sortByDepth, rebalanceAll_eq_map,
    ← List.map_insertionSort _ _ Node.rebalance children fun a _ b _ => by
      rw [maxDepth_rebalance, maxDepth_rebalance]]

mutual
theorem entriesFrom_rebalance (P : List (NodeInfo H N V)) : ∀ node : Node H N V,
    (entriesFrom P (Node.rebalance node)).Perm (entriesFrom P node)
  | .node info children => by
    rw [Node.rebalance, entriesFrom_node, entriesFrom_node]
    exact ((forestEntriesFrom_perm _ (List.perm_insertionSort _ _)).trans
      (forestEntriesFrom_rebalanceAll _ children)).cons _

theorem forestEntriesFrom_rebalanceAll (P : List (NodeInfo H N V)) : ∀ nodes : List (Node H N V),
    (forestEntriesFrom P (rebalanceAll nodes)).Perm (forestEntriesFrom P nodes)
  | [] => List.Perm.refl _
  | node :: nodes => by
    rw [rebalanceAll, forestEntriesFrom_cons, forestEntriesFrom_cons]
    exact (entriesFrom_rebalance P node).append (forestEntriesFrom_rebalanceAll P nodes)
end

theorem entries_rebalance (t : ForkTree H N V) :
    (entries t.rebalance.roots).Perm (entries t.roots) :=
  (forestEntriesFrom_perm [] (List.perm_insertionSort _ _)).trans
    (forestEntriesFrom_rebalanceAll [] t.roots)

/-! ### The size of a forest from an index on -/

theorem length_entries_drop_lt {F : List (Node H N V)} {i : ℕ} {t : Node H N V}
    (h : F[i]? = some t) : (entries (F.drop (i + 1))).length < (entries (F.drop i)).length := by
  rw [List.drop_eq_getElem_cons (List.getElem?_eq_some_iff.mp h).1, length_entries_cons]
  omega

theorem length_entries_drop_swapRemove {F F' : List (Node H N V)} {i : ℕ} {t : Node H N V}
    (h : swapRemove F i = some (t, F')) :
    (entries (F.drop i)).length = (entries (F'.drop i)).length + (entries t.children).length + 1 := by
  have hperm := forestEntriesFrom_perm [] (drop_perm_swapRemove h)
  rw [← entries, ← entries] at hperm
  rw [hperm.length_eq, length_entries_cons]
  omega

theorem length_entries_drop_append_children {F F' : List (Node H N V)} {i : ℕ} {t : Node H N V}
    (h : swapRemove F i = some (t, F')) :
    (entries ((F' ++ t.children).drop i)).length < (entries (F.drop i)).length := by
  have hle : i ≤ F'.length := by
    have := length_swapRemove h
    have := lt_length_of_swapRemove h
    omega
  rw [List.drop_append_of_le_length hle, entries_append, List.length_append,
    length_entries_drop_swapRemove h]
  omega

/-! ### Iteration -/

/-- `ForkTreeIterator`: pop a node and push its children, so that its first child is popped
next. The stack is kept with its top first. -/
def nodeIterFrom : List (Node H N V) → List (Node H N V)
  | [] => []
  | node :: stack => node :: nodeIterFrom (node.children ++ stack)
termination_by stack => (entries stack).length
decreasing_by
  rw [entries_append, List.length_append, length_entries_cons]
  omega

/-- `node_iter`: the nodes in pre-order. -/
def nodeIter (t : ForkTree H N V) : List (Node H N V) := nodeIterFrom t.roots

theorem nodeIterFrom_append (F G : List (Node H N V)) :
    nodeIterFrom (F ++ G) = nodeIterFrom F ++ nodeIterFrom G := by
  fun_induction nodeIterFrom F with
  | case1 => simp only [List.nil_append]
  | case2 node stack ih =>
    rw [List.cons_append, nodeIterFrom.eq_2, ← List.append_assoc, ih, List.cons_append]

theorem nodeIterFrom_cons (node : Node H N V) (stack : List (Node H N V)) :
    nodeIterFrom (node :: stack) = node :: (nodeIterFrom node.children ++ nodeIterFrom stack) := by
  rw [nodeIterFrom.eq_2, nodeIterFrom_append]

variable [DecidableEq H] [LinearOrder N] (isDescendentOf : H → H → Bool)

/-! ### Import -/

/-- `number <= best_finalized_number`, the check of `import` and of the finalizations. -/
def reverts (t : ForkTree H N V) (number : N) : Bool :=
  match t.bestFinalizedNumber with
  | some best => decide (number ≤ best)
  | none => false

mutual
/-- `Node::import` (a keyword of Lean): `some` hands the block back, when it does not go below
this node. -/
def Node.importNode (hash : H) (number : N) (data : V) :
    Node H N V → Except Error (Node H N V × Option (H × N × V))
  | .node info children =>
    if info.hash = hash then .error .duplicate
    else if number ≤ info.number then .ok (.node info children, some (hash, number, data))
    else
      match importChildren hash number data children with
      | .error e => .error e
      | .ok (children, none) => .ok (.node info children, none)
      | .ok (children, some (hash, number, data)) =>
        if isDescendentOf info.hash hash then
          .ok (.node info (children ++ [.node ⟨hash, number, data⟩ []]), none)
        else .ok (.node info children, some (hash, number, data))

/-- The loop of `Node::import` over the children. -/
def importChildren (hash : H) (number : N) (data : V) :
    List (Node H N V) → Except Error (List (Node H N V) × Option (H × N × V))
  | [] => .ok ([], some (hash, number, data))
  | node :: nodes =>
    match Node.importNode hash number data node with
    | .error e => .error e
    | .ok (node, none) => .ok (node :: nodes, none)
    | .ok (node, some (hash, number, data)) =>
      match importChildren hash number data nodes with
      | .error e => .error e
      | .ok (nodes, imported) => .ok (node :: nodes, imported)
end

/-- The loop of `ForkTree::import` over the roots, which also compares each root's hash. -/
def importRoots (hash : H) (number : N) (data : V) :
    List (Node H N V) → Except Error (List (Node H N V) × Option (H × N × V))
  | [] => .ok ([], some (hash, number, data))
  | root :: roots =>
    if root.label.hash = hash then .error .duplicate
    else
      match Node.importNode isDescendentOf hash number data root with
      | .error e => .error e
      | .ok (root, none) => .ok (root :: roots, none)
      | .ok (root, some (hash, number, data)) =>
        match importRoots hash number data roots with
        | .error e => .error e
        | .ok (roots, imported) => .ok (root :: roots, imported)

/-- `ForkTree::import`; `true` when the block becomes a root. -/
def importNode (t : ForkTree H N V) (hash : H) (number : N) (data : V) :
    Except Error (ForkTree H N V × Bool) :=
  if t.reverts number then .error .revert
  else
    match importRoots isDescendentOf hash number data t.roots with
    | .error e => .error e
    | .ok (roots, none) => .ok ({ t with roots := roots }.rebalance, false)
    | .ok (roots, some (hash, number, data)) =>
      .ok ({ t with roots := roots ++ [(Rose.node ⟨hash, number, data⟩ [] : Node H N V)] }.rebalance,
        true)

/-! ### Search -/

mutual
/-- `Node::find_node_index_where`: the indices down to the node found, the last one first. -/
def Node.findNodeIndexWhere (hash : H) (number : N) (predicate : V → Bool) :
    Node H N V → FindOutcome (List ℕ)
  | .node info children =>
    if number < info.number then .failure false
    else
      match findInChildren hash number predicate 0 children with
      | .abort => .abort
      | .found x => .found x
      | .failure knownDescendentOf =>
        let isDescendent := knownDescendentOf || isDescendentOf info.hash hash
        if isDescendent && predicate info.data then .found [] else .failure isDescendent

/-- The loop of `Node::find_node_index_where` over the children, from index `i`. -/
def findInChildren (hash : H) (number : N) (predicate : V → Bool) (i : ℕ) :
    List (Node H N V) → FindOutcome (List ℕ)
  | [] => .failure false
  | node :: nodes =>
    match Node.findNodeIndexWhere hash number predicate node with
    | .abort => .abort
    | .found x => .found (x ++ [i])
    | .failure true => .failure true
    | .failure false => findInChildren hash number predicate (i + 1) nodes
end

/-- The loop of `ForkTree::find_node_index_where` over the roots, from index `index`. -/
def findInRoots (hash : H) (number : N) (predicate : V → Bool) (index : ℕ) :
    List (Node H N V) → Option (List ℕ)
  | [] => none
  | root :: roots =>
    match Node.findNodeIndexWhere isDescendentOf hash number predicate root with
    | .found node => some (node ++ [index])
    | _ => findInRoots hash number predicate (index + 1) roots

def findNodeIndexWhere (t : ForkTree H N V) (hash : H) (number : N) (predicate : V → Bool) :
    Option (List ℕ) :=
  findInRoots isDescendentOf hash number predicate 0 t.roots

/-- `Node::find_node_where`: follow the indices found, the last one first, down from the node. -/
def Node.findNodeWhere (hash : H) (number : N) (predicate : V → Bool) (node : Node H N V) :
    Option (FindOutcome (Node H N V)) :=
  match Node.findNodeIndexWhere isDescendentOf hash number predicate node with
  | .abort => some .abort
  | .failure f => some (.failure f)
  -- `cur.children[i]` panics on an index out of range
  | .found indexes => (subtreeAt node indexes.reverse).map .found

/-- The loop of `ForkTree::find_node_where` over the roots. -/
def findNodeWhereIn (hash : H) (number : N) (predicate : V → Bool) :
    List (Node H N V) → Option (Option (Node H N V))
  | [] => some none
  | root :: roots =>
    match Node.findNodeWhere isDescendentOf hash number predicate root with
    | none => none
    | some (.found node) => some (some node)
    | some _ => findNodeWhereIn hash number predicate roots

def findNodeWhere (t : ForkTree H N V) (hash : H) (number : N) (predicate : V → Bool) :
    Option (Option (Node H N V)) :=
  findNodeWhereIn isDescendentOf hash number predicate t.roots

/-- `find_node_where_mut`: the search of `find_node_where`, handing out the node to change. -/
def findNodeWhereMut (t : ForkTree H N V) (hash : H) (number : N) (predicate : V → Bool) :
    Option (Option (Node H N V)) :=
  findNodeWhere isDescendentOf t hash number predicate

/-! ### Pruning -/

/-- The loop of `prune` over the children of the new root: the first on the way to the block is
kept, and the others are removed. -/
def keepChildren (hash : H) (number : N) :
    Bool → List (Node H N V) → List (Node H N V) × List (Node H N V)
  | _, [] => ([], [])
  | isFirst, child :: children =>
    if isFirst && (decide (child.label.number = number) && decide (child.label.hash = hash) ||
        decide (child.label.number < number) && isDescendentOf child.label.hash hash) then
      let (kept, removed) := keepChildren hash number false children
      (child :: kept, removed)
    else
      let (kept, removed) := keepChildren hash number isFirst children
      (kept, child :: removed)

/-- `prune`: re-root the tree at the node found, and return the subtrees removed. -/
def prune (t : ForkTree H N V) (hash : H) (number : N) (predicate : V → Bool) :
    Option (ForkTree H N V × List (Node H N V)) :=
  match t.findNodeIndexWhere isDescendentOf hash number predicate with
  | none => some (t.rebalance, [])
  | some rootIndex =>
    match extract t.roots rootIndex.reverse with
    | none => none
    | some (root, oldRoots) =>
      let (kept, removed) := keepChildren isDescendentOf hash number true root.children
      some ({ t with roots := [Rose.node root.label kept] }.rebalance, oldRoots ++ removed)

/-- `RemovedIterator` over the subtrees `prune` returns, a stack with its top last: pop a node,
push its children so that the first is popped next, and yield the node's hash, number and data. -/
def removedIter (removed : List (Node H N V)) : List (H × N × V) :=
  (nodeIterFrom removed.reverse).map fun node => (node.label.hash, node.label.number, node.label.data)

/-! ### Finalization -/

def finalizeRootAt (t : ForkTree H N V) (position : ℕ) : Option (ForkTree H N V × V) :=
  (swapRemove t.roots position).map fun (node, _) =>
    (⟨node.children, some node.label.number⟩, node.label.data)

def finalizeRoot (t : ForkTree H N V) (hash : H) : Option (ForkTree H N V × Option V) :=
  match t.roots.findIdx? fun node => decide (node.label.hash = hash) with
  | none => some (t, none)
  | some position => (t.finalizeRootAt position).map fun (t, data) => (t, some data)

def finalize (t : ForkTree H N V) (hash : H) (number : N) :
    Outcome Error (ForkTree H N V × FinalizationResult V) :=
  if t.reverts number then .err .revert
  else
    match t.finalizeRoot hash with
    | none => .panic
    | some (t', some data) => .ok (t', .changed (some data))
    | some (_, none) =>
      if t.roots.any fun root =>
          decide (root.label.number < number) && isDescendentOf root.label.hash hash then
        .err .unfinalizedAncestor
      else
        let keep := fun root : Node H N V =>
          decide (number < root.label.number) && isDescendentOf hash root.label.hash
        .ok (⟨t.roots.filter keep, some number⟩,
          if t.roots.all keep then .unchanged else .changed none)

set_option linter.unusedVariables false in
/-- The loop of `finalize_with_ancestors` from root `idx` on. Every round finalizes a root, keeps
one, or takes one out, so the nodes from `idx` on get fewer. -/
def finalizeWithAncestorsLoop (hash : H) (number : N) (t : ForkTree H N V) (idx : ℕ)
    (changed : Bool) : Option (ForkTree H N V × FinalizationResult V) :=
  if idx = t.roots.length then
    some (⟨t.roots, some number⟩, if changed then .changed none else .unchanged)
  else
    match hroot : t.roots[idx]? with
    | none => none
    | some root =>
      let isFinalized := decide (root.label.hash = hash)
      let isDescendant := !isFinalized && decide (number < root.label.number) &&
        isDescendentOf hash root.label.hash
      let isAncestor := !isFinalized && !isDescendant && decide (root.label.number < number) &&
        isDescendentOf root.label.hash hash
      if isFinalized then (t.finalizeRootAt idx).map fun (t, data) => (t, .changed (some data))
      else if isDescendant then finalizeWithAncestorsLoop hash number t (idx + 1) changed
      else
        match hremoved : swapRemove t.roots idx with
        | none => none
        | some (removed, roots) =>
          if isAncestor then
            finalizeWithAncestorsLoop hash number ⟨roots ++ removed.children, t.bestFinalizedNumber⟩
              idx true
          else finalizeWithAncestorsLoop hash number ⟨roots, t.bestFinalizedNumber⟩ idx true
termination_by (entries (t.roots.drop idx)).length
decreasing_by
  · exact length_entries_drop_lt hroot
  · exact length_entries_drop_append_children hremoved
  · have := length_entries_drop_swapRemove hremoved
    omega

def finalizeWithAncestors (t : ForkTree H N V) (hash : H) (number : N) :
    Outcome Error (ForkTree H N V × FinalizationResult V) :=
  if t.reverts number then .err .revert
  else
    match t.finalizeRoot hash with
    | none => .panic
    | some (t', some data) => .ok (t', .changed (some data))
    | some (_, none) =>
      match finalizeWithAncestorsLoop isDescendentOf hash number t 0 false with
      | none => .panic
      | some result => .ok result

/-- `finalizes_any_with_descendent_if`: the first node in pre-order that passes the predicate and is
the block or above it decides, by its children and by whether it is a root. -/
def finalizesAnyWithDescendentIf (t : ForkTree H N V) (hash : H) (number : N)
    (predicate : V → Bool) : Except Error (Option Bool) :=
  if t.reverts number then .error .revert
  else
    match t.nodeIter.find? fun node => predicate node.label.data &&
        (decide (node.label.hash = hash) || isDescendentOf node.label.hash hash) with
    | none => .ok none
    | some node =>
      if node.children.any fun child =>
          decide (child.label.number ≤ number) && isDescendentOf child.label.hash hash then
        .error .unfinalizedAncestor
      else .ok (some (t.roots.any fun root => decide (root.label.hash = node.label.hash)))

/-- The search of `finalize_with_descendent_if` for the root to finalize, from index `i`. -/
def descendentPosition (hash : H) (number : N) (predicate : V → Bool) (i : ℕ) :
    List (Node H N V) → Except Error (Option ℕ)
  | [] => .ok none
  | root :: roots =>
    if predicate root.label.data &&
        (decide (root.label.hash = hash) || isDescendentOf root.label.hash hash) then
      if root.children.any fun node =>
          decide (node.label.number ≤ number) && isDescendentOf node.label.hash hash then
        .error .unfinalizedAncestor
      else .ok (some i)
    else descendentPosition hash number predicate (i + 1) roots

def finalizeWithDescendentIf (t : ForkTree H N V) (hash : H) (number : N)
    (predicate : V → Bool) : Outcome Error (ForkTree H N V × FinalizationResult V) :=
  if t.reverts number then .err .revert
  else
    match descendentPosition isDescendentOf hash number predicate 0 t.roots with
    | .error e => .err e
    | .ok position =>
      let finalized : Option (ForkTree H N V × Option V) :=
        match position with
        | none => some (t, none)
        | some i => (t.finalizeRootAt i).map fun (t, data) => (t, some data)
      match finalized with
      | none => .panic
      | some (t, nodeData) =>
        let retain := fun root : Node H N V =>
          decide (number < root.label.number) && isDescendentOf hash root.label.hash ||
            decide (root.label.number = number) && decide (root.label.hash = hash) ||
            isDescendentOf root.label.hash hash
        .ok (⟨t.roots.filter retain, some number⟩,
          match nodeData with
          | some data => .changed (some data)
          | none => if t.roots.all retain then .unchanged else .changed none)

/-! ### Runs -/

inductive Call (H N V : Type)
  | importNode (hash : H) (number : N) (data : V)
  | finalizeRoot (hash : H)
  | finalize (hash : H) (number : N)
  | finalizeWithAncestors (hash : H) (number : N)
  | finalizeWithDescendentIf (hash : H) (number : N) (predicate : V → Bool)
  | prune (hash : H) (number : N) (predicate : V → Bool)

/-- The tree after a call of a finalization; an error leaves it as it was. -/
def finalized (t : ForkTree H N V) (o : Outcome Error (ForkTree H N V × FinalizationResult V)) :
    Option (ForkTree H N V) :=
  (o.bind fun r => .ok r.1).after t

/-- The tree after a call, `none` when the call panics. -/
def exec (t : ForkTree H N V) : Call H N V → Option (ForkTree H N V)
  | .importNode hash number data =>
    match t.importNode isDescendentOf hash number data with
    | .ok (t', _) => some t'
    | .error _ => some t
  | .finalizeRoot hash => (t.finalizeRoot hash).map Prod.fst
  | .finalize hash number => finalized t (t.finalize isDescendentOf hash number)
  | .finalizeWithAncestors hash number =>
    finalized t (t.finalizeWithAncestors isDescendentOf hash number)
  | .finalizeWithDescendentIf hash number predicate =>
    finalized t (t.finalizeWithDescendentIf isDescendentOf hash number predicate)
  | .prune hash number predicate => (t.prune isDescendentOf hash number predicate).map Prod.fst

/-- The calls made from the empty tree. -/
def run (calls : List (Call H N V)) : Option (ForkTree H N V) :=
  StepMachine.run (fun o c => o.bind (exec isDescendentOf · c)) (some new) calls

end ForkTree

end Tetcore
