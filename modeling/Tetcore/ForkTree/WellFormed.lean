import Tetcore.ForkTree.Import

/-!
# The fork tree stays well formed

Every call but `import` leaves a forest pruned from the one it starts from: `finalize_root`
promotes the children of a root, `finalize` keeps some roots, the loop of
`finalize_with_ancestors` opens or drops one root a round, and `prune` takes a subtree and keeps
some children of its root. A forest pruned from a well-formed one is well formed, whatever the
ancestry relation. `import` adds a node below the deepest node above it, which keeps the tree
well formed when no node of the tree descends from the block.
-/

namespace Tetcore.ForkTree

open Rose hiding label children node WellFormed
open Vec

variable {H N V : Type} {isDescendentOf : H → H → Bool} {num : H → N} {t t' : ForkTree H N V}

theorem wellFormed_new : (new : ForkTree H N V).WellFormed isDescendentOf num where
  tree := ⟨List.nodup_nil, by simp [new, entries]⟩
  numbered := by simp [new, labels, entries]

theorem pruned_swapRemove {F : List (Node H N V)} {i : ℕ} {node : Node H N V} {rest : List (Node H N V)}
    (h : swapRemove F i = some (node, rest)) : Pruned rest F :=
  (pruned_of_sublist (List.sublist_cons_self node rest)).trans
    (pruned_of_perm (perm_swapRemove h).symm)

section Pruned

variable (ht : t.WellFormed isDescendentOf num)
include ht

theorem WellFormed.of_pruned (h : Pruned t'.roots t.roots) : t'.WellFormed isDescendentOf num where
  tree := ht.tree.pruned h
  numbered x hx := ht.numbered x (h.subperm.subset hx)

theorem WellFormed.of_sublist (h : t'.roots.Sublist t.roots) : t'.WellFormed isDescendentOf num :=
  ht.of_pruned (pruned_of_sublist h)

theorem WellFormed.rebalance : t.rebalance.WellFormed isDescendentOf num :=
  ht.of_pruned (pruned_of_entries_perm (entries_rebalance t))

theorem WellFormed.pruned_swapRemove_children {i : ℕ} {node : Node H N V}
    {rest : List (Node H N V)} (h : swapRemove t.roots i = some (node, rest)) :
    Pruned (rest ++ node.children) t.roots :=
  ht.tree.pruned_promote (perm_swapRemove h).symm

theorem WellFormed.finalizeRootAt {i : ℕ} {data : V} (h : t.finalizeRootAt i = some (t', data)) :
    t'.WellFormed isDescendentOf num := by
  obtain ⟨⟨node, rest⟩, hremove, hresult⟩ := Option.map_eq_some_iff.mp h
  -- the children of the finalized root are the new roots
  have hroots : t'.roots = node.children := by
    rw [← (Prod.mk.inj hresult).1]
  refine ht.of_pruned ?_
  rw [hroots]
  exact (pruned_of_sublist (List.sublist_append_right rest _)).trans
    (ht.pruned_swapRemove_children hremove)

theorem WellFormed.finalizeRoot [DecidableEq H] {hash : H} {data : Option V}
    (h : t.finalizeRoot hash = some (t', data)) : t'.WellFormed isDescendentOf num := by
  unfold ForkTree.finalizeRoot at h
  split at h
  · cases h
    exact ht
  · obtain ⟨⟨t'', data'⟩, hat, hresult⟩ := Option.map_eq_some_iff.mp h
    cases hresult
    exact ht.finalizeRootAt hat

end Pruned

section Finalize

variable [DecidableEq H] [LinearOrder N] (ht : t.WellFormed isDescendentOf num)
include ht

theorem WellFormed.finalize {hash : H} {number : N} {result : FinalizationResult V}
    (h : t.finalize isDescendentOf hash number = .ok (t', result)) :
    t'.WellFormed isDescendentOf num := by
  unfold ForkTree.finalize at h
  by_cases hrevert : t.reverts number = true
  · rw [if_pos hrevert] at h
    cases h
  rw [if_neg hrevert] at h
  rcases hroot : t.finalizeRoot hash with _ | ⟨t'', _ | data⟩ <;> rw [hroot] at h
  · cases h
  · -- no root is the block: the roots kept are some of the old ones
    dsimp only at h
    split_ifs at h <;> cases h <;> exact ht.of_sublist List.filter_sublist
  · cases h
    exact ht.finalizeRoot hroot

theorem WellFormed.finalizeWithAncestorsLoop {hash : H} {number : N} {idx : ℕ} {changed : Bool}
    {result : ForkTree H N V × FinalizationResult V}
    (h : finalizeWithAncestorsLoop isDescendentOf hash number t idx changed = some result) :
    result.1.WellFormed isDescendentOf num := by
  revert ht result
  fun_induction ForkTree.finalizeWithAncestorsLoop isDescendentOf hash number t idx changed with
  | case1 =>
    intro ht result h
    cases h
    exact ht.of_sublist (List.Sublist.refl _)
  | case2 => intro _ _ h; cases h
  | case3 =>
    intro ht result h
    obtain ⟨⟨t', data⟩, hat, rfl⟩ := Option.map_eq_some_iff.mp h
    exact ht.finalizeRootAt hat
  | case4 => rename_i ih; exact ih
  | case5 => intro _ _ h; cases h
  | case6 =>
    -- an ancestor of the block: its children become roots
    rename_i hremoved _ ih
    intro ht result h
    exact ih (ht.of_pruned (ht.pruned_swapRemove_children hremoved)) h
  | case7 =>
    -- neither an ancestor nor a descendant: the root goes
    rename_i hremoved _ ih
    intro ht result h
    exact ih (ht.of_pruned (pruned_swapRemove hremoved)) h

theorem WellFormed.finalizeWithAncestors {hash : H} {number : N} {result : FinalizationResult V}
    (h : t.finalizeWithAncestors isDescendentOf hash number = .ok (t', result)) :
    t'.WellFormed isDescendentOf num := by
  unfold ForkTree.finalizeWithAncestors at h
  by_cases hrevert : t.reverts number = true
  · rw [if_pos hrevert] at h
    cases h
  rw [if_neg hrevert] at h
  rcases hroot : t.finalizeRoot hash with _ | ⟨t'', _ | data⟩ <;> rw [hroot] at h
  · cases h
  · dsimp only at h
    rcases hloop : ForkTree.finalizeWithAncestorsLoop isDescendentOf hash number t 0 false with
      _ | r <;>
      rw [hloop] at h
    · cases h
    · cases h
      exact ht.finalizeWithAncestorsLoop hloop
  · cases h
    exact ht.finalizeRoot hroot

theorem WellFormed.finalizeWithDescendentIf {hash : H} {number : N} {predicate : V → Bool}
    {result : FinalizationResult V}
    (h : t.finalizeWithDescendentIf isDescendentOf hash number predicate = .ok (t', result)) :
    t'.WellFormed isDescendentOf num := by
  unfold ForkTree.finalizeWithDescendentIf at h
  by_cases hrevert : t.reverts number = true
  · rw [if_pos hrevert] at h
    cases h
  rw [if_neg hrevert] at h
  rcases hpos : descendentPosition isDescendentOf hash number predicate 0 t.roots with
    e | position <;> rw [hpos] at h
  · cases h
  · dsimp only at h
    split at h
    · cases h
    · rename_i t'' nodeData hfinalized
      -- the tree once the root found, if any, is finalized
      have ht'' : t''.WellFormed isDescendentOf num := by
        cases position with
        | none =>
          cases hfinalized
          exact ht
        | some i =>
          obtain ⟨⟨tf, data⟩, hat, hresult⟩ := Option.map_eq_some_iff.mp hfinalized
          cases hresult
          exact ht.finalizeRootAt hat
      cases h
      exact ht''.of_sublist List.filter_sublist

end Finalize

section Prune

variable [DecidableEq H] [LinearOrder N]

theorem keepChildren_sublist (isDescendentOf : H → H → Bool) (hash : H) (number : N) :
    ∀ (isFirst : Bool) (children : List (Node H N V)),
      (keepChildren isDescendentOf hash number isFirst children).1.Sublist children
  | _, [] => List.Sublist.slnil
  | isFirst, child :: children => by
    rw [keepChildren]
    split_ifs
    · exact (keepChildren_sublist isDescendentOf hash number false children).cons_cons child
    · exact (keepChildren_sublist isDescendentOf hash number isFirst children).cons child

theorem WellFormed.prune (horder : ForestOrder fun a b : H => isDescendentOf a b = true)
    (ht : t.WellFormed isDescendentOf num) {hash : H} {number : N} {predicate : V → Bool}
    {removed : List (Node H N V)}
    (h : t.prune isDescendentOf hash number predicate = some (t', removed)) :
    t'.WellFormed isDescendentOf num := by
  unfold ForkTree.prune at h
  split at h
  · cases h
    exact ht.rebalance
  · split at h
    · cases h
    · rename_i root oldRoots hextract
      rcases hkeep : keepChildren isDescendentOf hash number true root.children with ⟨kept, rest⟩
      rw [hkeep] at h
      cases h
      refine (ht.of_pruned ?_).rebalance
      obtain ⟨P, hsub⟩ := extract_sublist _ _ hextract
      have hroot : Pruned [root] t.roots := ht.tree.pruned_subtree (fun a => horder.irrefl a.hash)
        (fun a b c => horder.trans a.hash b.hash c.hash) hsub
      obtain ⟨label, children⟩ := root
      have hkept : kept.Sublist children := by
        have := keepChildren_sublist isDescendentOf hash number true children
        rwa [show children = Rose.children (Rose.node label children) from rfl, hkeep] at this
      exact ((pruned_of_sublist hkept).node label).trans hroot

end Prune

section Import

variable (horder : ForestOrder fun a b : H => isDescendentOf a b = true)
  (ht : t.WellFormed isDescendentOf num)
include horder ht

theorem WellFormed.of_perm_append {x : NodeInfo H N V} {P : List (NodeInfo H N V)}
    (hx : x.number = num x.hash) (hfresh : ∀ e ∈ entries t.roots, e.1.hash ≠ x.hash)
    (hbelow : ∀ y ∈ labels t.roots, isDescendentOf x.hash y.hash = false)
    (hperm : (entries t'.roots).Perm (entries t.roots ++ [(x, P)]))
    (hpath : ∀ b ∈ entries t.roots, b.1 ∈ P ↔ isDescendentOf b.1.hash x.hash = true)
    (hnotin : x ∉ P) : t'.WellFormed isDescendentOf num where
  tree := ht.tree.of_perm_append hperm (fun e he => hfresh e he) hpath hnotin
    (horder.irrefl x.hash) fun e he => by simp [hbelow e.1 (List.mem_map_of_mem he)]
  numbered y hy := by
    have hy' := (hperm.map Prod.fst).subset hy
    rw [List.map_append, List.mem_append] at hy'
    rcases hy' with hy' | hy'
    · exact ht.numbered y hy'
    · simp only [List.map_cons, List.map_nil, List.mem_singleton] at hy'
      rw [hy']
      exact hx

theorem WellFormed.of_importedAt {x : NodeInfo H N V} {isRoot : Bool}
    (hx : x.number = num x.hash) (hfresh : ∀ e ∈ entries t.roots, e.1.hash ≠ x.hash)
    (hbelow : ∀ y ∈ labels t.roots, isDescendentOf x.hash y.hash = false)
    (h : ImportedAt isDescendentOf t.roots t'.roots x isRoot) : t'.WellFormed isDescendentOf num := by
  rcases h with ⟨-, hnone, hperm⟩ | ⟨-, a, hadd⟩
  · refine ht.of_perm_append horder hx hfresh hbelow hperm (fun b hb => ?_) List.not_mem_nil
    simp [hnone b hb]
  · refine ht.of_perm_append horder hx hfresh hbelow hadd.perm (fun b hb => ⟨fun hmem => ?_,
      hadd.deepest b hb⟩) fun hmem => ?_
    · -- the nodes on the path of `a` are above `a`, which is above `x`
      rcases List.mem_append.mp hmem with hmem | hmem
      · exact horder.trans _ _ _ ((ht.tree.ancestors a hadd.mem b hb).mp hmem) hadd.above
      · rw [List.mem_singleton.mp hmem]
        exact hadd.above
    · -- the path of `a` and `a` are nodes of the tree, and `x` is not
      rcases List.mem_append.mp hmem with hmem | hmem
      · obtain ⟨e, he, hex⟩ := List.mem_map.mp (mem_labels_of_mem_path hadd.mem hmem)
        exact hfresh e he (by rw [hex])
      · exact hfresh a hadd.mem (by rw [List.mem_singleton.mp hmem])

variable [DecidableEq H] [LinearOrder N] (hnum : ∀ a b, isDescendentOf a b = true → num a < num b)
include hnum

theorem WellFormed.importedAt {hash : H} {data : V} {isRoot : Bool}
    (h : t.importNode isDescendentOf hash (num hash) data = .ok (t', isRoot)) :
    (∀ e ∈ entries t.roots, e.1.hash ≠ hash) ∧
      ImportedAt isDescendentOf t.roots t'.roots ⟨hash, num hash, data⟩ isRoot := by
  by_cases hmem : ∃ e ∈ entries t.roots, e.1.hash = hash
  · rw [importNode_duplicate horder hnum ht data hmem] at h
    cases h
  have hfresh : ∀ e ∈ entries t.roots, e.1.hash ≠ hash := fun e he heq => hmem ⟨e, he, heq⟩
  by_cases hrevert : t.reverts (num hash) = true
  · rw [importNode, if_pos hrevert] at h
    cases h
  obtain ⟨t'', isRoot', himp, hat⟩ :=
    importNode_of_fresh horder hnum ht data hfresh (Bool.eq_false_iff.mpr hrevert)
  rw [himp] at h
  cases h
  exact ⟨hfresh, hat⟩

theorem WellFormed.importNode {hash : H} {data : V} {isRoot : Bool}
    (hbelow : ∀ y ∈ labels t.roots, isDescendentOf hash y.hash = false)
    (h : t.importNode isDescendentOf hash (num hash) data = .ok (t', isRoot)) :
    t'.WellFormed isDescendentOf num :=
  have himp := ht.importedAt horder hnum h
  ht.of_importedAt horder rfl himp.1 hbelow himp.2

end Import

/-! ### Runs -/

section Runs

variable [DecidableEq H] [LinearOrder N]

/-- The calls of the runs considered: a block is imported with the number of its hash, while no
node of the tree descends from it. -/
def Admissible (isDescendentOf : H → H → Bool) (num : H → N) (t : ForkTree H N V) :
    Call H N V → Prop
  | .importNode hash number _ =>
    number = num hash ∧ ∀ y ∈ labels t.roots, isDescendentOf hash y.hash = false
  | _ => True

/-- The trees that admissible calls reach from the empty tree. -/
inductive Reachable (isDescendentOf : H → H → Bool) (num : H → N) : ForkTree H N V → Prop
  | init : Reachable isDescendentOf num new
  | step {t t' : ForkTree H N V} {c : Call H N V} : Reachable isDescendentOf num t →
      Admissible isDescendentOf num t c → exec isDescendentOf t c = some t' →
        Reachable isDescendentOf num t'

omit [DecidableEq H] [LinearOrder N] in
theorem WellFormed.finalized (ht : t.WellFormed isDescendentOf num)
    {o : Outcome Error (ForkTree H N V × FinalizationResult V)}
    (hok : ∀ t'' result, o = .ok (t'', result) → t''.WellFormed isDescendentOf num)
    (h : finalized t o = some t') : t'.WellFormed isDescendentOf num := by
  cases o with
  | ok r =>
    cases h
    exact hok r.1 r.2 rfl
  | err _ =>
    cases h
    exact ht
  | panic => cases h

theorem WellFormed.exec (horder : ForestOrder fun a b : H => isDescendentOf a b = true)
    (hnum : ∀ a b, isDescendentOf a b = true → num a < num b)
    (ht : t.WellFormed isDescendentOf num) {c : Call H N V}
    (hadm : Admissible isDescendentOf num t c) (h : exec isDescendentOf t c = some t') :
    t'.WellFormed isDescendentOf num := by
  cases c with
  | importNode hash number data =>
    obtain ⟨rfl, hbelow⟩ := hadm
    simp only [ForkTree.exec] at h
    split at h
    · cases h
      exact ht.importNode horder hnum hbelow (by assumption)
    · cases h
      exact ht
  | finalizeRoot hash =>
    obtain ⟨⟨t'', data⟩, hfin, rfl⟩ := Option.map_eq_some_iff.mp h
    exact ht.finalizeRoot hfin
  | finalize hash number => exact ht.finalized (fun _ _ hok => ht.finalize hok) h
  | finalizeWithAncestors hash number =>
    exact ht.finalized (fun _ _ hok => ht.finalizeWithAncestors hok) h
  | finalizeWithDescendentIf hash number predicate =>
    exact ht.finalized (fun _ _ hok => ht.finalizeWithDescendentIf hok) h
  | prune hash number predicate =>
    obtain ⟨⟨t'', removed⟩, hprune, rfl⟩ := Option.map_eq_some_iff.mp h
    exact ht.prune horder hprune

theorem Reachable.wellFormed (horder : ForestOrder fun a b : H => isDescendentOf a b = true)
    (hnum : ∀ a b, isDescendentOf a b = true → num a < num b)
    (hreach : Reachable isDescendentOf num t) : t.WellFormed isDescendentOf num := by
  induction hreach with
  | init => exact wellFormed_new
  | step _ hadm hexec ih => exact ih.exec horder hnum hadm hexec

theorem forkTree_wellFormed (horder : ForestOrder fun a b : H => isDescendentOf a b = true)
    (hnum : ∀ a b, isDescendentOf a b = true → num a < num b)
    (hreach : Reachable isDescendentOf num t) :
    t.WellFormed isDescendentOf num ∧
      ∀ (hash : H) (data : V) (t' : ForkTree H N V) (isRoot : Bool),
        t.importNode isDescendentOf hash (num hash) data = .ok (t', isRoot) →
          ImportedAt isDescendentOf t.roots t'.roots ⟨hash, num hash, data⟩ isRoot := by
  have ht := hreach.wellFormed horder hnum
  exact ⟨ht, fun hash data t' isRoot h => (ht.importedAt horder hnum h).2⟩

end Runs

theorem forestOrder_lt : ForestOrder fun a b : ℕ => decide (a < b) = true where
  irrefl a := by simp
  trans a b c hab hbc := by simp only [decide_eq_true_eq] at *; omega
  chain a b c hac hbc := by simp only [decide_eq_true_eq] at *; omega

/-- Block `2` imported below block `1`, under the order of the numbers. -/
def twoBlocks : ForkTree ℕ ℕ Unit := ⟨[.node ⟨1, 1, ()⟩ [.node ⟨2, 2, ()⟩ []]], none⟩

theorem forkTree_wellFormed_twoBlocks :
    twoBlocks.WellFormed (fun a b => decide (a < b)) id ∧
      ∀ (hash : ℕ) (data : Unit) (t' : ForkTree ℕ ℕ Unit) (isRoot : Bool),
        twoBlocks.importNode (fun a b => decide (a < b)) hash (id hash) data = .ok (t', isRoot) →
          ImportedAt (fun a b => decide (a < b)) twoBlocks.roots t'.roots ⟨hash, id hash, data⟩
            isRoot :=
  forkTree_wellFormed forestOrder_lt (fun a b h => by simpa using h)
    (.step (c := .importNode 2 2 ()) (.step (c := .importNode 1 1 ()) .init ⟨rfl, by decide⟩ rfl)
      ⟨rfl, by decide⟩ rfl)

/-- Blocks `1` and `2` both come before block `3`, and are unrelated: a strict order in which the
blocks before `3` form no chain. -/
def diamond (a b : ℕ) : Bool := (a == 1 || a == 2) && b == 3

def diamondNumber (hash : ℕ) : ℕ := if hash = 3 then 2 else 1

/-- Under that order, importing `1`, `2` and `3` puts `3` below `1` only, while `2` is above it
too. -/
theorem diamond_breaks_wellFormed :
    (∀ a, diamond a a = false) ∧
      (∀ a b c, diamond a b = true → diamond b c = true → diamond a c = true) ∧
      (∀ a b, diamond a b = true → diamondNumber a < diamondNumber b) ∧
      ∃ t : ForkTree ℕ ℕ Unit, Reachable diamond diamondNumber t ∧
        ¬t.WellFormed diamond diamondNumber := by
  refine ⟨fun a => ?_, fun a b c hab hbc => ?_, fun a b hab => ?_,
    ⟨[.node ⟨1, 1, ()⟩ [.node ⟨3, 2, ()⟩ []], .node ⟨2, 1, ()⟩ []], none⟩, ?_, fun hwf => ?_⟩
  · simp [diamond]
    omega
  · simp [diamond] at hab hbc
    omega
  · simp [diamond] at hab
    rcases hab with ⟨rfl | rfl, rfl⟩ <;> decide
  · exact .step (c := .importNode 3 2 ()) (.step (c := .importNode 2 1 ())
      (.step (c := .importNode 1 1 ()) .init ⟨rfl, by decide⟩ rfl) ⟨rfl, by decide⟩ rfl)
      ⟨rfl, by decide⟩ rfl
  · -- block `2` is above block `3` but not on its path
    have h := hwf.tree.ancestors (⟨3, 2, ()⟩, [⟨1, 1, ()⟩]) (by simp [entries])
      (⟨2, 1, ()⟩, []) (by simp [entries])
    simp [diamond] at h

end Tetcore.ForkTree
