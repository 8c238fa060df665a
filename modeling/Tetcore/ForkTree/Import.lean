import Tetcore.ForkTree.Model

/-!
# Where `import` puts a block

`Node::import` searches the tree depth first. A node none of whose subtree is above the block
hands it back unchanged; below a node above it, the search follows the one child above it, and
adds the block to the deepest node above it. On a well-formed tree, under a relation whose
elements above any one form a chain, that node is the deepest of the tree above the block, and
the nodes above the block are exactly that node and its ancestors.
-/

namespace Tetcore.ForkTree

open Rose hiding label children node WellFormed

variable {H N V : Type}

/-- The invariant of the tree: no two nodes share a hash, the nodes above each node are the nodes
of the tree it descends from, and each node carries the number of its hash. -/
structure WellFormed (isDescendentOf : H → H → Bool) (num : H → N) (t : ForkTree H N V) :
    Prop where
  tree : Rose.WellFormed NodeInfo.hash (fun a b => isDescendentOf a.hash b.hash = true) t.roots
  numbered : ∀ x ∈ labels t.roots, x.number = num x.hash

/-- `es'` is `es` with `x` added below the node `a` of `es`, the deepest node of `es` above `x`. -/
structure AddedBelow (isDescendentOf : H → H → Bool) (x : NodeInfo H N V)
    (es es' : List (NodeInfo H N V × List (NodeInfo H N V)))
    (a : NodeInfo H N V × List (NodeInfo H N V)) : Prop where
  mem : a ∈ es
  above : isDescendentOf a.1.hash x.hash = true
  perm : es'.Perm (es ++ [(x, a.2 ++ [a.1])])
  deepest : ∀ b ∈ es, isDescendentOf b.1.hash x.hash = true → b.1 ∈ a.2 ++ [a.1]

/-- Where a successful `import` puts the block `x`: at a new root, when no node of the tree is
above it, or below the deepest node of the tree above it. `isRoot` is what `import` returns. -/
def ImportedAt (isDescendentOf : H → H → Bool) (F F' : List (Node H N V)) (x : NodeInfo H N V)
    (isRoot : Bool) : Prop :=
  isRoot = true ∧ (∀ e ∈ entries F, isDescendentOf e.1.hash x.hash = false) ∧
      (entries F').Perm (entries F ++ [(x, [])]) ∨
    isRoot = false ∧ ∃ a, AddedBelow isDescendentOf x (entries F) (entries F') a

section Search

variable [DecidableEq H] [LinearOrder N] (isDescendentOf : H → H → Bool) (hash : H) (number : N)
  (data : V)

mutual
theorem importNode_of_forall : ∀ (n : Node H N V) (P : List (NodeInfo H N V)),
    (∀ b ∈ entriesFrom P n, b.1.hash ≠ hash ∧ isDescendentOf b.1.hash hash = false) →
      Node.importNode isDescendentOf hash number data n = .ok (n, some (hash, number, data))
  | .node info children, P, h => by
    have hinfo := h (info, P) (by simp)
    rw [Node.importNode, if_neg hinfo.1]
    split_ifs with hle
    · rfl
    · rw [importChildren_of_forall children (P ++ [info]) fun b hb => h b (by simp [hb])]
      simp [hinfo.2]

theorem importChildren_of_forall : ∀ (nodes : List (Node H N V)) (Q : List (NodeInfo H N V)),
    (∀ b ∈ forestEntriesFrom Q nodes, b.1.hash ≠ hash ∧ isDescendentOf b.1.hash hash = false) →
      importChildren isDescendentOf hash number data nodes =
        .ok (nodes, some (hash, number, data))
  | [], _, _ => rfl
  | n :: nodes, Q, h => by
    rw [importChildren, importNode_of_forall n Q fun b hb => h b (by simp [hb])]
    dsimp only
    rw [importChildren_of_forall nodes Q fun b hb => h b (by simp [hb])]
end

mutual
theorem importNode_handsBack : ∀ (n : Node H N V) {n' : Node H N V} {y : H × N × V},
    Node.importNode isDescendentOf hash number data n = .ok (n', some y) →
      y = (hash, number, data)
  | .node info children, n', y, h => by
    simp only [Node.importNode] at h
    split_ifs at h with hhash hle
    · cases h
      rfl
    · split at h
      · cases h
      · cases h
      · rename_i y' hy'
        split_ifs at h
        · cases h
        · cases h
          exact importChildren_handsBack children hy'

theorem importChildren_handsBack : ∀ (nodes : List (Node H N V)) {nodes' : List (Node H N V)}
    {y : H × N × V}, importChildren isDescendentOf hash number data nodes = .ok (nodes', some y) →
      y = (hash, number, data)
  | [], _, _, h => by
    cases h
    rfl
  | n :: nodes, nodes', y, h => by
    simp only [importChildren] at h
    split at h
    · cases h
    · cases h
    · rename_i hash' number' data' hy'
      have hback := importNode_handsBack n hy'
      simp only [Prod.mk.injEq] at hback
      obtain ⟨h1, h2, h3⟩ := hback
      rw [h1, h2, h3] at h
      split at h
      · cases h
      · cases h
        exact importChildren_handsBack nodes (by assumption)
end

theorem importRoots_eq_importChildren : ∀ roots : List (Node H N V),
    (∀ r ∈ roots, r.label.hash ≠ hash) →
      importRoots isDescendentOf hash number data roots =
        importChildren isDescendentOf hash number data roots
  | [], _ => rfl
  | r :: roots, h => by
    rw [importRoots, if_neg (h r (by simp)), importChildren]
    split
    · rfl
    · rfl
    · rename_i hash' number' data' hy
      have hback := importNode_handsBack isDescendentOf hash number data r hy
      simp only [Prod.mk.injEq] at hback
      obtain ⟨h1, h2, h3⟩ := hback
      rw [h1, h2, h3]
      rw [importRoots_eq_importChildren roots fun r' hr' => h r' (by simp [hr'])]

end Search

section AddedBelow

variable {isDescendentOf : H → H → Bool} {x : NodeInfo H N V}
  {a : NodeInfo H N V × List (NodeInfo H N V)}

theorem AddedBelow.node {info : NodeInfo H N V} {P : List (NodeInfo H N V)}
    {cs cs' : List (Node H N V)}
    (hadd : AddedBelow isDescendentOf x (forestEntriesFrom (P ++ [info]) cs)
      (forestEntriesFrom (P ++ [info]) cs') a) :
    AddedBelow isDescendentOf x (entriesFrom P (.node info cs)) (entriesFrom P (.node info cs'))
      a where
  mem := by
    rw [entriesFrom_node]
    exact List.mem_cons_of_mem _ hadd.mem
  above := hadd.above
  perm := by
    rw [entriesFrom_node, entriesFrom_node, List.cons_append]
    exact hadd.perm.cons _
  deepest b hb hrel := by
    rw [entriesFrom_node, List.mem_cons] at hb
    rcases hb with rfl | hb
    · -- `a` lies below `info`, so `info` is on its path
      obtain ⟨e, -, rfl⟩ := List.mem_map.mp ((forestEntriesFrom_eq_map _ cs) ▸ hadd.mem)
      simp [shift]
    · exact hadd.deepest b hb hrel

theorem AddedBelow.cons_left {Q : List (NodeInfo H N V)} {c c' : Node H N V}
    {cs : List (Node H N V)}
    (hadd : AddedBelow isDescendentOf x (entriesFrom Q c) (entriesFrom Q c') a)
    (hrest : ∀ b ∈ forestEntriesFrom Q cs, isDescendentOf b.1.hash x.hash = false) :
    AddedBelow isDescendentOf x (forestEntriesFrom Q (c :: cs)) (forestEntriesFrom Q (c' :: cs))
      a where
  mem := by
    rw [forestEntriesFrom_cons]
    exact List.mem_append_left _ hadd.mem
  above := hadd.above
  perm := by
    rw [forestEntriesFrom_cons, forestEntriesFrom_cons]
    refine (hadd.perm.append_right _).trans ?_
    rw [List.append_assoc, List.append_assoc]
    exact List.perm_append_comm.append_left _
  deepest b hb hrel := by
    rw [forestEntriesFrom_cons, List.mem_append] at hb
    rcases hb with hb | hb
    · exact hadd.deepest b hb hrel
    · rw [hrest b hb] at hrel
      cases hrel

theorem AddedBelow.cons_right {Q : List (NodeInfo H N V)} {c : Node H N V}
    {cs cs' : List (Node H N V)}
    (hadd : AddedBelow isDescendentOf x (forestEntriesFrom Q cs) (forestEntriesFrom Q cs') a)
    (hfirst : ∀ b ∈ entriesFrom Q c, isDescendentOf b.1.hash x.hash = false) :
    AddedBelow isDescendentOf x (forestEntriesFrom Q (c :: cs)) (forestEntriesFrom Q (c :: cs'))
      a where
  mem := by
    rw [forestEntriesFrom_cons]
    exact List.mem_append_right _ hadd.mem
  above := hadd.above
  perm := by
    rw [forestEntriesFrom_cons, forestEntriesFrom_cons, List.append_assoc]
    exact hadd.perm.append_left _
  deepest b hb hrel := by
    rw [forestEntriesFrom_cons, List.mem_append] at hb
    rcases hb with hb | hb
    · rw [hfirst b hb] at hrel
      cases hrel
    · exact hadd.deepest b hb hrel

end AddedBelow

section WellFormed

variable {isDescendentOf : H → H → Bool} {num : H → N} {t : ForkTree H N V}
  (horder : ForestOrder fun a b : H => isDescendentOf a b = true)
  (ht : t.WellFormed isDescendentOf num)
include horder ht

theorem WellFormed.above_of_mem_subtree {P : List (NodeInfo H N V)} {n : Node H N V}
    (hsub : (entriesFrom P n).Sublist (entries t.roots)) {b : NodeInfo H N V × List (NodeInfo H N V)}
    (hb : b ∈ entriesFrom P n) {h : H} (hbh : isDescendentOf b.1.hash h = true) :
    isDescendentOf n.label.hash h = true := by
  rcases ht.tree.rel_of_mem_entriesFrom hsub hb with heq | hrel
  · rwa [← heq]
  · exact horder.trans _ _ _ hrel hbh

omit horder in
theorem WellFormed.hash_ne_of_sibling {Q : List (NodeInfo H N V)} {c c'' : Node H N V}
    {cs : List (Node H N V)} (hsub : (forestEntriesFrom Q (c :: cs)).Sublist (entries t.roots))
    (hc'' : c'' ∈ cs) : c.label.hash ≠ c''.label.hash := by
  have hnodup := ht.tree.nodup.sublist (hsub.map (NodeInfo.hash ∘ Prod.fst))
  obtain ⟨info, children⟩ := c
  rw [forestEntriesFrom_cons, entriesFrom_node, List.cons_append, List.map_cons,
    List.nodup_cons] at hnodup
  intro heq
  apply hnodup.1
  have hmem : (c''.label, Q) ∈ forestEntriesFrom Q cs :=
    mem_forestEntriesFrom.mpr ⟨c'', hc'', root_mem_entriesFrom Q c''⟩
  exact List.mem_map.mpr ⟨_, List.mem_append_right _ hmem, heq.symm⟩

theorem WellFormed.not_above_siblings {Q : List (NodeInfo H N V)} {c c'' : Node H N V}
    {cs : List (Node H N V)} (hsub : (forestEntriesFrom Q (c :: cs)).Sublist (entries t.roots))
    (hc'' : c'' ∈ cs) {h : H} (hc : isDescendentOf c.label.hash h = true)
    (hc''h : c''.label.hash = h ∨ isDescendentOf c''.label.hash h = true) : False := by
  have hmem : (c.label, Q) ∈ entries t.roots :=
    hsub.subset (by rw [forestEntriesFrom_cons]; exact List.mem_append_left _ (root_mem_entriesFrom Q c))
  have hmem'' : (c''.label, Q) ∈ entries t.roots := hsub.subset
    (mem_forestEntriesFrom.mpr ⟨c'', List.mem_cons_of_mem _ hc'', root_mem_entriesFrom Q c''⟩)
  -- siblings share their ancestors, so neither is above the other
  have hirr : ∀ a : NodeInfo H N V, ¬isDescendentOf a.hash a.hash = true := fun a =>
    horder.irrefl a.hash
  have hnot : ¬isDescendentOf c''.label.hash c.label.hash = true :=
    ht.tree.not_rel_of_path_eq hirr hmem hmem'' rfl
  have hnot' : ¬isDescendentOf c.label.hash c''.label.hash = true :=
    ht.tree.not_rel_of_path_eq hirr hmem'' hmem rfl
  rcases hc''h with heq | hrel
  · exact hnot' (heq ▸ hc)
  · rcases horder.chain _ _ _ hc hrel with heq | hcc | hcc
    · exact ht.hash_ne_of_sibling hsub hc'' heq
    · exact hnot' hcc
    · exact hnot hcc

theorem WellFormed.forall_of_mem_sibling {Q : List (NodeInfo H N V)} {c : Node H N V}
    {cs : List (Node H N V)} (hsub : (forestEntriesFrom Q (c :: cs)).Sublist (entries t.roots))
    {d : NodeInfo H N V × List (NodeInfo H N V)} (hd : d ∈ forestEntriesFrom Q cs) {h : H}
    (hdh : d.1.hash = h) :
    ∀ b ∈ entriesFrom Q c, b.1.hash ≠ h ∧ isDescendentOf b.1.hash h = false := by
  intro b hb
  have hsubc : (entriesFrom Q c).Sublist (entries t.roots) := by
    rw [forestEntriesFrom_cons] at hsub
    exact (List.sublist_append_left _ _).trans hsub
  obtain ⟨c'', hc'', hdc''⟩ := mem_forestEntriesFrom.mp hd
  refine ⟨?_, Bool.eq_false_iff.mpr fun hrel => ?_⟩
  · -- `b` and `d` are different nodes of the tree
    have hnodup := ht.tree.nodup.sublist (hsub.map (NodeInfo.hash ∘ Prod.fst))
    rw [forestEntriesFrom_cons, List.map_append] at hnodup
    rw [← hdh]
    exact (List.nodup_append.mp hnodup).2.2 _ (List.mem_map_of_mem hb) _ (List.mem_map_of_mem hd)
  · have hsubc'' : (entriesFrom Q c'').Sublist (entries t.roots) :=
      (entriesFrom_sublist_of_mem Q (List.mem_cons_of_mem _ hc'')).trans hsub
    refine ht.not_above_siblings horder hsub hc'' (ht.above_of_mem_subtree horder hsubc hb hrel) ?_
    rcases ht.tree.rel_of_mem_entriesFrom hsubc'' hdc'' with heq | hrel''
    · exact .inl (heq ▸ hdh)
    · exact .inr (hdh ▸ hrel'')

end WellFormed

section Import

variable [DecidableEq H] [LinearOrder N] {isDescendentOf : H → H → Bool} {num : H → N}
  {t : ForkTree H N V} (horder : ForestOrder fun a b : H => isDescendentOf a b = true)
  (hnum : ∀ a b, isDescendentOf a b = true → num a < num b)
  (ht : t.WellFormed isDescendentOf num) {hash : H} (data : V)
include horder hnum ht

omit [DecidableEq H] horder in
theorem WellFormed.not_le_of_above {P : List (NodeInfo H N V)} {n : Node H N V}
    (hsub : (entriesFrom P n).Sublist (entries t.roots))
    (habove : isDescendentOf n.label.hash hash = true) : ¬num hash ≤ n.label.number := by
  rw [ht.numbered n.label (List.mem_map_of_mem (hsub.subset (root_mem_entriesFrom P n)))]
  exact not_le.mpr (hnum _ _ habove)

-- the two halves of the recursion use different hypotheses of the section
set_option linter.unusedSectionVars false in
mutual
theorem importNode_of_mem : ∀ (n : Node H N V) (P : List (NodeInfo H N V)),
    (entriesFrom P n).Sublist (entries t.roots) →
      ∀ d ∈ entriesFrom P n, d.1.hash = hash →
        Node.importNode isDescendentOf hash (num hash) data n = .error .duplicate
  | .node info children, P, hsub, d, hd, hdh => by
    by_cases hinfo : info.hash = hash
    · rw [Node.importNode, if_pos hinfo]
    · -- `d` lies below `info`, which is then above the block
      have habove : isDescendentOf info.hash hash = true := by
        rcases ht.tree.rel_of_mem_entriesFrom hsub hd with heq | hrel
        · exact absurd (by rw [← hdh, heq]; rfl) hinfo
        · exact hdh ▸ hrel
      have hd' : d ∈ forestEntriesFrom (P ++ [info]) children := by
        rw [entriesFrom_node, List.mem_cons] at hd
        exact hd.resolve_left fun heq => hinfo (by rw [← hdh, heq])
      have hsub' : (forestEntriesFrom (P ++ [info]) children).Sublist (entries t.roots) := by
        rw [entriesFrom_node] at hsub
        exact (List.sublist_cons_self _ _).trans hsub
      have hlt : ¬num hash ≤ info.number := ht.not_le_of_above hnum hsub habove
      rw [Node.importNode, if_neg hinfo, if_neg hlt,
        importChildren_of_mem children (P ++ [info]) hsub' d hd' hdh]

theorem importChildren_of_mem : ∀ (nodes : List (Node H N V)) (Q : List (NodeInfo H N V)),
    (forestEntriesFrom Q nodes).Sublist (entries t.roots) →
      ∀ d ∈ forestEntriesFrom Q nodes, d.1.hash = hash →
        importChildren isDescendentOf hash (num hash) data nodes = .error .duplicate
  | [], _, _, d, hd, _ => by simp at hd
  | c :: cs, Q, hsub, d, hd, hdh => by
    have hparts := hsub
    rw [forestEntriesFrom_cons] at hd hparts
    rcases List.mem_append.mp hd with hd | hd
    · rw [importChildren, importNode_of_mem c Q ((List.sublist_append_left _ _).trans hparts) d hd
        hdh]
    · rw [importChildren, importNode_of_forall isDescendentOf hash (num hash) data c Q
        (ht.forall_of_mem_sibling horder hsub hd hdh)]
      dsimp only
      rw [importChildren_of_mem cs Q ((List.sublist_append_right _ _).trans hparts) d hd hdh]
end

theorem importRoots_of_mem : ∀ roots : List (Node H N V),
    (forestEntriesFrom [] roots).Sublist (entries t.roots) →
      ∀ d ∈ forestEntriesFrom [] roots, d.1.hash = hash →
        importRoots isDescendentOf hash (num hash) data roots = .error .duplicate
  | [], _, d, hd, _ => by simp at hd
  | r :: roots, hsub, d, hd, hdh => by
    by_cases hr : r.label.hash = hash
    · rw [importRoots, if_pos hr]
    · have hparts := hsub
      rw [forestEntriesFrom_cons] at hd hparts
      rcases List.mem_append.mp hd with hd | hd
      · rw [importRoots, if_neg hr, importNode_of_mem horder hnum ht data r []
          ((List.sublist_append_left _ _).trans hparts) d hd hdh]
      · rw [importRoots, if_neg hr, importNode_of_forall isDescendentOf hash (num hash) data r []
          (ht.forall_of_mem_sibling horder hsub hd hdh)]
        dsimp only
        rw [importRoots_of_mem roots ((List.sublist_append_right _ _).trans hparts) d hd hdh]

section Fresh

variable (hfresh : ∀ e ∈ entries t.roots, e.1.hash ≠ hash)
include hfresh

omit [DecidableEq H] [LinearOrder N] hnum in
theorem WellFormed.forall_of_not_above {Q : List (NodeInfo H N V)} {c : Node H N V}
    (hsub : (entriesFrom Q c).Sublist (entries t.roots))
    (hc : isDescendentOf c.label.hash hash ≠ true) :
    ∀ b ∈ entriesFrom Q c, b.1.hash ≠ hash ∧ isDescendentOf b.1.hash hash = false := fun b hb =>
  ⟨hfresh b (hsub.subset hb),
    Bool.eq_false_iff.mpr fun hrel => hc (ht.above_of_mem_subtree horder hsub hb hrel)⟩

set_option linter.unusedSectionVars false in
mutual
theorem importNode_of_above : ∀ (n : Node H N V) (P : List (NodeInfo H N V)),
    (entriesFrom P n).Sublist (entries t.roots) → isDescendentOf n.label.hash hash = true →
      ∃ n' a, Node.importNode isDescendentOf hash (num hash) data n = .ok (n', none) ∧
        AddedBelow isDescendentOf ⟨hash, num hash, data⟩ (entriesFrom P n) (entriesFrom P n') a
  | .node info children, P, hsub, habove => by
    have hinfo : info.hash ≠ hash := hfresh _ (hsub.subset (root_mem_entriesFrom P _))
    have hlt : ¬num hash ≤ info.number := ht.not_le_of_above hnum hsub habove
    have hsub' : (forestEntriesFrom (P ++ [info]) children).Sublist (entries t.roots) := by
      rw [entriesFrom_node] at hsub
      exact (List.sublist_cons_self _ _).trans hsub
    rw [Node.importNode, if_neg hinfo, if_neg hlt]
    by_cases hchild : ∃ c ∈ children, isDescendentOf c.label.hash hash = true
    · -- the search goes down the one child above the block
      obtain ⟨children', a, himp, hadd⟩ :=
        importChildren_of_above children (P ++ [info]) hsub' hchild
      rw [himp]
      exact ⟨_, a, rfl, hadd.node⟩
    · -- no child is above the block, which goes right below this node
      have hall : ∀ b ∈ forestEntriesFrom (P ++ [info]) children,
          b.1.hash ≠ hash ∧ isDescendentOf b.1.hash hash = false := fun b hb => by
        obtain ⟨c, hc, hbc⟩ := mem_forestEntriesFrom.mp hb
        exact ht.forall_of_not_above horder hfresh
          ((entriesFrom_sublist_of_mem _ hc).trans hsub') (fun h => hchild ⟨c, hc, h⟩) b hbc
      have habove' : isDescendentOf info.hash hash = true := habove
      rw [importChildren_of_forall isDescendentOf hash (num hash) data children _ hall]
      dsimp only
      rw [if_pos habove']
      refine ⟨_, (info, P), rfl, ⟨by simp, habove, ?_, fun b hb hrel => ?_⟩⟩
      · simp [forestEntriesFrom_append]
      · rw [entriesFrom_node, List.mem_cons] at hb
        rcases hb with rfl | hb
        · simp
        · rw [(hall b hb).2] at hrel
          cases hrel

theorem importChildren_of_above : ∀ (nodes : List (Node H N V)) (Q : List (NodeInfo H N V)),
    (forestEntriesFrom Q nodes).Sublist (entries t.roots) →
      (∃ c ∈ nodes, isDescendentOf c.label.hash hash = true) →
        ∃ nodes' a, importChildren isDescendentOf hash (num hash) data nodes = .ok (nodes', none) ∧
          AddedBelow isDescendentOf ⟨hash, num hash, data⟩ (forestEntriesFrom Q nodes)
            (forestEntriesFrom Q nodes') a
  | [], _, _, h => by simp at h
  | c :: cs, Q, hsub, h => by
    have hparts := hsub
    rw [forestEntriesFrom_cons] at hparts
    have hsubc : (entriesFrom Q c).Sublist (entries t.roots) :=
      (List.sublist_append_left _ _).trans hparts
    by_cases hc : isDescendentOf c.label.hash hash = true
    · obtain ⟨c', a, himp, hadd⟩ := importNode_of_above c Q hsubc hc
      rw [importChildren, himp]
      refine ⟨c' :: cs, a, rfl, hadd.cons_left fun b hb => Bool.eq_false_iff.mpr fun hrel => ?_⟩
      -- a sibling of `c` is above no block that `c` is above
      obtain ⟨c'', hc'', hbc''⟩ := mem_forestEntriesFrom.mp hb
      have hsubc'' : (entriesFrom Q c'').Sublist (entries t.roots) :=
        (entriesFrom_sublist_of_mem Q (List.mem_cons_of_mem _ hc'')).trans hsub
      exact ht.not_above_siblings horder hsub hc'' hc
        (.inr (ht.above_of_mem_subtree horder hsubc'' hbc'' hrel))
    · have hall := ht.forall_of_not_above horder hfresh hsubc hc
      have hrest : ∃ c ∈ cs, isDescendentOf c.label.hash hash = true := by
        obtain ⟨c'', hc'', habove⟩ := h
        rcases List.mem_cons.mp hc'' with rfl | hc''
        · exact absurd habove hc
        · exact ⟨c'', hc'', habove⟩
      obtain ⟨cs', a, himp, hadd⟩ :=
        importChildren_of_above cs Q ((List.sublist_append_right _ _).trans hparts) hrest
      rw [importChildren, importNode_of_forall isDescendentOf hash (num hash) data c Q hall]
      dsimp only
      rw [himp]
      exact ⟨c :: cs', a, rfl, hadd.cons_right fun b hb => (hall b hb).2⟩
end

theorem importNode_of_fresh (hrevert : t.reverts (num hash) = false) :
    ∃ t' isRoot, t.importNode isDescendentOf hash (num hash) data = .ok (t', isRoot) ∧
      ImportedAt isDescendentOf t.roots t'.roots ⟨hash, num hash, data⟩ isRoot := by
  have hroots : ∀ r ∈ t.roots, r.label.hash ≠ hash := fun r hr =>
    hfresh _ ((entriesFrom_sublist_of_mem [] hr).subset (root_mem_entriesFrom [] r))
  rw [importNode, if_neg (by rw [hrevert]; decide),
    importRoots_eq_importChildren _ _ _ _ _ hroots]
  by_cases hroot : ∃ r ∈ t.roots, isDescendentOf r.label.hash hash = true
  · obtain ⟨roots, a, himp, hadd⟩ :=
      importChildren_of_above horder hnum ht data hfresh t.roots [] (List.Sublist.refl _) hroot
    rw [himp]
    -- rebalancing moves no node away from its ancestors
    exact ⟨_, false, rfl, .inr ⟨rfl, a, { hadd with perm := (entries_rebalance _).trans hadd.perm }⟩⟩
  · have hall : ∀ b ∈ forestEntriesFrom [] t.roots,
        b.1.hash ≠ hash ∧ isDescendentOf b.1.hash hash = false := fun b hb => by
      obtain ⟨r, hr, hbr⟩ := mem_forestEntriesFrom.mp hb
      exact ht.forall_of_not_above horder hfresh (entriesFrom_sublist_of_mem [] hr)
        (fun h => hroot ⟨r, hr, h⟩) b hbr
    rw [importChildren_of_forall isDescendentOf hash (num hash) data t.roots [] hall]
    refine ⟨_, true, rfl, .inl ⟨rfl, fun e he => (hall e he).2, ?_⟩⟩
    refine (entries_rebalance _).trans ?_
    rw [entries_append, entries_singleton, entriesFrom_node, forestEntriesFrom_nil]

end Fresh

theorem importNode_duplicate (hmem : ∃ e ∈ entries t.roots, e.1.hash = hash) :
    t.importNode isDescendentOf hash (num hash) data =
      .error (if t.reverts (num hash) then .revert else .duplicate) := by
  obtain ⟨d, hd, hdh⟩ := hmem
  rw [importNode]
  split_ifs
  · rfl
  · rw [importRoots_of_mem horder hnum ht data t.roots (List.Sublist.refl _) d hd hdh]

end Import

/-! ### The nodes after an import, on any tree -/

section Labels

variable [DecidableEq H] [LinearOrder N] (isDescendentOf : H → H → Bool) (hash : H) (number : N)
  (data : V)

omit [DecidableEq H] [LinearOrder N] in
theorem labels_cons (t : Node H N V) (F : List (Node H N V)) :
    labels (t :: F) = labels [t] ++ labels F := by
  rw [← labels_append]
  rfl

omit [DecidableEq H] [LinearOrder N] in
@[simp]
theorem labels_nil : labels ([] : List (Node H N V)) = [] := rfl

omit [DecidableEq H] [LinearOrder N] in
theorem labels_singleton_leaf (x : NodeInfo H N V) : labels [(Rose.node x [] : Node H N V)] = [x] := by
  rw [labels_node_cons, labels_nil, List.append_nil]

/-- What one step of the search leaves: a block handed back leaves the nodes as they were, a block
taken is the only new node. -/
def ImportResult (F F' : List (Node H N V)) : Option (H × N × V) → Prop
  | some y => F' = F ∧ y = (hash, number, data)
  | none => (labels F').Perm (labels F ++ [⟨hash, number, data⟩])

mutual
theorem importNode_result : ∀ (n : Node H N V) {n' : Node H N V} {y : Option (H × N × V)},
    Node.importNode isDescendentOf hash number data n = .ok (n', y) →
      ImportResult hash number data [n] [n'] y
  | .node info children, n', y, h => by
    simp only [Node.importNode] at h
    split_ifs at h with hhash hle
    · cases h
      exact ⟨rfl, rfl⟩
    · split at h
      · cases h
      · -- a child took the block
        rename_i children' himp
        cases h
        have hchildren := importChildren_result children himp
        show (labels _).Perm _
        rw [labels_node_cons, labels_node_cons, labels_nil, List.append_nil, List.append_nil]
        exact hchildren.cons info
      · rename_i children' hash' number' data' himp
        obtain ⟨hc, hy⟩ := importChildren_result children himp
        subst hc
        simp only [Prod.mk.injEq] at hy
        obtain ⟨rfl, rfl, rfl⟩ := And.intro hy.1.symm (And.intro hy.2.1.symm hy.2.2.symm)
        split_ifs at h
        · -- the node takes the block as its last child
          cases h
          show (labels _).Perm _
          rw [labels_node_cons, labels_node_cons, labels_append]
          simp [labels_node_cons]
        · cases h
          exact ⟨rfl, rfl⟩

theorem importChildren_result : ∀ (nodes : List (Node H N V)) {nodes' : List (Node H N V)}
    {y : Option (H × N × V)}, importChildren isDescendentOf hash number data nodes = .ok (nodes', y) →
      ImportResult hash number data nodes nodes' y
  | [], _, _, h => by
    cases h
    exact ⟨rfl, rfl⟩
  | n :: nodes, nodes', y, h => by
    simp only [importChildren] at h
    split at h
    · cases h
    · -- the first node took the block
      rename_i n' himp
      cases h
      have hn := importNode_result n himp
      show (labels (n' :: nodes)).Perm (labels (n :: nodes) ++ _)
      rw [labels_cons, labels_cons n]
      calc labels [n'] ++ labels nodes
          _ = labels [n'] ++ labels nodes := rfl
          List.Perm _ ((labels [n] ++ [⟨hash, number, data⟩]) ++ labels nodes) := hn.append_right _
          _ = labels [n] ++ ([⟨hash, number, data⟩] ++ labels nodes) := List.append_assoc _ _ _
          List.Perm _ (labels [n] ++ (labels nodes ++ [⟨hash, number, data⟩])) :=
            List.perm_append_comm.append_left _
          _ = labels [n] ++ labels nodes ++ [⟨hash, number, data⟩] := (List.append_assoc _ _ _).symm
    · rename_i n' hash' number' data' himp
      obtain ⟨hn, hy⟩ := importNode_result n himp
      obtain rfl := (List.singleton_inj.mp hn).symm
      simp only [Prod.mk.injEq] at hy
      obtain ⟨rfl, rfl, rfl⟩ := And.intro hy.1.symm (And.intro hy.2.1.symm hy.2.2.symm)
      split at h
      · cases h
      · rename_i nodes'' hrest
        cases h
        have hnodes := importChildren_result nodes hrest
        cases y with
        | some y =>
          obtain ⟨rfl, rfl⟩ := hnodes
          exact ⟨rfl, rfl⟩
        | none =>
          show (labels (n :: _)).Perm (labels (n :: nodes) ++ _)
          rw [labels_cons n, labels_cons n nodes, List.append_assoc]
          exact hnodes.append_left _
end

theorem importRoots_result : ∀ (roots : List (Node H N V)) {roots' : List (Node H N V)}
    {y : Option (H × N × V)}, importRoots isDescendentOf hash number data roots = .ok (roots', y) →
      ImportResult hash number data roots roots' y
  | [], _, _, h => by
    cases h
    exact ⟨rfl, rfl⟩
  | r :: roots, roots', y, h => by
    simp only [importRoots] at h
    split_ifs at h
    split at h
    · cases h
    · -- the first root took the block
      rename_i r' himp
      cases h
      have hr := importNode_result isDescendentOf hash number data r himp
      show (labels (r' :: roots)).Perm (labels (r :: roots) ++ _)
      rw [labels_cons r', labels_cons r roots]
      calc labels [r'] ++ labels roots
          _ = labels [r'] ++ labels roots := rfl
          List.Perm _ ((labels [r] ++ [⟨hash, number, data⟩]) ++ labels roots) := hr.append_right _
          _ = labels [r] ++ ([⟨hash, number, data⟩] ++ labels roots) := List.append_assoc _ _ _
          List.Perm _ (labels [r] ++ (labels roots ++ [⟨hash, number, data⟩])) :=
            List.perm_append_comm.append_left _
          _ = labels [r] ++ labels roots ++ [⟨hash, number, data⟩] := (List.append_assoc _ _ _).symm
    · rename_i r' hash' number' data' himp
      obtain ⟨hr, hy⟩ := importNode_result isDescendentOf hash number data r himp
      obtain rfl := (List.singleton_inj.mp hr).symm
      simp only [Prod.mk.injEq] at hy
      obtain ⟨rfl, rfl, rfl⟩ := And.intro hy.1.symm (And.intro hy.2.1.symm hy.2.2.symm)
      split at h
      · cases h
      · rename_i roots'' hrest
        cases h
        have hroots := importRoots_result roots hrest
        cases y with
        | some y =>
          obtain ⟨rfl, rfl⟩ := hroots
          exact ⟨rfl, rfl⟩
        | none =>
          show (labels (r :: _)).Perm (labels (r :: roots) ++ _)
          rw [labels_cons r, labels_cons r roots, List.append_assoc]
          exact hroots.append_left _

/-- **An import adds the block and nothing else.** On any tree, an import that succeeds leaves
the nodes there were and one node more, the block, and keeps the number of the last finalized
block. -/
theorem labels_importNode {t t' : ForkTree H N V} {isRoot : Bool}
    (h : t.importNode isDescendentOf hash number data = .ok (t', isRoot)) :
    (labels t'.roots).Perm (labels t.roots ++ [⟨hash, number, data⟩]) ∧
      t'.bestFinalizedNumber = t.bestFinalizedNumber := by
  simp only [importNode] at h
  split_ifs at h
  split at h
  · cases h
  · -- a node took the block
    rename_i roots himp
    cases h
    exact ⟨((entries_rebalance _).map Prod.fst).trans
      (importRoots_result isDescendentOf hash number data t.roots himp), rfl⟩
  · -- the block becomes a root
    rename_i roots hash' number' data' himp
    cases h
    obtain ⟨rfl, hy⟩ := importRoots_result isDescendentOf hash number data t.roots himp
    simp only [Prod.mk.injEq] at hy
    obtain ⟨rfl, rfl, rfl⟩ := And.intro hy.1.symm (And.intro hy.2.1.symm hy.2.2.symm)
    refine ⟨((entries_rebalance _).map Prod.fst).trans ?_, rfl⟩
    show (labels (t.roots ++ [Rose.node _ []])).Perm _
    rw [labels_append, labels_singleton_leaf]

mutual
theorem importNode_error : ∀ (n : Node H N V) {e : Error},
    Node.importNode isDescendentOf hash number data n = .error e →
      e = .duplicate ∧ ∃ x ∈ labels [n], x.hash = hash
  | .node info children, e, h => by
    simp only [Node.importNode] at h
    split_ifs at h with hhash hle
    · cases h
      exact ⟨rfl, info, by rw [labels_node_cons]; exact List.mem_cons_self, hhash⟩
    · split at h
      · rename_i e' herr
        cases h
        obtain ⟨rfl, x, hx, hxh⟩ := importChildren_error children herr
        refine ⟨rfl, x, ?_, hxh⟩
        rw [labels_node_cons]
        exact List.mem_cons_of_mem _ (List.mem_append_left _ hx)
      · cases h
      · split_ifs at h

theorem importChildren_error : ∀ (nodes : List (Node H N V)) {e : Error},
    importChildren isDescendentOf hash number data nodes = .error e →
      e = .duplicate ∧ ∃ x ∈ labels nodes, x.hash = hash
  | [], _, h => by cases h
  | n :: nodes, e, h => by
    simp only [importChildren] at h
    rw [labels_cons]
    split at h
    · rename_i e' herr
      cases h
      obtain ⟨rfl, x, hx, hxh⟩ := importNode_error n herr
      exact ⟨rfl, x, List.mem_append_left _ hx, hxh⟩
    · cases h
    · rename_i n' hash' number' data' himp
      obtain ⟨-, hy⟩ := importNode_result isDescendentOf hash number data n himp
      simp only [Prod.mk.injEq] at hy
      obtain ⟨rfl, rfl, rfl⟩ := And.intro hy.1.symm (And.intro hy.2.1.symm hy.2.2.symm)
      split at h
      · rename_i e' herr
        cases h
        obtain ⟨rfl, x, hx, hxh⟩ := importChildren_error nodes herr
        exact ⟨rfl, x, List.mem_append_right _ hx, hxh⟩
      · cases h
end

theorem importRoots_error : ∀ (roots : List (Node H N V)) {e : Error},
    importRoots isDescendentOf hash number data roots = .error e →
      e = .duplicate ∧ ∃ x ∈ labels roots, x.hash = hash
  | [], _, h => by cases h
  | r :: roots, e, h => by
    simp only [importRoots] at h
    rw [labels_cons]
    split_ifs at h with hhash
    · -- the root itself has the block's hash
      cases h
      obtain ⟨a, cs⟩ := r
      exact ⟨rfl, a, by rw [labels_node_cons]; exact List.mem_cons_self, hhash⟩
    split at h
    · rename_i e' herr
      cases h
      obtain ⟨rfl, x, hx, hxh⟩ := importNode_error isDescendentOf hash number data r herr
      exact ⟨rfl, x, List.mem_append_left _ hx, hxh⟩
    · cases h
    · rename_i r' hash' number' data' himp
      obtain ⟨-, hy⟩ := importNode_result isDescendentOf hash number data r himp
      simp only [Prod.mk.injEq] at hy
      obtain ⟨rfl, rfl, rfl⟩ := And.intro hy.1.symm (And.intro hy.2.1.symm hy.2.2.symm)
      split at h
      · rename_i e' herr
        cases h
        obtain ⟨rfl, x, hx, hxh⟩ := importRoots_error roots herr
        exact ⟨rfl, x, List.mem_append_right _ hx, hxh⟩
      · cases h

theorem importNode_error_cases {t : ForkTree H N V} {e : Error}
    (h : t.importNode isDescendentOf hash number data = .error e) :
    e = .revert ∧ t.reverts number = true ∨ e = .duplicate ∧ ∃ x ∈ labels t.roots, x.hash = hash := by
  simp only [importNode] at h
  split_ifs at h with hrevert
  · cases h
    exact .inl ⟨rfl, hrevert⟩
  split at h
  · rename_i e' herr
    cases h
    exact .inr (importRoots_error isDescendentOf hash number data t.roots herr)
  · cases h
  · cases h

end Labels

end Tetcore.ForkTree
