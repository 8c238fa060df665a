import Tetcore.ForkTree.Query

/-!
# The deepest node above a block

`find_node_index_where` walks the tree depth first. It does not go below a node whose number is
above the one asked for, returns what the first child that finds a node found, and leaves the later
children alone once one child is above the block, as then none of them is. A node above the block
whose children found nothing is the answer if it passes the predicate. On a well-formed tree this is
the deepest node above the block that passes the predicate and whose number is not above the one
asked for (`findNodeIndexWhere_none_or_deepest`); `find_node_where` follows the indices the search
returns (`findNodeWhere_eq_bind`).
-/

namespace Tetcore.ForkTree

open Rose hiding label children node

variable {H N V : Type} [LinearOrder N] (isDescendentOf : H → H → Bool) (hash : H) (number : N)
  (predicate : V → Bool)

/-- A node the search is for: its number is not above the one asked for, it is above the block,
and it passes the predicate. -/
def Candidate (x : NodeInfo H N V) : Prop :=
  x.number ≤ number ∧ isDescendentOf x.hash hash = true ∧ predicate x.data = true

instance : DecidablePred (Candidate isDescendentOf hash number predicate) := fun _ =>
  inferInstanceAs (Decidable (_ ∧ _ ∧ _))

def NoCandidate (es : List (NodeInfo H N V × List (NodeInfo H N V))) : Prop :=
  ∀ e ∈ es, ¬Candidate isDescendentOf hash number predicate e.1

/-- `x`, at depth `d`, is a candidate, and no candidate among the nodes `es` is deeper. -/
def Deepest (es : List (NodeInfo H N V × List (NodeInfo H N V))) (d : ℕ) (x : NodeInfo H N V) :
    Prop :=
  Candidate isDescendentOf hash number predicate x ∧
    ∀ e ∈ es, Candidate isDescendentOf hash number predicate e.1 → e.2.length ≤ d

/-- The node at the index path `p` of the forest is a candidate of greatest depth. -/
def IsDeepest (F : List (Node H N V)) (p : List ℕ) (x : Node H N V) : Prop :=
  nodeAt F p = some x ∧ Candidate isDescendentOf hash number predicate x.label ∧
    ∀ p' y, nodeAt F p' = some y → Candidate isDescendentOf hash number predicate y.label →
      p'.length ≤ p.length

/-- What each outcome of `Node::find_node_index_where` says of the subtree `n` at path `P`. -/
def SearchResult (P : List (NodeInfo H N V)) (n : Node H N V) : FindOutcome (List ℕ) → Prop
  | .found idx => ∃ x, subtreeAt n idx.reverse = some x ∧
      Deepest isDescendentOf hash number predicate (entriesFrom P n) (P.length + idx.length) x.label
  | .failure b => NoCandidate isDescendentOf hash number predicate (entriesFrom P n) ∧
      (b = true ↔ n.label.number ≤ number ∧ isDescendentOf n.label.hash hash = true)
  | .abort => False

/-- A loop over the forest `cs` at path `Q`, counting from `i`, found `idx`: its last index is
`i + j` for the tree `cs[j]`, and the path leads to a deepest candidate of the forest. -/
def FoundAt (Q : List (NodeInfo H N V)) (i : ℕ) (cs : List (Node H N V)) (idx : List ℕ) : Prop :=
  ∃ j rest x, idx.reverse = (i + j) :: rest ∧ nodeAt cs (j :: rest) = some x ∧
    Deepest isDescendentOf hash number predicate (forestEntriesFrom Q cs) (Q.length + rest.length)
      x.label

/-- What each outcome of the loop over the children says of them. -/
def ChildrenResult (Q : List (NodeInfo H N V)) (i : ℕ) (cs : List (Node H N V)) :
    FindOutcome (List ℕ) → Prop
  | .found idx => FoundAt isDescendentOf hash number predicate Q i cs idx
  | .failure b => NoCandidate isDescendentOf hash number predicate (forestEntriesFrom Q cs) ∧
      (b = true ↔ ∃ c ∈ cs, c.label.number ≤ number ∧ isDescendentOf c.label.hash hash = true)
  | .abort => False

/-- What the loop over the roots, counting from `index`, says of them. -/
def RootsResult (index : ℕ) (roots : List (Node H N V)) : Option (List ℕ) → Prop
  | some idx => FoundAt isDescendentOf hash number predicate [] index roots idx
  | none => NoCandidate isDescendentOf hash number predicate (forestEntriesFrom [] roots)

section Results

variable {isDescendentOf hash number predicate}

@[simp]
theorem noCandidate_append {es es' : List (NodeInfo H N V × List (NodeInfo H N V))} :
    NoCandidate isDescendentOf hash number predicate (es ++ es') ↔
      NoCandidate isDescendentOf hash number predicate es ∧
        NoCandidate isDescendentOf hash number predicate es' := by
  simp only [NoCandidate, List.mem_append]
  constructor
  · intro h
    exact ⟨fun e he => h e (.inl he), fun e he => h e (.inr he)⟩
  · rintro ⟨h, h'⟩ e (he | he)
    · exact h e he
    · exact h' e he

theorem NoCandidate.not_nodeAt {F : List (Node H N V)}
    (h : NoCandidate isDescendentOf hash number predicate (forestEntriesFrom [] F)) {p : List ℕ}
    {y : Node H N V} (hy : nodeAt F p = some y) : ¬Candidate isDescendentOf hash number predicate y.label := by
  obtain ⟨Q, -, hsub⟩ := nodeAt_sublist hy
  exact h _ (hsub.subset (root_mem_entriesFrom Q y))

section Deepest

variable {es es' : List (NodeInfo H N V × List (NodeInfo H N V))} {d : ℕ} {x : NodeInfo H N V}

theorem Deepest.cons_root (h : Deepest isDescendentOf hash number predicate es d x)
    (a : NodeInfo H N V) {P : List (NodeInfo H N V)} (hP : P.length ≤ d) :
    Deepest isDescendentOf hash number predicate ((a, P) :: es) d x := by
  refine ⟨h.1, ?_⟩
  intro e he hce
  rcases List.mem_cons.mp he with rfl | he
  · exact hP
  · exact h.2 e he hce

theorem Deepest.append_left (h : NoCandidate isDescendentOf hash number predicate es)
    (h' : Deepest isDescendentOf hash number predicate es' d x) :
    Deepest isDescendentOf hash number predicate (es ++ es') d x := by
  refine ⟨h'.1, ?_⟩
  intro e he hce
  rcases List.mem_append.mp he with he | he
  · exact absurd hce (h e he)
  · exact h'.2 e he hce

theorem Deepest.append_right (h : Deepest isDescendentOf hash number predicate es d x)
    (h' : NoCandidate isDescendentOf hash number predicate es') :
    Deepest isDescendentOf hash number predicate (es ++ es') d x := by
  refine ⟨h.1, ?_⟩
  intro e he hce
  rcases List.mem_append.mp he with he | he
  · exact h.2 e he hce
  · exact absurd hce (h' e he)

end Deepest

variable {Q : List (NodeInfo H N V)} {c : Node H N V} {cs : List (Node H N V)} {i : ℕ}

theorem FoundAt.head {x : List ℕ}
    (hc : SearchResult isDescendentOf hash number predicate Q c (.found x))
    (hcs : NoCandidate isDescendentOf hash number predicate (forestEntriesFrom Q cs)) :
    FoundAt isDescendentOf hash number predicate Q i (c :: cs) (x ++ [i]) := by
  obtain ⟨y, hy, hdeep⟩ := hc
  refine ⟨0, x.reverse, y, by simp, by rw [nodeAt_cons_zero]; exact hy, ?_⟩
  rw [forestEntriesFrom_cons, List.length_reverse]
  exact hdeep.append_right hcs

theorem FoundAt.cons {idx : List ℕ} (hc : NoCandidate isDescendentOf hash number predicate (entriesFrom Q c))
    (h : FoundAt isDescendentOf hash number predicate Q (i + 1) cs idx) :
    FoundAt isDescendentOf hash number predicate Q i (c :: cs) idx := by
  obtain ⟨j, rest, x, hidx, hx, hdeep⟩ := h
  refine ⟨j + 1, rest, x, by rw [hidx]; congr 1; omega, by rw [nodeAt_cons_succ]; exact hx, ?_⟩
  rw [forestEntriesFrom_cons]
  exact hdeep.append_left hc

theorem ChildrenResult.cons (hc : SearchResult isDescendentOf hash number predicate Q c (.failure false)) :
    ∀ {r : FindOutcome (List ℕ)}, ChildrenResult isDescendentOf hash number predicate Q (i + 1) cs r →
      ChildrenResult isDescendentOf hash number predicate Q i (c :: cs) r
  | .found _, h => FoundAt.cons hc.1 h
  | .failure _, h => by
    have hnot : ¬(c.label.number ≤ number ∧ isDescendentOf c.label.hash hash = true) := fun h' =>
      Bool.false_ne_true (hc.2.mpr h')
    refine ⟨?_, ?_⟩
    · rw [forestEntriesFrom_cons, noCandidate_append]
      exact ⟨hc.1, h.1⟩
    · rw [h.2]
      simp only [List.mem_cons, exists_eq_or_imp, or_iff_right hnot]
  | .abort, h => h.elim

theorem RootsResult.cons {index : ℕ} {roots : List (Node H N V)}
    (hc : NoCandidate isDescendentOf hash number predicate (entriesFrom [] c)) :
    ∀ {r : Option (List ℕ)}, RootsResult isDescendentOf hash number predicate (index + 1) roots r →
      RootsResult isDescendentOf hash number predicate index (c :: roots) r
  | some _, h => FoundAt.cons hc h
  | none, h => by
    show NoCandidate _ _ _ _ (forestEntriesFrom [] (c :: roots))
    rw [forestEntriesFrom_cons, noCandidate_append]
    exact ⟨hc, h⟩

theorem FoundAt.isDeepest {index : ℕ} {roots : List (Node H N V)} {idx : List ℕ}
    (h : FoundAt isDescendentOf hash number predicate [] index roots idx) :
    ∃ j rest x, idx.reverse = (index + j) :: rest ∧
      IsDeepest isDescendentOf hash number predicate roots (j :: rest) x := by
  obtain ⟨j, rest, x, hidx, hx, hcand, hmax⟩ := h
  refine ⟨j, rest, x, hidx, hx, hcand, ?_⟩
  intro p y hy hcy
  -- the node at `p` has one ancestor fewer than `p` has indices
  obtain ⟨Q, hQ, hsub⟩ := nodeAt_sublist hy
  have hle := hmax _ (hsub.subset (root_mem_entriesFrom Q y)) hcy
  simp only [List.length_nil, Nat.zero_add] at hle
  simp only [List.length_cons]
  omega

end Results

/-! ### Following the indices found -/

section Follow

variable {isDescendentOf hash number predicate}

/-! The two ways past a root, stated once so that the proofs below do not unfold the loop. -/

theorem findInRoots_cons_found {index : ℕ} {r : Node H N V} {roots : List (Node H N V)}
    {x : List ℕ} (hr : Node.findNodeIndexWhere isDescendentOf hash number predicate r = .found x) :
    findInRoots isDescendentOf hash number predicate index (r :: roots) = some (x ++ [index]) := by
  rw [findInRoots, hr]

theorem findInRoots_cons_of_ne {index : ℕ} {r : Node H N V} {roots : List (Node H N V)}
    (hr : ∀ x, Node.findNodeIndexWhere isDescendentOf hash number predicate r ≠ .found x) :
    findInRoots isDescendentOf hash number predicate index (r :: roots) =
      findInRoots isDescendentOf hash number predicate (index + 1) roots := by
  rw [findInRoots]
  split
  · next x hx => exact absurd hx (hr x)
  · rfl

theorem exists_reverse_of_findInRoots : ∀ {roots : List (Node H N V)} {index : ℕ} {idx : List ℕ},
    findInRoots isDescendentOf hash number predicate index roots = some idx →
      ∃ j rest, idx.reverse = (index + j) :: rest
  | [], _, _, h => by
    cases h
  | r :: roots, index, idx, h => by
    -- either this root holds the block, or the indices count from the next root
    have hlater : findInRoots isDescendentOf hash number predicate (index + 1) roots = some idx →
        ∃ j rest, idx.reverse = (index + j) :: rest := fun h' => by
      obtain ⟨j, rest, hj⟩ := exists_reverse_of_findInRoots h'
      exact ⟨j + 1, rest, by rw [hj]; congr 1; omega⟩
    cases hr : Node.findNodeIndexWhere isDescendentOf hash number predicate r with
    | found x =>
      rw [findInRoots_cons_found hr] at h
      rw [← Option.some.inj h]
      exact ⟨0, x.reverse, by simp⟩
    | failure b => exact hlater (by rwa [findInRoots_cons_of_ne (by simp [hr])] at h)
    | abort => exact hlater (by rwa [findInRoots_cons_of_ne (by simp [hr])] at h)

theorem findNodeWhereIn_of_findInRoots_none : ∀ {roots : List (Node H N V)} {index : ℕ},
    findInRoots isDescendentOf hash number predicate index roots = none →
      findNodeWhereIn isDescendentOf hash number predicate roots = some none
  | [], _, _ => rfl
  | r :: roots, index, h => by
    rw [findNodeWhereIn, Node.findNodeWhere]
    cases hr : Node.findNodeIndexWhere isDescendentOf hash number predicate r with
    | found x =>
      rw [findInRoots_cons_found hr] at h
      cases h
    | failure b =>
      rw [findInRoots_cons_of_ne (by simp [hr])] at h
      exact findNodeWhereIn_of_findInRoots_none h
    | abort =>
      rw [findInRoots_cons_of_ne (by simp [hr])] at h
      exact findNodeWhereIn_of_findInRoots_none h

theorem findNodeWhereIn_of_findInRoots_some :
    ∀ {roots : List (Node H N V)} {index j : ℕ} {idx rest : List ℕ} {x : Node H N V},
      findInRoots isDescendentOf hash number predicate index roots = some idx →
        idx.reverse = (index + j) :: rest → nodeAt roots (j :: rest) = some x →
          findNodeWhereIn isDescendentOf hash number predicate roots = some (some x)
  | [], _, _, _, _, _, h, _, _ => by
    cases h
  | r :: roots, index, j, idx, rest, x, h, hidx, hx => by
    -- past this root the indices count from `index + 1`, so `j` is a later root's
    have hlater : findInRoots isDescendentOf hash number predicate (index + 1) roots = some idx →
        findNodeWhereIn isDescendentOf hash number predicate roots = some (some x) := by
      intro h'
      obtain ⟨j', rest', hj'⟩ := exists_reverse_of_findInRoots h'
      rw [hidx] at hj'
      obtain ⟨hjj, rfl⟩ := List.cons.inj hj'
      obtain rfl : j = j' + 1 := by omega
      rw [nodeAt_cons_succ] at hx
      have hj : index + (j' + 1) = index + 1 + j' := by omega
      exact findNodeWhereIn_of_findInRoots_some h' (by rw [hidx, hj]) hx
    rw [findNodeWhereIn, Node.findNodeWhere]
    cases hr : Node.findNodeIndexWhere isDescendentOf hash number predicate r with
    | found y =>
      rw [findInRoots_cons_found hr] at h
      -- the search stopped at this root, at `j = 0`
      rw [← Option.some.inj h, List.reverse_append, List.reverse_singleton, List.singleton_append,
        List.cons.injEq] at hidx
      obtain ⟨hj, rfl⟩ := hidx
      obtain rfl : j = 0 := by omega
      rw [nodeAt_cons_zero] at hx
      simp [hx]
    | failure b =>
      rw [findInRoots_cons_of_ne (by simp [hr])] at h
      exact hlater h
    | abort =>
      rw [findInRoots_cons_of_ne (by simp [hr])] at h
      exact hlater h

end Follow

/-! ### The search on a well-formed tree -/

section WellFormed

variable {isDescendentOf} {num : H → N} {t : ForkTree H N V}
  (horder : ForestOrder fun a b : H => isDescendentOf a b = true)
  (hnum : ∀ a b, isDescendentOf a b = true → num a < num b)
  (ht : t.WellFormed isDescendentOf num)
include horder ht

variable {hash number predicate}

omit horder in
include hnum in
theorem WellFormed.number_le_of_mem_subtree {P : List (NodeInfo H N V)} {n : Node H N V}
    (hsub : (entriesFrom P n).Sublist (entries t.roots)) {e : NodeInfo H N V × List (NodeInfo H N V)}
    (he : e ∈ entriesFrom P n) : n.label.number ≤ e.1.number := by
  rcases ht.tree.rel_of_mem_entriesFrom hsub he with heq | hrel
  · rw [heq]
  · rw [ht.numbered n.label (List.mem_map_of_mem (hsub.subset (root_mem_entriesFrom P n))),
      ht.numbered e.1 (List.mem_map_of_mem (hsub.subset he))]
    exact (hnum _ _ hrel).le

theorem WellFormed.noCandidate_of_above_sibling {Q : List (NodeInfo H N V)} {c : Node H N V}
    {cs : List (Node H N V)} (hsub : (forestEntriesFrom Q (c :: cs)).Sublist (entries t.roots))
    (hc : isDescendentOf c.label.hash hash = true) :
    NoCandidate isDescendentOf hash number predicate (forestEntriesFrom Q cs) := by
  intro e he hce
  obtain ⟨c'', hc'', he''⟩ := mem_forestEntriesFrom.mp he
  have hsub'' : (entriesFrom Q c'').Sublist (entries t.roots) :=
    (entriesFrom_sublist_of_mem Q (List.mem_cons_of_mem _ hc'')).trans hsub
  exact ht.not_above_siblings horder hsub hc'' hc
    (.inr (ht.above_of_mem_subtree horder hsub'' he'' hce.2.1))

theorem WellFormed.above_of_found {Q : List (NodeInfo H N V)} {c : Node H N V} {x : List ℕ}
    (hsub : (entriesFrom Q c).Sublist (entries t.roots))
    (h : SearchResult isDescendentOf hash number predicate Q c (.found x)) :
    isDescendentOf c.label.hash hash = true := by
  obtain ⟨y, hy, hdeep⟩ := h
  obtain ⟨Q', -, hsub'⟩ := subtreeAt_sublist Q hy
  exact ht.above_of_mem_subtree horder hsub (hsub'.subset (root_mem_entriesFrom _ y)) hdeep.1.2.1

include hnum

variable (hash number predicate)

-- the two halves of the recursion use different hypotheses of the section
set_option linter.unusedSectionVars false in
mutual
theorem searchResult_findNodeIndexWhere : ∀ (n : Node H N V) (P : List (NodeInfo H N V)),
    (entriesFrom P n).Sublist (entries t.roots) →
      SearchResult isDescendentOf hash number predicate P n
        (Node.findNodeIndexWhere isDescendentOf hash number predicate n)
  | .node info children, P, hsub => by
    have hsub' : (forestEntriesFrom (P ++ [info]) children).Sublist (entries t.roots) := by
      rw [entriesFrom_node] at hsub
      exact (List.sublist_cons_self _ _).trans hsub
    by_cases hlt : number < info.number
    · -- every number in the subtree is above the one asked for
      rw [Node.findNodeIndexWhere, if_pos hlt]
      refine ⟨fun e he hce => ?_, ?_⟩
      · exact not_lt.mpr hce.1 (hlt.trans_le (ht.number_le_of_mem_subtree hnum hsub he))
      · simp [Rose.label, not_le.mpr hlt]
    rw [Node.findNodeIndexWhere, if_neg hlt]
    have hchildren := childrenResult_findInChildren children (P ++ [info]) 0 hsub'
    cases hr : findInChildren isDescendentOf hash number predicate 0 children with
    | abort =>
      rw [hr] at hchildren
      exact hchildren.elim
    | found x =>
      rw [hr] at hchildren
      obtain ⟨j, rest, y, hx, hy, hdeep⟩ := hchildren
      have hlen : x.length = rest.length + 1 := by
        rw [← List.length_reverse, hx, List.length_cons]
      refine ⟨y, by rw [hx, Nat.zero_add, subtreeAt_node_cons]; exact hy, ?_⟩
      have hdepth : (P ++ [info]).length + rest.length = P.length + x.length := by
        rw [List.length_append, List.length_singleton, hlen]
        omega
      rw [entriesFrom_node, ← hdepth]
      exact hdeep.cons_root info (by rw [List.length_append]; omega)
    | failure known =>
      rw [hr] at hchildren
      obtain ⟨hnone, hknown⟩ := hchildren
      -- a child above the block puts the node above it, so `known` adds nothing
      have hdesc : (known || isDescendentOf info.hash hash) = isDescendentOf info.hash hash := by
        cases known with
        | false => rfl
        | true =>
          obtain ⟨c, hc, -, hch⟩ := hknown.mp rfl
          have hcmem : (c.label, P ++ [info]) ∈ entriesFrom P (.node info children) := by
            rw [entriesFrom_node]
            exact List.mem_cons_of_mem _
              (mem_forestEntriesFrom.mpr ⟨c, hc, root_mem_entriesFrom _ c⟩)
          exact (ht.above_of_mem_subtree horder hsub hcmem hch).symm
      dsimp only
      rw [hdesc]
      have hcand : Candidate isDescendentOf hash number predicate info ↔
          (isDescendentOf info.hash hash && predicate info.data) = true := by
        simp [Candidate, not_lt.mp hlt]
      by_cases hp : (isDescendentOf info.hash hash && predicate info.data) = true
      · rw [if_pos hp]
        refine ⟨.node info children, rfl, hcand.mpr hp, ?_⟩
        rw [entriesFrom_node]
        intro e he hce
        rcases List.mem_cons.mp he with rfl | he
        · simp
        · exact absurd hce (hnone e he)
      · rw [if_neg hp]
        refine ⟨?_, by simp [Rose.label, not_lt.mp hlt]⟩
        rw [entriesFrom_node]
        intro e he hce
        rcases List.mem_cons.mp he with rfl | he
        · exact hp (hcand.mp hce)
        · exact hnone e he hce

theorem childrenResult_findInChildren : ∀ (cs : List (Node H N V)) (Q : List (NodeInfo H N V))
    (i : ℕ), (forestEntriesFrom Q cs).Sublist (entries t.roots) →
      ChildrenResult isDescendentOf hash number predicate Q i cs
        (findInChildren isDescendentOf hash number predicate i cs)
  | [], Q, i, _ => by
    rw [findInChildren]
    exact ⟨by simp [NoCandidate], by simp⟩
  | c :: cs, Q, i, hsub => by
    have hparts := hsub
    rw [forestEntriesFrom_cons] at hparts
    have hc := searchResult_findNodeIndexWhere c Q ((List.sublist_append_left _ _).trans hparts)
    have hcs : (forestEntriesFrom Q cs).Sublist (entries t.roots) :=
      (List.sublist_append_right _ _).trans hparts
    rw [findInChildren]
    cases hr : Node.findNodeIndexWhere isDescendentOf hash number predicate c with
    | abort =>
      rw [hr] at hc
      exact hc.elim
    | found x =>
      rw [hr] at hc
      exact FoundAt.head hc (ht.noCandidate_of_above_sibling horder hsub
        (ht.above_of_found horder ((List.sublist_append_left _ _).trans hparts) hc))
    | failure known =>
      rw [hr] at hc
      cases known with
      | true =>
        -- the loop breaks: this child is above the block, so no later one holds a candidate
        have hcabove := hc.2.mp rfl
        refine ⟨?_, iff_of_true rfl ⟨c, List.mem_cons_self, hcabove⟩⟩
        rw [forestEntriesFrom_cons, noCandidate_append]
        exact ⟨hc.1, ht.noCandidate_of_above_sibling horder hsub hcabove.2⟩
      | false => exact ChildrenResult.cons hc (childrenResult_findInChildren cs Q (i + 1) hcs)
end

theorem rootsResult_findInRoots : ∀ (roots : List (Node H N V)) (index : ℕ),
    (forestEntriesFrom [] roots).Sublist (entries t.roots) →
      RootsResult isDescendentOf hash number predicate index roots
        (findInRoots isDescendentOf hash number predicate index roots)
  | [], _, _ => by
    intro e he
    simp at he
  | r :: roots, index, hsub => by
    have hparts := hsub
    rw [forestEntriesFrom_cons] at hparts
    have hr := searchResult_findNodeIndexWhere hash number predicate horder hnum ht r []
      ((List.sublist_append_left _ _).trans hparts)
    have hrest := rootsResult_findInRoots roots (index + 1)
      ((List.sublist_append_right _ _).trans hparts)
    cases hres : Node.findNodeIndexWhere isDescendentOf hash number predicate r with
    | found x =>
      rw [hres] at hr
      rw [findInRoots_cons_found hres]
      exact FoundAt.head hr (ht.noCandidate_of_above_sibling horder hsub
        (ht.above_of_found horder ((List.sublist_append_left _ _).trans hparts) hr))
    | failure known =>
      rw [hres] at hr
      rw [findInRoots_cons_of_ne (by simp [hres])]
      exact RootsResult.cons hr.1 hrest
    | abort =>
      rw [hres] at hr
      exact hr.elim

theorem findNodeIndexWhere_none_or_deepest :
    (t.findNodeIndexWhere isDescendentOf hash number predicate = none ∧
        NoCandidate isDescendentOf hash number predicate (forestEntriesFrom [] t.roots)) ∨
      ∃ path j rest x, t.findNodeIndexWhere isDescendentOf hash number predicate = some path ∧
        path.reverse = j :: rest ∧ IsDeepest isDescendentOf hash number predicate t.roots (j :: rest) x := by
  have hres := rootsResult_findInRoots hash number predicate horder hnum ht t.roots 0
    (List.Sublist.refl _)
  cases hidx : t.findNodeIndexWhere isDescendentOf hash number predicate with
  | none =>
    rw [findNodeIndexWhere] at hidx
    rw [hidx] at hres
    exact .inl ⟨rfl, hres⟩
  | some path =>
    rw [findNodeIndexWhere] at hidx
    rw [hidx] at hres
    obtain ⟨j, rest, x, hpath, hdeep⟩ := hres.isDeepest
    rw [Nat.zero_add] at hpath
    exact .inr ⟨path, j, rest, x, rfl, hpath, hdeep⟩

theorem findNodeWhere_eq_bind :
    t.findNodeWhere isDescendentOf hash number predicate =
      some ((t.findNodeIndexWhere isDescendentOf hash number predicate).bind fun path =>
        nodeAt t.roots path.reverse) := by
  rcases findNodeIndexWhere_none_or_deepest hash number predicate horder hnum ht with
    ⟨hidx, -⟩ | ⟨path, j, rest, x, hidx, hpath, hdeep⟩
  · rw [hidx]
    exact findNodeWhereIn_of_findInRoots_none hidx
  · rw [hidx, Option.bind_some, hpath, hdeep.1]
    exact findNodeWhereIn_of_findInRoots_some hidx (by rw [hpath, Nat.zero_add]) hdeep.1

omit hnum in
variable {hash number predicate} in
theorem WellFormed.isDeepest_unique {p p' : List ℕ} {x x' : Node H N V}
    (h : IsDeepest isDescendentOf hash number predicate t.roots p x)
    (h' : IsDeepest isDescendentOf hash number predicate t.roots p' x') : p = p' := by
  obtain ⟨hx, hcx, hmax⟩ := h
  obtain ⟨hx', hcx', hmax'⟩ := h'
  have hlen : p.length = p'.length := le_antisymm (hmax' p x hx hcx) (hmax p' x' hx' hcx')
  obtain ⟨Q, hQ, hsub⟩ := nodeAt_sublist hx
  obtain ⟨Q', hQ', hsub'⟩ := nodeAt_sublist hx'
  have he := hsub.subset (root_mem_entriesFrom Q x)
  have he' := hsub'.subset (root_mem_entriesFrom Q' x')
  rcases horder.chain _ _ _ hcx.2.1 hcx'.2.1 with heq | hrel | hrel
  · exact nodeAt_inj NodeInfo.hash ht.tree.nodup hx hx' heq
  · have hlt := ht.tree.length_lt_of_rel he' he hrel
    dsimp only at hlt
    omega
  · have hlt := ht.tree.length_lt_of_rel he he' hrel
    dsimp only at hlt
    omega

/-- **`find_node_where`.** On a well-formed tree it returns a node exactly when that node is a
deepest candidate and nothing exactly when there is no candidate; `find_node_where_mut` returns the
same, and the index path of `find_node_index_where` leads to the node returned. -/
theorem findNodeWhere_deepest :
    (∀ x, t.findNodeWhere isDescendentOf hash number predicate = some (some x) ↔
        ∃ p, IsDeepest isDescendentOf hash number predicate t.roots p x) ∧
      (t.findNodeWhere isDescendentOf hash number predicate = some none ↔
        ∀ p y, nodeAt t.roots p = some y → ¬Candidate isDescendentOf hash number predicate y.label) ∧
      t.findNodeWhereMut isDescendentOf hash number predicate =
        t.findNodeWhere isDescendentOf hash number predicate ∧
      ∀ x, t.findNodeWhere isDescendentOf hash number predicate = some (some x) ↔
        ∃ path, t.findNodeIndexWhere isDescendentOf hash number predicate = some path ∧
          nodeAt t.roots path.reverse = some x := by
  have hbind := findNodeWhere_eq_bind hash number predicate horder hnum ht
  have hfollow : ∀ x, t.findNodeWhere isDescendentOf hash number predicate = some (some x) ↔
      ∃ path, t.findNodeIndexWhere isDescendentOf hash number predicate = some path ∧
        nodeAt t.roots path.reverse = some x := by
    intro x
    rw [hbind, Option.some.injEq, Option.bind_eq_some_iff]
  refine ⟨fun x => ?_, ?_, rfl, hfollow⟩
  · rw [hfollow x]
    rcases findNodeIndexWhere_none_or_deepest hash number predicate horder hnum ht with
      ⟨hidx, hnone⟩ | ⟨path, j, rest, y, hidx, hpath, hdeep⟩
    · rw [hidx]
      constructor
      · rintro ⟨_, h, -⟩
        cases h
      · rintro ⟨p, hx, hcx, -⟩
        exact absurd hcx (hnone.not_nodeAt hx)
    · rw [hidx]
      constructor
      · rintro ⟨_, h, hx⟩
        obtain rfl := Option.some.inj h
        rw [hpath, hdeep.1, Option.some.injEq] at hx
        subst hx
        exact ⟨_, hdeep⟩
      · -- a deepest candidate is the one the search found
        rintro ⟨p, hdeep'⟩
        obtain rfl := ht.isDeepest_unique horder hdeep' hdeep
        exact ⟨path, rfl, by rw [hpath]; exact hdeep'.1⟩
  · rcases findNodeIndexWhere_none_or_deepest hash number predicate horder hnum ht with
      ⟨hidx, hnone⟩ | ⟨path, j, rest, y, hidx, hpath, hdeep⟩
    · rw [hbind, hidx]
      exact iff_of_true rfl fun p y hy => hnone.not_nodeAt hy
    · rw [hbind, hidx, Option.bind_some, hpath, hdeep.1]
      exact iff_of_false (by simp) fun h => h _ _ hdeep.1 hdeep.2.1

end WellFormed

/-- Above block `4`, under the order of the numbers, the deepest block with data `2` is block `2`,
at the indices `[0, 0]` of `find_node_index_where`. -/
theorem findNodeWhere_deepest_threeBlocks :
    threeBlocks.findNodeWhere (fun a b => decide (a < b)) 4 4 (· == 2) =
      some (some (.node ⟨2, 2, 2⟩ [.node ⟨3, 3, 3⟩ []])) :=
  ((findNodeWhere_deepest 4 4 (· == 2) forestOrder_lt (fun a b h => by simpa using h)
    threeBlocks_wellFormed).2.2.2 _).mpr ⟨[0, 0], rfl, rfl⟩

end Tetcore.ForkTree
