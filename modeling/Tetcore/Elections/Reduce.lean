import Mathlib
import Tetcore.Elections.Evaluate
import Tetcore.Lib.Run

/-!
# Removing cycles from staked assignments

`primitives/npos-elections/src/reduce.rs` and `node.rs`. `reduce` cancels circulations in the
bipartite graph of voters and targets, so that fewer edges carry the same stake: first cycles of
length four (`reduce_4`, through a map from pairs of targets to the last voter seen voting for
both), then any cycle (`reduce_all`, through a forest of parent pointers over the nodes, grown one
edge at a time). A node is a `NodeId`, an account with its role, so that a voter voting for itself
is two nodes.

The forest is a `BTreeMap` from node ids to nodes that hold a pointer to their parent; here an
`AList` from each node id to the id of its parent. `Node::root` walks the pointers until it meets
a node again; here the walk has as many steps as the map has nodes, which is never too few
(`rootLoop_fuel_stable`). The inner loop of `reduce_all` has one step more than the voter has
edges, also never too few (`reduceAllLoop_fuel_stable`). The counters are `u32` in the source and
never come near their bound; here they are natural numbers. Weights are `u128`, cut at
`2 ^ 128 - 1` by `saturating_add`.
-/

namespace Tetcore.Elections

open Arithmetic

variable {A : Type}

/-! ## The edges of assignments -/

/-- `assignments[assignment_index].distribution`; the position is always in range. -/
def distributionAt (as : List (StakedAssignment A)) (i : ℕ) : List (A × ℕ) :=
  ((as[i]?).map (·.distribution)).getD []

/-- The number of edges of the assignments. -/
def edgeCount (as : List (StakedAssignment A)) : ℕ := (as.map fun a => a.distribution.length).sum

/-- `as'` is `as` with `removed` edges dropped and the weights of the others changed: the same
voters, each with a sublist of its targets. -/
structure Drops (as as' : List (StakedAssignment A)) (removed : ℕ) : Prop where
  voters : as'.map (·.who) = as.map (·.who)
  targets : ∀ i, ((distributionAt as' i).map Prod.fst).Sublist ((distributionAt as i).map Prod.fst)
  count : edgeCount as' + removed = edgeCount as

/-- Every edge has a positive weight. -/
def Positive (as : List (StakedAssignment A)) : Prop := ∀ a ∈ as, ∀ e ∈ a.distribution, 0 < e.2

@[simp]
theorem distributionAt_cons_zero (a : StakedAssignment A) (as : List (StakedAssignment A)) :
    distributionAt (a :: as) 0 = a.distribution := rfl

@[simp]
theorem distributionAt_cons_succ (a : StakedAssignment A) (as : List (StakedAssignment A))
    (i : ℕ) : distributionAt (a :: as) (i + 1) = distributionAt as i := rfl

@[simp]
theorem edgeCount_cons (a : StakedAssignment A) (as : List (StakedAssignment A)) :
    edgeCount (a :: as) = a.distribution.length + edgeCount as := by
  simp [edgeCount]

theorem Drops.refl (as : List (StakedAssignment A)) : Drops as as 0 :=
  ⟨rfl, fun _ => List.Sublist.refl _, rfl⟩

theorem Drops.trans {as as' as'' : List (StakedAssignment A)} {k k' : ℕ} (h : Drops as as' k)
    (h' : Drops as' as'' k') : Drops as as'' (k + k') where
  voters := h'.voters.trans h.voters
  targets i := (h'.targets i).trans (h.targets i)
  count := by
    have := h.count
    have := h'.count
    omega

theorem Drops.length_le {as as' : List (StakedAssignment A)} {k : ℕ} (h : Drops as as' k)
    (i : ℕ) : (distributionAt as' i).length ≤ (distributionAt as i).length := by
  simpa using (h.targets i).length_le

theorem Drops.cons {as as' : List (StakedAssignment A)} {k m : ℕ} {a a' : StakedAssignment A}
    (h : Drops as as' k) (hwho : a'.who = a.who)
    (htargets : (a'.distribution.map Prod.fst).Sublist (a.distribution.map Prod.fst))
    (hlen : a'.distribution.length + m = a.distribution.length) :
    Drops (a :: as) (a' :: as') (m + k) where
  voters := by simp [hwho, h.voters]
  targets
    | 0 => htargets
    | i + 1 => h.targets i
  count := by
    have := h.count
    simp only [edgeCount_cons]
    omega

/-- A pass of `reduce` from assignments `as`, with its counter at `n`, to `as'`, with it at `n'`:
the counter went up by the number of edges dropped, and positive weights stayed positive. -/
structure Shrinks (as : List (StakedAssignment A)) (n : ℕ) (as' : List (StakedAssignment A))
    (n' : ℕ) : Prop where
  drops : ∃ k, Drops as as' k ∧ n' = n + k
  positive : Positive as → Positive as'

theorem Shrinks.refl (as : List (StakedAssignment A)) (n : ℕ) : Shrinks as n as n :=
  ⟨⟨0, Drops.refl as, rfl⟩, id⟩

theorem Shrinks.trans {as as' as'' : List (StakedAssignment A)} {n n' n'' : ℕ}
    (h : Shrinks as n as' n') (h' : Shrinks as' n' as'' n'') : Shrinks as n as'' n'' where
  drops := by
    obtain ⟨k, hk, rfl⟩ := h.drops
    obtain ⟨k', hk', rfl⟩ := h'.drops
    exact ⟨k + k', hk.trans hk', by omega⟩
  positive := h'.positive ∘ h.positive

theorem Shrinks.add {as as' : List (StakedAssignment A)} {n n' : ℕ} (h : Shrinks as n as' n')
    (m : ℕ) : Shrinks as (m + n) as' (m + n') where
  drops := by
    obtain ⟨k, hk, rfl⟩ := h.drops
    exact ⟨k, hk, by omega⟩
  positive := h.positive

theorem Shrinks.length_le {as as' : List (StakedAssignment A)} {n n' : ℕ}
    (h : Shrinks as n as' n') (i : ℕ) :
    (distributionAt as' i).length ≤ (distributionAt as i).length := by
  obtain ⟨k, hk, -⟩ := h.drops
  exact hk.length_le i

/-- A round of the inner loop of `reduce_all`, or part of one: it shrinks the assignments, and
when `dist_index` is not to move the voter at `ai` has lost an edge. -/
structure Progress (ai : ℕ) (as : List (StakedAssignment A)) (n : ℕ)
    (as' : List (StakedAssignment A)) (n' : ℕ) (shouldInc : Bool) : Prop
    extends Shrinks as n as' n' where
  length_lt : shouldInc = false → (distributionAt as' ai).length < (distributionAt as ai).length

theorem Progress.of_shrinks {ai : ℕ} {as as' : List (StakedAssignment A)} {n n' : ℕ}
    (h : Shrinks as n as' n') : Progress ai as n as' n' true :=
  ⟨h, fun hf => Bool.noConfusion hf⟩

variable [DecidableEq A]

/-! ## Helpers shared by both passes -/

/-- `combinations_2`: every element paired with each one after it, in the order of the input. -/
def combinations2 {T : Type} : List T → List (T × T)
  | [] => []
  | x :: xs => xs.map (x, ·) ++ combinations2 xs

/-- `trailing_common`: the length of the longest common suffix. -/
def trailingCommon {T : Type} [DecidableEq T] (t1 t2 : List T) : ℕ :=
  ((t1.reverse.zip t2.reverse).takeWhile fun e => decide (e.1 = e.2)).length

/-- The first edge to `target` with its weight `w` replaced by `op w`, or removed when `op w` is
zero and `removeZero` holds (`position(..).map(..)` in both passes); the flag says whether the edge
was removed. -/
def updateEdge (op : ℕ → ℕ) (removeZero : Bool) (target : A) :
    List (A × ℕ) → List (A × ℕ) × Bool
  | [] => ([], false)
  | (t, w) :: rest =>
    if t = target then
      if removeZero = true ∧ op w = 0 then (rest, true) else ((t, op w) :: rest, false)
    else
      let r := updateEdge op removeZero target rest
      ((t, w) :: r.1, r.2)

/-- `assignments.iter_mut().enumerate().filter(|(_, a)| a.who == voter)` with the edge of each to
`target` updated: the new assignments and the positions, counted from `i`, of those whose edge was
removed. -/
def updateEdges (op : ℕ → ℕ) (removeZero : Bool) (voter target : A) :
    ℕ → List (StakedAssignment A) → List (StakedAssignment A) × List ℕ
  | _, [] => ([], [])
  | i, a :: as =>
    let r := updateEdges op removeZero voter target (i + 1) as
    if a.who = voter then
      let e := updateEdge op removeZero target a.distribution
      (⟨a.who, e.1⟩ :: r.1, if e.2 then i :: r.2 else r.2)
    else (a :: r.1, r.2)

/-! The equations of the two loops, stated once so that the proofs below do not unfold them. -/

theorem updateEdge_nil (op : ℕ → ℕ) (removeZero : Bool) (target : A) :
    updateEdge op removeZero target [] = ([], false) := rfl

theorem updateEdge_cons (op : ℕ → ℕ) (removeZero : Bool) (target t : A) (w : ℕ)
    (rest : List (A × ℕ)) :
    updateEdge op removeZero target ((t, w) :: rest) =
      if t = target then
        if removeZero = true ∧ op w = 0 then (rest, true) else ((t, op w) :: rest, false)
      else ((t, w) :: (updateEdge op removeZero target rest).1,
        (updateEdge op removeZero target rest).2) := rfl

theorem updateEdges_nil (op : ℕ → ℕ) (removeZero : Bool) (voter target : A) (i : ℕ) :
    updateEdges op removeZero voter target i [] = ([], []) := rfl

theorem updateEdges_cons (op : ℕ → ℕ) (removeZero : Bool) (voter target : A) (i : ℕ)
    (a : StakedAssignment A) (as : List (StakedAssignment A)) :
    updateEdges op removeZero voter target i (a :: as) =
      if a.who = voter then
        (⟨a.who, (updateEdge op removeZero target a.distribution).1⟩ ::
            (updateEdges op removeZero voter target (i + 1) as).1,
          if (updateEdge op removeZero target a.distribution).2 then
            i :: (updateEdges op removeZero voter target (i + 1) as).2
          else (updateEdges op removeZero voter target (i + 1) as).2)
      else (a :: (updateEdges op removeZero voter target (i + 1) as).1,
        (updateEdges op removeZero voter target (i + 1) as).2) := rfl

theorem updateEdge_targets (op : ℕ → ℕ) (removeZero : Bool) (target : A) :
    ∀ d : List (A × ℕ),
      ((updateEdge op removeZero target d).1.map Prod.fst).Sublist (d.map Prod.fst)
  | [] => List.Sublist.refl _
  | (t, w) :: rest => by
    by_cases ht : t = target
    · by_cases hz : removeZero = true ∧ op w = 0
      · simp [updateEdge_cons, ht, hz]
      · simp [updateEdge_cons, ht, hz]
    · simpa [updateEdge_cons, ht] using (updateEdge_targets op removeZero target rest).cons_cons t

theorem updateEdge_length (op : ℕ → ℕ) (removeZero : Bool) (target : A) :
    ∀ d : List (A × ℕ),
      (updateEdge op removeZero target d).1.length + (updateEdge op removeZero target d).2.toNat =
        d.length
  | [] => rfl
  | (t, w) :: rest => by
    by_cases ht : t = target
    · by_cases hz : removeZero = true ∧ op w = 0
      · simp [updateEdge_cons, ht, hz]
      · simp [updateEdge_cons, ht, hz]
    · have ih := updateEdge_length op removeZero target rest
      simp only [updateEdge_cons, ht, if_false, List.length_cons]
      omega

theorem updateEdge_positive (op : ℕ → ℕ) (removeZero : Bool) (target : A)
    (hop : removeZero = true ∨ ∀ w, 0 < w → 0 < op w) :
    ∀ d : List (A × ℕ), (∀ e ∈ d, 0 < e.2) → ∀ e ∈ (updateEdge op removeZero target d).1, 0 < e.2
  | [] => by simp [updateEdge_nil]
  | (t, w) :: rest => by
    intro hd
    have hw : 0 < w := hd (t, w) List.mem_cons_self
    have hrest : ∀ e ∈ rest, 0 < e.2 := fun e he => hd e (List.mem_cons_of_mem _ he)
    by_cases ht : t = target
    · by_cases hz : removeZero = true ∧ op w = 0
      · simpa [updateEdge_cons, ht, hz] using hrest
      · -- the new weight is not zero: either zero weights are removed or `op` keeps it positive
        have hop' : 0 < op w := by
          rcases hop with hrz | hpos
          · exact Nat.pos_of_ne_zero fun h0 => hz ⟨hrz, h0⟩
          · exact hpos w hw
        simp only [updateEdge_cons, ht, hz, if_true, if_false, List.mem_cons]
        rintro e (rfl | he)
        · exact hop'
        · exact hrest e he
    · simp only [updateEdge_cons, ht, if_false, List.mem_cons]
      rintro e (rfl | he)
      · exact hw
      · exact updateEdge_positive op removeZero target hop rest hrest e he

theorem updateEdge_not_removed (op : ℕ → ℕ) (target : A) :
    ∀ d : List (A × ℕ), (updateEdge op false target d).2 = false
  | [] => rfl
  | (t, w) :: rest => by
    by_cases ht : t = target
    · simp [updateEdge_cons, ht]
    · simpa [updateEdge_cons, ht] using updateEdge_not_removed op target rest

theorem updateEdges_drops (op : ℕ → ℕ) (removeZero : Bool) (voter target : A) :
    ∀ (i : ℕ) (as : List (StakedAssignment A)),
      Drops as (updateEdges op removeZero voter target i as).1
        (updateEdges op removeZero voter target i as).2.length
  | _, [] => Drops.refl []
  | i, a :: as => by
    have ih := updateEdges_drops op removeZero voter target (i + 1) as
    by_cases hv : a.who = voter
    · have hcount : (if (updateEdge op removeZero target a.distribution).2 then
            i :: (updateEdges op removeZero voter target (i + 1) as).2
          else (updateEdges op removeZero voter target (i + 1) as).2).length =
          (updateEdge op removeZero target a.distribution).2.toNat +
            (updateEdges op removeZero voter target (i + 1) as).2.length := by
        cases (updateEdge op removeZero target a.distribution).2 <;> simp [Nat.add_comm]
      simp only [updateEdges_cons, if_pos hv]
      rw [hcount]
      exact ih.cons rfl (updateEdge_targets op removeZero target _)
        (updateEdge_length op removeZero target _)
    · simp only [updateEdges_cons, if_neg hv]
      simpa using ih.cons rfl (List.Sublist.refl _) (Nat.add_zero _)

theorem updateEdges_not_removed (op : ℕ → ℕ) (voter target : A) :
    ∀ (i : ℕ) (as : List (StakedAssignment A)), (updateEdges op false voter target i as).2 = []
  | _, [] => rfl
  | i, a :: as => by
    by_cases hv : a.who = voter
    · simp [updateEdges_cons, hv, updateEdge_not_removed, updateEdges_not_removed op voter target]
    · simp [updateEdges_cons, hv, updateEdges_not_removed op voter target]

theorem updateEdges_removed (op : ℕ → ℕ) (removeZero : Bool) (voter target : A) :
    ∀ (i : ℕ) (as : List (StakedAssignment A)) (j : ℕ),
      j ∈ (updateEdges op removeZero voter target i as).2 →
      i ≤ j ∧ (distributionAt (updateEdges op removeZero voter target i as).1 (j - i)).length <
        (distributionAt as (j - i)).length
  | _, [], _, h => by simp [updateEdges_nil] at h
  | i, a :: as, j, h => by
    have ih := updateEdges_removed op removeZero voter target (i + 1) as j
    by_cases hv : a.who = voter
    · simp only [updateEdges_cons, if_pos hv] at h ⊢
      have hlen := updateEdge_length op removeZero target a.distribution
      by_cases hji : j = i
      · -- the removal at the front: the head assignment lost its edge
        subst hji
        have hrem : (updateEdge op removeZero target a.distribution).2 = true := by
          by_contra hne
          have hmem : j ∈ (updateEdges op removeZero voter target (j + 1) as).2 := by
            simpa [hne] using h
          exact absurd (ih hmem).1 (by omega)
        simp only [Nat.sub_self, distributionAt_cons_zero]
        rw [hrem] at hlen
        exact ⟨le_refl _, by simp at hlen; omega⟩
      · have hmem : j ∈ (updateEdges op removeZero voter target (i + 1) as).2 := by
          split at h
          · simpa [hji] using h
          · exact h
        obtain ⟨hle, hlt⟩ := ih hmem
        have hsub : j - i = j - (i + 1) + 1 := by omega
        rw [hsub, distributionAt_cons_succ, distributionAt_cons_succ]
        exact ⟨by omega, hlt⟩
    · simp only [updateEdges_cons, if_neg hv] at h ⊢
      obtain ⟨hle, hlt⟩ := ih h
      have hsub : j - i = j - (i + 1) + 1 := by omega
      rw [hsub, distributionAt_cons_succ, distributionAt_cons_succ]
      exact ⟨by omega, hlt⟩

theorem updateEdges_positive (op : ℕ → ℕ) (removeZero : Bool) (voter target : A)
    (hop : removeZero = true ∨ ∀ w, 0 < w → 0 < op w) :
    ∀ (i : ℕ) (as : List (StakedAssignment A)), Positive as →
      Positive (updateEdges op removeZero voter target i as).1
  | _, [], _ => by simp [updateEdges_nil, Positive]
  | i, a :: as, h => by
    have ha : ∀ e ∈ a.distribution, 0 < e.2 := h a List.mem_cons_self
    have ih := updateEdges_positive op removeZero voter target hop (i + 1) as
      fun b hb => h b (List.mem_cons_of_mem _ hb)
    by_cases hv : a.who = voter
    · simp only [updateEdges_cons, if_pos hv, Positive, List.mem_cons]
      rintro b (rfl | hb)
      · exact updateEdge_positive op removeZero target hop _ ha
      · exact ih b hb
    · simp only [updateEdges_cons, if_neg hv, Positive, List.mem_cons]
      rintro b (rfl | hb)
      · exact ha
      · exact ih b hb

/-! ## `reduce_4` -/

/-- The state of `reduce_4`: the assignments, `combination_map` and `num_changed`. -/
structure Reduce4State (A : Type) where
  assignments : List (StakedAssignment A)
  combinationMap : AList fun _ : A × A => A
  numChanged : ℕ

/-- The edges of `d` to `v1` or `v2`, in the order of `d`. -/
def cycleVotes (v1 v2 : A) (d : List (A × ℕ)) : List (A × ℕ) :=
  d.filter fun e => decide (e.1 = v1 ∨ e.1 = v2)

/-- The least weight of the four edges of a cycle and its last position (the source compares with
`<=`). -/
def minIndex4 (cycle : List (A × ℕ)) : ℕ × ℕ :=
  cycle.zipIdx.foldl (fun m e => if e.1.2 ≤ m.1 then (e.1.2, e.2) else m) (u128Max, 0)

/-- `increase_indices` and `decrease_indices`: positions 0 and 2 of the cycle are edges to one
target, 1 and 3 to the other, 0 and 1 are `who`'s and 2 and 3 `other_who`'s. -/
def circulation4 (minIndex : ℕ) : List ℕ × List ℕ :=
  if minIndex < 2 then
    let siblingIndex := 1 - minIndex
    ([siblingIndex, minIndex + 2], [minIndex, siblingIndex + 2])
  else
    let siblingIndex := 3 - minIndex % 2
    ([siblingIndex, minIndex - 2], [minIndex, siblingIndex - 2])

section Reduce4

variable [Inhabited A]

/-- The voter of a position of the 4-cycle. -/
def cycleVoter (who otherWho : A) (i : ℕ) : A := if i < 2 then who else otherWho

/-- The loop over `increase_indices`: each edge up by the least weight, by `saturating_add`. -/
def increase4 (who otherWho : A) (cycle : List (A × ℕ)) (minValue : ℕ) (indices : List ℕ)
    (as : List (StakedAssignment A)) : List (StakedAssignment A) :=
  indices.foldl (fun as i => (updateEdges (Saturating.add 128 · minValue) false
    (cycleVoter who otherWho i) (cycle.getD i default).1 0 as).1) as

/-- The loop over `decrease_indices`: each edge down by the least weight and removed at zero; with
`remove_indices` and `num_changed`. -/
def decrease4 (who otherWho : A) (cycle : List (A × ℕ)) (minValue : ℕ) (indices : List ℕ)
    (st : List (StakedAssignment A) × List ℕ × ℕ) : List (StakedAssignment A) × List ℕ × ℕ :=
  indices.foldl (fun st i =>
    let r := updateEdges (· - minValue) true (cycleVoter who otherWho i) (cycle.getD i default).1 0
      st.1
    (r.1, st.2.1 ++ List.replicate r.2.length i, st.2.2 + r.2.length)) st

/-- A 4-cycle `who → v1, v2 ← other_who` cancelled: the edges at `increase_indices` go up and
those at `decrease_indices` down by the least weight, the latter removed at zero. The map entry is
kept, pointed at `who` or removed by which voters lost an edge; no voter losing one is the panic
of the source. -/
def reduce4Cycle (who otherWho v1 v2 : A) (cycle : List (A × ℕ)) (s : Reduce4State A) :
    Option (Reduce4State A) :=
  let minValue := (minIndex4 cycle).1
  let indices := circulation4 (minIndex4 cycle).2
  let increased := increase4 who otherWho cycle minValue indices.1 s.assignments
  let decreased := decrease4 who otherWho cycle minValue indices.2 (increased, [], s.numChanged)
  let s := { s with assignments := decreased.1, numChanged := decreased.2.2 }
  match decreased.2.1.any (· < 2), decreased.2.1.any (2 ≤ ·) with
  | false, true => some { s with combinationMap := s.combinationMap.insert (v1, v2) who }
  | true, false => some s
  | true, true => some { s with combinationMap := s.combinationMap.erase (v1, v2) }
  | false, false => none

/-- One pair of targets of the voter at `ai` in `reduce_4`. -/
def reduce4Pair (ai : ℕ) (who : A) (s : Reduce4State A) (pair : A × A) :
    Option (Reduce4State A) :=
  let (v1, v2) := pair
  match s.combinationMap.lookup (v1, v2) with
  | none => some { s with combinationMap := s.combinationMap.insert (v1, v2) who }
  | some otherWho =>
    let current := distributionAt s.assignments ai
    if (cycleVotes v1 v2 current).length ≠ 2 then some s
    else
      match s.assignments.find? (·.who = otherWho) with
      | none => some s
      | some other =>
        match cycleVotes v1 v2 other.distribution with
        | [o0, o1] =>
          match cycleVotes v1 v2 current with
          | [w0, w1] =>
            -- the other voter's edges aligned with `who`'s, target by target
            let aligned := if o0.1 ≠ w0.1 then [o1, o0] else [o0, o1]
            reduce4Cycle who otherWho v1 v2 ([w0, w1] ++ aligned) s
          | _ => some s
        | otherVotes =>
          if otherVotes.length < 2 then
            some { s with combinationMap := s.combinationMap.insert (v1, v2) who }
          else some s

/-- One voter of `reduce_4`: every pair of its targets, taken from the assignment as it is when
the voter's turn comes. -/
def reduce4Voter (s : Reduce4State A) (ai : ℕ) : Option (Reduce4State A) :=
  match s.assignments[ai]? with
  | none => some s
  | some a => (combinations2 (a.distribution.map Prod.fst)).foldlM (reduce4Pair ai a.who) s

/-- `reduce_4`: the assignments and the number of edges removed, or `none` for its panic. -/
def reduce4 (as : List (StakedAssignment A)) : Option (List (StakedAssignment A) × ℕ) :=
  ((List.range as.length).foldlM reduce4Voter ⟨as, ∅, 0⟩).map
    fun s => (s.assignments, s.numChanged)

end Reduce4

/-! ## The forest of `reduce_all` -/

/-- `NodeRole`. -/
inductive NodeRole
  | voter
  | target
  deriving DecidableEq, Inhabited

/-- `NodeId`: an account with its role. -/
structure NodeId (A : Type) where
  who : A
  role : NodeRole
  deriving DecidableEq, Inhabited

/-- The tree map of `reduce_all`: every node made so far, with its parent pointer. -/
abbrev Tree (A : Type) := AList fun _ : NodeId A => Option (NodeId A)

/-- The parent pointer of a node. -/
def Tree.parent (t : Tree A) (who : NodeId A) : Option (NodeId A) := (t.lookup who).join

/-- `Node::set_parent_of`. -/
def Tree.setParentOf (t : Tree A) (who parent : NodeId A) : Tree A := t.insert who (some parent)

/-- `Node::remove_parent`. -/
def Tree.removeParent (t : Tree A) (who : NodeId A) : Tree A := t.insert who none

/-- `Node::is_parent_of`. -/
def Tree.isParentOf (t : Tree A) (who other : NodeId A) : Bool := t.parent who = some other

/-- `tree.entry(id).or_insert_with(|| Node::new(id).into_ref())`. -/
def Tree.orInsert (t : Tree A) (id : NodeId A) : Tree A := if id ∈ t then t else t.insert id none

/-- The loop of `Node::root` with `fuel` steps left: `path` holds the nodes visited so far, the
last of them `current`. -/
def rootLoop (t : Tree A) : ℕ → NodeId A → List (NodeId A) → NodeId A × List (NodeId A)
  | 0, current, path => (current, path)
  | fuel + 1, current, path =>
    match t.parent current with
    | none => (current, path)
    | some next =>
      if next ∈ path then (current, path) else rootLoop t fuel next (path ++ [next])

/-- `Node::root`: the root reached from `start` and the path from `start` to it. -/
def root (t : Tree A) (start : NodeId A) : NodeId A × List (NodeId A) :=
  rootLoop t t.entries.length start [start]

/-- The nodes that some node points to. -/
def Tree.parents (t : Tree A) : List (NodeId A) := t.entries.filterMap (·.2)

theorem Tree.mem_parents {t : Tree A} {x y : NodeId A} (h : t.parent x = some y) :
    y ∈ t.parents := by
  have hlookup : t.lookup x = some (some y) := Option.join_eq_some_iff.mp h
  exact List.mem_filterMap.mpr ⟨⟨x, some y⟩, AList.mem_lookup_iff.mp hlookup, rfl⟩

/-- The walk of `Node::root` visits no node twice, and every node after the first is a parent:
there are no more of those than entries in the map, so the walk stops by itself within that many
steps, and more fuel changes nothing. -/
theorem rootLoop_fuel_stable (t : Tree A) (start : NodeId A) :
    ∀ (fuel extra : ℕ) (current : NodeId A) (rest : List (NodeId A)), (start :: rest).Nodup →
      rest ⊆ t.parents → t.entries.length ≤ fuel + rest.length →
      rootLoop t (fuel + extra) current (start :: rest) = rootLoop t fuel current (start :: rest)
  | 0, 0, _, _, _, _, _ => rfl
  | 0, extra + 1, current, rest, hnodup, hsub, hbound => by
    rw [Nat.zero_add]
    simp only [rootLoop]
    cases hp : t.parent current with
    | none => rfl
    | some next =>
      -- the path already holds as many parents as there are: `next` is one of them
      have hnext : next ∈ start :: rest := by
        by_contra hnot
        have hnodup' : (next :: rest).Nodup :=
          List.nodup_cons.mpr ⟨fun h => hnot (List.mem_cons_of_mem _ h), (List.nodup_cons.mp hnodup).2⟩
        have hsub' : next :: rest ⊆ t.parents := List.cons_subset.mpr ⟨Tree.mem_parents hp, hsub⟩
        have hlen := hnodup'.length_le_of_subset hsub'
        have hparents : t.parents.length ≤ t.entries.length := List.length_filterMap_le _ _
        simp only [List.length_cons] at hlen
        omega
      simp [hnext]
  | fuel + 1, extra, current, rest, hnodup, hsub, hbound => by
    rw [Nat.add_right_comm]
    simp only [rootLoop]
    cases hp : t.parent current with
    | none => rfl
    | some next =>
      by_cases hnext : next ∈ start :: rest
      · simp [hnext]
      · simp only [hnext, if_false, List.cons_append]
        have hnodup' : (start :: (rest ++ [next])).Nodup := by
          rw [← List.cons_append, ← List.concat_eq_append]
          exact hnodup.concat hnext
        have hsub' : rest ++ [next] ⊆ t.parents :=
          List.append_subset.mpr ⟨hsub, by simpa using Tree.mem_parents hp⟩
        exact rootLoop_fuel_stable t start fuel extra next (rest ++ [next]) hnodup' hsub'
          (by simp only [List.length_append, List.length_singleton]; omega)

theorem root_fuel_stable (t : Tree A) (start : NodeId A) (extra : ℕ) :
    rootLoop t (t.entries.length + extra) start [start] = root t start :=
  rootLoop_fuel_stable t start _ extra start [] (List.nodup_singleton _) (List.nil_subset _)
    (by simp)

/-- `merge`: the shorter of the two root paths turned around, its start hung from the start of
the longer one. -/
def merge (voterRootPath targetRootPath : List (NodeId A)) (t : Tree A) : Tree A :=
  let shorter := if voterRootPath.length ≤ targetRootPath.length then voterRootPath
    else targetRootPath
  let longer := if voterRootPath.length ≤ targetRootPath.length then targetRootPath
    else voterRootPath
  let t := (shorter.zip shorter.tail).foldl (fun t e => t.setParentOf e.2 e.1) t
  match shorter.head?, longer.head? with
  | some s, some l => t.setParentOf s l
  | _, _ => t

/-- The cycle that an edge between two nodes of one tree closes: the target's root path up to
the first node it shares with the voter's, then the voter's path back down, from target to voter. -/
def cycleOf (voterRootPath targetRootPath : List (NodeId A)) : List (NodeId A) :=
  let commonCount := trailingCommon voterRootPath targetRootPath
  targetRootPath.take (targetRootPath.length - commonCount + 1) ++
    (voterRootPath.take (voterRootPath.length - commonCount)).reverse

/-! ## `reduce_all` -/

/-- The least edge of a cycle as `reduce_all` finds it: its weight, target and voter, the position
of the voter in the cycle and the side of the edge from there (1 for the next node, 0 for the
previous one). -/
structure CycleMin (A : Type) where
  value : ℕ
  target : A
  voter : A
  index : ℕ
  direction : ℕ

/-- The weight of the first edge to `target` of the first assignment of `voter`. -/
def weightOf (as : List (StakedAssignment A)) (voter target : A) : Option ℕ :=
  (as.find? (·.who = voter)).bind fun a => (a.distribution.find? (·.1 = target)).map (·.2)

/-- `next_index` of a cycle of length `len`. -/
def nextIndex (len i : ℕ) : ℕ := if i < len - 1 then i + 1 else 0

/-- `prev_index` of a cycle of length `len`. -/
def prevIndex (len i : ℕ) : ℕ := if 0 < i then i - 1 else len - 1

/-- The edge from `voter` to `other` taken as the least when it is below the least so far. -/
def CycleMin.consider (as : List (StakedAssignment A)) (voter other : A) (index direction : ℕ)
    (m : CycleMin A) : CycleMin A :=
  match weightOf as voter other with
  | some w => if w < m.value then ⟨w, other, voter, index, direction⟩ else m
  | none => m

/-- What the walk over a cycle has done so far: the assignments, `num_changed`,
`should_inc_counter` and `additional_removed`. -/
structure Circulation (A : Type) where
  assignments : List (StakedAssignment A)
  numChanged : ℕ
  shouldIncCounter : Bool
  additionalRemoved : List (NodeId A × NodeId A)

/-- `saturating_add` or `saturating_sub` of the least weight. -/
def circulationOp (add : Bool) (minValue w : ℕ) : ℕ :=
  if add then Saturating.add 128 w minValue else w - minValue

/-- The edge from the voter node `current` to the node `other` moved up (`add`) or down by the
least weight; an edge that comes to zero is removed and counted, it stops `dist_index` moving when
it is an edge of the voter at `ai`, and it is recorded in `additional_removed` when `record` holds
(every edge but the least one). -/
def Circulation.move (ai minValue : ℕ) (add record : Bool) (current other : NodeId A)
    (c : Circulation A) : Circulation A :=
  let r := updateEdges (circulationOp add minValue) true current.who other.who 0 c.assignments
  { assignments := r.1
    numChanged := c.numChanged + r.2.length
    shouldIncCounter := c.shouldIncCounter && !r.2.contains ai
    additionalRemoved :=
      c.additionalRemoved ++ if record then List.replicate r.2.length (current, other) else [] }

/-- The loop of the re-org: each pointer along the path turned around, until one between the two
accounts of the least edge, compared by account only. -/
def reorgPath (minEdge : List A) : List (NodeId A) → Tree A → Tree A
  | current :: next :: rest, t =>
    if current.who ∈ minEdge ∧ next.who ∈ minEdge then t
    else reorgPath minEdge (next :: rest) (t.setParentOf next current)
  | _, t => t

/-- The pointers along the edges that came to zero removed. -/
def removeCollapsed (t : Tree A) (removed : List (NodeId A × NodeId A)) : Tree A :=
  removed.foldl (fun t e =>
    if t.isParentOf e.1 e.2 then t.removeParent e.1
    else if t.isParentOf e.2 e.1 then t.removeParent e.2 else t) t

/-- The state of `reduce_all`: the assignments, the tree map and `num_changed`. -/
structure ReduceState (A : Type) where
  assignments : List (StakedAssignment A)
  tree : Tree A
  numChanged : ℕ

section ReduceAll

variable [Inhabited A]

/-- The search of `reduce_all` for the least edge of a cycle: at each voter node the edge to the
next node, then the one to the previous node, taken when strictly below the least so far. -/
def findCycleMin (as : List (StakedAssignment A)) (cycle : List (NodeId A)) : CycleMin A :=
  (List.range cycle.length).foldl (fun m i =>
    let node := cycle.getD i default
    if node.role = .voter then
      let next := (cycle.getD (nextIndex cycle.length i) default).who
      let prev := (cycle.getD (prevIndex cycle.length i) default).who
      (m.consider as node.who next i 1).consider as node.who prev i 0
    else m) ⟨u128Max, default, default, 0, 0⟩

/-- The walk of `reduce_all` over the cycle: at each voter node the edges to the previous and the
next node move by the least weight in opposite directions, starting so that the least edge goes
down. -/
def circulate (ai : ℕ) (cycle : List (NodeId A)) (m : CycleMin A) (c : Circulation A) :
    Circulation A :=
  let startOperationAdd := decide ((m.index % 2 + m.direction) % 2 = 1)
  (List.range cycle.length).foldl (fun c i =>
    let current := cycle.getD i default
    if current.role = .voter then
      let prevAdd := if i % 2 = 0 then startOperationAdd else !startOperationAdd
      let prev := cycle.getD (prevIndex cycle.length i) default
      let next := cycle.getD (nextIndex cycle.length i) default
      let c := c.move ai m.value prevAdd (decide ¬(i = m.index ∧ m.direction = 0)) current prev
      c.move ai m.value (!prevAdd) (decide ¬(i = m.index ∧ m.direction = 1)) current next
    else c) c

/-- An edge between two nodes of one tree: the cycle it closes is cancelled at its least edge and
the tree re-rooted so that the new edge stands where the least one was; with
`should_inc_counter`. -/
def reduceCycle (ai : ℕ) (voterNode targetNode : NodeId A)
    (voterRootPath targetRootPath : List (NodeId A)) (s : ReduceState A) :
    ReduceState A × Bool :=
  let commonCount := trailingCommon voterRootPath targetRootPath
  let cycle := cycleOf voterRootPath targetRootPath
  let m := findCycleMin s.assignments cycle
  let targetChunk := targetRootPath.length - commonCount
  let minChainInVoter := decide (targetChunk < m.index + m.direction)
  let c := circulate ai cycle m ⟨s.assignments, s.numChanged, true, []⟩
  let shouldReorg := decide ¬(m.index = cycle.length - 1 ∧ m.direction = 1)
  let tree :=
    if shouldReorg then
      if minChainInVoter then
        (reorgPath [m.voter, m.target] voterRootPath s.tree).setParentOf voterNode targetNode
      else
        (reorgPath [m.voter, m.target] targetRootPath s.tree).setParentOf targetNode voterNode
    else s.tree
  (⟨c.assignments, removeCollapsed tree c.additionalRemoved, c.numChanged⟩, c.shouldIncCounter)

/-- The edge from `voter` to `target` added to the forest: a new node hangs from the other one,
two trees merge, and an edge inside one tree closes a cycle; with `should_inc_counter`. -/
def reduceEdge (ai : ℕ) (voter target : A) (s : ReduceState A) : ReduceState A × Bool :=
  let voterId : NodeId A := ⟨voter, .voter⟩
  let targetId : NodeId A := ⟨target, .target⟩
  let tree := (s.tree.orInsert voterId).orInsert targetId
  match decide (voterId ∈ s.tree), decide (targetId ∈ s.tree) with
  | false, false => ({ s with tree := tree.setParentOf targetId voterId }, true)
  | false, true => ({ s with tree := tree.setParentOf voterId targetId }, true)
  | true, false => ({ s with tree := tree.setParentOf targetId voterId }, true)
  | true, true =>
    let voterRoot := root tree voterId
    let targetRoot := root tree targetId
    if voterRoot.1 ≠ targetRoot.1 then
      ({ s with tree := merge voterRoot.2 targetRoot.2 tree }, true)
    else reduceCycle ai voterId targetId voterRoot.2 targetRoot.2 { s with tree := tree }

/-- The inner loop of `reduce_all` over the edges of the voter at `ai`, with `fuel` rounds left;
`dist_index` stays when an edge of this voter was removed. -/
def reduceAllLoop (ai : ℕ) (voter : A) : ℕ → ℕ → ReduceState A → ReduceState A
  | 0, _, s => s
  | fuel + 1, distIndex, s =>
    match (distributionAt s.assignments ai)[distIndex]? with
    | none => s
    | some (target, _) =>
      let r := reduceEdge ai voter target s
      reduceAllLoop ai voter fuel (if r.2 then distIndex + 1 else distIndex) r.1

/-- One voter of `reduce_all`. -/
def reduceAllVoter (s : ReduceState A) (ai : ℕ) : ReduceState A :=
  match s.assignments[ai]? with
  | none => s
  | some a => reduceAllLoop ai a.who (a.distribution.length + 1) 0 s

/-- `reduce_all`: the assignments and the number of edges removed. -/
def reduceAll (as : List (StakedAssignment A)) : List (StakedAssignment A) × ℕ :=
  let s := (List.range as.length).foldl reduceAllVoter ⟨as, ∅, 0⟩
  (s.assignments, s.numChanged)

/-- `reduce`: `reduce_4`, then `reduce_all`, with the edges both removed; `none` for the panic of
`reduce_4`. -/
def reduce (as : List (StakedAssignment A)) : Option (List (StakedAssignment A) × ℕ) :=
  (reduce4 as).map fun r =>
    let r' := reduceAll r.1
    (r'.1, r.2 + r'.2)

end ReduceAll

/-- Three voters who vote for themselves among others: 0 gives 4 to itself and 2 to 1, 1 gives
5 to itself, 2 to 2 and 5 to 0, 2 gives 5 to itself and 5 to 1. -/
def selfVotes : List (StakedAssignment ℕ) :=
  [⟨0, [(0, 4), (1, 2)]⟩, ⟨1, [(1, 5), (2, 2), (0, 5)]⟩, ⟨2, [(2, 5), (1, 5)]⟩]

/-! ## `reduce` only removes edges -/

theorem updateEdges_shrinks (op : ℕ → ℕ) (removeZero : Bool) (voter target : A)
    (hop : removeZero = true ∨ ∀ w, 0 < w → 0 < op w) (as : List (StakedAssignment A)) (n : ℕ) :
    Shrinks as n (updateEdges op removeZero voter target 0 as).1
      (n + (updateEdges op removeZero voter target 0 as).2.length) :=
  ⟨⟨_, updateEdges_drops op removeZero voter target 0 as, rfl⟩,
    updateEdges_positive op removeZero voter target hop 0 as⟩

theorem Circulation.move_progress {ai : ℕ} {as : List (StakedAssignment A)} {n : ℕ}
    {c : Circulation A} (h : Progress ai as n c.assignments c.numChanged c.shouldIncCounter)
    (minValue : ℕ) (add record : Bool) (current other : NodeId A) :
    Progress ai as n (c.move ai minValue add record current other).assignments
      (c.move ai minValue add record current other).numChanged
      (c.move ai minValue add record current other).shouldIncCounter := by
  have hstep := updateEdges_shrinks (circulationOp add minValue) true current.who other.who
    (Or.inl rfl) c.assignments c.numChanged
  refine ⟨h.toShrinks.trans hstep, fun hinc => ?_⟩
  -- `should_inc_counter` falls here by an edge of the voter at `ai`, or had fallen before
  simp only [Circulation.move, Bool.and_eq_false_iff, Bool.not_eq_false', List.contains_iff_mem]
    at hinc
  rcases hinc with hc | hai
  · exact lt_of_le_of_lt (hstep.length_le ai) (h.length_lt hc)
  · have hlt := (updateEdges_removed _ true _ _ 0 c.assignments ai hai).2
    rw [Nat.sub_zero] at hlt
    exact lt_of_lt_of_le hlt (h.toShrinks.length_le ai)

section Passes

variable [Inhabited A]

theorem circulate_progress (ai : ℕ) (cycle : List (NodeId A)) (m : CycleMin A)
    {as : List (StakedAssignment A)} {n : ℕ} {c : Circulation A}
    (h : Progress ai as n c.assignments c.numChanged c.shouldIncCounter) :
    Progress ai as n (circulate ai cycle m c).assignments (circulate ai cycle m c).numChanged
      (circulate ai cycle m c).shouldIncCounter := by
  unfold circulate
  refine StepMachine.foldl_invariant _
    (fun _ (c : Circulation A) => Progress ai as n c.assignments c.numChanged c.shouldIncCounter)
    ?_ _ h
  intro i _ c hc
  dsimp only
  split
  · exact Circulation.move_progress (Circulation.move_progress hc ..) ..
  · exact hc

theorem reduceEdge_progress (ai : ℕ) (voter target : A) (s : ReduceState A) :
    Progress ai s.assignments s.numChanged (reduceEdge ai voter target s).1.assignments
      (reduceEdge ai voter target s).1.numChanged (reduceEdge ai voter target s).2 := by
  simp only [reduceEdge]
  -- a new node or a merge changes the tree only; a cycle is cancelled by `circulate`
  split
  · exact Progress.of_shrinks (Shrinks.refl _ _)
  · exact Progress.of_shrinks (Shrinks.refl _ _)
  · exact Progress.of_shrinks (Shrinks.refl _ _)
  · split
    · exact Progress.of_shrinks (Shrinks.refl _ _)
    · exact circulate_progress ai _ _ (Progress.of_shrinks (Shrinks.refl _ _))

theorem reduceAllLoop_shrinks (ai : ℕ) (voter : A) :
    ∀ (fuel distIndex : ℕ) (s : ReduceState A),
      Shrinks s.assignments s.numChanged (reduceAllLoop ai voter fuel distIndex s).assignments
        (reduceAllLoop ai voter fuel distIndex s).numChanged
  | 0, _, s => Shrinks.refl _ _
  | fuel + 1, distIndex, s => by
    simp only [reduceAllLoop]
    split
    · exact Shrinks.refl _ _
    · exact (reduceEdge_progress ai voter _ s).toShrinks.trans
        (reduceAllLoop_shrinks ai voter fuel _ _)

/-- Each round of the inner loop of `reduce_all` reads one edge further or removes one of the
voter's edges, so the loop ends within one round more than the voter has edges: more fuel changes
nothing. -/
theorem reduceAllLoop_fuel_stable (ai : ℕ) (voter : A) :
    ∀ (fuel extra distIndex : ℕ) (s : ReduceState A),
      (distributionAt s.assignments ai).length - distIndex < fuel →
      reduceAllLoop ai voter (fuel + extra) distIndex s = reduceAllLoop ai voter fuel distIndex s
  | 0, _, _, _, h => absurd h (Nat.not_lt_zero _)
  | fuel + 1, extra, distIndex, s, h => by
    rw [Nat.add_right_comm]
    simp only [reduceAllLoop]
    split
    · rfl
    · rename_i target w hget
      have hin : distIndex < (distributionAt s.assignments ai).length :=
        (List.getElem?_eq_some_iff.mp hget).1
      have hprog := reduceEdge_progress ai voter target s
      have hle := hprog.toShrinks.length_le ai
      apply reduceAllLoop_fuel_stable ai voter fuel extra
      split
      · omega
      · next hinc =>
        have hlt := hprog.length_lt (Bool.eq_false_iff.mpr hinc)
        omega

theorem reduceAllVoter_fuel_stable (s : ReduceState A) (ai : ℕ) (a : StakedAssignment A)
    (ha : s.assignments[ai]? = some a) (extra : ℕ) :
    reduceAllLoop ai a.who (a.distribution.length + 1 + extra) 0 s = reduceAllVoter s ai := by
  rw [reduceAllVoter, ha]
  exact reduceAllLoop_fuel_stable ai a.who _ extra 0 s (by simp [distributionAt, ha])

theorem reduceAllVoter_shrinks (s : ReduceState A) (ai : ℕ) :
    Shrinks s.assignments s.numChanged (reduceAllVoter s ai).assignments
      (reduceAllVoter s ai).numChanged := by
  unfold reduceAllVoter
  split
  · exact Shrinks.refl _ _
  · exact reduceAllLoop_shrinks ai _ _ 0 s

theorem reduceAll_shrinks (as : List (StakedAssignment A)) :
    Shrinks as 0 (reduceAll as).1 (reduceAll as).2 :=
  StepMachine.foldl_invariant reduceAllVoter (fun _ s => Shrinks as 0 s.assignments s.numChanged)
    (fun ai _ s h => h.trans (reduceAllVoter_shrinks s ai)) _ (Shrinks.refl as 0)

theorem increase4_shrinks (who otherWho : A) (cycle : List (A × ℕ)) (minValue : ℕ) (n : ℕ) :
    ∀ (indices : List ℕ) (as : List (StakedAssignment A)),
      Shrinks as n (increase4 who otherWho cycle minValue indices as) n
  | [], as => Shrinks.refl as n
  | i :: indices, as => by
    have hstep := updateEdges_shrinks (Saturating.add 128 · minValue) false
      (cycleVoter who otherWho i) (cycle.getD i default).1
      (Or.inr fun w hw => lt_min (by omega) (by norm_num)) as n
    rw [updateEdges_not_removed, List.length_nil, Nat.add_zero] at hstep
    exact hstep.trans (increase4_shrinks who otherWho cycle minValue n indices _)

theorem decrease4_shrinks (who otherWho : A) (cycle : List (A × ℕ)) (minValue : ℕ) :
    ∀ (indices : List ℕ) (st : List (StakedAssignment A) × List ℕ × ℕ),
      Shrinks st.1 st.2.2 (decrease4 who otherWho cycle minValue indices st).1
        (decrease4 who otherWho cycle minValue indices st).2.2
  | [], st => Shrinks.refl st.1 st.2.2
  | i :: indices, st => by
    let r := updateEdges (· - minValue) true (cycleVoter who otherWho i) (cycle.getD i default).1 0
      st.1
    exact (updateEdges_shrinks _ true _ _ (Or.inl rfl) st.1 st.2.2).trans
      (decrease4_shrinks who otherWho cycle minValue indices
        (r.1, st.2.1 ++ List.replicate r.2.length i, st.2.2 + r.2.length))

theorem reduce4Cycle_shrinks {who otherWho v1 v2 : A} {cycle : List (A × ℕ)}
    {s s' : Reduce4State A} (h : reduce4Cycle who otherWho v1 v2 cycle s = some s') :
    Shrinks s.assignments s.numChanged s'.assignments s'.numChanged := by
  have hloops := (increase4_shrinks who otherWho cycle (minIndex4 cycle).1 s.numChanged
    (circulation4 (minIndex4 cycle).2).1 s.assignments).trans
    (decrease4_shrinks who otherWho cycle (minIndex4 cycle).1 (circulation4 (minIndex4 cycle).2).2
      (increase4 who otherWho cycle (minIndex4 cycle).1 (circulation4 (minIndex4 cycle).2).1
        s.assignments, [], s.numChanged))
  -- every outcome but the panic writes back what the two loops left
  simp only [reduce4Cycle] at h
  split at h <;> first
    | (cases h; exact hloops)
    | exact absurd h (by simp)

theorem reduce4Pair_shrinks {ai : ℕ} {who : A} {s s' : Reduce4State A} {pair : A × A}
    (h : reduce4Pair ai who s pair = some s') :
    Shrinks s.assignments s.numChanged s'.assignments s'.numChanged := by
  obtain ⟨v1, v2⟩ := pair
  simp only [reduce4Pair] at h
  -- every branch but a cancelled cycle keeps the assignments and the counter
  split at h
  · cases h
    exact Shrinks.refl _ _
  · split_ifs at h
    · cases h
      exact Shrinks.refl _ _
    · split at h
      · cases h
        exact Shrinks.refl _ _
      · split at h
        · split at h
          · exact reduce4Cycle_shrinks h
          · cases h
            exact Shrinks.refl _ _
        · split_ifs at h <;> (cases h; exact Shrinks.refl _ _)

theorem reduce4Voter_shrinks {s s' : Reduce4State A} {ai : ℕ} (h : reduce4Voter s ai = some s') :
    Shrinks s.assignments s.numChanged s'.assignments s'.numChanged := by
  unfold reduce4Voter at h
  split at h
  · cases h
    exact Shrinks.refl _ _
  · exact StepMachine.foldlM_option_preserves _
      (fun s' => Shrinks s.assignments s.numChanged s'.assignments s'.numChanged)
      (fun _ _ _ hf hs => hs.trans (reduce4Pair_shrinks hf)) _ h (Shrinks.refl _ _)

theorem reduce4_shrinks {as as' : List (StakedAssignment A)} {n : ℕ}
    (h : reduce4 as = some (as', n)) : Shrinks as 0 as' n := by
  unfold reduce4 at h
  obtain ⟨s, hs, hres⟩ := Option.map_eq_some_iff.mp h
  cases hres
  exact StepMachine.foldlM_option_preserves _
    (fun s => Shrinks as 0 s.assignments s.numChanged)
    (fun _ _ _ hf hs => hs.trans (reduce4Voter_shrinks hf)) _ hs (Shrinks.refl as 0)

/-- `reduce` only removes edges: every voter keeps a sublist of its targets, the count it returns
is the number of edges it removed, and positive weights stay positive. -/
theorem reduce_drops {as as' : List (StakedAssignment A)} {n : ℕ}
    (h : reduce as = some (as', n)) : Drops as as' n ∧ (Positive as → Positive as') := by
  unfold reduce at h
  obtain ⟨⟨as4, n4⟩, hr, hres⟩ := Option.map_eq_some_iff.mp h
  cases hres
  have hpass := (reduce4_shrinks hr).trans ((reduceAll_shrinks as4).add n4)
  obtain ⟨k, hk, hn⟩ := hpass.drops
  rw [Nat.zero_add] at hn
  exact ⟨hn ▸ hk, hpass.positive⟩

theorem reduce_drops_selfVotes :
    reduce selfVotes =
      some ([⟨0, [(0, 4)]⟩, ⟨1, [(1, 7), (0, 5)]⟩, ⟨2, [(2, 7), (1, 3)]⟩], 2) ∧
    Drops selfVotes [⟨0, [(0, 4)]⟩, ⟨1, [(1, 7), (0, 5)]⟩, ⟨2, [(2, 7), (1, 3)]⟩] 2 :=
  have h : reduce selfVotes =
      some ([⟨0, [(0, 4)]⟩, ⟨1, [(1, 7), (0, 5)]⟩, ⟨2, [(2, 7), (1, 3)]⟩], 2) := by decide
  ⟨h, (reduce_drops h).1⟩

end Passes

/-- On `selfVotes`, which has distinct voters, distinct targets in each distribution and positive
weights, `reduce` removes the edges from 0 to 1 and from 1 to 2, and the backing changes: voter 0
goes from 6 to 4 and target 1 from 12 to 10. `reduce_4` finds nothing; in `reduce_all` the first
cycle, through the edges from 0 and 1 to 0 and 1, is cancelled at the edge from 0 to 1, but the
re-org tests `min_edge.contains` on accounts only: on the path from voter 1 it stops at once, at
the pointer from voter 1 to target 1, both accounts of the least edge, and leaves target 1 pointing
at voter 0 along the edge just removed. The cycle that the edge from 2 to 1 then closes runs
through that edge: the circulation over it takes 2 from the edge of voter 0 to target 0 and 2 from
the edge of voter 2 to target 1, and nothing gives them back. -/
theorem reduce_self_votes_changes_backing :
    (selfVotes.map (·.who)).Nodup ∧ (∀ a ∈ selfVotes, (a.distribution.map Prod.fst).Nodup) ∧
      Positive selfVotes ∧
    reduce selfVotes =
      some ([⟨0, [(0, 4)]⟩, ⟨1, [(1, 7), (0, 5)]⟩, ⟨2, [(2, 7), (1, 3)]⟩], 2) ∧
    selfVotes.map (fun a => (a.distribution.map Prod.snd).sum) = [6, 12, 10] ∧
    toSupportMap [0, 1, 2] selfVotes =
      .ok [(0, ⟨9, [(0, 4), (1, 5)]⟩), (1, ⟨12, [(0, 2), (1, 5), (2, 5)]⟩), (2, ⟨7, [(1, 2), (2, 5)]⟩)] ∧
    ([⟨0, [(0, 4)]⟩, ⟨1, [(1, 7), (0, 5)]⟩, ⟨2, [(2, 7), (1, 3)]⟩] : List (StakedAssignment ℕ)).map
      (fun a => (a.distribution.map Prod.snd).sum) = [4, 12, 10] ∧
    toSupportMap [0, 1, 2]
        ([⟨0, [(0, 4)]⟩, ⟨1, [(1, 7), (0, 5)]⟩, ⟨2, [(2, 7), (1, 3)]⟩] : List (StakedAssignment ℕ)) =
      .ok [(0, ⟨9, [(0, 4), (1, 5)]⟩), (1, ⟨10, [(1, 7), (2, 3)]⟩), (2, ⟨7, [(2, 7)]⟩)] := by
  refine ⟨by decide, by decide, ?_, by decide, by decide, by decide, by decide, by decide⟩
  unfold Positive
  decide

end Tetcore.Elections
