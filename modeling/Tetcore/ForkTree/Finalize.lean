import Tetcore.ForkTree.Prune

/-!
# What finalization keeps

`finalize` of a root promotes its children. Otherwise it fails when a root below the number given
is above the block, and keeps the roots above the number and below the block.
`finalize_with_ancestors` walks the roots instead: it opens every root above the block, keeps those
below it, drops the rest, and stops at the block. When the number given is the block's own, both
leave exactly the nodes below the block, each root left a subtree of the tree as it was
(`Finalized`). With another number they can drop nodes below the block.
-/

namespace Tetcore.ForkTree

open Rose hiding label children node WellFormed
open Vec

variable {H N V : Type}

theorem finalizeRootAt_of_getElem? {t : ForkTree H N V} {i : ℕ} {root : Node H N V}
    (h : t.roots[i]? = some root) :
    t.finalizeRootAt i = some (⟨root.children, some root.label.number⟩, root.label.data) := by
  simp [finalizeRootAt, swapRemove, h]

theorem finalizeRoot_cases [DecidableEq H] (t : ForkTree H N V) (hash : H) :
    (t.finalizeRoot hash = some (t, none) ∧ ∀ r ∈ t.roots, r.label.hash ≠ hash) ∨
      ∃ r ∈ t.roots, r.label.hash = hash ∧
        t.finalizeRoot hash = some (⟨r.children, some r.label.number⟩, some r.label.data) := by
  cases hidx : t.roots.findIdx? (fun node => decide (node.label.hash = hash)) with
  | none =>
    refine .inl ⟨by rw [finalizeRoot, hidx], fun r hr hrh => ?_⟩
    have hfalse := List.findIdx?_eq_none_iff.mp hidx r hr
    simp [hrh] at hfalse
  | some i =>
    obtain ⟨hi, hp, -⟩ := List.findIdx?_eq_some_iff_getElem.mp hidx
    refine .inr ⟨t.roots[i], List.getElem_mem hi, by simpa using hp, ?_⟩
    rw [finalizeRoot, hidx]
    dsimp only
    rw [finalizeRootAt_of_getElem? (List.getElem?_eq_getElem hi)]
    rfl

/-- What a finalization that returned `(t', result)` did to `t`: the finalized number is
`number`; the nodes left are the nodes of `t` below the block, under roots that are subtrees of
`t`; and the result is `Changed(Some(v))` when the block was found with data `v`, otherwise
`Changed(None)` when nodes went and `Unchanged` when none did. -/
structure Finalized (isDescendentOf : H → H → Bool) (hash : H) (number : N) (found : V → Prop)
    (t t' : ForkTree H N V) (result : FinalizationResult V) : Prop where
  best : t'.bestFinalizedNumber = some number
  mem : ∀ x, x ∈ labels t'.roots ↔ x ∈ labels t.roots ∧ isDescendentOf hash x.hash = true
  subtree : ∀ r ∈ t'.roots, ∃ p, nodeAt t.roots p = some r
  changed_some : ∀ v, result = .changed (some v) ↔ found v
  changed_none : result = .changed none ↔
    (∀ v, ¬found v) ∧ ∃ x ∈ labels t.roots, x ∉ labels t'.roots
  unchanged : result = .unchanged ↔ ∀ x ∈ labels t.roots, x ∈ labels t'.roots

section Finalized

variable {isDescendentOf : H → H → Bool} {hash : H} {number : N} {found : V → Prop}
  {t t' : ForkTree H N V} {result : FinalizationResult V}

theorem Finalized.of_unchanged (best : t'.bestFinalizedNumber = some number)
    (mem : ∀ x, x ∈ labels t'.roots ↔ x ∈ labels t.roots ∧ isDescendentOf hash x.hash = true)
    (subtree : ∀ r ∈ t'.roots, ∃ p, nodeAt t.roots p = some r)
    (changed_some : ∀ v, result = .changed (some v) ↔ found v)
    (unchanged : result = .unchanged ↔ ∀ x ∈ labels t.roots, x ∈ labels t'.roots) :
    Finalized isDescendentOf hash number found t t' result where
  best := best
  mem := mem
  subtree := subtree
  changed_some := changed_some
  unchanged := unchanged
  changed_none := by
    cases result with
    | changed data =>
      cases data with
      | some v => exact iff_of_false (by simp) fun h => h.1 v ((changed_some v).mp rfl)
      | none =>
        refine iff_of_true rfl ⟨fun v hv => by simpa using (changed_some v).mpr hv, ?_⟩
        by_contra hall
        simp only [not_exists, not_and, not_not] at hall
        simpa using unchanged.mpr hall
    | unchanged =>
      refine iff_of_false (by simp) fun h => ?_
      obtain ⟨x, hx, hx'⟩ := h.2
      exact hx' (unchanged.mp rfl x hx)

end Finalized

/-- What the loop of `finalize_with_ancestors` started on `t` returns; `changed` says whether an
earlier round took a node out. -/
structure LoopSpec (isDescendentOf : H → H → Bool) (hash : H) (number : N) (t : ForkTree H N V)
    (changed : Bool) (result : ForkTree H N V × FinalizationResult V) : Prop where
  best : result.1.bestFinalizedNumber = some number
  mem : ∀ x, x ∈ labels result.1.roots ↔ x ∈ labels t.roots ∧ isDescendentOf hash x.hash = true
  subtree : ∀ r ∈ result.1.roots, ∃ p, nodeAt t.roots p = some r
  changed_some : ∀ v, result.2 = .changed (some v) ↔ ∃ x ∈ labels t.roots, x.hash = hash ∧ x.data = v
  unchanged : result.2 = .unchanged ↔ changed = false ∧ ∀ x ∈ labels t.roots, x ∈ labels result.1.roots

section LoopSpec

variable {isDescendentOf : H → H → Bool} {hash : H} {number : N} {t t₁ : ForkTree H N V}
  {changed : Bool} {result : ForkTree H N V × FinalizationResult V}

theorem LoopSpec.finalized (h : LoopSpec isDescendentOf hash number t false result) :
    Finalized isDescendentOf hash number (fun v => ∃ x ∈ labels t.roots, x.hash = hash ∧ x.data = v)
      t result.1 result.2 :=
  .of_unchanged h.best h.mem h.subtree h.changed_some (by rw [h.unchanged]; simp)

theorem LoopSpec.of_finalized
    (h : Finalized isDescendentOf hash number
      (fun v => ∃ x ∈ labels t.roots, x.hash = hash ∧ x.data = v) t result.1 result.2)
    (hchanged : result.2 ≠ .unchanged) : LoopSpec isDescendentOf hash number t changed result where
  best := h.best
  mem := h.mem
  subtree := h.subtree
  changed_some := h.changed_some
  unchanged := iff_of_false hchanged fun hall => hchanged (h.unchanged.mpr hall.2)

theorem LoopSpec.transfer {x₀ : NodeInfo H N V}
    (hsame : ∀ x, isDescendentOf hash x.hash = true ∨ x.hash = hash →
      (x ∈ labels t₁.roots ↔ x ∈ labels t.roots))
    (hsub : ∀ r ∈ t₁.roots, ∃ p, nodeAt t.roots p = some r)
    (hx₀ : x₀ ∈ labels t.roots) (hx₀' : isDescendentOf hash x₀.hash ≠ true)
    (h : LoopSpec isDescendentOf hash number t₁ true result) :
    LoopSpec isDescendentOf hash number t changed result where
  best := h.best
  mem x := by
    rw [h.mem x]
    constructor
    · rintro ⟨hx, hxd⟩
      exact ⟨(hsame x (.inl hxd)).mp hx, hxd⟩
    · rintro ⟨hx, hxd⟩
      exact ⟨(hsame x (.inl hxd)).mpr hx, hxd⟩
  subtree r hr := by
    obtain ⟨p, hp⟩ := h.subtree r hr
    exact nodeAt_trans hsub hp
  changed_some v := by
    rw [h.changed_some v]
    constructor
    · rintro ⟨x, hx, hxh, hxv⟩
      exact ⟨x, (hsame x (.inr hxh)).mp hx, hxh, hxv⟩
    · rintro ⟨x, hx, hxh, hxv⟩
      exact ⟨x, (hsame x (.inr hxh)).mpr hx, hxh, hxv⟩
  unchanged := by
    rw [h.unchanged]
    -- `x₀` is gone, so neither side holds
    refine iff_of_false (by simp) fun hall => hx₀' ((h.mem x₀).mp (hall.2 x₀ hx₀)).2

end LoopSpec

theorem mem_labels_singleton {r : Node H N V} {x : NodeInfo H N V} :
    x ∈ labels [r] ↔ x = r.label ∨ x ∈ labels r.children := by
  obtain ⟨a, cs⟩ := r
  rw [labels_singleton, List.mem_cons]
  rfl

theorem mem_labels_of_swapRemove {F rest : List (Node H N V)} {i : ℕ} {r : Node H N V}
    (h : swapRemove F i = some (r, rest)) {x : NodeInfo H N V} :
    x ∈ labels F ↔ x ∈ labels [r] ∨ x ∈ labels rest := by
  rw [(labels_perm (perm_swapRemove h)).mem_iff, ← List.singleton_append, labels_append,
    List.mem_append]

theorem exists_nodeAt_of_swapRemove {F rest : List (Node H N V)} {i : ℕ} {r : Node H N V}
    (h : swapRemove F i = some (r, rest)) {c : Node H N V} (hc : c ∈ rest ∨ c ∈ r.children) :
    ∃ p, nodeAt F p = some c := by
  have hsub : ∀ c ∈ r :: rest, c ∈ F := fun c hc => (perm_swapRemove h).symm.subset hc
  rcases hc with hc | hc
  · exact exists_nodeAt_of_mem (hsub c (List.mem_cons_of_mem r hc))
  · obtain ⟨p, hp⟩ := exists_nodeAt_of_mem (hsub r List.mem_cons_self)
    exact exists_nodeAt_of_mem_children hp hc

section WellFormed

variable {isDescendentOf : H → H → Bool} {num : H → N} {hash : H} {number : N}
  (horder : ForestOrder fun a b : H => isDescendentOf a b = true)

include horder in
theorem mem_labels_open {F rest : List (Node H N V)} {i : ℕ} {r : Node H N V}
    (h : swapRemove F i = some (r, rest)) (habove : isDescendentOf r.label.hash hash = true)
    {x : NodeInfo H N V} (hx : isDescendentOf hash x.hash = true ∨ x.hash = hash) :
    x ∈ labels (rest ++ r.children) ↔ x ∈ labels F := by
  -- the root itself is above the block, so it is not `x`
  have hne : x ≠ r.label := by
    rintro rfl
    rcases hx with hx | hx
    · exact horder.irrefl _ (horder.trans _ _ _ hx habove)
    · rw [hx] at habove
      exact horder.irrefl _ habove
  rw [mem_labels_of_swapRemove h, mem_labels_singleton, labels_append, List.mem_append]
  simp only [hne, false_or]
  exact or_comm

section Tree

variable {t : ForkTree H N V} (ht : t.WellFormed isDescendentOf num)

include ht in
theorem WellFormed.above_of_mem_root {r : Node H N V} (hr : r ∈ t.roots) {x : NodeInfo H N V}
    (hx : x ∈ labels [r]) : x = r.label ∨ isDescendentOf r.label.hash x.hash = true := by
  obtain ⟨e, he, rfl⟩ := List.mem_map.mp hx
  rw [entries_singleton] at he
  exact ht.tree.rel_of_mem_entriesFrom (entriesFrom_sublist_of_mem [] hr) he

include horder ht in
theorem WellFormed.below_of_mem_root {r : Node H N V} (hr : r ∈ t.roots)
    (hbelow : isDescendentOf hash r.label.hash = true) {x : NodeInfo H N V} (hx : x ∈ labels [r]) :
    isDescendentOf hash x.hash = true := by
  rcases ht.above_of_mem_root hr hx with rfl | hrx
  · exact hbelow
  · exact horder.trans _ _ _ hbelow hrx

include horder ht in
theorem WellFormed.unrelated_of_mem_root {r : Node H N V} (hr : r ∈ t.roots)
    (hne : r.label.hash ≠ hash) (hbelow : isDescendentOf hash r.label.hash ≠ true)
    (habove : isDescendentOf r.label.hash hash ≠ true) {x : NodeInfo H N V}
    (hx : x ∈ labels [r]) : isDescendentOf hash x.hash ≠ true ∧ x.hash ≠ hash := by
  rcases ht.above_of_mem_root hr hx with rfl | hrx
  · exact ⟨hbelow, hne⟩
  refine ⟨fun hx' => ?_, fun hxh => habove (by rw [← hxh]; exact hrx)⟩
  -- the block and the root are both above `x`, so one of them is above the other
  rcases horder.chain _ _ _ hx' hrx with heq | hrel | hrel
  · exact hne heq.symm
  · exact hbelow hrel
  · exact habove hrel

include horder ht in
theorem WellFormed.root_not_mem_children {r : Node H N V} (hr : r ∈ t.roots) :
    r.label ∉ labels r.children := fun hmem =>
  horder.irrefl _ ((ht.tree.mem_labels_children_iff hr).mp hmem).2

include horder ht in
theorem WellFormed.finalized_root (hnumber : number = num hash) {r : Node H N V} (hr : r ∈ t.roots)
    (hrh : r.label.hash = hash) {found : V → Prop} (hfound : ∀ v, found v ↔ r.label.data = v) :
    Finalized isDescendentOf hash number found t ⟨r.children, some r.label.number⟩
      (.changed (some r.label.data)) := by
  refine .of_unchanged ?_ (fun x => ?_) (fun c hc => ?_) (fun v => ?_) ?_
  · rw [ht.numbered _ (label_mem_labels hr), hrh, hnumber]
  · rw [ht.tree.mem_labels_children_iff hr, hrh]
  · obtain ⟨p, hp⟩ := exists_nodeAt_of_mem hr
    exact exists_nodeAt_of_mem_children hp hc
  · rw [hfound]
    simp
  · -- the root itself is gone
    exact iff_of_false (by simp) fun hall =>
      ht.root_not_mem_children horder hr (hall _ (label_mem_labels hr))

include ht in
theorem WellFormed.data_eq_of_hash_eq {r : Node H N V} (hr : r ∈ t.roots) {x : NodeInfo H N V}
    (hx : x ∈ labels t.roots) (hxh : x.hash = r.label.hash) : x = r.label :=
  ht.tree.label_eq_of_key_eq hx (label_mem_labels hr) hxh

include ht in
theorem WellFormed.found_iff {r : Node H N V} (hr : r ∈ t.roots) (hrh : r.label.hash = hash)
    (v : V) : (∃ x ∈ labels t.roots, x.hash = hash ∧ x.data = v) ↔ r.label.data = v := by
  constructor
  · rintro ⟨x, hx, hxh, rfl⟩
    rw [ht.data_eq_of_hash_eq hr hx (hxh.trans hrh.symm)]
  · intro hv
    exact ⟨r.label, label_mem_labels hr, hrh, hv⟩

include horder ht in
theorem WellFormed.below_of_mem (hall : ∀ r ∈ t.roots, isDescendentOf hash r.label.hash = true)
    {x : NodeInfo H N V} (hx : x ∈ labels t.roots) : isDescendentOf hash x.hash = true := by
  obtain ⟨r, hr, hxr⟩ := mem_labels_iff.mp hx
  exact ht.below_of_mem_root horder hr (hall r hr) hxr

include horder ht in
theorem WellFormed.mem_labels_drop {i : ℕ} {r : Node H N V} {rest : List (Node H N V)}
    (h : swapRemove t.roots i = some (r, rest)) (hne : r.label.hash ≠ hash)
    (hbelow : isDescendentOf hash r.label.hash ≠ true)
    (habove : isDescendentOf r.label.hash hash ≠ true) {x : NodeInfo H N V}
    (hx : isDescendentOf hash x.hash = true ∨ x.hash = hash) :
    x ∈ labels rest ↔ x ∈ labels t.roots := by
  have hr : r ∈ t.roots := (perm_swapRemove h).symm.subset List.mem_cons_self
  rw [mem_labels_of_swapRemove h]
  refine (or_iff_right fun hxr => ?_).symm
  have hx' := ht.unrelated_of_mem_root horder hr hne hbelow habove hxr
  rcases hx with hx | hx
  · exact hx'.1 hx
  · exact hx'.2 hx

variable [LinearOrder N] (hnum : ∀ a b, isDescendentOf a b = true → num a < num b)

include hnum ht in
theorem WellFormed.number_lt_of_below (hnumber : number = num hash) {x : NodeInfo H N V}
    (hx : x ∈ labels t.roots) (hbelow : isDescendentOf hash x.hash = true) : number < x.number := by
  rw [ht.numbered x hx, hnumber]
  exact hnum _ _ hbelow

include hnum ht in
theorem WellFormed.number_lt_of_above (hnumber : number = num hash) {x : NodeInfo H N V}
    (hx : x ∈ labels t.roots) (habove : isDescendentOf x.hash hash = true) : x.number < number := by
  rw [ht.numbered x hx, hnumber]
  exact hnum _ _ habove

include hnum ht in
theorem WellFormed.below_test (hnumber : number = num hash) {x : NodeInfo H N V}
    (hx : x ∈ labels t.roots) :
    (decide (number < x.number) && isDescendentOf hash x.hash) = isDescendentOf hash x.hash := by
  cases hbelow : isDescendentOf hash x.hash with
  | false => simp
  | true => simp [ht.number_lt_of_below hnum hnumber hx hbelow]

include hnum ht in
theorem WellFormed.above_test (hnumber : number = num hash) {x : NodeInfo H N V}
    (hx : x ∈ labels t.roots) :
    (decide (x.number < number) && isDescendentOf x.hash hash) = isDescendentOf x.hash hash := by
  cases habove : isDescendentOf x.hash hash with
  | false => simp
  | true => simp [ht.number_lt_of_above hnum hnumber hx habove]

include hnum ht in
theorem WellFormed.any_above_iff (hnumber : number = num hash) :
    (t.roots.any fun root =>
        decide (root.label.number < number) && isDescendentOf root.label.hash hash) = true ↔
      ∃ r ∈ t.roots, isDescendentOf r.label.hash hash = true := by
  rw [List.any_eq_true]
  exact exists_congr fun r => and_congr_right fun hr => by
    rw [ht.above_test hnum hnumber (label_mem_labels hr)]

end Tree

variable [DecidableEq H] [LinearOrder N] (hnum : ∀ a b, isDescendentOf a b = true → num a < num b)

include horder hnum in
/-- **The loop of `finalize_with_ancestors`.** Started at a root `idx` before which every root is
below the block, the loop returns what `LoopSpec` says: each round keeps a root below the block,
opens one above it, drops one unrelated to it, or stops at the block itself. -/
theorem finalizeWithAncestorsLoop_spec (hnumber : number = num hash) (t : ForkTree H N V) (idx : ℕ)
    (changed : Bool) : ∀ {result}, t.WellFormed isDescendentOf num →
      (∀ r ∈ t.roots.take idx, isDescendentOf hash r.label.hash = true) →
      finalizeWithAncestorsLoop isDescendentOf hash number t idx changed = some result →
      LoopSpec isDescendentOf hash number t changed result := by
  fun_induction finalizeWithAncestorsLoop isDescendentOf hash number t idx changed with
  | case1 t changed =>
    -- past the last root: every root is below the block, and the loop keeps them all
    intro result ht hprefix h
    cases h
    rw [List.take_length] at hprefix
    have hbelow := fun x (hx : x ∈ labels t.roots) => ht.below_of_mem horder hprefix hx
    refine ⟨rfl, fun x => ⟨fun hx => ⟨hx, hbelow x hx⟩, And.left⟩,
      fun r hr => exists_nodeAt_of_mem hr, fun v => iff_of_false (by cases changed <;> simp) ?_,
      by cases changed <;> simp⟩
    rintro ⟨x, hx, hxh, -⟩
    have hself := hbelow x hx
    rw [hxh] at hself
    exact horder.irrefl hash hself
  | case2 => intro _ _ _ h; cases h
  | case3 t idx changed _ root hroot isFinalized =>
    rename_i hfin
    intro result ht _ h
    have hrh : root.label.hash = hash := by simpa [isFinalized] using hfin
    have hr : root ∈ t.roots := List.mem_of_getElem? hroot
    rw [finalizeRootAt_of_getElem? hroot, Option.map_some, Option.some.injEq] at h
    subst h
    exact .of_finalized (ht.finalized_root horder hnumber hr hrh (ht.found_iff hr hrh)) (by simp)
  | case4 t idx changed _ root hroot isFinalized isDescendant _ hdesc =>
    -- a root below the block stays, and the loop goes on past it
    rename_i ih
    intro result ht hprefix h
    have hbelow : isDescendentOf hash root.label.hash = true := by
      simp only [isDescendant, Bool.and_eq_true] at hdesc
      exact hdesc.2
    refine ih ht (fun r hr => ?_) h
    rw [List.take_add_one, hroot, Option.toList_some, List.mem_append, List.mem_singleton] at hr
    rcases hr with hr | rfl
    · exact hprefix r hr
    · exact hbelow
  | case5 => intro _ _ _ h; cases h
  | case6 t idx changed _ root hroot isFinalized isDescendant isAncestor _ _ removed rest hremoved
      hanc =>
    -- a root above the block: its children take its place and the loop looks at `idx` again
    rename_i ih
    intro result ht hprefix h
    obtain rfl : removed = root := Option.some.inj ((fst_swapRemove hremoved).symm.trans hroot)
    have habove : isDescendentOf removed.label.hash hash = true := by
      simp only [isAncestor, Bool.and_eq_true] at hanc
      exact hanc.2
    have hlen : idx ≤ rest.length := by
      have hidx := (List.getElem?_eq_some_iff.mp hroot).1
      have := length_swapRemove hremoved
      omega
    have hprefix₁ : ∀ r ∈ (rest ++ removed.children).take idx,
        isDescendentOf hash r.label.hash = true := by
      rw [List.take_append_of_le_length hlen, take_swapRemove hremoved]
      exact hprefix
    refine (ih (ht.of_pruned (ht.pruned_swapRemove_children hremoved)) hprefix₁ h).transfer
      (fun x hx => mem_labels_open horder hremoved habove hx)
      (fun c hc => exists_nodeAt_of_swapRemove hremoved (List.mem_append.mp hc))
      (label_mem_labels (List.mem_of_getElem? hroot)) fun hbelow => ?_
    exact horder.irrefl _ (horder.trans _ _ _ hbelow habove)
  | case7 t idx changed _ root hroot isFinalized isDescendant isAncestor hfin hdesc removed rest
      hremoved hanc =>
    -- a root unrelated to the block goes, and the loop looks at `idx` again
    rename_i ih
    intro result ht hprefix h
    obtain rfl : removed = root := Option.some.inj ((fst_swapRemove hremoved).symm.trans hroot)
    have hr : removed.label ∈ labels t.roots := label_mem_labels (List.mem_of_getElem? hroot)
    have hne : removed.label.hash ≠ hash := by simpa [isFinalized] using hfin
    -- with the block's number, the number tests follow from the ancestry tests
    have hbelow : isDescendentOf hash removed.label.hash ≠ true := fun hb => by
      simp [isDescendant, isFinalized, hne, ht.number_lt_of_below hnum hnumber hr hb, hb] at hdesc
    have habove : isDescendentOf removed.label.hash hash ≠ true := fun ha => by
      have hdesc' : isDescendant = false := by simpa using hdesc
      simp [isAncestor, isFinalized, hne, hdesc', ht.number_lt_of_above hnum hnumber hr ha, ha] at hanc
    have hprefix₁ : ∀ r ∈ rest.take idx, isDescendentOf hash r.label.hash = true := by
      rw [take_swapRemove hremoved]
      exact hprefix
    exact (ih (ht.of_pruned (pruned_swapRemove hremoved)) hprefix₁ h).transfer
      (fun x hx => ht.mem_labels_drop horder hremoved hne hbelow habove hx)
      (fun c hc => exists_nodeAt_of_swapRemove hremoved (.inl hc)) hr hbelow

section Finalize

variable {t : ForkTree H N V} (ht : t.WellFormed isDescendentOf num)
include hnum ht

theorem WellFormed.finalize_eq_err_iff (hrevert : t.reverts number = false)
    (hnumber : number = num hash) :
    t.finalize isDescendentOf hash number = .err .unfinalizedAncestor ↔
      ∃ r ∈ t.roots, isDescendentOf r.label.hash hash = true := by
  rw [ForkTree.finalize, hrevert, if_neg Bool.false_ne_true]
  rcases finalizeRoot_cases t hash with ⟨hroot, -⟩ | ⟨r, hr, hrh, hroot⟩ <;> rw [hroot]
  · dsimp only
    split_ifs with hany
    · exact iff_of_true rfl ((ht.any_above_iff hnum hnumber).mp hany)
    · exact iff_of_false (by simp) (mt (ht.any_above_iff hnum hnumber).mpr hany)
  · -- a root is the block, so no root is above it
    refine iff_of_false (by simp) fun ⟨r', hr', habove⟩ =>
      ht.tree.not_rel_root hr (label_mem_labels hr') ?_
    show isDescendentOf r'.label.hash r.label.hash = true
    rw [hrh]
    exact habove

include horder

omit [DecidableEq H] in
theorem WellFormed.finalized_filter (hnumber : number = num hash)
    (hnone : ∀ r ∈ t.roots, r.label.hash ≠ hash)
    (hany : ∀ r ∈ t.roots, isDescendentOf r.label.hash hash ≠ true) :
    Finalized isDescendentOf hash number
      (fun v => ∃ r ∈ t.roots, r.label.hash = hash ∧ r.label.data = v) t
      ⟨t.roots.filter fun root =>
          decide (number < root.label.number) && isDescendentOf hash root.label.hash, some number⟩
      (if t.roots.all fun root =>
          decide (number < root.label.number) && isDescendentOf hash root.label.hash then
        .unchanged else .changed none) := by
  have hkeep : ∀ r ∈ t.roots, (decide (number < r.label.number) &&
      isDescendentOf hash r.label.hash) = isDescendentOf hash r.label.hash := fun r hr =>
    ht.below_test hnum hnumber (label_mem_labels hr)
  -- the roots kept are those below the block, and their trees hold every node below it
  have hmem : ∀ x, x ∈ labels (t.roots.filter fun root =>
      decide (number < root.label.number) && isDescendentOf hash root.label.hash) ↔
      x ∈ labels t.roots ∧ isDescendentOf hash x.hash = true := by
    intro x
    rw [mem_labels_iff, mem_labels_iff]
    simp only [List.mem_filter]
    constructor
    · rintro ⟨r, ⟨hr, hk⟩, hx⟩
      rw [hkeep r hr] at hk
      exact ⟨⟨r, hr, hx⟩, ht.below_of_mem_root horder hr hk hx⟩
    · rintro ⟨⟨r, hr, hx⟩, hbelow⟩
      refine ⟨r, ⟨hr, ?_⟩, hx⟩
      rw [hkeep r hr]
      by_contra hr'
      exact (ht.unrelated_of_mem_root horder hr (hnone r hr) hr' (hany r hr) hx).1 hbelow
  refine .of_unchanged rfl hmem (fun r hr => exists_nodeAt_of_mem (List.mem_filter.mp hr).1)
    (fun v => iff_of_false (by split <;> simp) fun ⟨r, hr, hrh, _⟩ => hnone r hr hrh) ?_
  split
  · rename_i hall
    rw [List.filter_eq_self.mpr (List.all_eq_true.mp hall)]
    simp
  · -- a root that is not kept is a node that went
    rename_i hall
    refine iff_of_false (by simp) fun hsame => hall ?_
    rw [List.all_eq_true]
    intro r hr
    rw [hkeep r hr]
    exact ((hmem _).mp (hsame _ (label_mem_labels hr))).2

theorem WellFormed.finalized_finalize (hrevert : t.reverts number = false)
    (hnumber : number = num hash) {t' : ForkTree H N V} {result : FinalizationResult V}
    (h : t.finalize isDescendentOf hash number = .ok (t', result)) :
    Finalized isDescendentOf hash number
      (fun v => ∃ r ∈ t.roots, r.label.hash = hash ∧ r.label.data = v) t t' result := by
  rw [ForkTree.finalize, hrevert, if_neg Bool.false_ne_true] at h
  rcases finalizeRoot_cases t hash with ⟨hroot, hnone⟩ | ⟨r, hr, hrh, hroot⟩ <;> rw [hroot] at h
  · -- no root is the block: `finalize` fails, or keeps the roots below the block
    dsimp only at h
    split at h
    · cases h
    rename_i hany
    cases h
    exact ht.finalized_filter horder hnum hnumber hnone fun r hr habove =>
      hany ((ht.any_above_iff hnum hnumber).mpr ⟨r, hr, habove⟩)
  · cases h
    refine ht.finalized_root horder hnumber hr hrh fun v => ⟨?_, fun hv => ⟨r, hr, hrh, hv⟩⟩
    rintro ⟨r', hr', hr'h, rfl⟩
    rw [ht.data_eq_of_hash_eq hr (label_mem_labels hr') (hr'h.trans hrh.symm)]

theorem WellFormed.finalized_finalizeWithAncestors (hrevert : t.reverts number = false)
    (hnumber : number = num hash) {t' : ForkTree H N V} {result : FinalizationResult V}
    (h : t.finalizeWithAncestors isDescendentOf hash number = .ok (t', result)) :
    Finalized isDescendentOf hash number
      (fun v => ∃ x ∈ labels t.roots, x.hash = hash ∧ x.data = v) t t' result := by
  rw [ForkTree.finalizeWithAncestors, hrevert, if_neg Bool.false_ne_true] at h
  rcases finalizeRoot_cases t hash with ⟨hroot, -⟩ | ⟨r, hr, hrh, hroot⟩ <;> rw [hroot] at h
  · -- no root is the block: the loop decides
    dsimp only at h
    split at h
    · cases h
    · rename_i result' hloop
      cases h
      exact (finalizeWithAncestorsLoop_spec horder hnum hnumber t 0 false ht (by simp) hloop).finalized
  · cases h
    exact ht.finalized_root horder hnumber hr hrh (ht.found_iff hr hrh)

variable (hash number) in
/-- **Finalization.** Finalizing the block `hash` at its own number, above the last finalized one:
an `Ok` of `finalize` or of `finalize_with_ancestors` leaves the nodes below the block, under
subtrees of the tree as it was, and says `Changed(Some(v))` when the block was a root (for
`finalize`) or a node (for `finalize_with_ancestors`) with data `v`, otherwise `Changed(None)` or
`Unchanged` as nodes went or not; `finalize` fails for an unfinalized ancestor exactly when a root
is above the block. -/
theorem finalize_keeps_descendants (hrevert : t.reverts number = false)
    (hnumber : number = num hash) :
    (∀ t' result, t.finalize isDescendentOf hash number = .ok (t', result) →
      Finalized isDescendentOf hash number
        (fun v => ∃ r ∈ t.roots, r.label.hash = hash ∧ r.label.data = v) t t' result) ∧
    (t.finalize isDescendentOf hash number = .err .unfinalizedAncestor ↔
      ∃ r ∈ t.roots, isDescendentOf r.label.hash hash = true) ∧
    (∀ t' result, t.finalizeWithAncestors isDescendentOf hash number = .ok (t', result) →
      Finalized isDescendentOf hash number
        (fun v => ∃ x ∈ labels t.roots, x.hash = hash ∧ x.data = v) t t' result) :=
  ⟨fun _ _ h => ht.finalized_finalize horder hnum hrevert hnumber h,
    ht.finalize_eq_err_iff hnum hrevert hnumber,
    fun _ _ h => ht.finalized_finalizeWithAncestors horder hnum hrevert hnumber h⟩

end Finalize

end WellFormed

theorem finalize_keeps_descendants_threeBlocks :
    threeBlocks.finalize (fun a b => decide (a < b)) 2 2 = .err .unfinalizedAncestor :=
  (finalize_keeps_descendants 2 2 forestOrder_lt (fun a b h => by simpa using h)
    threeBlocks_wellFormed rfl rfl).2.1.mpr ⟨_, List.mem_singleton_self _, rfl⟩

/-- At a number other than the block's, `finalize` drops nodes below the block: every block of
`threeBlocks` is below block `0`, and finalizing `0` at number `5` leaves none of them. -/
theorem finalize_drops_descendants_threeBlocks :
    threeBlocks.reverts 5 = false ∧
      threeBlocks.finalize (fun a b => decide (a < b)) 0 5 = .ok (⟨[], some 5⟩, .changed none) ∧
      (⟨1, 1, 1⟩ : NodeInfo ℕ ℕ ℕ) ∈ labels threeBlocks.roots ∧ decide (0 < 1) = true :=
  ⟨rfl, rfl, label_mem_labels (List.mem_singleton_self _), rfl⟩

end Tetcore.ForkTree
