import Mathlib
import Tetcore.ForkTree.Model

/-!
# Finalization with a fallible ancestry oracle

`utils/forktree/src/lib.rs` once more, with `is_descendent_of` as the source takes it: a client
call that returns `Result<bool, E>`, its error passed on by `?` as `Error::Client`. The
finalizations take `&mut self`, so a call gives its outcome and the tree as it leaves it, also when
it returns an error.

`finalize` and `finalize_with_descendent_if` check for an error before they change anything, then
move all roots out with `mem::take` and push back those on the finalized branch; the oracle is
called in that loop too. With an oracle that never fails both are the finalizations of the model,
and every error leaves the tree as it was. A client error in the loop returns with the roots pushed
so far, and `finalize_with_descendent_if` has by then also replaced the roots by the children of the
root it finalized.
-/

namespace Tetcore.ForkTree

namespace Fallible

/-- `Error<E>`. -/
inductive Error (E : Type)
  | duplicate
  | unfinalizedAncestor
  | revert
  | client (e : E)
  deriving DecidableEq, Repr

variable {H N V E : Type}

def Error.ofForkTree : ForkTree.Error → Error E
  | .duplicate => .duplicate
  | .unfinalizedAncestor => .unfinalizedAncestor
  | .revert => .revert

/-- The outcome and the tree of a call on `&mut self` that does what a finalization of the model
does: its tree on success, and the tree as it was on an error or a panic. -/
def inPlace {R : Type} (t : ForkTree H N V) :
    Outcome ForkTree.Error (ForkTree H N V × R) → Outcome (Error E) R × ForkTree H N V
  | .ok (t', r) => (.ok r, t')
  | .err e => (.err (.ofForkTree e), t)
  | .panic => (.panic, t)

variable [DecidableEq H] [LinearOrder N] (isDescendentOf : H → H → Except E Bool)

/-- `is_descendent_of(..)?`, short-circuited by a test before it as `&&` does. -/
def askIf (test : Bool) (base target : H) : Except E Bool :=
  if test then isDescendentOf base target else .ok false

/-- `flag || is_descendent_of(..)?`, short-circuited as `||` does. -/
def askUnless (flag : Bool) (base target : H) : Except E Bool :=
  if flag then .ok true else isDescendentOf base target

/-- The test of the retain loop of `finalize`. -/
def keptByFinalize (hash : H) (number : N) (root : Node H N V) : Except E Bool :=
  askIf isDescendentOf (decide (number < root.label.number)) hash root.label.hash

/-- `FinalizationResult` of the retain loop: unchanged when every root was pushed back. -/
def retainResult (roots kept : List (Node H N V)) : FinalizationResult V :=
  if kept.length = roots.length then .unchanged else .changed none

/-- `finalize`. -/
def finalize (t : ForkTree H N V) (hash : H) (number : N) :
    Outcome (Error E) (FinalizationResult V) × ForkTree H N V :=
  if t.reverts number then (.err .revert, t)
  else
    match t.finalizeRoot hash with
    | none => (.panic, t)
    | some (t', some data) => (.ok (.changed (some data)), t')
    | some (_, none) =>
      match t.roots.anyM fun root =>
          askIf isDescendentOf (decide (root.label.number < number)) root.label.hash hash with
      | .error e => (.err (.client e), t)
      | .ok true => (.err .unfinalizedAncestor, t)
      | .ok false =>
        -- `mem::take(&mut self.roots)`: a failing call leaves the roots pushed back so far
        match Vec.retainTaken (keptByFinalize isDescendentOf hash number) t.roots with
        | (some e, kept) => (.err (.client e), ⟨kept, t.bestFinalizedNumber⟩)
        | (none, kept) => (.ok (retainResult t.roots kept), ⟨kept, some number⟩)

/-- The search of `finalize_with_descendent_if` for the root to finalize, from index `i`. -/
def descendentPosition (hash : H) (number : N) (predicate : V → Bool) (i : ℕ) :
    List (Node H N V) → Except (Error E) (Option ℕ)
  | [] => .ok none
  | root :: roots =>
    if predicate root.label.data then
      match askUnless isDescendentOf (decide (root.label.hash = hash)) root.label.hash hash with
      | .error e => .error (.client e)
      | .ok false => descendentPosition hash number predicate (i + 1) roots
      | .ok true =>
        match root.children.anyM fun node =>
            askIf isDescendentOf (decide (node.label.number ≤ number)) node.label.hash hash with
        | .error e => .error (.client e)
        | .ok true => .error .unfinalizedAncestor
        | .ok false => .ok (some i)
    else descendentPosition hash number predicate (i + 1) roots

/-- The test of the retain loop of `finalize_with_descendent_if`: a later block on the finalized
branch, the finalized block itself, or a block below it. -/
def keptByDescendentIf (hash : H) (number : N) (root : Node H N V) : Except E Bool :=
  match askIf isDescendentOf (decide (number < root.label.number)) hash root.label.hash with
  | .error e => .error e
  | .ok true => .ok true
  | .ok false =>
    askUnless isDescendentOf (decide (root.label.number = number) && decide (root.label.hash = hash))
      root.label.hash hash

/-- `finalize_with_descendent_if`. -/
def finalizeWithDescendentIf (t : ForkTree H N V) (hash : H) (number : N)
    (predicate : V → Bool) : Outcome (Error E) (FinalizationResult V) × ForkTree H N V :=
  if t.reverts number then (.err .revert, t)
  else
    match descendentPosition isDescendentOf hash number predicate 0 t.roots with
    | .error e => (.err e, t)
    | .ok position =>
      let finalized : Option (ForkTree H N V × Option V) :=
        match position with
        | none => some (t, none)
        | some i => (t.finalizeRootAt i).map fun (t, data) => (t, some data)
      match finalized with
      | none => (.panic, t)
      | some (t, nodeData) =>
        match Vec.retainTaken (keptByDescendentIf isDescendentOf hash number) t.roots with
        | (some e, kept) => (.err (.client e), ⟨kept, t.bestFinalizedNumber⟩)
        | (none, kept) =>
          (.ok (match nodeData with
            | some data => .changed (some data)
            | none => retainResult t.roots kept), ⟨kept, some number⟩)

/-! ### An oracle that never fails -/

section Infallible

variable (f : H → H → Bool)

omit [DecidableEq H] [LinearOrder N] in
@[simp]
theorem askIf_ok (test : Bool) (base target : H) :
    askIf (fun a b => (.ok (f a b) : Except E Bool)) test base target =
      .ok (test && f base target) := by
  cases test <;> rfl

omit [DecidableEq H] [LinearOrder N] in
@[simp]
theorem askUnless_ok (flag : Bool) (base target : H) :
    askUnless (fun a b => (.ok (f a b) : Except E Bool)) flag base target =
      .ok (flag || f base target) := by
  cases flag <;> rfl

omit [DecidableEq H] [LinearOrder N] in
theorem anyM_askIf_ok {α : Type} (l : List α) (test : α → Bool) (base target : α → H) :
    l.anyM (fun x => askIf (fun a b => (.ok (f a b) : Except E Bool)) (test x) (base x) (target x)) =
      .ok (l.any fun x => test x && f (base x) (target x)) := by
  simp only [askIf_ok]
  exact List.anyM_pure

omit [DecidableEq H] [LinearOrder N] in
theorem retainResult_filter (roots : List (Node H N V)) (p : Node H N V → Bool) :
    retainResult roots (roots.filter p) = if roots.all p then .unchanged else .changed none := by
  simp only [retainResult, List.length_filter_eq_length_iff, List.all_eq_true]

omit [DecidableEq H] in
theorem keptByFinalize_ok (hash : H) (number : N) :
    keptByFinalize (fun a b => (.ok (f a b) : Except E Bool)) hash number =
      fun root : Node H N V => .ok (decide (number < root.label.number) && f hash root.label.hash) := by
  funext root
  exact askIf_ok f _ _ _

theorem finalize_of_infallible (t : ForkTree H N V) (hash : H) (number : N) :
    finalize (fun a b => (.ok (f a b) : Except E Bool)) t hash number =
      inPlace t (t.finalize f hash number) := by
  unfold finalize ForkTree.finalize
  split
  · rfl
  · rcases t.finalizeRoot hash with _ | ⟨t', _ | data⟩
    · rfl
    · rw [anyM_askIf_ok]
      cases t.roots.any fun root => decide (root.label.number < number) && f root.label.hash hash
      · simp only [keptByFinalize_ok, Vec.retainTaken_ok, retainResult_filter]
        rfl
      · rfl
    · rfl

theorem descendentPosition_ok (hash : H) (number : N) (predicate : V → Bool) :
    ∀ (i : ℕ) (roots : List (Node H N V)),
      descendentPosition (fun a b => (.ok (f a b) : Except E Bool)) hash number predicate i roots =
        (ForkTree.descendentPosition f hash number predicate i roots).mapError .ofForkTree
  | _, [] => rfl
  | i, root :: roots => by
    rw [descendentPosition, ForkTree.descendentPosition, askUnless_ok, anyM_askIf_ok]
    cases predicate root.label.data
    · exact descendentPosition_ok hash number predicate (i + 1) roots
    · cases decide (root.label.hash = hash) || f root.label.hash hash
      · exact descendentPosition_ok hash number predicate (i + 1) roots
      · cases root.children.any fun node => decide (node.label.number ≤ number) && f node.label.hash hash
          <;> rfl

theorem keptByDescendentIf_ok (hash : H) (number : N) :
    keptByDescendentIf (fun a b => (.ok (f a b) : Except E Bool)) hash number =
      fun root : Node H N V => .ok (decide (number < root.label.number) && f hash root.label.hash ||
        decide (root.label.number = number) && decide (root.label.hash = hash) ||
        f root.label.hash hash) := by
  funext root
  rw [keptByDescendentIf, askIf_ok]
  cases decide (number < root.label.number) && f hash root.label.hash
  · exact askUnless_ok f _ _ _
  · rfl

theorem finalizeWithDescendentIf_of_infallible (t : ForkTree H N V) (hash : H) (number : N)
    (predicate : V → Bool) :
    finalizeWithDescendentIf (fun a b => (.ok (f a b) : Except E Bool)) t hash number predicate =
      inPlace t (t.finalizeWithDescendentIf f hash number predicate) := by
  unfold finalizeWithDescendentIf ForkTree.finalizeWithDescendentIf
  split
  · rfl
  · rw [descendentPosition_ok]
    rcases ForkTree.descendentPosition f hash number predicate 0 t.roots with e | _ | i
    · rfl
    · simp only [Except.mapError, keptByDescendentIf_ok, Vec.retainTaken_ok, retainResult_filter]
      rfl
    · cases hroot : t.finalizeRootAt i with
      | none => simp only [Except.mapError, hroot, Option.map_none]; rfl
      | some r =>
        simp only [Except.mapError, hroot, Option.map_some, keptByDescendentIf_ok, Vec.retainTaken_ok]
        rfl

end Infallible

/-! ### Errors -/

section Errors

variable {t : ForkTree H N V} {hash : H} {number : N} {e : Error E}

theorem finalize_eq_of_err (hclient : ∀ c, e ≠ .client c) :
    (finalize isDescendentOf t hash number).1 = .err e →
      (finalize isDescendentOf t hash number).2 = t := by
  unfold finalize
  split
  · exact fun _ => rfl
  · split
    · exact fun _ => rfl
    · exact fun h => nomatch h
    · split
      · exact fun _ => rfl
      · exact fun _ => rfl
      · split
        · intro h
          exact absurd (Outcome.err.inj h).symm (hclient _)
        · exact fun h => nomatch h

theorem finalizeWithDescendentIf_eq_of_err {predicate : V → Bool} (hclient : ∀ c, e ≠ .client c) :
    (finalizeWithDescendentIf isDescendentOf t hash number predicate).1 = .err e →
      (finalizeWithDescendentIf isDescendentOf t hash number predicate).2 = t := by
  unfold finalizeWithDescendentIf
  split
  · exact fun _ => rfl
  · split
    · exact fun _ => rfl
    · -- once a root is found, the only error left is a client error of the retain loop
      intro h
      exfalso
      dsimp only at h
      split at h
      · exact nomatch h
      · split at h
        · exact hclient _ (Outcome.err.inj h).symm
        · exact nomatch h

end Errors

/-- Block `2` is the only root and every call of the oracle fails. Finalizing block `1` takes the
roots out and returns the client error of the first call, with no root left; so does
`finalize_with_descendent_if` when no root passes the predicate. -/
theorem clientError_drops_roots :
    finalize (fun _ _ => (.error () : Except Unit Bool))
        (⟨[.node ⟨2, 2, ()⟩ []], none⟩ : ForkTree ℕ ℕ Unit) 1 1 = (.err (.client ()), ⟨[], none⟩) ∧
      finalizeWithDescendentIf (fun _ _ => (.error () : Except Unit Bool))
        (⟨[.node ⟨2, 2, ()⟩ []], none⟩ : ForkTree ℕ ℕ Unit) 1 1 (fun _ => false) =
        (.err (.client ()), ⟨[], none⟩) :=
  ⟨rfl, rfl⟩

end Fallible

end Tetcore.ForkTree
