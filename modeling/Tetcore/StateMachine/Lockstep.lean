import Tetcore.StateMachine.TxState
import Tetcore.StateMachine.OverlayedChanges

/-!
# The change sets of `OverlayedChanges` move in lockstep

Every change set of an `OverlayedChanges` is well formed, and the children and the offchain
overlay are at the top change set's transaction state (`Lockstep`). Every call keeps that, so the
calls on the children and on the offchain overlay succeed whenever the one on the top change set
has, and none of their `expect`s fires: by the invariant rule, no run of calls from the empty
overlay panics. In runtime mode at the depth recorded on entering the runtime, closing a
transaction is an error, and leaving the runtime goes back to that depth and drops what the
runtime's transactions wrote.
-/

namespace Tetcore.StateMachine

open OverlayedChanges

section ForEachChild

variable {ε η : Type}
  (f : OverlayedChangeSet StorageKey StorageValue →
    Outcome ε (OverlayedChangeSet StorageKey StorageValue))
  (keep : OverlayedChangeSet StorageKey StorageValue → Bool)

/-- What `forEachChild` leaves under a key whose change set was `c`. -/
def childAfter (c : OverlayedChangeSet StorageKey StorageValue) :
    Option (OverlayedChangeSet StorageKey StorageValue) :=
  match f c with
  | .ok c' => if keep c' then some c' else none
  | _ => none

/-- The invariant of the loop of `forEachChild` over the entries still to go: they are entries
of the map, once each; their keys are as they were, and every other key is as `childAfter`
leaves it. -/
def ChildLoop (children : ChildChanges) (todo : List (StorageKey × OverlayedChangeSet StorageKey
    StorageValue)) (acc : ChildChanges) : Prop :=
  (∀ e ∈ todo, children[e.1]? = some e.2) ∧ (todo.map Prod.fst).Nodup ∧
    ∀ k : StorageKey, acc[k]? = if k ∈ todo.map Prod.fst then children[k]? else
      children[k]?.bind (childAfter f keep)

variable {f keep}

theorem childAfter_eq_some {c c' : OverlayedChangeSet StorageKey StorageValue}
    (hafter : childAfter f keep c = some c') : f c = .ok c' := by
  unfold childAfter at hafter
  split at hafter
  · rename_i c'' hc
    split at hafter
    · cases hafter
      exact hc
    · cases hafter
  · cases hafter

theorem childAfter_of_ok {c c' : OverlayedChangeSet StorageKey StorageValue} (hc : f c = .ok c')
    (hkeep : keep c' = true) : childAfter f keep c = some c' := by
  simp [childAfter, hc, hkeep]

theorem childLoop_step {children : ChildChanges}
    (hf : ∀ (k : StorageKey) c, children[k]? = some c → ∃ c', f c = .ok c')
    (e : StorageKey × OverlayedChangeSet StorageKey StorageValue) todo acc
    (hinv : ChildLoop f keep children (e :: todo) acc) :
    ∃ acc', (do
        let changeset ← (f e.2).expect
        pure (if keep changeset then acc.insert e.1 changeset else acc.erase e.1) :
          Outcome η ChildChanges) = .ok acc' ∧ ChildLoop f keep children todo acc' := by
  obtain ⟨hentries, hnodup, hacc⟩ := hinv
  have he : children[e.1]? = some e.2 := hentries e List.mem_cons_self
  obtain ⟨c', hc'⟩ := hf e.1 e.2 he
  obtain ⟨hfresh, htodo⟩ := List.nodup_cons.mp hnodup
  refine ⟨if keep c' then acc.insert e.1 c' else acc.erase e.1, by rw [hc']; rfl,
    fun e' he' => hentries e' (List.mem_cons_of_mem _ he'), htodo, fun k => ?_⟩
  by_cases hk : k = e.1
  · -- the key of this round: what `childAfter` leaves
    subst hk
    have hafter : childAfter f keep e.2 = if keep c' then some c' else none := by
      simp [childAfter, hc']
    rw [if_neg hfresh, he, Option.bind_some, hafter]
    by_cases hkeep : keep c' <;> simp [hkeep]
  · have hold := hacc k
    have hmem : (k ∈ (e :: todo).map Prod.fst) ↔ k ∈ todo.map Prod.fst := by simp [hk]
    rw [if_congr hmem rfl rfl] at hold
    by_cases hkeep : keep c' <;>
      simp [hkeep, treeMap_getElem?_insert, treeMap_getElem?_erase, hk, hold]

theorem forEachChild_ok {children : ChildChanges}
    (hf : ∀ (k : StorageKey) c, children[k]? = some c → ∃ c', f c = .ok c') :
    ∃ children', (forEachChild f keep children : Outcome η ChildChanges) = .ok children' ∧
      ∀ k : StorageKey, children'[k]? = children[k]?.bind (childAfter f keep) := by
  have hinit : ChildLoop f keep children children.toList children := by
    refine ⟨fun e he => Std.TreeMap.mem_toList_iff_getElem?_eq_some.mp he, ?_, fun k => ?_⟩
    · rw [Std.TreeMap.map_fst_toList_eq_keys]
      exact Std.TreeMap.nodup_keys
    · split
      · rfl
      · -- a key with no entry is no key of the list
        rename_i hk
        rcases hget : children[k]? with _ | c
        · rfl
        · exact absurd (List.mem_map_of_mem (f := Prod.fst)
            (Std.TreeMap.mem_toList_iff_getElem?_eq_some.mpr hget)) hk
  obtain ⟨children', hfold, -, -, hend⟩ :=
    Outcome.foldlM_invariant _ (ChildLoop f keep children) (childLoop_step hf) _ _ hinit
  exact ⟨children', hfold, fun k => by simpa using hend k⟩

end ForEachChild

/-- `m'` is `m` with the transactions the runtime left open rolled back: it stores the snapshots
`m` stores, less those of the runtime's transactions. -/
def RuntimeDiscarded {K V : Type} [Ord K] [DecidableEq K] (m m' : OverlayedMap K V) : Prop :=
  ∀ S, Refines m S → Refines m' S.exitRuntime

theorem runtimeDiscarded_of_exitRuntime {K V : Type} [Ord K] [DecidableEq K] [Std.TransOrd K]
    [Std.LawfulEqOrd K] {m m' : OverlayedMap K V} (hexit : m.exitRuntime = .ok m') :
    RuntimeDiscarded m m' := by
  intro S h
  cases hmode : m.executionMode with
  | client =>
    rw [m.exitRuntime_of_client hmode] at hexit
    cases hexit
  | runtime =>
    obtain ⟨m'', hok, h'⟩ := h.exitRuntime_ok hmode
    rw [hexit] at hok
    cases hok
    exact h'

theorem OverlayedChanges.transactionCall_of_top_err (oc : OverlayedChanges) {ε : Type}
    (call : ∀ {K V : Type} [Ord K] [DecidableEq K], OverlayedMap K V → Outcome ε (OverlayedMap K V))
    (keep : OverlayedChangeSet StorageKey StorageValue → Bool) {e : ε} (he : call oc.top = .err e) :
    oc.transactionCall call keep = .err e := by
  rw [OverlayedChanges.transactionCall, Outcome.bind_eq, he]
  rfl

theorem OverlayedChanges.closeTransaction_err_of_client_depth (oc : OverlayedChanges)
    (hruntime : oc.top.executionMode = .runtime)
    (hdepth : oc.transactionDepth = oc.top.numClientTransactions) :
    oc.commitTransaction = .err ⟨⟩ ∧ oc.rollbackTransaction = .err ⟨⟩ := by
  have hclose : oc.top.txState.canClose = false := by
    simp [TxState.canClose, OverlayedMap.txState, hruntime, ← hdepth,
      OverlayedChanges.transactionDepth]
  exact ⟨oc.transactionCall_of_top_err OverlayedMap.commitTransaction _
      (oc.top.closeTransaction_of_not_canClose false hclose),
    oc.transactionCall_of_top_err OverlayedMap.rollbackTransaction _
      (oc.top.closeTransaction_of_not_canClose true hclose)⟩

/-- The invariant of `OverlayedChanges`: every change set is well formed, and the children and the
offchain overlay are at the transaction state of the top change set. In runtime mode the depth is
at least the one recorded on entering the runtime. -/
structure Lockstep (oc : OverlayedChanges) : Prop where
  top : oc.top.WellFormed
  children : ∀ (k : StorageKey) c, oc.children[k]? = some c →
    c.WellFormed ∧ c.txState = oc.top.txState
  offchain : oc.offchain.WellFormed ∧ oc.offchain.txState = oc.top.txState
  runtime : oc.top.txState.ClientBelow

namespace Lockstep

variable {oc : OverlayedChanges}

theorem empty : Lockstep OverlayedChanges.empty where
  top := OverlayedMap.WellFormed.empty
  children k c hc := by simp [OverlayedChanges.empty] at hc
  offchain := ⟨OverlayedMap.WellFormed.empty, rfl⟩
  runtime hmode := by simp [OverlayedChanges.empty, OverlayedMap.empty, OverlayedMap.txState] at hmode

theorem withTop (h : Lockstep oc) {top : OverlayedChangeSet StorageKey StorageValue}
    (hw : top.WellFormed) (htx : top.txState = oc.top.txState) :
    Lockstep { oc with top := top } where
  top := hw
  children k c hc := by rw [htx]; exact h.children k c hc
  offchain := by rw [htx]; exact h.offchain
  runtime := by rw [htx]; exact h.runtime

theorem withChild (h : Lockstep oc) (k : StorageKey) {c : OverlayedChangeSet StorageKey StorageValue}
    (hw : c.WellFormed) (htx : c.txState = oc.top.txState) :
    Lockstep { oc with children := oc.children.insert k c } where
  top := h.top
  children k' c' hc' := by
    rw [treeMap_getElem?_insert] at hc'
    split at hc'
    · cases hc'
      exact ⟨hw, htx⟩
    · exact h.children k' c' hc'
  offchain := h.offchain
  runtime := h.runtime

theorem childOrSpawn (h : Lockstep oc) (k : StorageKey) :
    (oc.childOrSpawn k).WellFormed ∧ (oc.childOrSpawn k).txState = oc.top.txState := by
  unfold OverlayedChanges.childOrSpawn
  rcases hc : oc.children[k]? with _ | c
  · exact spawnChild_wellFormed oc.top
  · exact h.children k c hc

theorem setStorage (h : Lockstep oc) (key : StorageKey) (val : Option StorageValue)
    (x : Option ℕ) : Lockstep (oc.setStorage key val x) :=
  h.withTop (h.top.set key val x).1 (h.top.set key val x).2

theorem clearPrefix (h : Lockstep oc) (keyPrefix : StorageKey) (x : Option ℕ) :
    Lockstep (oc.clearPrefix keyPrefix x) :=
  h.withTop (OverlayedChangeSet.WellFormed.clearWhere h.top _ x).1
    (OverlayedChangeSet.WellFormed.clearWhere h.top _ x).2

theorem valueMutOrInsertWith (h : Lockstep oc) (key : StorageKey) (init : StorageValue)
    (write : StorageValue → StorageValue) (x : Option ℕ) :
    Lockstep (oc.valueMutOrInsertWith key init write x) :=
  h.withTop (OverlayedChangeSet.WellFormed.modify h.top key init _ x).1
    (OverlayedChangeSet.WellFormed.modify h.top key init _ x).2

theorem setChildStorage (h : Lockstep oc) (k key : StorageKey) (val : Option StorageValue)
    (x : Option ℕ) : Lockstep (oc.setChildStorage k key val x) := by
  obtain ⟨hw, htx⟩ := h.childOrSpawn k
  have hset := hw.set key val x
  exact h.withChild k hset.1 (hset.2.trans htx)

theorem clearChildStorage (h : Lockstep oc) (k : StorageKey) (x : Option ℕ) :
    Lockstep (oc.clearChildStorage k x) := by
  obtain ⟨hw, htx⟩ := h.childOrSpawn k
  have hclear := OverlayedChangeSet.WellFormed.clearWhere hw (fun _ _ => true) x
  exact h.withChild k hclear.1 (hclear.2.trans htx)

theorem clearChildPrefix (h : Lockstep oc) (k keyPrefix : StorageKey) (x : Option ℕ) :
    Lockstep (oc.clearChildPrefix k keyPrefix x) := by
  obtain ⟨hw, htx⟩ := h.childOrSpawn k
  have hclear := OverlayedChangeSet.WellFormed.clearWhere hw
    (fun key _ => keyPrefix.isPrefixOf key) x
  exact h.withChild k hclear.1 (hclear.2.trans htx)

theorem setOffchainStorage (h : Lockstep oc) (key : StorageKey) (value : Option StorageValue) :
    Lockstep (oc.setOffchainStorage key value) where
  top := h.top
  children := h.children
  offchain := by
    obtain ⟨hw, htx⟩ := h.offchain
    exact ⟨(hw.set _ _ none).1, (hw.set _ _ none).2.trans htx⟩
  runtime := h.runtime

theorem startTransaction (h : Lockstep oc) : Lockstep oc.startTransaction where
  top := h.top.startTransaction.1
  children k c hc := by
    simp only [OverlayedChanges.startTransaction, Std.TreeMap.getElem?_map, Option.map_eq_some_iff]
      at hc
    obtain ⟨c₀, hc₀, rfl⟩ := hc
    obtain ⟨hw, htx⟩ := h.children k c₀ hc₀
    refine ⟨hw.startTransaction.1, ?_⟩
    rw [hw.startTransaction.2, htx]
    exact h.top.startTransaction.2.symm
  offchain := by
    refine ⟨h.offchain.1.startTransaction.1, ?_⟩
    show oc.offchain.startTransaction.txState = oc.top.startTransaction.txState
    rw [h.offchain.1.startTransaction.2, h.offchain.2, h.top.startTransaction.2]
  runtime := by
    show oc.top.startTransaction.txState.ClientBelow
    rw [h.top.startTransaction.2]
    exact h.runtime.startTransaction

/-- A transaction call whose call on a change set at the top's transaction state succeeds and
moves it to `t'`: the call on the whole overlay succeeds, none of its `expect`s fires, and the
overlay after it is in lockstep again. -/
theorem transactionCall (h : Lockstep oc) {ε : Type}
    (call : ∀ {K V : Type} [Ord K] [DecidableEq K], OverlayedMap K V → Outcome ε (OverlayedMap K V))
    (keep : OverlayedChangeSet StorageKey StorageValue → Bool) {t' : TxState}
    (hcall : ∀ {K V : Type} [Ord K] [DecidableEq K] [Std.TransOrd K] [Std.LawfulEqOrd K]
      (m : OverlayedMap K V), m.WellFormed → m.txState = oc.top.txState →
        ∃ m', call m = .ok m' ∧ m'.WellFormed ∧ m'.txState = t')
    (hbelow : t'.ClientBelow) :
    ∃ oc', oc.transactionCall call keep = .ok oc' ∧ Lockstep oc' ∧ call oc.top = .ok oc'.top ∧
      call oc.offchain = .ok oc'.offchain ∧
      ∀ k : StorageKey, oc'.children[k]? = oc.children[k]?.bind (childAfter call keep) := by
  obtain ⟨top, htop, hwtop, htxtop⟩ := hcall oc.top h.top rfl
  obtain ⟨off, hoff, hwoff, htxoff⟩ := hcall oc.offchain h.offchain.1 h.offchain.2
  -- every child is at the top's state, so the call succeeds on it
  have hf : ∀ (k : StorageKey) c, oc.children[k]? = some c → ∃ c', call c = .ok c' := by
    intro k c hc
    obtain ⟨c', hc', -⟩ := hcall c (h.children k c hc).1 (h.children k c hc).2
    exact ⟨c', hc'⟩
  obtain ⟨children, hchildren, hget⟩ := @forEachChild_ok _ ε _ keep _ hf
  have hok : oc.transactionCall call keep = .ok ⟨top, children, off⟩ := by
    simp only [OverlayedChanges.transactionCall, Outcome.bind_eq, htop, hchildren, hoff,
      Outcome.ok_bind, Outcome.expect_ok]
    rfl
  refine ⟨⟨top, children, off⟩, hok, ⟨hwtop, ?_, ⟨hwoff, htxoff.trans htxtop.symm⟩, ?_⟩, htop,
    hoff, hget⟩
  · intro k c' hc'
    rw [hget] at hc'
    obtain ⟨c, hc, hafter⟩ := Option.bind_eq_some_iff.mp hc'
    obtain ⟨c'', hc'', hw'', htx''⟩ := hcall c (h.children k c hc).1 (h.children k c hc).2
    rw [childAfter_eq_some hafter] at hc''
    cases hc''
    exact ⟨hw'', htx''.trans htxtop.symm⟩
  · show top.txState.ClientBelow
    rw [htxtop]
    exact hbelow

theorem rollbackTransaction (h : Lockstep oc) :
    ∃ oc', oc.rollbackTransaction.after oc = some oc' ∧ Lockstep oc' := by
  cases hclose : oc.top.txState.canClose with
  | true =>
    obtain ⟨oc', hok, h', -⟩ := h.transactionCall OverlayedMap.rollbackTransaction
      (fun changeset => !changeset.isEmpty)
      (fun m hw htx => by rw [← htx] at hclose ⊢; exact hw.rollbackTransaction hclose)
      (TxState.clientBelow_closeTransaction hclose)
    exact ⟨oc', by rw [OverlayedChanges.rollbackTransaction, hok]; rfl, h'⟩
  | false =>
    -- the top change set returns the error, and nothing changes
    have herr := oc.transactionCall_of_top_err OverlayedMap.rollbackTransaction
      (fun changeset => !changeset.isEmpty) (oc.top.closeTransaction_of_not_canClose true hclose)
    exact ⟨oc, by rw [OverlayedChanges.rollbackTransaction, herr]; rfl, h⟩

theorem commitTransaction (h : Lockstep oc) :
    ∃ oc', oc.commitTransaction.after oc = some oc' ∧ Lockstep oc' := by
  cases hclose : oc.top.txState.canClose with
  | true =>
    obtain ⟨oc', hok, h', -⟩ := h.transactionCall OverlayedMap.commitTransaction (fun _ => true)
      (fun m hw htx => by rw [← htx] at hclose ⊢; exact hw.commitTransaction hclose)
      (TxState.clientBelow_closeTransaction hclose)
    exact ⟨oc', by rw [OverlayedChanges.commitTransaction, hok]; rfl, h'⟩
  | false =>
    have herr := oc.transactionCall_of_top_err OverlayedMap.commitTransaction (fun _ => true)
      (oc.top.closeTransaction_of_not_canClose false hclose)
    exact ⟨oc, by rw [OverlayedChanges.commitTransaction, herr]; rfl, h⟩

theorem enterRuntime (h : Lockstep oc) :
    ∃ oc', oc.enterRuntime.after oc = some oc' ∧ Lockstep oc' := by
  cases hmode : oc.top.executionMode with
  | client =>
    have hcall : ∀ {K V : Type} [Ord K] [DecidableEq K] [Std.TransOrd K] [Std.LawfulEqOrd K]
        (m : OverlayedMap K V), m.WellFormed → m.txState = oc.top.txState →
          ∃ m', Outcome.ofExcept m.enterRuntime = .ok m' ∧ m'.WellFormed ∧
            m'.txState = oc.top.txState.enterRuntime := by
      intro K V _ _ _ _ m hw htx
      have hclient : m.executionMode = .client := (congrArg TxState.executionMode htx).trans hmode
      obtain ⟨m', hent, hw', htx'⟩ := hw.enterRuntime hclient
      exact ⟨m', Outcome.ofExcept_eq_ok.mpr hent, hw', htx ▸ htx'⟩
    obtain ⟨oc', hok, h', -⟩ := h.transactionCall (fun m => Outcome.ofExcept m.enterRuntime)
      (fun _ => true) hcall (TxState.clientBelow_enterRuntime _)
    exact ⟨oc', by rw [OverlayedChanges.enterRuntime, hok]; rfl, h'⟩
  | runtime =>
    have herr : Outcome.ofExcept oc.top.enterRuntime = .err ⟨⟩ := by
      rw [oc.top.enterRuntime_of_runtime hmode]
      rfl
    exact ⟨oc, by rw [OverlayedChanges.enterRuntime, oc.transactionCall_of_top_err _ _ herr]; rfl, h⟩

theorem exitRuntime_ok (h : Lockstep oc) (hruntime : oc.top.executionMode = .runtime) :
    ∃ oc', oc.exitRuntime = .ok oc' ∧ Lockstep oc' ∧
      oc'.top.txState = oc.top.txState.exitRuntime ∧ RuntimeDiscarded oc.top oc'.top ∧
      (∀ (k : StorageKey) c, oc.children[k]? = some c →
        ∃ c', oc'.children[k]? = some c' ∧ RuntimeDiscarded c c') ∧
      RuntimeDiscarded oc.offchain oc'.offchain := by
  have hcall : ∀ {K V : Type} [Ord K] [DecidableEq K] [Std.TransOrd K] [Std.LawfulEqOrd K]
      (m : OverlayedMap K V), m.WellFormed → m.txState = oc.top.txState →
        ∃ m', m.exitRuntime = .ok m' ∧ m'.WellFormed ∧ m'.txState = oc.top.txState.exitRuntime := by
    intro K V _ _ _ _ m hw htx
    have hmode : m.executionMode = .runtime := (congrArg TxState.executionMode htx).trans hruntime
    obtain ⟨m', hexit, hw', htx'⟩ := hw.exitRuntime hmode
    exact ⟨m', hexit, hw', htx ▸ htx'⟩
  obtain ⟨oc', hok, h', htop, hoff, hget⟩ := h.transactionCall OverlayedMap.exitRuntime
    (fun _ => true) hcall (TxState.clientBelow_exitRuntime _)
  obtain ⟨top, htop', -, htx⟩ := hcall oc.top h.top rfl
  rw [htop] at htop'
  cases htop'
  refine ⟨oc', hok, h', htx, runtimeDiscarded_of_exitRuntime htop, fun k c hc => ?_,
    runtimeDiscarded_of_exitRuntime hoff⟩
  -- every child is kept, as what its own exit leaves
  obtain ⟨c', hc', -⟩ := hcall c (h.children k c hc).1 (h.children k c hc).2
  refine ⟨c', ?_, runtimeDiscarded_of_exitRuntime hc'⟩
  rw [hget, hc, Option.bind_some, childAfter_of_ok hc' rfl]

theorem exitRuntime (h : Lockstep oc) :
    ∃ oc', oc.exitRuntime.after oc = some oc' ∧ Lockstep oc' := by
  cases hmode : oc.top.executionMode with
  | client =>
    have herr := oc.transactionCall_of_top_err OverlayedMap.exitRuntime (fun _ => true)
      (oc.top.exitRuntime_of_client hmode)
    exact ⟨oc, by rw [OverlayedChanges.exitRuntime, herr]; rfl, h⟩
  | runtime =>
    obtain ⟨oc', hok, h', -⟩ := h.exitRuntime_ok hmode
    exact ⟨oc', by rw [hok]; rfl, h'⟩

theorem exec (h : Lockstep oc) (c : OverlayedChanges.Call) :
    ∃ oc', oc.exec c = some oc' ∧ Lockstep oc' := by
  cases c with
  | setStorage key val x => exact ⟨_, rfl, h.setStorage key val x⟩
  | setChildStorage k key val x => exact ⟨_, rfl, h.setChildStorage k key val x⟩
  | clearChildStorage k x => exact ⟨_, rfl, h.clearChildStorage k x⟩
  | clearPrefix keyPrefix x => exact ⟨_, rfl, h.clearPrefix keyPrefix x⟩
  | clearChildPrefix k keyPrefix x => exact ⟨_, rfl, h.clearChildPrefix k keyPrefix x⟩
  | valueMutOrInsertWith key init write x => exact ⟨_, rfl, h.valueMutOrInsertWith key init write x⟩
  | setOffchainStorage key value => exact ⟨_, rfl, h.setOffchainStorage key value⟩
  | startTransaction => exact ⟨_, rfl, h.startTransaction⟩
  | commitTransaction => exact h.commitTransaction
  | rollbackTransaction => exact h.rollbackTransaction
  | enterRuntime => exact h.enterRuntime
  | exitRuntime => exact h.exitRuntime

end Lockstep

theorem lockstep_run (calls : List OverlayedChanges.Call) :
    ∃ oc, OverlayedChanges.run calls = some oc ∧ Lockstep oc := by
  have hstep : ∀ (o : Option OverlayedChanges) c, (∃ oc, o = some oc ∧ Lockstep oc) →
      ∃ oc, o.bind (·.exec c) = some oc ∧ Lockstep oc := by
    rintro o c ⟨oc, rfl, h⟩
    exact h.exec c
  exact StepMachine.run_invariant _ hstep calls ⟨_, rfl, Lockstep.empty⟩

theorem overlayedChanges_lockstep (calls : List OverlayedChanges.Call) :
    ∃ oc, OverlayedChanges.run calls = some oc ∧
      (∀ (k : StorageKey) c, oc.children[k]? = some c → c.txState = oc.top.txState) ∧
      oc.offchain.txState = oc.top.txState ∧
      (oc.top.executionMode = .runtime → oc.transactionDepth = oc.top.numClientTransactions →
        oc.commitTransaction = .err ⟨⟩ ∧ oc.rollbackTransaction = .err ⟨⟩) ∧
      (oc.top.executionMode = .runtime → ∃ oc', oc.exitRuntime = .ok oc' ∧
        oc'.transactionDepth = oc.top.numClientTransactions ∧ RuntimeDiscarded oc.top oc'.top ∧
        (∀ (k : StorageKey) c, oc.children[k]? = some c →
          ∃ c', oc'.children[k]? = some c' ∧ RuntimeDiscarded c c') ∧
        RuntimeDiscarded oc.offchain oc'.offchain) := by
  obtain ⟨oc, hrun, h⟩ := lockstep_run calls
  refine ⟨oc, hrun, fun k c hc => (h.children k c hc).2, h.offchain.2,
    oc.closeTransaction_err_of_client_depth, fun hruntime => ?_⟩
  obtain ⟨oc', hexit, -, htx, htop, hchildren, hoff⟩ := h.exitRuntime_ok hruntime
  -- the depth after the exit: the recorded one, which is at most the depth before it
  have hdepth : oc'.transactionDepth = oc.top.numClientTransactions := by
    have hd := congrArg TxState.depth htx
    simp only [OverlayedMap.txState, TxState.exitRuntime] at hd
    have hbelow : oc.top.numClientTransactions ≤ oc.top.transactionDepth := h.runtime hruntime
    rw [OverlayedChanges.transactionDepth, hd]
    omega
  exact ⟨oc', hexit, hdepth, htop, hchildren, hoff⟩

end Tetcore.StateMachine
