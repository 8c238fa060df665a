import Tetcore.StateMachine.Correctness

/-!
# The transaction state of a change set

What `OverlayedChanges` keeps in lockstep across its change sets: the depth, the number of
transactions the client opened, and the execution mode. Each transaction call moves them by a
function of them alone (`TxState.startTransaction` and the rest), and whether a close or a
change of mode succeeds depends on them alone too. For a well-formed change set, one that stores
some snapshot stack, the calls that succeed never panic.
-/

namespace Tetcore.StateMachine

/-- `transaction_depth`, `num_client_transactions` and `execution_mode`. -/
structure TxState where
  depth : ℕ
  numClientTransactions : ℕ
  executionMode : ExecutionMode
  deriving DecidableEq, Repr

namespace TxState

variable (t : TxState)

/-- A close succeeds when a transaction is open and the runtime does not close one the client
opened. -/
def canClose : Bool :=
  !(t.executionMode = .runtime && t.depth ≤ t.numClientTransactions) && 0 < t.depth

def startTransaction : TxState := { t with depth := t.depth + 1 }

def closeTransaction : TxState := { t with depth := t.depth - 1 }

def enterRuntime : TxState :=
  { t with executionMode := .runtime, numClientTransactions := t.depth }

/-- Leaving the runtime closes what the runtime left open. -/
def exitRuntime : TxState :=
  { t with depth := min t.depth t.numClientTransactions, executionMode := .client }

/-- In runtime mode, the transactions the client opened are all still open. -/
def ClientBelow : Prop := t.executionMode = .runtime → t.numClientTransactions ≤ t.depth

variable {t}

theorem ClientBelow.startTransaction (h : t.ClientBelow) : t.startTransaction.ClientBelow :=
  fun hmode => Nat.le_succ_of_le (h hmode)

theorem clientBelow_closeTransaction (hclose : t.canClose) : t.closeTransaction.ClientBelow := by
  intro hmode
  simp only [closeTransaction] at hmode ⊢
  simp only [canClose, hmode, Bool.and_eq_true, Bool.not_eq_true', Bool.and_eq_false_imp,
    decide_eq_true_eq, true_implies, decide_eq_false_iff_not] at hclose
  omega

variable (t)

theorem clientBelow_enterRuntime : t.enterRuntime.ClientBelow := fun _ => le_refl _

theorem clientBelow_exitRuntime : t.exitRuntime.ClientBelow := by
  simp [ClientBelow, exitRuntime]

end TxState

variable {K V : Type}

namespace Snapshots

variable (S : Snapshots K V)

def txState : TxState := ⟨S.depth, S.numClientTransactions, S.executionMode⟩

theorem canClose_txState : S.txState.canClose = (S.mayClose && 0 < S.depth) := rfl

theorem txState_writeTop (f : (K → Option V) → K → Option V) : (S.writeTop f).txState = S.txState := by
  simp [txState, depth, writeTop]

theorem txState_startTransaction : S.startTransaction.txState = S.txState.startTransaction := by
  have hpos : 0 < S.stack.length := List.length_pos_of_ne_nil S.nonempty
  simp only [txState, TxState.startTransaction, startTransaction, depth, List.length_cons]
  congr 1
  omega

theorem txState_rollbackTransaction (hclose : S.txState.canClose) :
    S.rollbackTransaction.txState = S.txState.closeTransaction := by
  rw [canClose_txState, Bool.and_eq_true, decide_eq_true_eq] at hclose
  rw [rollbackTransaction, dif_pos hclose]
  simp [txState, TxState.closeTransaction, depth]

theorem txState_commitTransaction (hclose : S.txState.canClose) :
    S.commitTransaction.txState = S.txState.closeTransaction := by
  rw [canClose_txState, Bool.and_eq_true, decide_eq_true_eq] at hclose
  have hlen : 2 ≤ S.stack.length := by unfold depth at hclose; omega
  rw [commitTransaction, if_pos hclose]
  simp only [txState, TxState.closeTransaction, depth, List.length_cons, List.length_tail]
  congr 1

theorem txState_enterRuntime (hclient : S.executionMode = .client) :
    S.enterRuntime.txState = S.txState.enterRuntime := by
  simp [enterRuntime, hclient, txState, TxState.enterRuntime, depth]

theorem txState_exitRuntime (hruntime : S.executionMode = .runtime) :
    S.exitRuntime.txState = S.txState.exitRuntime := by
  have hpos : 0 < S.stack.length := List.length_pos_of_ne_nil S.nonempty
  simp only [exitRuntime, hruntime, txState, TxState.exitRuntime, dropRuntimeTransactions, depth,
    List.length_drop]
  congr 1
  omega

end Snapshots

variable [Ord K] [DecidableEq K]

namespace OverlayedMap

variable (m : OverlayedMap K V)

def txState : TxState := ⟨m.transactionDepth, m.numClientTransactions, m.executionMode⟩

/-- A change set that stores some snapshot stack: every change set a run of calls builds. -/
def WellFormed : Prop := ∃ S, Refines m S

omit [DecidableEq K] in
theorem canClose_txState_iff : m.txState.canClose = true ↔
    ¬(m.executionMode = .runtime ∧ m.hasOpenRuntimeTransactions = false) ∧ m.dirtyKeys ≠ [] := by
  simp only [txState, TxState.canClose, hasOpenRuntimeTransactions, transactionDepth]
  by_cases hmode : m.executionMode = .runtime <;>
    by_cases hle : m.dirtyKeys.length ≤ m.numClientTransactions <;>
    simp [hmode, hle, List.length_pos_iff]

theorem closeTransaction_of_not_canClose (rollback : Bool) (hclose : m.txState.canClose = false) :
    m.closeTransaction rollback = .err ⟨⟩ := by
  by_cases hguard : m.executionMode = .runtime ∧ m.hasOpenRuntimeTransactions = false
  · exact m.closeTransaction_of_runtime rollback hguard
  · -- the guard passes, so no transaction is open
    have hnil : m.dirtyKeys = [] := by
      by_contra hne
      have hcan := m.canClose_txState_iff.mpr ⟨hguard, hne⟩
      simp [hcan] at hclose
    exact m.closeTransaction_of_nil rollback hnil

omit [DecidableEq K] in
theorem enterRuntime_of_runtime (hruntime : m.executionMode = .runtime) :
    m.enterRuntime = .error ⟨⟩ := by
  simp [enterRuntime, hruntime]

theorem exitRuntime_of_client (hclient : m.executionMode = .client) : m.exitRuntime = .err ⟨⟩ := by
  simp [exitRuntime, hclient]

end OverlayedMap

variable {m : OverlayedMap K V} {S : Snapshots K V}

theorem Refines.txState_eq (h : Refines m S) : m.txState = S.txState := by
  simp [OverlayedMap.txState, Snapshots.txState, h.depth_eq, h.numClientTransactions,
    h.executionMode]

theorem spawnChild_wellFormed [Std.TransOrd K] (m : OverlayedMap K V) :
    m.spawnChild.WellFormed ∧ m.spawnChild.txState = m.txState := by
  let S : Snapshots K V :=
    ⟨List.replicate (m.transactionDepth + 1) (fun _ => none), by simp, m.numClientTransactions,
      m.executionMode⟩
  have hS : Refines m.spawnChild S := by
    refine ⟨fun k => ?_, by simp [S, OverlayedMap.spawnChild], by simp [OverlayedMap.spawnChild],
      rfl, rfl⟩
    have hsparse := VersionStack.Sparse.replicate_none (V := V) m.transactionDepth
    simpa [S, OverlayedMap.values, OverlayedMap.versionsOf, OverlayedMap.get,
      OverlayedMap.spawnChild, OverlayedMap.dirtyFlags, Snapshots.column] using hsparse
  refine ⟨⟨S, hS⟩, ?_⟩
  simp [OverlayedMap.txState, OverlayedMap.spawnChild, OverlayedMap.transactionDepth]

namespace OverlayedMap.WellFormed

variable [Std.TransOrd K] [Std.LawfulEqOrd K]

omit [Std.LawfulEqOrd K] in
theorem empty : (OverlayedMap.empty : OverlayedMap K V).WellFormed := ⟨_, refines_empty⟩

omit [Std.TransOrd K] [Std.LawfulEqOrd K] in
theorem startTransaction (hw : m.WellFormed) :
    m.startTransaction.WellFormed ∧ m.startTransaction.txState = m.txState.startTransaction := by
  obtain ⟨S, h⟩ := hw
  have h' := h.startTransaction
  exact ⟨⟨_, h'⟩, by rw [h'.txState_eq, S.txState_startTransaction, h.txState_eq]⟩

theorem set (hw : m.WellFormed) (key : K) (v : V) (x : Option ℕ) :
    (m.set key v x).WellFormed ∧ (m.set key v x).txState = m.txState := by
  obtain ⟨S, h⟩ := hw
  have h' := h.set key v x
  exact ⟨⟨_, h'⟩, by rw [h'.txState_eq, Snapshots.set, S.txState_writeTop, h.txState_eq]⟩

theorem rollbackTransaction (hw : m.WellFormed) (hclose : m.txState.canClose) :
    ∃ m', m.rollbackTransaction = .ok m' ∧ m'.WellFormed ∧
      m'.txState = m.txState.closeTransaction := by
  obtain ⟨S, h⟩ := hw
  obtain ⟨hguard, hne⟩ := m.canClose_txState_iff.mp hclose
  have hmay : S.mayClose = true := by
    rw [h.mayClose_eq]
    simpa [imp_iff_not_or] using hguard
  obtain ⟨m', hok, h'⟩ := h.rollbackTransaction_ok hmay hne
  rw [h.txState_eq] at hclose ⊢
  exact ⟨m', hok, ⟨_, h'⟩, by rw [h'.txState_eq, S.txState_rollbackTransaction hclose]⟩

theorem commitTransaction (hw : m.WellFormed) (hclose : m.txState.canClose) :
    ∃ m', m.commitTransaction = .ok m' ∧ m'.WellFormed ∧
      m'.txState = m.txState.closeTransaction := by
  obtain ⟨S, h⟩ := hw
  obtain ⟨hguard, hne⟩ := m.canClose_txState_iff.mp hclose
  have hmay : S.mayClose = true := by
    rw [h.mayClose_eq]
    simpa [imp_iff_not_or] using hguard
  obtain ⟨m', hok, h'⟩ := h.commitTransaction_ok hmay hne
  rw [h.txState_eq] at hclose ⊢
  exact ⟨m', hok, ⟨_, h'⟩, by rw [h'.txState_eq, S.txState_commitTransaction hclose]⟩

omit [Std.TransOrd K] [Std.LawfulEqOrd K] in
theorem enterRuntime (hw : m.WellFormed) (hclient : m.executionMode = .client) :
    ∃ m', m.enterRuntime = .ok m' ∧ m'.WellFormed ∧ m'.txState = m.txState.enterRuntime := by
  obtain ⟨S, h⟩ := hw
  obtain ⟨m', hafter, h'⟩ := h.enterRuntime
  cases hent : m.enterRuntime with
  | error e => simp [OverlayedMap.enterRuntime, hclient] at hent
  | ok m'' =>
    simp only [hent, Outcome.ofExcept, Outcome.after, Option.some.injEq] at hafter
    subst hafter
    refine ⟨_, rfl, ⟨_, h'⟩, ?_⟩
    rw [h'.txState_eq, S.txState_enterRuntime (h.executionMode ▸ hclient), h.txState_eq]

theorem exitRuntime (hw : m.WellFormed) (hruntime : m.executionMode = .runtime) :
    ∃ m', m.exitRuntime = .ok m' ∧ m'.WellFormed ∧ m'.txState = m.txState.exitRuntime := by
  obtain ⟨S, h⟩ := hw
  obtain ⟨m', hok, h'⟩ := h.exitRuntime_ok hruntime
  refine ⟨m', hok, ⟨_, h'⟩, ?_⟩
  rw [h'.txState_eq, S.txState_exitRuntime (h.executionMode ▸ hruntime), h.txState_eq]

end OverlayedMap.WellFormed

namespace OverlayedChangeSet.WellFormed

variable {W : Type} [Std.TransOrd K] [Std.LawfulEqOrd K] {m : OverlayedChangeSet K W}

theorem modify (hw : m.WellFormed) (key : K) (init : W) (write : Option W → Option W)
    (x : Option ℕ) :
    (OverlayedChangeSet.modify m key init write x).WellFormed ∧
      (OverlayedChangeSet.modify m key init write x).txState = m.txState := by
  obtain ⟨S, h⟩ := hw
  have h' := h.modify key init write x
  exact ⟨⟨_, h'⟩, by rw [h'.txState_eq, Snapshots.modify, Snapshots.set, S.txState_writeTop,
    h.txState_eq]⟩

theorem clearWhere (hw : m.WellFormed) (predicate : K → OverlayedEntry (Option W) → Bool)
    (x : Option ℕ) :
    (OverlayedChangeSet.clearWhere m predicate x).WellFormed ∧
      (OverlayedChangeSet.clearWhere m predicate x).txState = m.txState := by
  obtain ⟨S, h⟩ := hw
  have h' := h.clearWhere predicate x
  exact ⟨⟨_, h'⟩, by rw [h'.txState_eq, Snapshots.clear, S.txState_writeTop, h.txState_eq]⟩

end OverlayedChangeSet.WellFormed

end Tetcore.StateMachine
