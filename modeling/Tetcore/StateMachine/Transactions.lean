import Tetcore.StateMachine.Refinement

/-!
# Closing transactions keeps the refinement

`close_transaction` walks the dirty set of the closed transaction and, for each key, drops or
merges its newest version. Each round touches one key only, so the loop is proved with an
invariant over the keys still to go (`Outcome.foldlM_invariant`): those keys are as they were,
and every other key already stores its column in the snapshot stack after the commit or the
rollback. The rounds never panic: the entry of a dirty key exists, and a merge has a version to
merge into, because the versions store the column.

`exit_runtime` is a loop of rollbacks, one per transaction the runtime left open.
-/

namespace Tetcore.StateMachine

open VersionStack

variable {K V : Type}

namespace Snapshots

variable (S : Snapshots K V)

theorem top_of_stack {s : K → Option V} {ss : List (K → Option V)} (hstack : S.stack = s :: ss) :
    S.top = s := by
  obtain ⟨stack, hne, n, mode⟩ := S
  subst hstack
  rfl

theorem depth_pos_of_stack {s s' : K → Option V} {ss : List (K → Option V)}
    (hstack : S.stack = s :: s' :: ss) : 0 < S.depth := by
  simp [depth, hstack]

theorem rollbackTransaction_stack {s s' : K → Option V} {ss : List (K → Option V)}
    (hstack : S.stack = s :: s' :: ss) (hmay : S.mayClose = true) :
    S.rollbackTransaction.stack = s' :: ss := by
  rw [rollbackTransaction, dif_pos ⟨hmay, S.depth_pos_of_stack hstack⟩]
  simp [hstack]

theorem commitTransaction_stack {s s' : K → Option V} {ss : List (K → Option V)}
    (hstack : S.stack = s :: s' :: ss) (hmay : S.mayClose = true) :
    S.commitTransaction.stack = s :: ss := by
  rw [commitTransaction, if_pos ⟨hmay, S.depth_pos_of_stack hstack⟩]
  simp [S.top_of_stack hstack, hstack]

theorem rollbackTransaction_of_not_mayClose (hmay : S.mayClose = false) :
    S.rollbackTransaction = S := by
  simp [rollbackTransaction, hmay]

theorem commitTransaction_of_not_mayClose (hmay : S.mayClose = false) :
    S.commitTransaction = S := by
  simp [commitTransaction, hmay]

theorem rollbackTransaction_of_depth_zero (hdepth : S.depth = 0) :
    S.rollbackTransaction = S := by
  simp [rollbackTransaction, hdepth]

theorem commitTransaction_of_depth_zero (hdepth : S.depth = 0) :
    S.commitTransaction = S := by
  simp [commitTransaction, hdepth]

@[simp]
theorem rollbackTransaction_numClientTransactions :
    S.rollbackTransaction.numClientTransactions = S.numClientTransactions := by
  unfold rollbackTransaction
  split <;> rfl

@[simp]
theorem rollbackTransaction_executionMode :
    S.rollbackTransaction.executionMode = S.executionMode := by
  unfold rollbackTransaction
  split <;> rfl

@[simp]
theorem commitTransaction_numClientTransactions :
    S.commitTransaction.numClientTransactions = S.numClientTransactions := by
  unfold commitTransaction
  split <;> rfl

@[simp]
theorem commitTransaction_executionMode :
    S.commitTransaction.executionMode = S.executionMode := by
  unfold commitTransaction
  split <;> rfl

theorem column_of_stack {s : K → Option V} {ss : List (K → Option V)} (hstack : S.stack = s :: ss)
    (k : K) : S.column k = s k :: ss.map (· k) := by
  simp [column, hstack]

theorem mayClose_of_client (hclient : S.executionMode = .client) : S.mayClose = true := by
  simp [mayClose, hclient]

theorem dropRuntimeTransactions_of_depth_le (hdepth : S.depth ≤ S.numClientTransactions) :
    S.dropRuntimeTransactions = S :=
  Snapshots.ext (by simp [dropRuntimeTransactions, Nat.sub_eq_zero_of_le hdepth]) rfl rfl

theorem dropRuntimeTransactions_rollbackTransaction {s s' : K → Option V}
    {ss : List (K → Option V)} (hstack : S.stack = s :: s' :: ss) (hmay : S.mayClose = true)
    (hopen : S.numClientTransactions < S.depth) :
    S.rollbackTransaction.dropRuntimeTransactions = S.dropRuntimeTransactions := by
  have hstack' := S.rollbackTransaction_stack hstack hmay
  have hdepth : S.depth = ss.length + 1 := by simp [depth, hstack]
  refine Snapshots.ext ?_ (by simp [dropRuntimeTransactions]) (by simp [dropRuntimeTransactions])
  simp only [dropRuntimeTransactions, depth, hstack', rollbackTransaction_numClientTransactions]
  rw [hstack, show (s :: s' :: ss).length - 1 - S.numClientTransactions =
    (ss.length - S.numClientTransactions) + 1 by simp; omega, List.drop_succ_cons]
  simp

end Snapshots

variable [Ord K] [DecidableEq K]

namespace OverlayedMap

variable (m : OverlayedMap K V)

theorem dirtyFlags_of_dirtyKeys {top : List K} {rest : List (List K)}
    (htop : m.dirtyKeys = top :: rest) (k : K) :
    m.dirtyFlags k = decide (k ∈ top) :: rest.map fun d => decide (k ∈ d) := by
  simp [dirtyFlags, htop]

theorem closeTransaction_of_runtime (rollback : Bool)
    (hguard : m.executionMode = .runtime ∧ m.hasOpenRuntimeTransactions = false) :
    m.closeTransaction rollback = .err ⟨⟩ := by
  simp [closeTransaction, hguard]

theorem closeTransaction_of_nil (rollback : Bool) (hnil : m.dirtyKeys = []) :
    m.closeTransaction rollback = .err ⟨⟩ := by
  unfold closeTransaction
  split
  · rfl
  · simp [hnil]

theorem closeTransaction_of_cons (rollback : Bool)
    (hguard : ¬(m.executionMode = .runtime ∧ m.hasOpenRuntimeTransactions = false))
    {top : List K} {rest : List (List K)} (htop : m.dirtyKeys = top :: rest) :
    m.closeTransaction rollback = top.foldlM (closeKey rollback) { m with dirtyKeys := rest } := by
  simp [closeTransaction, hguard, htop]

/-- What the commit of a key decides: whether the parent transaction, or the committed set when
no transaction is left, already has a version of it. -/
def hasPredecessor (key : K) (e : OverlayedEntry V) : Bool :=
  if m.dirtyKeys.isEmpty then decide (e.transactions.length > 1) else !(insertDirty m.dirtyKeys key).1

theorem hasPredecessor_of_dirtyFlags_nil {key : K} (e : OverlayedEntry V)
    (hflags : m.dirtyFlags key = []) :
    m.hasPredecessor key e = decide (e.transactions.length > 1) := by
  have hnil : m.dirtyKeys = [] := List.map_eq_nil_iff.mp hflags
  simp [hasPredecessor, hnil]

theorem hasPredecessor_of_dirtyFlags_cons {key : K} (e : OverlayedEntry V) {b : Bool}
    {fs : List Bool} (hflags : m.dirtyFlags key = b :: fs) : m.hasPredecessor key e = b := by
  have hne : m.dirtyKeys ≠ [] := by
    intro hnil
    simp [dirtyFlags, hnil] at hflags
  have hfirst : (insertDirty m.dirtyKeys key).1 = firstWrite (m.dirtyFlags key) :=
    insertDirty_fst _ _
  simp [hasPredecessor, hne, hfirst, hflags]

variable [Std.TransOrd K] [Std.LawfulEqOrd K]

theorem closeKey_rollback {key : K} {e : OverlayedEntry V} (he : m.changes[key]? = some e) :
    ∃ m', closeKey true m key = .ok m' ∧ m'.dirtyKeys = m.dirtyKeys ∧
      m'.numClientTransactions = m.numClientTransactions ∧
      m'.executionMode = m.executionMode ∧
      m'.values key = (e.transactions.map (·.value)).tail ∧
      ∀ k, k ≠ key → m'.changes[k]? = m.changes[k]? := by
  obtain ⟨ts, hts⟩ := e
  match ts, hts with
  | [t], _ =>
    refine ⟨{ m with changes := m.changes.erase key }, ?_, rfl, rfl, rfl, ?_, ?_⟩
    · simp [closeKey, he]
    · simp [values, versionsOf_eq]
    · intro k hk
      simp [treeMap_getElem?_erase, hk]
  | t :: t' :: ts, _ =>
    refine ⟨{ m with changes := m.changes.insert key ⟨t' :: ts, List.cons_ne_nil _ _⟩ }, ?_, rfl,
      rfl, rfl, ?_, ?_⟩
    · simp [closeKey, he]
    · simp [values, versionsOf_eq]
    · intro k hk
      simp [treeMap_getElem?_insert, hk]

theorem closeKey_commit {key : K} {e : OverlayedEntry V} (he : m.changes[key]? = some e)
    (hpred : m.hasPredecessor key e = true → 2 ≤ e.transactions.length) :
    ∃ m', closeKey false m key = .ok m' ∧ m'.dirtyKeys = (insertDirty m.dirtyKeys key).2 ∧
      m'.numClientTransactions = m.numClientTransactions ∧
      m'.executionMode = m.executionMode ∧
      m'.values key = (if m.hasPredecessor key e then (e.transactions.map (·.value)).eraseIdx 1
        else e.transactions.map (·.value)) ∧
      ∀ k, k ≠ key → m'.changes[k]? = m.changes[k]? := by
  obtain ⟨ts, hts⟩ := e
  by_cases hp : m.hasPredecessor key ⟨ts, hts⟩ = true
  · have hlen := hpred hp
    rcases ts with _ | ⟨dropped, _ | ⟨t, ts'⟩⟩
    · simp at hlen
    · simp at hlen
    · refine ⟨{ m with
        changes := m.changes.insert key
          ⟨{ value := dropped.value, extrinsics := t.extrinsics.extend dropped.extrinsics } :: ts',
            List.cons_ne_nil _ _⟩
        dirtyKeys := (insertDirty m.dirtyKeys key).2 }, ?_, rfl, rfl, rfl, ?_, ?_⟩
      · unfold hasPredecessor at hp
        simp only [closeKey, he, Bool.false_eq_true, if_false, hp, if_true]
      · simp [values, versionsOf_eq, hp]
      · intro k hk
        simp [treeMap_getElem?_insert, hk]
  · refine ⟨{ m with dirtyKeys := (insertDirty m.dirtyKeys key).2 }, ?_, rfl, rfl, rfl, ?_,
      fun k _ => rfl⟩
    · unfold hasPredecessor at hp
      simp only [closeKey, he, Bool.false_eq_true, if_false, hp]
    · simp [values, versionsOf_eq, he, hp]

end OverlayedMap

variable {m : OverlayedMap K V} {S : Snapshots K V}

theorem Refines.depth_eq (h : Refines m S) : S.depth = m.transactionDepth := by
  simp [Snapshots.depth, h.depth, OverlayedMap.transactionDepth]

theorem Refines.stack_cons_cons (h : Refines m S) {top : List K} {rest : List (List K)}
    (htop : m.dirtyKeys = top :: rest) : ∃ s s' ss, S.stack = s :: s' :: ss := by
  have hlen := h.depth
  rw [htop] at hlen
  match hstack : S.stack, hlen with
  | s :: s' :: ss, _ => exact ⟨s, s', ss, rfl⟩

theorem Refines.mayClose_eq (h : Refines m S) :
    S.mayClose = !decide (m.executionMode = .runtime ∧ m.hasOpenRuntimeTransactions = false) := by
  rw [Snapshots.mayClose, h.depth_eq, ← h.executionMode, ← h.numClientTransactions,
    OverlayedMap.hasOpenRuntimeTransactions]
  cases m.executionMode <;> simp

section Close

variable {S' : Snapshots K V} {top : List K} {rest : List (List K)}

/-- The invariant of the loop of `close_transaction` over the dirty set `top` of the closed
transaction: the keys still to go are keys of `top` as they were in `m`, with the flags of the
transactions below, and every other key stores its column in the snapshots `S'` after the close. -/
structure CloseInv (m : OverlayedMap K V) (top : List K) (S' : Snapshots K V) (todo : List K)
    (m' : OverlayedMap K V) : Prop extends
    KeyLoop (fun k => m.changes[k]?) (fun k => (m.dirtyFlags k).tail) S' todo m' where
  closed : ∀ k ∈ todo, k ∈ top

theorem closeInv_init (h : Refines m S) (htop : m.dirtyKeys = top :: rest)
    (hdepth : S'.stack.length + 1 = S.stack.length)
    (hnum : S'.numClientTransactions = S.numClientTransactions)
    (hmode : S'.executionMode = S.executionMode)
    (hclean : ∀ k, k ∉ top →
      Sparse (m.values k) (S'.column k) (rest.map fun d => decide (k ∈ d))) :
    CloseInv m top S' top { m with dirtyKeys := rest } where
  pending k _ := ⟨rfl, by simp [OverlayedMap.dirtyFlags, htop]⟩
  nodupTodo := h.nodup top (by simp [htop])
  done k hk := hclean k hk
  depth := by
    have hlen := h.depth
    rw [htop, List.length_cons] at hlen
    simp only
    omega
  nodup d hd := h.nodup d (by simp [htop, hd])
  numClientTransactions := by rw [hnum, ← h.numClientTransactions]
  executionMode := by rw [hmode, ← h.executionMode]
  closed _ hk := hk

theorem CloseInv.next {key : K} {todo : List K} {m' m'' : OverlayedMap K V}
    (hinv : CloseInv m top S' (key :: todo) m')
    (hloop : KeyLoop (fun k => m.changes[k]?) (fun k => (m.dirtyFlags k).tail) S' todo m'') :
    CloseInv m top S' todo m'' :=
  { hloop with closed := fun k hk => hinv.closed k (List.mem_cons_of_mem _ hk) }

theorem CloseInv.pending_sparse (h : Refines m S) (htop : m.dirtyKeys = top :: rest) {key : K}
    {todo : List K} {m' : OverlayedMap K V} (hinv : CloseInv m top S' (key :: todo) m') :
    ∃ e, m'.changes[key]? = some e ∧
      Sparse (e.transactions.map (·.value)) (S.column key) (true :: m'.dirtyFlags key) := by
  obtain ⟨hchanges, hflags⟩ := hinv.pending key List.mem_cons_self
  have hkey := hinv.closed key List.mem_cons_self
  have hold := h.sparse key
  rw [m.dirtyFlags_of_dirtyKeys htop, decide_eq_true hkey] at hold
  rw [m.dirtyFlags_of_dirtyKeys htop, List.tail_cons] at hflags
  rw [← hflags, ← m.values_congr hchanges] at hold
  obtain ⟨e, he⟩ := m'.exists_entry_of_values_ne_nil (hold.ne_nil_of_dirty List.mem_cons_self)
  rw [m'.values_of_getElem? he] at hold
  exact ⟨e, he, hold⟩

theorem Refines.closeTransaction_ok {rollback : Bool} (h : Refines m S)
    (hmay : S.mayClose = true) (htop : m.dirtyKeys = top :: rest)
    (hinit : CloseInv m top S' top { m with dirtyKeys := rest })
    (hstep : ∀ key todo m', CloseInv m top S' (key :: todo) m' →
      ∃ m'', OverlayedMap.closeKey rollback m' key = .ok m'' ∧ CloseInv m top S' todo m'') :
    ∃ m', m.closeTransaction rollback = .ok m' ∧ Refines m' S' := by
  have hguard : ¬(m.executionMode = .runtime ∧ m.hasOpenRuntimeTransactions = false) := by
    intro hg
    simp [h.mayClose_eq, hg] at hmay
  rw [m.closeTransaction_of_cons rollback hguard htop]
  obtain ⟨m', hfold, hinv⟩ :=
    Outcome.foldlM_invariant (OverlayedMap.closeKey rollback) (CloseInv m top S') hstep top _ hinit
  exact ⟨m', hfold, hinv.toKeyLoop.refines⟩

variable [Std.TransOrd K] [Std.LawfulEqOrd K]

theorem CloseInv.rollbackStep (h : Refines m S) (htop : m.dirtyKeys = top :: rest)
    (hcol : ∀ k, S.column k = S.top k :: S'.column k) {key : K} {todo : List K}
    {m' : OverlayedMap K V} (hinv : CloseInv m top S' (key :: todo) m') :
    ∃ m'', OverlayedMap.closeKey true m' key = .ok m'' ∧ CloseInv m top S' todo m'' := by
  obtain ⟨e, he, hold⟩ := hinv.pending_sparse h htop
  obtain ⟨m'', hclose, hdirty, hnum, hmode, hvalues, hchanges⟩ := m'.closeKey_rollback he
  refine ⟨m'', hclose, hinv.next (hinv.toKeyLoop.next_of_dirtyKeys_eq hchanges hdirty hnum hmode ?_)⟩
  rw [hcol] at hold
  rw [hvalues]
  simpa using hold.rollback

theorem CloseInv.commitStep (h : Refines m S) (htop : m.dirtyKeys = top :: rest)
    {s s' : K → Option V} {ss : List (K → Option V)} (hstack : S.stack = s :: s' :: ss)
    (hstack' : S'.stack = s :: ss) {key : K} {todo : List K} {m' : OverlayedMap K V}
    (hinv : CloseInv m top S' (key :: todo) m') :
    ∃ m'', OverlayedMap.closeKey false m' key = .ok m'' ∧ CloseInv m top S' todo m'' := by
  obtain ⟨e, he, hold⟩ := hinv.pending_sparse h htop
  rw [S.column_of_stack hstack] at hold
  -- a merge has a version to merge into: the parent's flag, or the committed value
  have hlen : m'.hasPredecessor key e = true → 2 ≤ e.transactions.length := by
    intro hpred
    rcases hfl : m'.dirtyFlags key with _ | ⟨b, fs⟩
    · rw [m'.hasPredecessor_of_dirtyFlags_nil e hfl, decide_eq_true_eq] at hpred
      omega
    · rw [m'.hasPredecessor_of_dirtyFlags_cons e hfl] at hpred
      rw [hfl, hpred] at hold
      obtain ⟨v, vs, hvs, -, hrest⟩ := hold.cons_true_inv
      obtain ⟨w, vs', rfl, -, -⟩ := hrest.cons_true_inv
      have hlen := congrArg List.length hvs
      simp only [List.length_map, List.length_cons] at hlen
      omega
  obtain ⟨m'', hclose, hdirty, hnum, hmode, hvalues, hchanges⟩ := m'.closeKey_commit he hlen
  refine ⟨m'', hclose, hinv.next (hinv.toKeyLoop.next_of_insertDirty hchanges hdirty hnum hmode ?_)⟩
  rw [hvalues, S'.column_of_stack hstack']
  rcases hfl : m'.dirtyFlags key with _ | ⟨b, fs⟩
  · -- no transaction is left open: the version goes into the committed value
    rw [hfl] at hold
    have hss : ss = [] := by simpa using hold.length_col
    subst hss
    rw [m'.hasPredecessor_of_dirtyFlags_nil e hfl]
    simpa using hold.commit_base
  · rw [hfl] at hold
    rw [m'.hasPredecessor_of_dirtyFlags_cons e hfl]
    exact hold.commit_dirty

theorem Refines.rollbackTransaction_ok (h : Refines m S) (hmay : S.mayClose = true)
    (hne : m.dirtyKeys ≠ []) :
    ∃ m', m.rollbackTransaction = .ok m' ∧ Refines m' S.rollbackTransaction := by
  obtain ⟨top, rest, htop⟩ := List.exists_cons_of_ne_nil hne
  obtain ⟨s, s', ss, hstack⟩ := h.stack_cons_cons htop
  have hstack' := S.rollbackTransaction_stack hstack hmay
  have hcol : ∀ k, S.column k = S.top k :: S.rollbackTransaction.column k := fun k => by
    rw [S.column_of_stack hstack, S.rollbackTransaction.column_of_stack hstack',
      S.top_of_stack hstack]
    rfl
  refine h.closeTransaction_ok hmay htop (closeInv_init h htop ?_ (by simp) (by simp) ?_)
    fun key todo m' hinv => hinv.rollbackStep h htop hcol
  · rw [hstack, hstack']
    rfl
  · intro k hk
    have hold := h.sparse k
    rw [hcol, m.dirtyFlags_of_dirtyKeys htop, decide_eq_false hk] at hold
    simpa using hold.rollback

theorem Refines.commitTransaction_ok (h : Refines m S) (hmay : S.mayClose = true)
    (hne : m.dirtyKeys ≠ []) :
    ∃ m', m.commitTransaction = .ok m' ∧ Refines m' S.commitTransaction := by
  obtain ⟨top, rest, htop⟩ := List.exists_cons_of_ne_nil hne
  obtain ⟨s, s', ss, hstack⟩ := h.stack_cons_cons htop
  have hstack' := S.commitTransaction_stack hstack hmay
  refine h.closeTransaction_ok hmay htop (closeInv_init h htop ?_ (by simp) (by simp) ?_)
    fun key todo m' hinv => hinv.commitStep h htop hstack hstack'
  · rw [hstack, hstack']
    rfl
  · intro k hk
    have hold := h.sparse k
    rw [S.column_of_stack hstack, m.dirtyFlags_of_dirtyKeys htop, decide_eq_false hk] at hold
    rw [S.commitTransaction.column_of_stack hstack']
    exact hold.commit_clean

theorem Refines.rollbackTransaction (h : Refines m S) :
    ∃ m', m.rollbackTransaction.after m = some m' ∧ Refines m' S.rollbackTransaction := by
  by_cases hmay : S.mayClose = true
  · by_cases hne : m.dirtyKeys = []
    · -- no transaction is open
      have hdepth : S.depth = 0 := by rw [h.depth_eq, OverlayedMap.transactionDepth, hne]; rfl
      refine ⟨m, ?_, by rw [S.rollbackTransaction_of_depth_zero hdepth]; exact h⟩
      rw [OverlayedMap.rollbackTransaction, m.closeTransaction_of_nil true hne]
      rfl
    · obtain ⟨m', hok, hm'⟩ := h.rollbackTransaction_ok hmay hne
      exact ⟨m', by rw [hok]; rfl, hm'⟩
  · -- the runtime may not close a transaction the client opened
    have hguard : m.executionMode = .runtime ∧ m.hasOpenRuntimeTransactions = false := by
      simpa [h.mayClose_eq] using hmay
    rw [Bool.not_eq_true] at hmay
    refine ⟨m, ?_, by rw [S.rollbackTransaction_of_not_mayClose hmay]; exact h⟩
    rw [OverlayedMap.rollbackTransaction, m.closeTransaction_of_runtime true hguard]
    rfl

theorem Refines.commitTransaction (h : Refines m S) :
    ∃ m', m.commitTransaction.after m = some m' ∧ Refines m' S.commitTransaction := by
  by_cases hmay : S.mayClose = true
  · by_cases hne : m.dirtyKeys = []
    · have hdepth : S.depth = 0 := by rw [h.depth_eq, OverlayedMap.transactionDepth, hne]; rfl
      refine ⟨m, ?_, by rw [S.commitTransaction_of_depth_zero hdepth]; exact h⟩
      rw [OverlayedMap.commitTransaction, m.closeTransaction_of_nil false hne]
      rfl
    · obtain ⟨m', hok, hm'⟩ := h.commitTransaction_ok hmay hne
      exact ⟨m', by rw [hok]; rfl, hm'⟩
  · have hguard : m.executionMode = .runtime ∧ m.hasOpenRuntimeTransactions = false := by
      simpa [h.mayClose_eq] using hmay
    rw [Bool.not_eq_true] at hmay
    refine ⟨m, ?_, by rw [S.commitTransaction_of_not_mayClose hmay]; exact h⟩
    rw [OverlayedMap.commitTransaction, m.closeTransaction_of_runtime false hguard]
    rfl

end Close

theorem Refines.enterRuntime (h : Refines m S) :
    ∃ m', (Outcome.ofExcept m.enterRuntime).after m = some m' ∧ Refines m' S.enterRuntime := by
  cases hmode : m.executionMode with
  | runtime =>
    refine ⟨m, by simp [OverlayedMap.enterRuntime, hmode, Outcome.ofExcept, Outcome.after], ?_⟩
    rw [Snapshots.enterRuntime, ← h.executionMode, hmode]
    exact h
  | client =>
    refine ⟨{ m with executionMode := .runtime, numClientTransactions := m.transactionDepth },
      by simp [OverlayedMap.enterRuntime, hmode, Outcome.ofExcept, Outcome.after], ?_⟩
    rw [Snapshots.enterRuntime, ← h.executionMode, hmode]
    -- the recorded number of client transactions is the depth on entry
    exact ⟨h.sparse, h.depth, h.nodup, h.depth_eq.symm, rfl⟩

variable [Std.TransOrd K] [Std.LawfulEqOrd K]

theorem Refines.rollbackRuntimeTransactions (fuel : ℕ) (h : Refines m S)
    (hclient : S.executionMode = .client) (hfuel : m.transactionDepth ≤ fuel) :
    ∃ m', OverlayedMap.rollbackRuntimeTransactions fuel m = .ok m' ∧
      Refines m' S.dropRuntimeTransactions := by
  induction fuel generalizing m S with
  | zero =>
    refine ⟨m, rfl, ?_⟩
    rw [S.dropRuntimeTransactions_of_depth_le (by rw [h.depth_eq]; omega)]
    exact h
  | succ fuel ih =>
    by_cases hopen : m.hasOpenRuntimeTransactions = true
    · have hlt : S.numClientTransactions < S.depth := by
        simpa [OverlayedMap.hasOpenRuntimeTransactions, h.depth_eq, h.numClientTransactions]
          using hopen
      have hne : m.dirtyKeys ≠ [] := by
        intro hnil
        simp [h.depth_eq, OverlayedMap.transactionDepth, hnil] at hlt
      obtain ⟨top, rest, htop⟩ := List.exists_cons_of_ne_nil hne
      obtain ⟨s, s', ss, hstack⟩ := h.stack_cons_cons htop
      have hmay := S.mayClose_of_client hclient
      obtain ⟨m₁, hok, h₁⟩ := h.rollbackTransaction_ok hmay hne
      -- one transaction fewer, the rest by induction
      have hdepth₁ : m₁.transactionDepth + 1 = m.transactionDepth := by
        rw [← h₁.depth_eq, ← h.depth_eq]
        simp [Snapshots.depth, S.rollbackTransaction_stack hstack hmay, hstack]
      obtain ⟨m', hloop, h'⟩ := ih h₁ (by simpa using hclient) (by omega)
      refine ⟨m', by simp [OverlayedMap.rollbackRuntimeTransactions, hopen, hok, hloop], ?_⟩
      rw [← S.dropRuntimeTransactions_rollbackTransaction hstack hmay hlt]
      exact h'
    · refine ⟨m, by simp [OverlayedMap.rollbackRuntimeTransactions, hopen], ?_⟩
      have hle : S.depth ≤ S.numClientTransactions := by
        simpa [OverlayedMap.hasOpenRuntimeTransactions, h.depth_eq, h.numClientTransactions]
          using hopen
      rw [S.dropRuntimeTransactions_of_depth_le hle]
      exact h

theorem Refines.exitRuntime_ok (h : Refines m S) (hruntime : m.executionMode = .runtime) :
    ∃ m', m.exitRuntime = .ok m' ∧ Refines m' S.exitRuntime := by
  have hclient : Refines { m with executionMode := .client } { S with executionMode := .client } :=
    ⟨h.sparse, h.depth, h.nodup, h.numClientTransactions, rfl⟩
  obtain ⟨m', hloop, h'⟩ := hclient.rollbackRuntimeTransactions m.transactionDepth rfl le_rfl
  refine ⟨m', by simp [OverlayedMap.exitRuntime, hruntime, hloop], ?_⟩
  rw [Snapshots.exitRuntime, ← h.executionMode, hruntime]
  exact h'

theorem Refines.exitRuntime (h : Refines m S) :
    ∃ m', m.exitRuntime.after m = some m' ∧ Refines m' S.exitRuntime := by
  cases hmode : m.executionMode with
  | client =>
    refine ⟨m, by simp [OverlayedMap.exitRuntime, hmode, Outcome.after], ?_⟩
    rw [Snapshots.exitRuntime, ← h.executionMode, hmode]
    exact h
  | runtime =>
    obtain ⟨m', hok, h'⟩ := h.exitRuntime_ok hmode
    exact ⟨m', by rw [hok]; rfl, h'⟩

end Tetcore.StateMachine
