import Tetcore.Balances.Issuance

/-!
# Balance locks

`LockableCurrency for Module`: `set_lock`, `extend_lock` and `remove_lock` rebuild the lock list of
an account and hand it to `update_locks`, which recomputes the two frozen amounts of the account
data through `mutate_account` and keeps a consumer reference on the account while the `Locks`
entry exists.

`mutate_account` assumes the account exists. On an account below the existential deposit its
closure's data is annulled by `post_mutation`, so the frozen amounts are never written, and
`inc_consumers` fails on an account without providers; the `Locks` entry is written all the same.
A lock set on an empty account is therefore recorded but frozen nowhere: the balance deposited
afterwards can be transferred away in full.
-/

namespace Tetcore.Balances

variable {AccountId LockId : Type*} [DecidableEq AccountId] [DecidableEq LockId]

/-- `BalanceLock`. -/
structure BalanceLock (LockId : Type*) where
  id : LockId
  amount : ℕ
  reasons : Reasons
  deriving DecidableEq, Repr

/-- `impl BitOr for Reasons`. -/
def Reasons.bitor (a b : Reasons) : Reasons :=
  if a = b then a else .all

/-- The storage of the lock calls: the balances and system storage, and the balances `Locks` map. -/
structure LockState (AccountId LockId : Type*) where
  balances : State AccountId
  locks : AccountId → Option (List (BalanceLock LockId))

/-! ## The system consumer reference -/

/-- `Module::inc_consumers`: `NoProviders` writes nothing. -/
def incConsumers (s : State AccountId) (who : AccountId) : Except Error Unit × State AccountId :=
  let a := s.info who
  if a.providers > 0 then
    (.ok (), s.setAccount who (some { a with consumers := min (a.consumers + 1) refCountMax }))
  else (.error .noProviders, s)

/-- `Module::dec_consumers`: an underflow is logged, and the entry is written back either way. -/
def decConsumers (s : State AccountId) (who : AccountId) : State AccountId :=
  let a := s.info who
  if a.consumers > 0 then s.setAccount who (some { a with consumers := a.consumers - 1 })
  else s.setAccount who (some a)

/-! ## The calls -/

section Calls

variable (cfg : Config)

/-- One round of the loop of `update_locks`: a lock raises the frozen amounts its reasons name. -/
def freezeStep (b : AccountData) (l : BalanceLock LockId) : AccountData :=
  let b := if l.reasons = .all ∨ l.reasons = .misc then
    { b with mitcFrozen := max b.mitcFrozen l.amount } else b
  if l.reasons = .all ∨ l.reasons = .fee then { b with feeFrozen := max b.feeFrozen l.amount }
  else b

/-- `Module::update_locks`. The warning for more than `MaxLocks` locks is left out. -/
def updateLocks (s : LockState AccountId LockId) (who : AccountId)
    (locks : List (BalanceLock LockId)) : LockState AccountId LockId :=
  let balances := (mutateAccount cfg s.balances who
    (fun b st => (((), locks.foldl freezeStep { b with mitcFrozen := 0, feeFrozen := 0 }), st))
    dropNone).2
  let existed := (s.locks who).isSome
  if locks.isEmpty then
    { balances := if existed then decConsumers balances who else balances,
      locks := Function.update s.locks who none }
  else
    { balances := if !existed then (incConsumers balances who).2 else balances,
      locks := Function.update s.locks who (some locks) }

/-- The `filter_map` of `set_lock` and `extend_lock` over the stored locks: the first lock of the
id becomes what `merge` makes of it and the new lock, taken out of `new_lock`; a later lock of the
id meets an empty `new_lock` and is dropped. The second component is what is left in
`new_lock`. -/
def replaceLock (id : LockId) (merge : BalanceLock LockId → BalanceLock LockId → BalanceLock LockId) :
    List (BalanceLock LockId) → Option (BalanceLock LockId) →
      List (BalanceLock LockId) × Option (BalanceLock LockId)
  | [], newLock => ([], newLock)
  | l :: ls, newLock =>
    if l.id = id then ((newLock.map (merge l)).toList ++ (replaceLock id merge ls none).1, none)
    else
      let rest := replaceLock id merge ls newLock
      (l :: rest.1, rest.2)

/-- The body shared by `set_lock` and `extend_lock`, which differ in `merge` only. -/
def lockWith (merge : BalanceLock LockId → BalanceLock LockId → BalanceLock LockId)
    (s : LockState AccountId LockId) (id : LockId) (who : AccountId) (amount : ℕ)
    (reasons : Finset WithdrawReason) : LockState AccountId LockId :=
  if amount = 0 ∨ reasons = ∅ then s
  else
    let newLock : BalanceLock LockId := ⟨id, amount, Reasons.ofWithdrawReasons reasons⟩
    let (locks, newLock) := replaceLock id merge ((s.locks who).getD []) (some newLock)
    updateLocks cfg s who (locks ++ newLock.toList)

/-- `set_lock`: the new lock takes the place of the old one. -/
def setLock (s : LockState AccountId LockId) (id : LockId) (who : AccountId) (amount : ℕ)
    (reasons : Finset WithdrawReason) : LockState AccountId LockId :=
  lockWith cfg (fun _ newLock => newLock) s id who amount reasons

/-- `extend_lock`: the larger amount and the union of the reasons. -/
def extendLock (s : LockState AccountId LockId) (id : LockId) (who : AccountId) (amount : ℕ)
    (reasons : Finset WithdrawReason) : LockState AccountId LockId :=
  lockWith cfg (fun l newLock => ⟨l.id, max l.amount newLock.amount, l.reasons.bitor newLock.reasons⟩)
    s id who amount reasons

/-- `remove_lock`. -/
def removeLock (s : LockState AccountId LockId) (id : LockId) (who : AccountId) :
    LockState AccountId LockId :=
  updateLocks cfg s who (((s.locks who).getD []).filter fun l => l.id != id)

/-- The lock calls, and the balance calls between them. -/
inductive LockCall (AccountId LockId : Type*)
  | setLock (id : LockId) (who : AccountId) (amount : ℕ) (reasons : Finset WithdrawReason)
  | extendLock (id : LockId) (who : AccountId) (amount : ℕ) (reasons : Finset WithdrawReason)
  | removeLock (id : LockId) (who : AccountId)
  | balances (call : Call AccountId)

/-- Issue one call. -/
def applyLockCall (s : LockState AccountId LockId) : LockCall AccountId LockId → LockState AccountId LockId
  | .setLock id who amount reasons => setLock cfg s id who amount reasons
  | .extendLock id who amount reasons => extendLock cfg s id who amount reasons
  | .removeLock id who => removeLock cfg s id who
  | .balances call => { s with balances := applyCall cfg s.balances call }

end Calls

/-! ## One lock per id -/

/-- At most one lock per id in every `Locks` entry. -/
def LockIdsUnique (s : LockState AccountId LockId) : Prop :=
  ∀ who locks, s.locks who = some locks → (locks.map (·.id)).Nodup

section Ids

variable (merge : BalanceLock LockId → BalanceLock LockId → BalanceLock LockId)

theorem replaceLock_of_not_mem {id : LockId} {ls : List (BalanceLock LockId)}
    (h : id ∉ ls.map (·.id)) (newLock : Option (BalanceLock LockId)) :
    replaceLock id merge ls newLock = (ls, newLock) := by
  induction ls with
  | nil => rfl
  | cons l ls ih =>
    simp only [List.map_cons, List.mem_cons, not_or] at h
    rw [replaceLock, if_neg (Ne.symm h.1), ih h.2]

theorem replaceLock_of_mem {id : LockId} {ls : List (BalanceLock LockId)}
    (hnodup : (ls.map (·.id)).Nodup) (hmem : id ∈ ls.map (·.id)) (newLock : BalanceLock LockId) :
    ∃ pre l post, ls = pre ++ l :: post ∧ l.id = id ∧
      replaceLock id merge ls (some newLock) = (pre ++ merge l newLock :: post, none) := by
  induction ls with
  | nil => simp at hmem
  | cons l ls ih =>
    simp only [List.map_cons, List.nodup_cons] at hnodup
    by_cases hl : l.id = id
    case pos =>
      -- the first lock of the id: the rest holds no other
      have hrest : id ∉ ls.map (·.id) := hl ▸ hnodup.1
      refine ⟨[], l, ls, rfl, hl, ?_⟩
      rw [replaceLock, if_pos hl, replaceLock_of_not_mem merge hrest]
      rfl
    case neg =>
      have hmem' : id ∈ ls.map (·.id) := by
        simp only [List.map_cons, List.mem_cons] at hmem
        exact hmem.resolve_left (Ne.symm hl)
      obtain ⟨pre, l', post, rfl, hl', heq⟩ := ih hnodup.2 hmem'
      refine ⟨l :: pre, l', post, rfl, hl', ?_⟩
      rw [replaceLock, if_neg hl, heq]
      rfl

theorem nodup_replaceLock {id : LockId} {ls : List (BalanceLock LockId)}
    (hmerge : ∀ l n, l.id = n.id → (merge l n).id = l.id) (hnodup : (ls.map (·.id)).Nodup)
    (newLock : BalanceLock LockId) (hnew : newLock.id = id) :
    (((replaceLock id merge ls (some newLock)).1 ++ (replaceLock id merge ls (some newLock)).2.toList).map
      (·.id)).Nodup := by
  by_cases hmem : id ∈ ls.map (·.id)
  case pos =>
    obtain ⟨pre, l, post, rfl, hl, heq⟩ := replaceLock_of_mem merge hnodup hmem newLock
    have hid : (merge l newLock).id = l.id := hmerge l newLock (hl.trans hnew.symm)
    rw [heq]
    simpa [hid] using hnodup
  case neg =>
    rw [replaceLock_of_not_mem merge hmem, List.map_append, Option.toList_some, List.map_singleton,
      List.nodup_append]
    refine ⟨hnodup, List.nodup_singleton _, ?_⟩
    intro a ha b hb
    rw [List.mem_singleton] at hb
    rw [hb, hnew]
    rintro rfl
    exact hmem ha

end Ids

omit [DecidableEq LockId] in
theorem locks_updateLocks (cfg : Config) (s : LockState AccountId LockId) (who : AccountId)
    (locks : List (BalanceLock LockId)) :
    (updateLocks cfg s who locks).locks =
      Function.update s.locks who (if locks.isEmpty then none else some locks) := by
  unfold updateLocks
  split <;> simp [*]

omit [DecidableEq LockId] in
theorem lockIdsUnique_updateLocks (cfg : Config) {s : LockState AccountId LockId}
    (hs : LockIdsUnique s) (who : AccountId) {locks : List (BalanceLock LockId)}
    (hlocks : (locks.map (·.id)).Nodup) : LockIdsUnique (updateLocks cfg s who locks) := by
  intro k ls hk
  rw [locks_updateLocks] at hk
  by_cases hwho : k = who
  case pos =>
    subst hwho
    rw [Function.update_self] at hk
    split at hk
    · cases hk
    · cases hk
      exact hlocks
  case neg =>
    rw [Function.update_of_ne hwho] at hk
    exact hs k ls hk

theorem lockIdsUnique_lockWith (cfg : Config)
    {merge : BalanceLock LockId → BalanceLock LockId → BalanceLock LockId}
    (hmerge : ∀ l n, l.id = n.id → (merge l n).id = l.id) {s : LockState AccountId LockId}
    (hs : LockIdsUnique s)
    (id : LockId) (who : AccountId) (amount : ℕ) (reasons : Finset WithdrawReason) :
    LockIdsUnique (lockWith cfg merge s id who amount reasons) := by
  unfold lockWith
  split
  case isTrue => exact hs
  case isFalse =>
    have hstored : (((s.locks who).getD []).map (·.id)).Nodup := by
      cases hwho : s.locks who with
      | none => simp
      | some ls => exact hs who ls hwho
    exact lockIdsUnique_updateLocks cfg hs who (nodup_replaceLock merge hmerge hstored _ rfl)

theorem lockIdsUnique_applyLockCall (cfg : Config) {s : LockState AccountId LockId}
    (hs : LockIdsUnique s) (call : LockCall AccountId LockId) :
    LockIdsUnique (applyLockCall cfg s call) := by
  cases call with
  -- the new lock has the id of the lock it replaces; the extended lock keeps the old id
  | setLock id who amount reasons =>
    have hmerge : ∀ l n : BalanceLock LockId, l.id = n.id →
        ((fun _ newLock => newLock) l n).id = l.id := fun _ _ h => h.symm
    exact lockIdsUnique_lockWith cfg hmerge hs id who amount reasons
  | extendLock id who amount reasons =>
    have hmerge : ∀ l n : BalanceLock LockId, l.id = n.id →
        ((fun l newLock => (⟨l.id, max l.amount newLock.amount, l.reasons.bitor newLock.reasons⟩ :
          BalanceLock LockId)) l n).id = l.id := fun _ _ _ => rfl
    exact lockIdsUnique_lockWith cfg hmerge hs id who amount reasons
  | removeLock id who =>
    have hstored : (((s.locks who).getD []).map (·.id)).Nodup := by
      cases hwho : s.locks who with
      | none => simp
      | some ls => exact hs who ls hwho
    exact lockIdsUnique_updateLocks cfg hs who (hstored.sublist (List.filter_sublist.map _))
  | balances call => exact hs

theorem lockIdsUnique_run (cfg : Config) {s : LockState AccountId LockId} (hs : LockIdsUnique s)
    (calls : List (LockCall AccountId LockId)) :
    LockIdsUnique (StepMachine.run (applyLockCall cfg) s calls) := by
  have hstep : ∀ (s : LockState AccountId LockId) (call : LockCall AccountId LockId),
      LockIdsUnique s → LockIdsUnique (applyLockCall cfg s call) :=
    fun _ call hs => lockIdsUnique_applyLockCall cfg hs call
  exact StepMachine.run_invariant _ hstep calls hs

/-- Two accounts, `false` and `true`, with nothing stored and no lock. -/
def noLocks : LockState Bool ℕ :=
  { balances := { account := fun _ => none, totalIssuance := 0 }, locks := fun _ => none }

theorem lockIdsUnique_run_setExtendRemove :
    LockIdsUnique noLocks ∧
      LockIdsUnique (StepMachine.run (applyLockCall edFive) noLocks
        [.balances (.depositCreating true 30), .setLock 0 true 10 {.transfer},
          .setLock 1 true 5 {.fee}, .extendLock 0 true 20 {.fee}, .setLock 0 true 15 {.reserve},
          .removeLock 1 true]) := by
  have h₀ : LockIdsUnique noLocks := fun _ _ h => by cases h
  exact ⟨h₀, lockIdsUnique_run edFive h₀ _⟩

/-! ## The lock of one id -/

/-- The lock of an id on an account, the first in its `Locks` entry. -/
def lockOf (s : LockState AccountId LockId) (id : LockId) (who : AccountId) :
    Option (BalanceLock LockId) :=
  ((s.locks who).getD []).find? fun l => l.id = id

omit [DecidableEq LockId] in
theorem getD_locks_updateLocks (cfg : Config) (s : LockState AccountId LockId) (who : AccountId)
    (locks : List (BalanceLock LockId)) :
    ((updateLocks cfg s who locks).locks who).getD [] = locks := by
  rw [locks_updateLocks, Function.update_self]
  split
  case isTrue h => simpa using h.symm
  case isFalse => rfl

omit [DecidableEq LockId] in
theorem locks_updateLocks_of_ne (cfg : Config) (s : LockState AccountId LockId) {who k : AccountId}
    (hk : k ≠ who) (locks : List (BalanceLock LockId)) :
    (updateLocks cfg s who locks).locks k = s.locks k := by
  rw [locks_updateLocks, Function.update_of_ne hk]

theorem find?_replaceLock_set {id : LockId} (ls : List (BalanceLock LockId))
    {newLock : BalanceLock LockId} (hnew : newLock.id = id) :
    ((replaceLock id (fun _ n => n) ls (some newLock)).1 ++
        (replaceLock id (fun _ n => n) ls (some newLock)).2.toList).find? (fun l => l.id = id) =
      some newLock := by
  induction ls with
  | nil => simp [replaceLock, hnew]
  | cons l ls ih =>
    by_cases hl : l.id = id
    case pos => simp [replaceLock, hl, hnew]
    case neg =>
      rw [replaceLock, if_neg hl]
      simpa [hl] using ih

theorem lockOf_setLock (cfg : Config) (s : LockState AccountId LockId) (id : LockId)
    (who : AccountId) {amount : ℕ} {reasons : Finset WithdrawReason} (hamount : amount ≠ 0)
    (hreasons : reasons ≠ ∅) :
    lockOf (setLock cfg s id who amount reasons) id who =
      some ⟨id, amount, Reasons.ofWithdrawReasons reasons⟩ := by
  simp only [lockOf, setLock, lockWith, hamount, hreasons, or_self, if_false,
    getD_locks_updateLocks]
  exact find?_replaceLock_set _ rfl

theorem lockOf_removeLock (cfg : Config) (s : LockState AccountId LockId) (id : LockId)
    (who : AccountId) : lockOf (removeLock cfg s id who) id who = none := by
  simp [lockOf, removeLock, getD_locks_updateLocks, List.find?_filter]

theorem lockOf_lockWith_of_ne (cfg : Config)
    (merge : BalanceLock LockId → BalanceLock LockId → BalanceLock LockId)
    (s : LockState AccountId LockId) (id id' : LockId) {who k : AccountId} (hk : k ≠ who)
    (amount : ℕ) (reasons : Finset WithdrawReason) :
    lockOf (lockWith cfg merge s id who amount reasons) id' k = lockOf s id' k := by
  unfold lockWith
  split
  case isTrue => rfl
  case isFalse => simp only [lockOf, locks_updateLocks_of_ne cfg s hk]

theorem lockOf_removeLock_of_ne (cfg : Config) (s : LockState AccountId LockId) (id id' : LockId)
    {who k : AccountId} (hk : k ≠ who) :
    lockOf (removeLock cfg s id who) id' k = lockOf s id' k := by
  simp only [lockOf, removeLock, locks_updateLocks_of_ne cfg s hk]

/-! ## `extend_lock` -/

/-- Reasons that include others: `All`, or the same reasons. -/
def Reasons.Covers (a b : Reasons) : Prop := a = .all ∨ a = b

theorem Reasons.covers_bitor_left (a b : Reasons) : (a.bitor b).Covers a := by
  unfold Reasons.bitor
  split
  case isTrue => exact .inr rfl
  case isFalse => exact .inl rfl

theorem Reasons.covers_bitor_right (a b : Reasons) : (a.bitor b).Covers b := by
  unfold Reasons.bitor
  split
  case isTrue h => exact .inr h
  case isFalse => exact .inl rfl

omit [DecidableEq LockId] in
theorem locks_updateLocks_self (cfg : Config) (s : LockState AccountId LockId) (who : AccountId)
    {locks : List (BalanceLock LockId)} (hne : locks ≠ []) :
    (updateLocks cfg s who locks).locks who = some locks := by
  rw [locks_updateLocks, Function.update_self, if_neg (by simpa using hne)]

/-- **`extend_lock`.** With a non-zero amount and some reasons, the lock of the id afterwards is at
least the requested amount and the amount of the lock of the id it had, and its reasons cover
both. -/
theorem extendLock_spec (cfg : Config) {s : LockState AccountId LockId} (hs : LockIdsUnique s)
    (id : LockId) (who : AccountId) {amount : ℕ} {reasons : Finset WithdrawReason}
    (hamount : amount ≠ 0) (hreasons : reasons ≠ ∅) :
    ∃ locks l, (extendLock cfg s id who amount reasons).locks who = some locks ∧ l ∈ locks ∧
      l.id = id ∧ amount ≤ l.amount ∧ l.reasons.Covers (Reasons.ofWithdrawReasons reasons) ∧
      ∀ old ∈ (s.locks who).getD [], old.id = id →
        old.amount ≤ l.amount ∧ l.reasons.Covers old.reasons := by
  obtain ⟨stored, hstored⟩ : ∃ stored, (s.locks who).getD [] = stored := ⟨_, rfl⟩
  have hnodup : (stored.map (·.id)).Nodup := by
    rw [← hstored]
    cases hwho : s.locks who with
    | none => simp
    | some ls => exact hs who ls hwho
  simp only [extendLock, lockWith, hamount, hreasons, or_self, if_false, hstored]
  by_cases hmem : id ∈ stored.map (·.id)
  -- the stored lock of the id is merged in place
  case pos =>
    obtain ⟨pre, l, post, rfl, hl, heq⟩ := replaceLock_of_mem
      (fun l newLock => (⟨l.id, max l.amount newLock.amount, l.reasons.bitor newLock.reasons⟩ :
        BalanceLock LockId)) hnodup hmem ⟨id, amount, Reasons.ofWithdrawReasons reasons⟩
    rw [heq]
    refine ⟨_, ⟨l.id, max l.amount amount, l.reasons.bitor (Reasons.ofWithdrawReasons reasons)⟩,
      locks_updateLocks_self cfg s who (by simp), by simp, hl, le_max_right _ _,
      Reasons.covers_bitor_right _ _, ?_⟩
    intro old hold hid
    -- one lock per id: the stored lock of the id is `l`
    have hold' : old = l := List.inj_on_of_nodup_map hnodup hold (by simp) (hid.trans hl.symm)
    subst hold'
    exact ⟨le_max_left _ _, Reasons.covers_bitor_left _ _⟩
  -- no stored lock of the id: the new lock is pushed
  case neg =>
    rw [replaceLock_of_not_mem _ hmem]
    refine ⟨_, ⟨id, amount, Reasons.ofWithdrawReasons reasons⟩,
      locks_updateLocks_self cfg s who (by simp), by simp, rfl, le_refl _, .inr rfl, ?_⟩
    intro old hold hid
    exact absurd (hid ▸ List.mem_map_of_mem hold) hmem

/-! ## The frozen amounts -/

/-- The largest amount among the locks whose reasons satisfy `p`, zero when there is none. -/
def maxLocked (p : Reasons → Prop) [DecidablePred p] (locks : List (BalanceLock LockId)) : ℕ :=
  ((locks.filter fun l => p l.reasons).map (·.amount)).foldr max 0

/-- The reasons of the locks behind `mitc_frozen`. -/
def FreezesMisc (r : Reasons) : Prop := r = .all ∨ r = .misc

/-- The reasons of the locks behind `fee_frozen`. -/
def FreezesFee (r : Reasons) : Prop := r = .all ∨ r = .fee

instance : DecidablePred FreezesMisc := fun r => inferInstanceAs (Decidable (r = .all ∨ r = .misc))
instance : DecidablePred FreezesFee := fun r => inferInstanceAs (Decidable (r = .all ∨ r = .fee))

omit [DecidableEq LockId] in
theorem foldl_freezeStep (locks : List (BalanceLock LockId)) (b : AccountData) :
    locks.foldl freezeStep b =
      { b with mitcFrozen := max b.mitcFrozen (maxLocked FreezesMisc locks),
               feeFrozen := max b.feeFrozen (maxLocked FreezesFee locks) } := by
  induction locks generalizing b with
  | nil => simp [maxLocked]
  | cons l locks ih =>
    rw [List.foldl_cons, ih]
    cases hr : l.reasons <;>
      simp [freezeStep, maxLocked, FreezesMisc, FreezesFee, hr, max_assoc]

omit [DecidableEq LockId] in
theorem total_foldl_freezeStep (cfg : Config) (locks : List (BalanceLock LockId)) (b : AccountData) :
    (locks.foldl freezeStep b).total cfg = b.total cfg := by
  rw [foldl_freezeStep]
  rfl

/-! The account store around `update_locks`: the data write of `mutate_account` on an account that
stays above the existential deposit, and the consumer updates, which leave the data alone. -/

theorem info_writeData (s : State AccountId) (k : AccountId) (d : Option AccountData) :
    (writeData s k d).info k = { s.info k with data := d.getD default } := by
  simp [writeData, State.info, State.setAccount]

@[simp]
theorem State.info_setAccount_self (s : State AccountId) (k : AccountId) (v : Option AccountInfo) :
    (s.setAccount k v).info k = v.getD default := by
  simp [State.info, State.setAccount]

@[simp]
theorem consumers_writeData (s : State AccountId) (k : AccountId) (d : Option AccountData) :
    ((writeData s k d).info k).consumers = (s.info k).consumers := by
  simp [writeData]

@[simp]
theorem providers_writeData (s : State AccountId) (k : AccountId) (d : Option AccountData) :
    ((writeData s k d).info k).providers = (s.info k).providers := by
  simp [writeData]

theorem info_incConsumers (s : State AccountId) (who : AccountId) :
    (incConsumers s who).2.info who =
      if 0 < (s.info who).providers then
        { s.info who with consumers := min ((s.info who).consumers + 1) refCountMax }
      else s.info who := by
  by_cases h : 0 < (s.info who).providers <;> simp [incConsumers, h]

theorem info_decConsumers (s : State AccountId) (who : AccountId) :
    (decConsumers s who).info who =
      if 0 < (s.info who).consumers then
        { s.info who with consumers := (s.info who).consumers - 1 }
      else s.info who := by
  by_cases h : 0 < (s.info who).consumers <;> simp [decConsumers, h]

theorem data_incConsumers (s : State AccountId) (who : AccountId) :
    (incConsumers s who).2.data who = s.data who := by
  rw [State.data, info_incConsumers]
  split <;> rfl

theorem data_decConsumers (s : State AccountId) (who : AccountId) :
    (decConsumers s who).data who = s.data who := by
  rw [State.data, info_decConsumers]
  split <;> rfl

theorem mutateAccount_of_providing (cfg : Config) {R : Type*} {s : State AccountId} {who : AccountId}
    {f : AccountData → State AccountId → (R × AccountData) × State AccountId}
    (dropR : State AccountId → R → State AccountId) (hproviding : isProviding (s.data who) = true)
    {r : R} {a : AccountData} {s₁ : State AccountId} (hf : f (s.data who) s = ((r, a), s₁))
    (hed : cfg.existentialDeposit ≤ a.total cfg) :
    mutateAccount cfg s who f dropR = (.ok r, writeData s₁ who (some a)) := by
  have hp : isProviding (s.info who).data = true := hproviding
  have hf' : f (s.info who).data s = ((r, a), s₁) := hf
  simp [mutateAccount, tryMutateAccount, tryMutateExists, hp, hf', postMutation, Nat.not_lt.mpr hed]

omit [DecidableEq LockId] in
/-- **Frozen amounts.** On an account whose data is stored and holds at least the existential
deposit, `update_locks` sets `mitc_frozen` to the largest lock for misc or all reasons and
`fee_frozen` to the largest lock for fee or all reasons, zero when there is none, and changes
nothing else of the data. -/
theorem data_updateLocks (cfg : Config) (s : LockState AccountId LockId) (who : AccountId)
    (locks : List (BalanceLock LockId)) (hproviding : isProviding (s.balances.data who) = true)
    (hed : cfg.existentialDeposit ≤ (s.balances.data who).total cfg) :
    (updateLocks cfg s who locks).balances.data who =
      { s.balances.data who with mitcFrozen := maxLocked FreezesMisc locks,
                                 feeFrozen := maxLocked FreezesFee locks } := by
  obtain ⟨b, hb⟩ : ∃ b, s.balances.data who = b := ⟨_, rfl⟩
  rw [hb] at hproviding hed ⊢
  have hmutate := mutateAccount_of_providing cfg dropNone (hb ▸ hproviding)
    (f := fun b st => (((), locks.foldl freezeStep { b with mitcFrozen := 0, feeFrozen := 0 }), st))
    (by rw [hb]) (by rw [total_foldl_freezeStep]; exact hed)
  have hdata : (writeData s.balances who (some (locks.foldl freezeStep
      { b with mitcFrozen := 0, feeFrozen := 0 }))).data who =
      { b with mitcFrozen := maxLocked FreezesMisc locks, feeFrozen := maxLocked FreezesFee locks } := by
    simp only [State.data, info_writeData, Option.getD_some, foldl_freezeStep]
    simp
  unfold updateLocks
  rw [hmutate]
  dsimp only
  split_ifs <;> simp only [data_incConsumers, data_decConsumers, hdata]

omit [DecidableEq LockId] in
/-- **The consumer reference.** On an account whose data is stored, holds at least the existential
deposit and has a provider, `update_locks` adds a consumer reference when the `Locks` entry
appears and removes one when it goes. -/
theorem consumers_updateLocks (cfg : Config) (s : LockState AccountId LockId) (who : AccountId)
    (locks : List (BalanceLock LockId)) (hproviding : isProviding (s.balances.data who) = true)
    (hed : cfg.existentialDeposit ≤ (s.balances.data who).total cfg)
    (hproviders : 0 < (s.balances.info who).providers) :
    ((updateLocks cfg s who locks).balances.info who).consumers =
      if locks = [] then
        (if (s.locks who).isSome then (s.balances.info who).consumers - 1
          else (s.balances.info who).consumers)
      else if (s.locks who).isSome then (s.balances.info who).consumers
      else min ((s.balances.info who).consumers + 1) refCountMax := by
  have hmutate := mutateAccount_of_providing cfg dropNone hproviding
    (f := fun b st => (((), locks.foldl freezeStep { b with mitcFrozen := 0, feeFrozen := 0 }), st))
    rfl (by rw [total_foldl_freezeStep]; exact hed)
  unfold updateLocks
  rw [hmutate]
  dsimp only
  by_cases hempty : locks = []
  case pos =>
    subst hempty
    by_cases hexisted : (s.locks who).isSome
    · simp only [List.isEmpty_nil, if_true, hexisted, info_decConsumers, consumers_writeData]
      split
      case isTrue => simp
      -- no consumer to remove: `dec_consumers` only logs
      case isFalse h =>
        simp only [consumers_writeData, not_lt] at h ⊢
        omega
    · simp [hexisted]
  case neg =>
    have hne : locks.isEmpty = false := by simpa using hempty
    by_cases hexisted : (s.locks who).isSome
    · simp [hne, hexisted, hempty]
    · simp [hne, hexisted, hempty, info_incConsumers, hproviders]

/-! ## A lock on an empty account -/


/-- Two accounts, nothing stored. -/
def emptyLockState : LockState (Fin 2) ℕ :=
  { balances := { account := fun _ => none, totalIssuance := 0 }, locks := fun _ => none }

/-- A transfer lock of 10 on the empty account `0`, with an existential deposit of 5. -/
def lockedEmpty : LockState (Fin 2) ℕ :=
  setLock edFive emptyLockState 0 0 10 {WithdrawReason.transfer}

/-- The lock of 10 is stored, but the account data freezes nothing and holds no consumer
reference; after a deposit of 10 into the account, a transfer of all 10 out of it succeeds and
reaps it, with the lock still stored. -/
theorem setLock_empty_account_unfrozen :
    lockedEmpty.locks 0 = some [⟨0, 10, .misc⟩] ∧
      (lockedEmpty.balances.data 0).mitcFrozen = 0 ∧
      (lockedEmpty.balances.info 0).consumers = 0 ∧
      (transfer edFive (applyCall edFive lockedEmpty.balances (.depositCreating 0 10)) 0 1 10
        .allowDeath).1 = .ok () ∧
      ((transfer edFive (applyCall edFive lockedEmpty.balances (.depositCreating 0 10)) 0 1 10
        .allowDeath).2.data 0).free = 0 := by
  decide

end Tetcore.Balances
