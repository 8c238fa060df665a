import Tetcore.Scheduler.Dispatch

/-!
# The horizon of the agenda

`WellFormed sch horizon`: every task of the agenda is sane as `do_schedule` stores it, repeats
with a period of at most `horizon` blocks, and is due no more than `horizon` blocks after the
current one. `on_initialize` keeps the horizon (a task it moves goes at most a period ahead, or to
the next block), and every other call of the pallet at most widens it, so every scheduler reached
from the empty one has a horizon: the window of blocks over which `Scheduler.Liveness` counts the
runs still pending.
-/

namespace Tetcore.Scheduler

variable {I C O : Type} [DecidableEq I]

namespace State

/-- The tasks of the agenda are sane, repeat with a period of at most `horizon` blocks, and none is
due more than `horizon` blocks after the current one. -/
structure WellFormed (sch : State I C O) (horizon : ℕ) : Prop where
  horizon_pos : 0 < horizon
  beyond : ∀ b, sch.blockNumber + horizon < b → ∀ s, some s ∉ sch.agenda b
  sane : ∀ b s, some s ∈ sch.agenda b → s.Sane ∧ s.period ≤ horizon

/-! ### The slots each update writes -/

section Slots

variable (sch : State I C O)

omit [DecidableEq I] in
theorem mem_append_agenda {when b : ℕ} {task : Option (Scheduled I C O)} {s : Scheduled I C O}
    (h : some s ∈ (sch.append when task).agenda b) :
    some s ∈ sch.agenda b ∨ b = when ∧ task = some s := by
  dsimp only [append] at h
  by_cases hb : b = when
  · subst hb
    rw [Function.update_self, List.mem_append, List.mem_singleton] at h
    exact h.imp_right fun htask => ⟨rfl, htask.symm⟩
  · rw [Function.update_of_ne hb] at h
    exact .inl h

omit [DecidableEq I] in
theorem mem_clearSlot_agenda {when index b : ℕ} {s : Scheduled I C O}
    (h : some s ∈ (sch.clearSlot when index).agenda b) : some s ∈ sch.agenda b := by
  dsimp only [clearSlot] at h
  by_cases hb : b = when
  · subst hb
    rw [Function.update_self] at h
    exact (List.mem_or_eq_of_mem_set h).resolve_right (Option.some_ne_none s)
  · rwa [Function.update_of_ne hb] at h

theorem mem_onInitialize_agenda (cfg : Config C O) {b : ℕ} {s : Scheduled I C O}
    (h : some s ∈ (sch.onInitialize cfg).1.agenda b) :
    some s ∈ sch.agenda b ∨ ∃ g ∈ sch.plan cfg, g.next = some (b, s) := by
  rw [onInitialize_agenda, appendAll, List.mem_append] at h
  rcases h with hold | hmoved
  · by_cases hb : b = sch.blockNumber + 1
    · subst hb
      rw [Function.update_self] at hold
      exact absurd hold List.not_mem_nil
    · rw [Function.update_of_ne hb] at hold
      exact .inl hold
  · obtain ⟨m, hm, hms⟩ := List.mem_map.mp hmoved
    obtain ⟨hmoves, hmb⟩ := List.mem_filter.mp hm
    obtain ⟨g, hg, hnext⟩ := List.mem_filterMap.mp hmoves
    obtain rfl := Option.some_injective _ hms
    exact .inr ⟨g, hg, by rw [hnext, ← of_decide_eq_true hmb]⟩

omit [DecidableEq I] in
theorem mem_of_taskAt {address : ℕ × ℕ} {s : Scheduled I C O} (h : sch.taskAt address = some s) :
    some s ∈ sch.agenda address.1 :=
  List.mem_of_getElem? (Option.join_eq_some_iff.mp h)

omit [DecidableEq I] in
theorem task_mem_of_mem_plan (cfg : Config C O) {g : Handled I C O} (hg : g ∈ sch.plan cfg) :
    some g.task ∈ sch.agenda (sch.blockNumber + 1) := by
  have hslot : (g.index, g.task) ∈ queued (sch.agenda (sch.blockNumber + 1)) := by
    rw [← (plan_spec cfg sch).1]
    exact List.mem_map_of_mem hg
  exact List.mem_of_getElem? (mem_queued.mp hslot)

end Slots

/-! ### The horizon is kept -/

section WellFormed

variable {sch : State I C O} {horizon : ℕ}

omit [DecidableEq I] in
theorem WellFormed.mono (hwf : sch.WellFormed horizon) {horizon' : ℕ} (hle : horizon ≤ horizon') :
    sch.WellFormed horizon' where
  horizon_pos := lt_of_lt_of_le hwf.horizon_pos hle
  beyond b hb := hwf.beyond b (by omega)
  sane b s hs := (hwf.sane b s hs).imp_right (·.trans hle)

omit [DecidableEq I] in
theorem WellFormed.congr (hwf : sch.WellFormed horizon) {sch' : State I C O}
    (hagenda : sch'.agenda = sch.agenda) (hnumber : sch'.blockNumber = sch.blockNumber) :
    sch'.WellFormed horizon where
  horizon_pos := hwf.horizon_pos
  beyond b hb := hagenda ▸ hwf.beyond b (hnumber ▸ hb)
  sane b s hs := hwf.sane b s (hagenda ▸ hs)

omit [DecidableEq I] in
theorem WellFormed.deposit (hwf : sch.WellFormed horizon) (event : Event I) :
    (sch.deposit event).WellFormed horizon :=
  hwf.congr rfl rfl

theorem WellFormed.setLookup (hwf : sch.WellFormed horizon) (id : I) (address : Option (ℕ × ℕ)) :
    (sch.setLookup id address).WellFormed horizon :=
  hwf.congr rfl rfl

omit [DecidableEq I] in
theorem WellFormed.clearSlot (hwf : sch.WellFormed horizon) (when index : ℕ) :
    (sch.clearSlot when index).WellFormed horizon where
  horizon_pos := hwf.horizon_pos
  beyond b hb s hs := hwf.beyond b hb s (mem_clearSlot_agenda sch hs)
  sane b s hs := hwf.sane b s (mem_clearSlot_agenda sch hs)

omit [DecidableEq I] in
theorem WellFormed.append (hwf : sch.WellFormed horizon) {when : ℕ} {s : Scheduled I C O}
    (hs : s.Sane) :
    (sch.append when (some s)).WellFormed (max horizon (max (when - sch.blockNumber) s.period)) where
  horizon_pos := lt_of_lt_of_le hwf.horizon_pos (le_max_left _ _)
  beyond b hb t ht := by
    rw [append_blockNumber] at hb
    rcases mem_append_agenda sch ht with hold | ⟨rfl, -⟩
    · exact hwf.beyond b (by omega) t hold
    · omega
  sane b t ht := by
    rcases mem_append_agenda sch ht with hold | ⟨-, htask⟩
    · exact (hwf.sane b t hold).imp_right fun hp => le_max_of_le_left hp
    · obtain rfl := Option.some_injective _ htask
      exact ⟨hs, le_max_of_le_right (le_max_right _ _)⟩

variable (cfg : Config C O)

omit [DecidableEq I] in
theorem WellFormed.next_of_mem_plan (hwf : sch.WellFormed horizon) {g : Handled I C O}
    (hg : g ∈ sch.plan cfg) {b : ℕ} {s : Scheduled I C O} (hnext : g.next = some (b, s)) :
    sch.blockNumber + 1 < b ∧ b ≤ sch.blockNumber + 1 + horizon ∧ s.Sane ∧ s.period ≤ horizon := by
  obtain ⟨hsane, hperiod⟩ := hwf.sane _ _ (task_mem_of_mem_plan sch cfg hg)
  have hpos := hwf.horizon_pos
  have hmove := ((plan_spec cfg sch).2.2.2 g hg).2
  rw [hnext] at hmove
  cases hruns : g.runs with
  | false =>
    -- a task that waits goes to the next block as it is
    rw [hruns, if_neg Bool.false_ne_true, Option.some_inj, Prod.mk.injEq] at hmove
    obtain ⟨rfl, rfl⟩ := hmove
    exact ⟨by omega, by omega, hsane, hperiod⟩
  | true =>
    -- a task that repeats goes a period ahead, which is at most the horizon
    rw [hruns, if_pos rfl] at hmove
    obtain ⟨rfl, hpos', hs', hper', -⟩ := nextRun_spec hsane hmove.symm
    refine ⟨by omega, by omega, hs', ?_⟩
    rcases hper' with hnone | hsame
    · simp [Scheduled.period, hnone]
    · exact hsame ▸ hperiod

theorem WellFormed.onInitialize (hwf : sch.WellFormed horizon) :
    (sch.onInitialize cfg).1.WellFormed horizon where
  horizon_pos := hwf.horizon_pos
  beyond b hb s hs := by
    rw [onInitialize_blockNumber] at hb
    rcases mem_onInitialize_agenda sch cfg hs with hold | ⟨g, hg, hnext⟩
    · exact hwf.beyond b (by omega) s hold
    · have := (hwf.next_of_mem_plan cfg hg hnext).2.1
      omega
  sane b s hs := by
    rcases mem_onInitialize_agenda sch cfg hs with hold | ⟨g, hg, hnext⟩
    · exact hwf.sane b s hold
    · exact (hwf.next_of_mem_plan cfg hg hnext).2.2

end WellFormed

/-! ### Every other call at most widens it -/

section Calls

variable {sch : State I C O} {horizon : ℕ}

omit [DecidableEq I] in
theorem resolveTime_eq_ok {when : DispatchTime} {w : ℕ} (h : sch.resolveTime when = .ok w) :
    sch.blockNumber < w := by
  unfold resolveTime at h
  dsimp only at h
  split_ifs at h with hpast
  cases h
  omega

omit [DecidableEq I] in
theorem sane_sanitize (maybeId : Option I) (priority : ℕ) (call : C)
    (maybePeriodic : Option (ℕ × ℕ)) (origin : O) :
    (⟨maybeId, priority, call, sanitize maybePeriodic, origin⟩ : Scheduled I C O).Sane := by
  intro period count h
  obtain ⟨⟨p, c⟩, hfilter, heq⟩ := Option.map_eq_some_iff.mp h
  obtain ⟨-, hcond⟩ := Option.filter_eq_some_iff.mp hfilter
  obtain ⟨rfl, rfl⟩ := Prod.mk.inj heq
  simp only [Bool.and_eq_true, decide_eq_true_eq, bne_iff_ne, ne_eq] at hcond
  omega

omit [DecidableEq I] in
theorem doSchedule_eq_ok {when : DispatchTime} {maybePeriodic : Option (ℕ × ℕ)} {priority : ℕ}
    {origin : O} {call : C} {sch' : State I C O} {address : ℕ × ℕ}
    (h : sch.doSchedule when maybePeriodic priority origin call = .ok (sch', address)) :
    sch.blockNumber < address.1 ∧ address.2 = (sch.agenda address.1).length ∧
      sch' = (sch.append address.1 (some ⟨none, priority, call, sanitize maybePeriodic, origin⟩)).deposit
        (.scheduled address.1 address.2) := by
  unfold doSchedule at h
  cases hw : sch.resolveTime when with
  | error e => simp only [hw] at h; cases h
  | ok w =>
    simp only [hw, bind, Except.bind, pure, Except.pure, Except.ok.injEq, Prod.mk.injEq] at h
    obtain ⟨rfl, rfl⟩ := h
    exact ⟨resolveTime_eq_ok hw, by simp [append], rfl⟩

theorem doScheduleNamed_eq_ok {id : I} {when : DispatchTime} {maybePeriodic : Option (ℕ × ℕ)}
    {priority : ℕ} {origin : O} {call : C} {sch' : State I C O} {address : ℕ × ℕ}
    (h : sch.doScheduleNamed id when maybePeriodic priority origin call = .ok (sch', address)) :
    sch.blockNumber < address.1 ∧ address.2 = (sch.agenda address.1).length ∧
      sch' = ((sch.append address.1
        (some ⟨some id, priority, call, sanitize maybePeriodic, origin⟩)).setLookup id
          (some address)).deposit (.scheduled address.1 address.2) := by
  unfold doScheduleNamed at h
  cases hname : (sch.lookup id).isSome
  · rw [if_neg (by rw [hname]; decide)] at h
    cases hw : sch.resolveTime when with
    | error e => simp only [hw] at h; cases h
    | ok w =>
      simp only [hw, pure, Except.pure] at h
      obtain ⟨rfl, rfl⟩ := h
      exact ⟨resolveTime_eq_ok hw, by simp [append], rfl⟩
  · rw [if_pos hname] at h
    cases h

omit [DecidableEq I] in
theorem WellFormed.moveTask (hwf : sch.WellFormed horizon) {when index newTime : ℕ}
    {sch' : State I C O} (h : sch.moveTask when index newTime = .ok sch') :
    ∃ horizon', sch'.WellFormed horizon' := by
  unfold State.moveTask at h
  cases hslot : (sch.agenda when)[index]? with
  | none => simp only [hslot] at h; cases h
  | some slot =>
    cases slot with
    | none => simp only [hslot] at h; cases h
    | some task =>
      -- the task moved is a task of the agenda, so it is sane
      simp only [hslot, Except.ok.injEq] at h
      subst h
      exact ⟨_, (hwf.clearSlot when index).append (hwf.sane _ _ (List.mem_of_getElem? hslot)).1⟩

variable [DecidableEq O]

theorem WellFormed.doCancel (hwf : sch.WellFormed horizon) {origin : Option O} {when index : ℕ}
    {sch' : State I C O} (h : sch.doCancel origin when index = .ok sch') : sch'.WellFormed horizon := by
  unfold State.doCancel at h
  cases hslot : (sch.agenda when)[index]? with
  | none => simp only [hslot] at h; cases h
  | some slot =>
    cases hcheck : checkOrigin origin slot
    · simp only [hslot, hcheck, Bool.not_false, if_true] at h
      cases h
    · cases slot with
      | none => simp only [hslot, hcheck, Bool.not_true, Bool.false_eq_true, if_false] at h; cases h
      | some s =>
        simp only [hslot, hcheck, Bool.not_true, Bool.false_eq_true, if_false, Except.ok.injEq] at h
        subst h
        cases s.maybeId
        · exact (hwf.clearSlot when index).deposit _
        · exact ((hwf.clearSlot when index).setLookup _ _).deposit _

theorem WellFormed.doCancelNamed (hwf : sch.WellFormed horizon) {origin : Option O} {id : I}
    {sch' : State I C O} (h : sch.doCancelNamed origin id = .ok sch') : sch'.WellFormed horizon := by
  unfold State.doCancelNamed at h
  cases hname : sch.lookup id with
  | none => simp only [hname] at h; cases h
  | some address =>
    obtain ⟨when, index⟩ := address
    cases hslot : (sch.agenda when)[index]? with
    | none =>
      -- no slot there: only the name is released
      simp only [hname, hslot, Except.ok.injEq] at h
      subst h
      exact (hwf.setLookup _ _).deposit _
    | some slot =>
      cases hcheck : checkOrigin origin slot
      · simp only [hname, hslot, hcheck, Bool.not_false, if_true] at h
        cases h
      · simp only [hname, hslot, hcheck, Bool.not_true, Bool.false_eq_true, if_false,
          Except.ok.injEq] at h
        subst h
        exact ((hwf.clearSlot when index).setLookup _ _).deposit _

omit [DecidableEq I] [DecidableEq O] in
theorem WellFormed.doReschedule (hwf : sch.WellFormed horizon) {when index : ℕ}
    {newTime : DispatchTime} {sch' : State I C O} {address : ℕ × ℕ}
    (h : sch.doReschedule when index newTime = .ok (sch', address)) :
    ∃ horizon', sch'.WellFormed horizon' := by
  unfold State.doReschedule at h
  cases hw : sch.resolveTime newTime with
  | error e => simp only [hw] at h; cases h
  | ok w =>
    simp only [hw, bind, Except.bind] at h
    by_cases hsame : w = when
    · rw [if_pos hsame] at h
      cases h
    · rw [if_neg hsame] at h
      cases hmove : sch.moveTask when index w with
      | error e => simp only [hmove] at h; cases h
      | ok sch₁ =>
        simp only [hmove, pure, Except.pure, Except.ok.injEq, Prod.mk.injEq] at h
        obtain ⟨rfl, -⟩ := h
        obtain ⟨horizon', hwf'⟩ := hwf.moveTask hmove
        exact ⟨horizon', (hwf'.deposit _).deposit _⟩

omit [DecidableEq O] in
theorem WellFormed.doRescheduleNamed (hwf : sch.WellFormed horizon) {id : I}
    {newTime : DispatchTime} {sch' : State I C O} {address : ℕ × ℕ}
    (h : sch.doRescheduleNamed id newTime = .ok (sch', address)) :
    ∃ horizon', sch'.WellFormed horizon' := by
  unfold State.doRescheduleNamed at h
  cases hw : sch.resolveTime newTime with
  | error e => simp only [hw] at h; cases h
  | ok w =>
    cases hname : sch.lookup id with
    | none => simp only [hw, hname, bind, Except.bind] at h; cases h
    | some address =>
      obtain ⟨when, index⟩ := address
      simp only [hw, hname, bind, Except.bind] at h
      by_cases hsame : w = when
      · rw [if_pos hsame] at h
        cases h
      · rw [if_neg hsame] at h
        cases hmove : sch.moveTask when index w with
        | error e => simp only [hmove] at h; cases h
        | ok sch₁ =>
          simp only [hmove, pure, Except.pure, Except.ok.injEq, Prod.mk.injEq] at h
          obtain ⟨rfl, -⟩ := h
          obtain ⟨horizon', hwf'⟩ := hwf.moveTask hmove
          exact ⟨horizon', ((hwf'.deposit _).deposit _).setLookup _ _⟩

variable (cfg : Config C O)

omit [DecidableEq I] [DecidableEq O] in
theorem ok_of_ensureOrigin_bind {origin : Option O} {r : Except Error (State I C O)}
    {sch' : State I C O} (h : (ensureOrigin cfg origin >>= fun _ => r) = .ok sch') : r = .ok sch' := by
  cases he : ensureOrigin cfg origin with
  | error e => simp only [he, bind, Except.bind] at h; cases h
  | ok u => simpa only [he, bind, Except.bind] using h

omit [DecidableEq I] [DecidableEq O] in
theorem exists_of_map_fst_eq_ok {r : Except Error (State I C O × (ℕ × ℕ))} {sch' : State I C O}
    (h : r.map Prod.fst = .ok sch') : ∃ address, r = .ok (sch', address) := by
  cases r with
  | error e => cases h
  | ok result =>
    cases h
    exact ⟨result.2, rfl⟩

omit [DecidableEq I] [DecidableEq O] in
theorem WellFormed.finish (hwf : sch.WellFormed horizon) {r : Except Error (State I C O)}
    (hr : ∀ sch', r = .ok sch' → ∃ horizon', sch'.WellFormed horizon') :
    ∃ horizon', (exec.finish sch r).1.WellFormed horizon' := by
  cases r with
  | error e => exact ⟨horizon, hwf⟩
  | ok sch' => exact hr sch' rfl

theorem WellFormed.exec (hwf : sch.WellFormed horizon) (call : Call I C O) :
    ∃ horizon', (sch.exec cfg call).1.WellFormed horizon' := by
  cases call with
  | schedule origin when maybePeriodic priority call =>
    refine hwf.finish fun sch' h => ?_
    obtain ⟨address, h⟩ := exists_of_map_fst_eq_ok (ok_of_ensureOrigin_bind cfg h)
    obtain ⟨-, -, rfl⟩ := doSchedule_eq_ok h
    exact ⟨_, (hwf.append (sane_sanitize _ _ _ _ _)).deposit _⟩
  | cancel origin when index =>
    exact hwf.finish fun sch' h => ⟨horizon, hwf.doCancel (ok_of_ensureOrigin_bind cfg h)⟩
  | scheduleNamed origin id when maybePeriodic priority call =>
    refine hwf.finish fun sch' h => ?_
    obtain ⟨address, h⟩ := exists_of_map_fst_eq_ok (ok_of_ensureOrigin_bind cfg h)
    obtain ⟨-, -, rfl⟩ := doScheduleNamed_eq_ok h
    exact ⟨_, ((hwf.append (sane_sanitize _ _ _ _ _)).setLookup _ _).deposit _⟩
  | cancelNamed origin id =>
    exact hwf.finish fun sch' h => ⟨horizon, hwf.doCancelNamed (ok_of_ensureOrigin_bind cfg h)⟩
  | reschedule when index newTime =>
    refine hwf.finish fun sch' h => ?_
    obtain ⟨address, h⟩ := exists_of_map_fst_eq_ok h
    exact hwf.doReschedule h
  | rescheduleNamed id newTime =>
    refine hwf.finish fun sch' h => ?_
    obtain ⟨address, h⟩ := exists_of_map_fst_eq_ok h
    exact hwf.doRescheduleNamed h
  | onInitialize => exact ⟨horizon, hwf.onInitialize cfg⟩

omit [DecidableEq I] [DecidableEq O] in
theorem wellFormed_empty : (empty : State I C O).WellFormed 1 where
  horizon_pos := Nat.one_pos
  beyond _ _ _ hs := List.not_mem_nil hs
  sane _ _ hs := absurd hs List.not_mem_nil

theorem exists_wellFormed_run (calls : List (Call I C O)) :
    ∃ horizon, (State.run cfg calls).WellFormed horizon := by
  -- the run is a fold of `exec` from the empty scheduler; the horizon is carried through it
  suffices h : ∀ (calls : List (Call I C O)) (sch : State I C O) (horizon : ℕ),
      sch.WellFormed horizon →
        ∃ horizon', (calls.foldl (fun sch call => (sch.exec cfg call).1) sch).WellFormed horizon' from
    h calls empty 1 wellFormed_empty
  intro calls
  induction calls with
  | nil => exact fun sch horizon hwf => ⟨horizon, hwf⟩
  | cons call calls ih =>
    intro sch horizon hwf
    obtain ⟨horizon', hwf'⟩ := hwf.exec cfg call
    exact ih _ horizon' hwf'

end Calls

end State

end Tetcore.Scheduler
