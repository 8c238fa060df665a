import Mathlib.Algebra.BigOperators.Intervals
import Tetcore.Scheduler.Horizon

/-!
# Every run of a task happens

A task that `on_initialize` leaves for a later block is not lost: the first task of every block
runs, so the runs left in the window of the horizon (`load`) fall by one for each block with a
task due, and never grow. With the distance of the followed task to its block, this bounds the
number of blocks until its next run, and so every run of it happens (`runBlocks_length_eq`).
-/

namespace Tetcore.Scheduler

open Finset

variable {I C O : Type} [DecidableEq I]

theorem sum_filter_key {α : Type} (keys : Finset ℕ) (g : ℕ × α → ℕ) :
    ∀ moves : List (ℕ × α),
      ∑ b ∈ keys, ((moves.filter fun m => decide (m.1 = b)).map g).sum =
        ((moves.filter fun m => decide (m.1 ∈ keys)).map g).sum
  | [] => by simp
  | m :: moves => by
    have hm : ∑ b ∈ keys, (if m.1 = b then g m else 0) = if m.1 ∈ keys then g m else 0 :=
      Finset.sum_ite_eq keys m.1 fun _ => g m
    calc ∑ b ∈ keys, (((m :: moves).filter fun m' => decide (m'.1 = b)).map g).sum
        = ∑ b ∈ keys, ((if m.1 = b then g m else 0) +
            ((moves.filter fun m' => decide (m'.1 = b)).map g).sum) := by
          refine Finset.sum_congr rfl fun b _ => ?_
          by_cases hb : m.1 = b <;> simp [hb]
      _ = (if m.1 ∈ keys then g m else 0) +
            ((moves.filter fun m' => decide (m'.1 ∈ keys)).map g).sum := by
          rw [Finset.sum_add_distrib, hm, sum_filter_key keys g moves]
      _ = (((m :: moves).filter fun m' => decide (m'.1 ∈ keys)).map g).sum := by
          by_cases hk : m.1 ∈ keys <;> simp [hk]

theorem sum_filter_key_of_mem {α : Type} {keys : Finset ℕ} (g : ℕ × α → ℕ) {moves : List (ℕ × α)}
    (hkeys : ∀ m ∈ moves, m.1 ∈ keys) :
    ∑ b ∈ keys, ((moves.filter fun m => decide (m.1 = b)).map g).sum = (moves.map g).sum := by
  rw [sum_filter_key, List.filter_eq_self.mpr fun m hm => decide_eq_true (hkeys m hm)]

theorem sum_Ioc_first (f : ℕ → ℕ) {n horizon : ℕ} (hpos : 0 < horizon) :
    ∑ b ∈ Ioc n (n + horizon), f b = f (n + 1) + ∑ b ∈ Ioc (n + 1) (n + horizon), f b := by
  rw [← Finset.sum_Ioc_consecutive _ (Nat.le_succ n) (by omega : n + 1 ≤ n + horizon),
    Nat.Ioc_succ_singleton, Finset.sum_singleton]

namespace State

/-- The tasks in the agenda of one block, each weighed by `weight`. -/
def blockWeight (weight : Scheduled I C O → ℕ) (agenda : List (Option (Scheduled I C O))) : ℕ :=
  ((agenda.filterMap id).map weight).sum

/-- The runs left of the tasks in the agenda of one block. -/
def blockLoad (agenda : List (Option (Scheduled I C O))) : ℕ :=
  ((agenda.filterMap id).map Scheduled.remainingRuns).sum

/-- The runs left of the tasks due in the `horizon` blocks after the current one. -/
def load (sch : State I C O) (horizon : ℕ) : ℕ :=
  ∑ b ∈ Ioc sch.blockNumber (sch.blockNumber + horizon), blockLoad (sch.agenda b)

/-! ### The tasks of a block -/

section BlockWeight

variable (weight : Scheduled I C O → ℕ)

omit [DecidableEq I] in
theorem blockWeight_appendAll (agenda : ℕ → List (Option (Scheduled I C O)))
    (moves : List (ℕ × Scheduled I C O)) (b : ℕ) :
    blockWeight weight (appendAll agenda moves b) =
      blockWeight weight (agenda b) +
        ((moves.filter fun m => decide (m.1 = b)).map fun m => weight m.2).sum := by
  simp [blockWeight, appendAll, List.filterMap_append, List.filterMap_map, Function.comp_def]

omit [DecidableEq I] in
theorem blockWeight_eq_zero {agenda : List (Option (Scheduled I C O))}
    (h : ∀ s, some s ∉ agenda) : blockWeight weight agenda = 0 := by
  have hnone : agenda.filterMap id = [] := List.filterMap_eq_nil_iff.mpr fun slot hslot => by
    cases slot with
    | none => rfl
    | some s => exact absurd hslot (h s)
  rw [blockWeight, hnone]
  rfl

omit [DecidableEq I] in
theorem blockWeight_pos {agenda : List (Option (Scheduled I C O))} {s : Scheduled I C O}
    (hs : some s ∈ agenda) (hweight : 0 < weight s) : 0 < blockWeight weight agenda :=
  lt_of_lt_of_le hweight
    (List.le_sum_of_mem (List.mem_map_of_mem (List.mem_filterMap.mpr ⟨some s, hs, rfl⟩)))

omit [DecidableEq I] in
theorem blockWeight_add (weight' : Scheduled I C O → ℕ) (agenda : List (Option (Scheduled I C O))) :
    blockWeight (fun s => weight s + weight' s) agenda =
      blockWeight weight agenda + blockWeight weight' agenda :=
  List.sum_map_add

omit [DecidableEq I] in
theorem blockWeight_queued (agenda : List (Option (Scheduled I C O))) :
    ((queued agenda).map fun t => weight t.2).sum = blockWeight weight agenda := by
  -- the sort permutes the tasks, which are the slots of the agenda that hold one
  have hslots : ((queued agenda).map Prod.snd).Perm (agenda.filterMap id) := by
    unfold queued
    refine ((List.perm_insertionSort _ _).map Prod.snd).trans (List.Perm.of_eq ?_)
    rw [List.map_filterMap]
    conv_rhs => rw [← List.zipIdx_map_fst 0 agenda, List.filterMap_map]
    congr 1
    funext p
    obtain ⟨slot, index⟩ := p
    cases slot <;> rfl
  rw [blockWeight, ← (hslots.map weight).sum_eq, List.map_map]
  rfl

end BlockWeight

/-! ### What the loop leaves behind

Each task the loop handles either runs, and goes to its next run with one run fewer if it repeats,
or waits for the next block with all its runs. Summed over the loop, what it moves and what it runs
account for the tasks of the block. -/

section Loop

omit [DecidableEq I] in
theorem sum_moves (f : ℕ × Scheduled I C O → ℕ) : ∀ hs : List (Handled I C O),
    ((hs.filterMap (·.next)).map f).sum = (hs.map fun g => (g.next.map f).getD 0).sum
  | [] => rfl
  | g :: hs => by
    cases hn : g.next <;> simp [hn, sum_moves f hs]

omit [DecidableEq I] in
theorem length_filter_runs : ∀ hs : List (Handled I C O),
    (hs.filter (·.runs)).length = (hs.map fun g => if g.runs then 1 else 0).sum
  | [] => rfl
  | g :: hs => by
    cases hr : g.runs <;> simp [hr, length_filter_runs hs, Nat.add_comm]

omit [DecidableEq I] in
theorem handled_load {now : ℕ} {g : Handled I C O} (hs : g.task.Sane)
    (hnext : g.next = if g.runs then nextRun now g.task else some (now + 1, g.task)) :
    (g.next.map fun m => m.2.remainingRuns).getD 0 + (if g.runs then 1 else 0) =
      g.task.remainingRuns := by
  cases hruns : g.runs with
  | false =>
    rw [hruns, if_neg Bool.false_ne_true] at hnext
    simp [hnext]
  | true =>
    rw [hruns, if_pos rfl] at hnext
    cases hn : nextRun now g.task with
    | none =>
      simp only [hnext, hn, Option.map_none, Option.getD_none, if_true,
        remainingRuns_of_nextRun_eq_none hn]
    | some m =>
      have := (nextRun_spec hs hn).2.2.2.2
      simp only [hnext, hn, Option.map_some, Option.getD_some, if_true]
      omega

omit [DecidableEq I] in
theorem moves_load_add_runs {now : ℕ} (hs : List (Handled I C O))
    (hall : ∀ g ∈ hs,
      g.task.Sane ∧ g.next = if g.runs then nextRun now g.task else some (now + 1, g.task)) :
    ((hs.filterMap (·.next)).map fun m => m.2.remainingRuns).sum + (hs.filter (·.runs)).length =
      (hs.map fun g => g.task.remainingRuns).sum := by
  rw [sum_moves, length_filter_runs, ← List.sum_map_add]
  exact congrArg List.sum (List.map_congr_left fun g hg => handled_load (hall g hg).1 (hall g hg).2)

omit [DecidableEq I] in
/-- Weighing each run a horizon and one of blocks and each task the blocks to its own, a task the
loop handles weighs at most what it weighed in the first block, and two less when it runs: it waits
in the next block, or runs and goes at most a horizon ahead with a run fewer. -/
theorem handled_potential_le {now horizon : ℕ} {g : Handled I C O} (hs : g.task.Sane)
    (hperiod : g.task.period ≤ horizon)
    (hnext : g.next = if g.runs then nextRun now g.task else some (now + 1, g.task)) :
    (g.next.map fun m => m.2.remainingRuns * (horizon + 1) + (m.1 - now)).getD 0 +
        2 * (if g.runs then 1 else 0) ≤ g.task.remainingRuns * (horizon + 1) + 1 := by
  cases hruns : g.runs with
  | false =>
    rw [hruns, if_neg Bool.false_ne_true] at hnext
    simp only [hnext, Option.map_some, Option.getD_some, Bool.false_eq_true, if_false]
    omega
  | true =>
    rw [hruns, if_pos rfl] at hnext
    have hweight := Nat.mul_le_mul_right (horizon + 1) (remainingRuns_pos g.task)
    cases hn : nextRun now g.task with
    | none =>
      simp only [hnext, hn, Option.map_none, Option.getD_none, if_true]
      omega
    | some m =>
      obtain ⟨b, s'⟩ := m
      obtain ⟨rfl, -, -, -, hrem⟩ := nextRun_spec hs hn
      -- one run fewer is a horizon and one less
      have hstep : s'.remainingRuns * (horizon + 1) + (horizon + 1) =
          g.task.remainingRuns * (horizon + 1) := by
        rw [← hrem, Nat.succ_mul]
      simp only [hnext, hn, Option.map_some, Option.getD_some, if_true]
      omega

omit [DecidableEq I] in
theorem moves_potential_add_runs_le {now horizon : ℕ} (hs : List (Handled I C O))
    (hall : ∀ g ∈ hs, g.task.Sane ∧ g.task.period ≤ horizon ∧
      g.next = if g.runs then nextRun now g.task else some (now + 1, g.task)) :
    ((hs.filterMap (·.next)).map fun m => m.2.remainingRuns * (horizon + 1) + (m.1 - now)).sum +
        2 * (hs.filter (·.runs)).length ≤
      (hs.map fun g => g.task.remainingRuns * (horizon + 1) + 1).sum := by
  rw [sum_moves, length_filter_runs, ← List.sum_map_mul_left, ← List.sum_map_add]
  exact List.sum_le_sum fun g hg =>
    handled_potential_le (hall g hg).1 (hall g hg).2.1 (hall g hg).2.2

end Loop

/-! ### The runs left in the horizon -/

section Load

variable (cfg : Config C O) {sch : State I C O} {horizon : ℕ}

omit [DecidableEq I] in
theorem plan_weight (weight : Scheduled I C O → ℕ) (sch : State I C O) :
    ((sch.plan cfg).map fun g => weight g.task).sum =
      blockWeight weight (sch.agenda (sch.blockNumber + 1)) := by
  rw [← blockWeight_queued, ← (plan_spec cfg sch).1, List.map_map]
  rfl

omit [DecidableEq I] in
theorem plan_load (sch : State I C O) :
    ((sch.plan cfg).map fun g => g.task.remainingRuns).sum =
      blockLoad (sch.agenda (sch.blockNumber + 1)) :=
  plan_weight cfg Scheduled.remainingRuns sch

/-- **The window after one block of `on_initialize`**: the blocks of the old window but the first,
each with what the loop moves to it, and the block the window reaches, which is empty. Each block
weighs its tasks by its own `weight`. -/
theorem window_onInitialize (hwf : sch.WellFormed horizon) (weight : ℕ → Scheduled I C O → ℕ) :
    ∑ b ∈ Ioc (sch.blockNumber + 1) (sch.blockNumber + 1 + horizon),
        blockWeight (weight b) ((sch.onInitialize cfg).1.agenda b) =
      ∑ b ∈ Ioc (sch.blockNumber + 1) (sch.blockNumber + horizon),
          blockWeight (weight b) (sch.agenda b) +
        (((sch.plan cfg).filterMap (·.next)).map fun m => weight m.1 m.2).sum := by
  have hpos := hwf.horizon_pos
  have hblock : ∀ b ∈ Ioc (sch.blockNumber + 1) (sch.blockNumber + 1 + horizon),
      blockWeight (weight b) ((sch.onInitialize cfg).1.agenda b) =
        blockWeight (weight b) (sch.agenda b) +
          ((((sch.plan cfg).filterMap (·.next)).filter fun m => decide (m.1 = b)).map
            fun m => weight m.1 m.2).sum := by
    intro b hb
    have hb' : b ≠ sch.blockNumber + 1 := by
      have := (Finset.mem_Ioc.mp hb).1
      omega
    rw [onInitialize_agenda, blockWeight_appendAll, Function.update_of_ne hb']
    congr 2
    exact List.map_congr_left fun m hm => by rw [of_decide_eq_true (List.mem_filter.mp hm).2]
  have hreach : blockWeight (weight (sch.blockNumber + horizon + 1))
      (sch.agenda (sch.blockNumber + horizon + 1)) = 0 :=
    blockWeight_eq_zero _ (hwf.beyond _ (by omega))
  -- every task the loop moves goes to a block of the window
  have hkeys : ∀ m ∈ (sch.plan cfg).filterMap (·.next),
      m.1 ∈ Ioc (sch.blockNumber + 1) (sch.blockNumber + 1 + horizon) := by
    rintro ⟨b, s⟩ hm
    obtain ⟨g, hg, hnext⟩ := List.mem_filterMap.mp hm
    obtain ⟨hafter, hwithin, -⟩ := hwf.next_of_mem_plan cfg hg hnext
    exact Finset.mem_Ioc.mpr ⟨hafter, hwithin⟩
  rw [Finset.sum_congr rfl hblock, Finset.sum_add_distrib, sum_filter_key_of_mem _ hkeys,
    show sch.blockNumber + 1 + horizon = sch.blockNumber + horizon + 1 by omega,
    Finset.sum_Ioc_succ_top (by omega), hreach, Nat.add_zero]

theorem load_onInitialize_eq (hwf : sch.WellFormed horizon) :
    (sch.onInitialize cfg).1.load horizon + ((sch.plan cfg).filter (·.runs)).length =
      sch.load horizon := by
  have hafter : (sch.onInitialize cfg).1.load horizon =
      ∑ b ∈ Ioc (sch.blockNumber + 1) (sch.blockNumber + horizon), blockLoad (sch.agenda b) +
        (((sch.plan cfg).filterMap (·.next)).map fun m => m.2.remainingRuns).sum := by
    rw [load, onInitialize_blockNumber]
    exact window_onInitialize cfg hwf fun _ => Scheduled.remainingRuns
  have hbefore : sch.load horizon = blockLoad (sch.agenda (sch.blockNumber + 1)) +
      ∑ b ∈ Ioc (sch.blockNumber + 1) (sch.blockNumber + horizon), blockLoad (sch.agenda b) :=
    sum_Ioc_first _ hwf.horizon_pos
  -- what the loop moves is what the block held, less one run for each task run
  have hplan := moves_load_add_runs (sch.plan cfg) fun g hg =>
    ⟨(hwf.sane _ _ (task_mem_of_mem_plan sch cfg hg)).1, ((plan_spec cfg sch).2.2.2 g hg).2⟩
  rw [plan_load] at hplan
  omega

theorem load_onInitialize (hwf : sch.WellFormed horizon) :
    (sch.onInitialize cfg).1.load horizon + ((sch.plan cfg).filter (·.runs)).length ≤
      sch.load horizon :=
  (load_onInitialize_eq cfg hwf).le

omit [DecidableEq I] in
theorem runs_pos_of_plan_ne_nil (hplan : sch.plan cfg ≠ []) :
    0 < ((sch.plan cfg).filter (·.runs)).length := by
  obtain ⟨-, horder, -, hruns⟩ := plan_spec cfg sch
  obtain ⟨g, rest, hgrest⟩ := List.exists_cons_of_ne_nil hplan
  have hfirst : g.order = 0 := by
    rw [hgrest, List.length_cons, List.range_succ_eq_map, List.map_cons] at horder
    exact (List.cons.inj horder).1
  have hg : g ∈ sch.plan cfg := hgrest ▸ List.mem_cons_self
  have hgruns : g.runs = true := ((hruns g hg).1).mpr (.inr (.inr hfirst))
  exact List.length_pos_of_mem (List.mem_filter.mpr ⟨hg, hgruns⟩)

omit [DecidableEq I] in
theorem runs_pos_of_mem {s : Scheduled I C O} (hs : some s ∈ sch.agenda (sch.blockNumber + 1)) :
    0 < ((sch.plan cfg).filter (·.runs)).length := by
  obtain ⟨i, hget⟩ := List.mem_iff_getElem?.mp hs
  obtain ⟨pre, g, post, hsplit, -⟩ := exists_plan_split cfg sch hget
  exact runs_pos_of_plan_ne_nil cfg (show sch.plan cfg ≠ [] by simp [hsplit])

theorem load_lt_of_due (hwf : sch.WellFormed horizon) {address : ℕ × ℕ} {s : Scheduled I C O}
    (hslot : sch.taskAt address = some s) (hdue : address.1 = sch.blockNumber + 1) :
    (sch.onInitialize cfg).1.load horizon < sch.load horizon := by
  have hruns := runs_pos_of_mem cfg (hdue ▸ mem_of_taskAt sch hslot)
  have := load_onInitialize cfg hwf
  omega

theorem load_onInitialize_le (hwf : sch.WellFormed horizon) :
    (sch.onInitialize cfg).1.load horizon ≤ sch.load horizon :=
  le_trans (Nat.le_add_right _ _) (load_onInitialize cfg hwf)

end Load

/-! ### Every run happens -/

section Runs

variable (cfg : Config C O) {horizon : ℕ}

omit [DecidableEq I] in
theorem measure_lt {load load' distance : ℕ} (hlt : load' < load) (hdistance : distance ≤ horizon) :
    load' * (horizon + 1) + distance < load * (horizon + 1) := by
  have := Nat.mul_le_mul_right (horizon + 1) (hlt : load' + 1 ≤ load)
  rw [Nat.succ_mul] at this
  omega

/-- **No run is lost.** Followed through enough blocks, a task of a scheduler with a horizon runs as
many times as it has runs left: enough is a horizon and one of blocks for each run left in the
horizon, and the blocks to the task's own. -/
theorem runBlocks_length_eq :
    ∀ (n : ℕ) (sch : State I C O) {address : ℕ × ℕ} {s : Scheduled I C O},
      sch.WellFormed horizon → sch.taskAt address = some s → sch.blockNumber < address.1 →
      sch.load horizon * (horizon + 1) + (address.1 - sch.blockNumber) ≤ n →
      (runBlocks cfg n sch address).length = s.remainingRuns
  | 0, _, _, _, _, _, _, hn => by omega
  | n + 1, sch, address, s, hwf, hslot, hfuture, hn => by
    have hsane := hwf.sane _ _ (mem_of_taskAt sch hslot)
    have hwf' := hwf.onInitialize cfg
    have hbn := onInitialize_blockNumber cfg sch
    have hle := Nat.mul_le_mul_right (horizon + 1) (load_onInitialize_le cfg hwf)
    rcases follow_cases cfg sch hslot hsane.1 with
      ⟨hlater, hruns, hfollow, hstay⟩ | ⟨hdue, hruns, a', hfollow, ha', hat⟩ |
        ⟨hdue, hruns, hfollow, hlast⟩ |
        ⟨hdue, hruns, a', s', hfollow, ha', hat, hpos, hs', -, hrem⟩
    · -- the block of the task comes one block closer
      rw [runBlocks, hruns, hfollow]
      exact runBlocks_length_eq n _ hwf' hstay (by omega) (by omega)
    · -- the task waits, and the block ran another task
      have hlt := measure_lt (load_lt_of_due cfg hwf hslot hdue) hwf.horizon_pos
      rw [runBlocks, hruns, hfollow]
      exact runBlocks_length_eq n _ hwf' hat (by omega) (by omega)
    · rw [runBlocks, hruns, hfollow, hlast]
      rfl
    · -- the task runs and goes a period ahead, within the horizon
      have hlt := measure_lt (load_lt_of_due cfg hwf hslot hdue) hsane.2
      rw [runBlocks, hruns, hfollow, if_pos rfl, List.singleton_append, List.length_cons, ← hrem,
        runBlocks_length_eq n _ hwf' hat (by omega) (by omega)]

end Runs

end State

/-! ### A task scheduled by `schedule` or `schedule_named` -/

/-- How many times a task scheduled with `maybe_periodic` is to be dispatched: `count` times when it
repeats every `period > 0` blocks `count > 1` times, and once otherwise. -/
def dispatchCount : Option (ℕ × ℕ) → ℕ
  | some (period, count) => if 0 < period ∧ 1 < count then count else 1
  | none => 1

section Scheduled

theorem sanitize_some (period count : ℕ) :
    State.sanitize (some (period, count)) =
      if 1 < count ∧ period ≠ 0 then some (period, count - 1) else none := by
  by_cases h : 1 < count ∧ period ≠ 0
  · simp [State.sanitize, Option.filter, h.1, h.2]
  · rw [if_neg h]
    simp [State.sanitize, Option.filter]
    omega

omit [DecidableEq I] in
theorem remainingRuns_sanitize (maybeId : Option I) (priority : ℕ) (call : C)
    (maybePeriodic : Option (ℕ × ℕ)) (origin : O) :
    (⟨maybeId, priority, call, State.sanitize maybePeriodic, origin⟩ : Scheduled I C O).remainingRuns =
      dispatchCount maybePeriodic := by
  rcases maybePeriodic with _ | ⟨period, count⟩
  · rfl
  · simp only [Scheduled.remainingRuns, dispatchCount, sanitize_some]
    by_cases hkept : 1 < count ∧ period ≠ 0
    · rw [if_pos hkept, if_pos ⟨Nat.pos_of_ne_zero hkept.2, hkept.1⟩]
      dsimp only
      omega
    · rw [if_neg hkept, if_neg fun h => hkept ⟨h.2, Nat.pos_iff_ne_zero.mp h.1⟩]

omit [DecidableEq I] in
theorem period_sanitize {maybeId : Option I} {priority : ℕ} {call : C}
    {maybePeriodic : Option (ℕ × ℕ)} {origin : O} {period count : ℕ}
    (h : maybePeriodic = some (period, count)) :
    (⟨maybeId, priority, call, State.sanitize maybePeriodic, origin⟩ : Scheduled I C O).maybePeriodic =
        none ∨
      (⟨maybeId, priority, call, State.sanitize maybePeriodic, origin⟩ : Scheduled I C O).period =
        period := by
  subst h
  rw [sanitize_some]
  split_ifs
  · exact .inr rfl
  · exact .inl rfl

omit [DecidableEq I] in
theorem taskAt_append (sch : State I C O) (when : ℕ) (s : Scheduled I C O) :
    (sch.append when (some s)).taskAt (when, (sch.agenda when).length) = some s := by
  simp [State.taskAt, State.append]

theorem scheduled_spec {sch₀ sch : State I C O} {horizon : ℕ} (hwf : sch₀.WellFormed horizon)
    {when : DispatchTime} {maybePeriodic : Option (ℕ × ℕ)} {priority : ℕ} {origin : O} {call : C}
    {address : ℕ × ℕ}
    (h : sch₀.doSchedule when maybePeriodic priority origin call = .ok (sch, address) ∨
      ∃ id, sch₀.doScheduleNamed id when maybePeriodic priority origin call = .ok (sch, address)) :
    sch.blockNumber < address.1 ∧ (∃ horizon', sch.WellFormed horizon') ∧
      ∃ maybeId, sch.taskAt address = some ⟨maybeId, priority, call, State.sanitize maybePeriodic, origin⟩ := by
  obtain ⟨w, i⟩ := address
  rcases h with h | ⟨id, h⟩
  · obtain ⟨hfuture, hindex, rfl⟩ := State.doSchedule_eq_ok h
    dsimp only at hindex
    subst hindex
    exact ⟨hfuture, ⟨_, (hwf.append (State.sane_sanitize _ _ _ _ _)).deposit _⟩, none,
      taskAt_append _ _ _⟩
  · obtain ⟨hfuture, hindex, rfl⟩ := State.doScheduleNamed_eq_ok h
    dsimp only at hindex
    subst hindex
    exact ⟨hfuture, ⟨_, ((hwf.append (State.sane_sanitize _ _ _ _ _)).setLookup _ _).deposit _⟩,
      some id, taskAt_append _ _ _⟩

variable [DecidableEq O] (cfg : Config C O)

/-- **Every task scheduled is dispatched as scheduled.** After any calls of the pallet, a task that
`schedule` or `schedule_named` stores at a later block, followed through any number of blocks of
`on_initialize`, runs no more than the count it was scheduled with, never before its block, never
twice in one block and at least its period apart; after enough blocks it has run exactly that count.
In every block, `on_initialize` dispatches the tasks of the block in the order of priority, runs
exactly those at the hard deadline or higher, within the limit of weight so far, or first, and moves
the others to the next block. -/
theorem scheduled_task_dispatched (calls : List (Call I C O)) {when : DispatchTime}
    {maybePeriodic : Option (ℕ × ℕ)} {priority : ℕ} {origin : O} {call : C} {sch : State I C O}
    {address : ℕ × ℕ}
    (hscheduled :
      (State.run cfg calls).doSchedule when maybePeriodic priority origin call = .ok (sch, address) ∨
        ∃ id, (State.run cfg calls).doScheduleNamed id when maybePeriodic priority origin call =
          .ok (sch, address)) :
    sch.blockNumber < address.1 ∧
    (∀ n, (State.runBlocks cfg n sch address).length ≤ dispatchCount maybePeriodic ∧
      (∀ d ∈ (State.runBlocks cfg n sch address).head?, address.1 ≤ d) ∧
      (State.runBlocks cfg n sch address).IsChain (fun d d' => d < d') ∧
      ∀ period count, maybePeriodic = some (period, count) →
        (State.runBlocks cfg n sch address).IsChain fun d d' => d + period ≤ d') ∧
    (∃ blocks, ∀ n, blocks ≤ n →
      (State.runBlocks cfg n sch address).length = dispatchCount maybePeriodic) ∧
    ∀ sch₀ : State I C O,
      (sch₀.onInitialize cfg).1.events = sch₀.events ++ ((sch₀.plan cfg).filter (·.runs)).map
        (fun g => .dispatched (sch₀.blockNumber + 1) g.index g.task.maybeId) ∧
      (sch₀.plan cfg).map (fun g => (g.index, g.task)) =
        State.queued (sch₀.agenda (sch₀.blockNumber + 1)) ∧
      (sch₀.plan cfg).map (·.order) = List.range (sch₀.plan cfg).length ∧
      (sch₀.plan cfg).Pairwise
        (fun g g' => g.task.priority ≤ g'.task.priority ∧ g.cumulative ≤ g'.cumulative) ∧
      ∀ g ∈ sch₀.plan cfg,
        (g.runs = true ↔
          g.task.priority ≤ hardDeadline ∨ g.cumulative ≤ cfg.maximumWeight ∨ g.order = 0) ∧
        (g.runs = false → g.next = some (sch₀.blockNumber + 1 + 1, g.task)) := by
  obtain ⟨horizon, hwf⟩ := State.exists_wellFormed_run cfg calls
  obtain ⟨hfuture, ⟨horizon', hwf'⟩, maybeId, hslot⟩ := scheduled_spec hwf hscheduled
  have hsane := State.sane_sanitize maybeId priority call maybePeriodic origin
  have hcount := remainingRuns_sanitize maybeId priority call maybePeriodic origin
  have hspaced := fun n => State.runBlocks_spaced cfg _ n sch hslot hsane (.inr rfl) hfuture
  refine ⟨hfuture, fun n => ⟨?_, (hspaced n).2, (hspaced n).1.imp fun _ _ h => h.2, ?_⟩,
    ⟨sch.load horizon' * (horizon' + 1) + (address.1 - sch.blockNumber), fun n hn => ?_⟩,
    fun sch₀ => ?_⟩
  · -- never more runs than it has
    exact hcount ▸ State.runBlocks_length_le cfg n sch hslot hsane
  · -- a period apart, with the period it was scheduled with
    intro period count hperiodic
    exact (State.runBlocks_spaced cfg period n sch hslot hsane (period_sanitize hperiodic)
      hfuture).1.imp fun _ _ h => h.1
  · -- every run happens
    exact hcount ▸ State.runBlocks_length_eq cfg n sch hwf' hslot hfuture hn
  · obtain ⟨hslots, horder, hpairwise, hmem⟩ := State.plan_spec cfg sch₀
    refine ⟨State.onInitialize_events cfg sch₀, hslots, horder, hpairwise,
      fun g hg => ⟨(hmem g hg).1, fun hruns => ?_⟩⟩
    rw [(hmem g hg).2, hruns, if_neg Bool.false_ne_true]

/-- A task scheduled at block `2` to run twice, three blocks apart, with a limit of weight it
exceeds: it runs twice all the same. -/
theorem periodicTask_dispatched_twice :
    (State.run tenPerBlock ([] : List (Call ℕ ℕ Unit))).doSchedule (.at 2) (some (3, 2)) 100 () 8 =
        .ok (State.run tenPerBlock [(.schedule () (.at 2) (some (3, 2)) 100 8 : Call ℕ ℕ Unit)],
          (2, 0)) ∧
      ∃ blocks, ∀ n, blocks ≤ n →
        (State.runBlocks tenPerBlock n
          (State.run tenPerBlock [(.schedule () (.at 2) (some (3, 2)) 100 8 : Call ℕ ℕ Unit)])
          (2, 0)).length = 2 := by
  have hscheduled :
      (State.run tenPerBlock ([] : List (Call ℕ ℕ Unit))).doSchedule (.at 2) (some (3, 2)) 100 () 8 =
        .ok (State.run tenPerBlock [(.schedule () (.at 2) (some (3, 2)) 100 8 : Call ℕ ℕ Unit)],
          (2, 0)) := rfl
  exact ⟨hscheduled, (scheduled_task_dispatched tenPerBlock [] (.inl hscheduled)).2.2.1⟩

example :
    State.runBlocks tenPerBlock 6
      (State.run tenPerBlock [(.schedule () (.at 2) (some (3, 2)) 100 8 : Call ℕ ℕ Unit)]) (2, 0) =
      [2, 5] := by
  decide

end Scheduled

end Tetcore.Scheduler
