import Tetcore.Scheduler.Liveness

/-!
# No run lost, none twice, and the agenda drains

Block after block, `on_initialize` takes the runs left in the window of the horizon and dispatches
them: the runs left (`load`) and the dispatches in the events add up to the same after every block.
Nothing is lost there and nothing dispatched twice.

That every run left is in the end dispatched needs a measure that falls in every block with a task
left, also one that only moves a task to the next block. The runs left do not: a task that does not
fit in the block's weight waits with all its runs. The `potential` weighs each run left a horizon
and one of blocks, and each task the blocks until its own: a task that waits comes a block closer,
and one that runs goes at most a horizon ahead with a run fewer. After as many blocks as the
potential, the agenda holds no task, so every run that was left has been dispatched.
-/

namespace Tetcore.Scheduler

open Finset

variable {I C O : Type} [DecidableEq I]

/-- Whether an event is the dispatch of a task. -/
def Event.isDispatched : Event I → Bool
  | .dispatched .. => true
  | _ => false

/-- The dispatches among the events. -/
def dispatchedCount (events : List (Event I)) : ℕ :=
  events.countP Event.isDispatched

namespace State

/-- The blocks `on_initialize` needs at most to dispatch the runs left in the window of the
horizon: for each task, a horizon and one of blocks for each run left, and the blocks until its
own. -/
def potential (sch : State I C O) (horizon : ℕ) : ℕ :=
  ∑ b ∈ Ioc sch.blockNumber (sch.blockNumber + horizon),
    blockWeight (fun s => s.remainingRuns * (horizon + 1) + (b - sch.blockNumber)) (sch.agenda b)

/-- No task is left in the agenda after the current block. -/
def Idle (sch : State I C O) : Prop :=
  ∀ b, sch.blockNumber < b → ∀ s, some s ∉ sch.agenda b

/-! ### One block -/

section Block

variable (cfg : Config C O) {sch : State I C O} {horizon : ℕ}

theorem potential_onInitialize (hwf : sch.WellFormed horizon) :
    (sch.onInitialize cfg).1.potential horizon + 2 * ((sch.plan cfg).filter (·.runs)).length +
        ∑ b ∈ Ioc (sch.blockNumber + 1) (sch.blockNumber + horizon),
          blockWeight (fun _ => 1) (sch.agenda b) ≤
      sch.potential horizon := by
  have hafter : (sch.onInitialize cfg).1.potential horizon =
      ∑ b ∈ Ioc (sch.blockNumber + 1) (sch.blockNumber + horizon),
          blockWeight (fun s => s.remainingRuns * (horizon + 1) + (b - (sch.blockNumber + 1)))
            (sch.agenda b) +
        (((sch.plan cfg).filterMap (·.next)).map
          fun m => m.2.remainingRuns * (horizon + 1) + (m.1 - (sch.blockNumber + 1))).sum := by
    rw [potential, onInitialize_blockNumber]
    exact window_onInitialize cfg hwf
      fun b s => s.remainingRuns * (horizon + 1) + (b - (sch.blockNumber + 1))
  have hbefore : sch.potential horizon =
      blockWeight (fun s => s.remainingRuns * (horizon + 1) + (sch.blockNumber + 1 - sch.blockNumber))
          (sch.agenda (sch.blockNumber + 1)) +
        ∑ b ∈ Ioc (sch.blockNumber + 1) (sch.blockNumber + horizon),
          blockWeight (fun s => s.remainingRuns * (horizon + 1) + (b - sch.blockNumber))
            (sch.agenda b) :=
    sum_Ioc_first _ hwf.horizon_pos
  -- a task due later in the window weighs one block less
  have hcloser : ∑ b ∈ Ioc (sch.blockNumber + 1) (sch.blockNumber + horizon),
        blockWeight (fun s => s.remainingRuns * (horizon + 1) + (b - (sch.blockNumber + 1)))
          (sch.agenda b) +
      ∑ b ∈ Ioc (sch.blockNumber + 1) (sch.blockNumber + horizon),
        blockWeight (fun _ => 1) (sch.agenda b) =
      ∑ b ∈ Ioc (sch.blockNumber + 1) (sch.blockNumber + horizon),
        blockWeight (fun s => s.remainingRuns * (horizon + 1) + (b - sch.blockNumber))
          (sch.agenda b) := by
    rw [← Finset.sum_add_distrib]
    refine Finset.sum_congr rfl fun b hb => ?_
    have hlater := (Finset.mem_Ioc.mp hb).1
    rw [← blockWeight_add]
    congr 1
    funext s
    omega
  -- the tasks of the first block leave their weight less two for each task run
  have hfirst : ((sch.plan cfg).map fun g => g.task.remainingRuns * (horizon + 1) + 1).sum =
      blockWeight (fun s => s.remainingRuns * (horizon + 1) + (sch.blockNumber + 1 - sch.blockNumber))
        (sch.agenda (sch.blockNumber + 1)) := by
    rw [Nat.add_sub_cancel_left]
    exact plan_weight cfg (fun s => s.remainingRuns * (horizon + 1) + 1) sch
  have hplan := moves_potential_add_runs_le (sch.plan cfg) fun g hg =>
    ⟨(hwf.sane _ _ (task_mem_of_mem_plan sch cfg hg)).1,
      (hwf.sane _ _ (task_mem_of_mem_plan sch cfg hg)).2, ((plan_spec cfg sch).2.2.2 g hg).2⟩
  omega

theorem potential_lt (hwf : sch.WellFormed horizon) {b : ℕ} {s : Scheduled I C O}
    (hb : sch.blockNumber < b) (hs : some s ∈ sch.agenda b) :
    (sch.onInitialize cfg).1.potential horizon < sch.potential horizon := by
  have hle := potential_onInitialize cfg hwf
  have hwindow : b ≤ sch.blockNumber + horizon := by
    by_contra hbeyond
    exact hwf.beyond b (by omega) s hs
  by_cases hdue : b = sch.blockNumber + 1
  · -- the block runs a task
    subst hdue
    have hruns := runs_pos_of_mem cfg hs
    omega
  · -- the task comes a block closer
    have htask : 0 < blockWeight (fun _ => 1) (sch.agenda b) := blockWeight_pos _ hs Nat.one_pos
    have hsum := Finset.single_le_sum (fun b' _ => Nat.zero_le (blockWeight (fun _ => 1) (sch.agenda b')))
      (Finset.mem_Ioc.mpr ⟨(by omega : sch.blockNumber + 1 < b), hwindow⟩)
    omega

theorem Idle.onInitialize (hidle : sch.Idle) : (sch.onInitialize cfg).1.Idle := by
  intro b hb s hs
  rw [onInitialize_blockNumber] at hb
  rcases mem_onInitialize_agenda sch cfg hs with hold | ⟨g, hg, -⟩
  · exact hidle b (by omega) s hold
  · exact hidle _ (Nat.lt_succ_self _) _ (task_mem_of_mem_plan sch cfg hg)

omit [DecidableEq I] in
theorem Idle.load_eq_zero (hidle : sch.Idle) : sch.load horizon = 0 :=
  Finset.sum_eq_zero fun b hb =>
    blockWeight_eq_zero Scheduled.remainingRuns (hidle b (Finset.mem_Ioc.mp hb).1)

theorem dispatchedCount_onInitialize (sch : State I C O) :
    dispatchedCount (sch.onInitialize cfg).1.events =
      dispatchedCount sch.events + ((sch.plan cfg).filter (·.runs)).length := by
  rw [dispatchedCount, dispatchedCount, onInitialize_events, List.countP_append]
  congr 1
  rw [List.countP_eq_length.mpr fun e he => ?_, List.length_map]
  obtain ⟨g, -, rfl⟩ := List.mem_map.mp he
  rfl

theorem load_add_dispatched_onInitialize (hwf : sch.WellFormed horizon) :
    (sch.onInitialize cfg).1.load horizon + dispatchedCount (sch.onInitialize cfg).1.events =
      sch.load horizon + dispatchedCount sch.events := by
  have hload := load_onInitialize_eq cfg hwf
  rw [dispatchedCount_onInitialize]
  omega

end Block

/-! ### Block after block -/

section Blocks

variable (cfg : Config C O) {horizon : ℕ}

/-- `on_initialize` for `n` blocks in a row. -/
def initializeBlocks : ℕ → State I C O → State I C O
  | 0, sch => sch
  | n + 1, sch => initializeBlocks n (sch.onInitialize cfg).1

theorem WellFormed.initializeBlocks (n : ℕ) :
    ∀ {sch : State I C O}, sch.WellFormed horizon → (initializeBlocks cfg n sch).WellFormed horizon := by
  induction n with
  | zero => exact fun hwf => hwf
  | succ n ih => exact fun hwf => ih (hwf.onInitialize cfg)

theorem Idle.initializeBlocks (n : ℕ) :
    ∀ {sch : State I C O}, sch.Idle → (initializeBlocks cfg n sch).Idle := by
  induction n with
  | zero => exact fun hidle => hidle
  | succ n ih => exact fun hidle => ih (hidle.onInitialize cfg)

theorem load_add_dispatched_initializeBlocks (n : ℕ) :
    ∀ {sch : State I C O}, sch.WellFormed horizon →
      (initializeBlocks cfg n sch).load horizon + dispatchedCount (initializeBlocks cfg n sch).events =
        sch.load horizon + dispatchedCount sch.events := by
  induction n with
  | zero => exact fun _ => rfl
  | succ n ih =>
    intro sch hwf
    rw [initializeBlocks, ih (hwf.onInitialize cfg), load_add_dispatched_onInitialize cfg hwf]

theorem idle_initializeBlocks (n : ℕ) :
    ∀ {sch : State I C O}, sch.WellFormed horizon → sch.potential horizon ≤ n →
      (initializeBlocks cfg n sch).Idle := by
  induction n with
  | zero =>
    -- a task left would make the potential positive
    intro sch hwf hn b hb s hs
    have := potential_lt cfg hwf hb hs
    omega
  | succ n ih =>
    intro sch hwf hn
    by_cases hidle : sch.Idle
    · exact hidle.initializeBlocks cfg (n + 1)
    · obtain ⟨b, hb, s, hs⟩ : ∃ b, sch.blockNumber < b ∧ ∃ s, some s ∈ sch.agenda b := by
        simpa [Idle] using hidle
      have hlt := potential_lt cfg hwf hb hs
      rw [initializeBlocks]
      exact ih (hwf.onInitialize cfg) (by omega)

theorem run_append_onInitialize [DecidableEq O] (calls : List (Call I C O)) (n : ℕ) :
    run cfg (calls ++ List.replicate n .onInitialize) = initializeBlocks cfg n (run cfg calls) := by
  rw [run, run, List.foldl_append]
  -- the blocks are a fold of `exec` on `on_initialize` from the state the calls leave
  generalize calls.foldl (fun sch call => (sch.exec cfg call).1) empty = sch
  induction n generalizing sch with
  | zero => rfl
  | succ n ih => rw [List.replicate_succ, List.foldl_cons, ih]; rfl

end Blocks

end State

section Run

variable [DecidableEq O] (cfg : Config C O)

/-- **Every run left is dispatched, and once.** After any calls of the pallet, the scheduler keeps
a horizon: no task is due beyond it. From there, `on_initialize` block after block neither loses
nor duplicates a run: the runs left in the horizon and the dispatches add up to the same after
every block. After as many blocks as the potential, no task is left, and the dispatches have grown
by exactly the runs that were left. -/
theorem onInitialize_dispatches_every_run (calls : List (Call I C O)) :
    ∃ horizon, (State.run cfg calls).WellFormed horizon ∧ ∀ n,
      (State.run cfg (calls ++ List.replicate n .onInitialize)).load horizon +
          dispatchedCount (State.run cfg (calls ++ List.replicate n .onInitialize)).events =
        (State.run cfg calls).load horizon + dispatchedCount (State.run cfg calls).events ∧
      ((State.run cfg calls).potential horizon ≤ n →
        (State.run cfg (calls ++ List.replicate n .onInitialize)).Idle ∧
        dispatchedCount (State.run cfg (calls ++ List.replicate n .onInitialize)).events =
          dispatchedCount (State.run cfg calls).events + (State.run cfg calls).load horizon) := by
  obtain ⟨horizon, hwf⟩ := State.exists_wellFormed_run cfg calls
  refine ⟨horizon, hwf, fun n => ?_⟩
  rw [State.run_append_onInitialize]
  have hconserved := State.load_add_dispatched_initializeBlocks cfg n hwf
  refine ⟨hconserved, fun hn => ?_⟩
  have hidle := State.idle_initializeBlocks cfg n hwf hn
  -- nothing is left, so every run left has been dispatched
  have hempty : (State.initializeBlocks cfg n (State.run cfg calls)).load horizon = 0 :=
    hidle.load_eq_zero
  exact ⟨hidle, by omega⟩

end Run

end Tetcore.Scheduler
