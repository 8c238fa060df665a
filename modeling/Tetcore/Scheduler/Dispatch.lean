import Tetcore.Scheduler.Model

/-!
# What `on_initialize` does with each task

`on_initialize` of `fabric/scheduler/src/lib.rs` takes the agenda of the block, sorts its tasks by
priority and goes through them once, keeping a cumulative weight: a task runs when its priority is
at the hard deadline or higher, when the cumulative weight is within the limit, or when it is the
first; a task that runs and repeats is appended to the agenda of its next run with one run fewer,
and a task that does not run is appended to the agenda of the next block.

`plan` lists what the loop does with each task, in order (`Handled`); the agenda and the events
after `on_initialize` are read off it (`onInitialize_agenda`, `onInitialize_events`), so that the
rest of the development never unfolds the loop.
-/

namespace Tetcore.Scheduler

variable {I C O : Type} [DecidableEq I]

/-- The agenda with the tasks of `moves` appended, each to the agenda of its block, in order. -/
def appendAll (agenda : ℕ → List (Option (Scheduled I C O))) (moves : List (ℕ × Scheduled I C O)) :
    ℕ → List (Option (Scheduled I C O)) :=
  fun b => agenda b ++ ((moves.filter fun m => decide (m.1 = b)).map fun m => some m.2)

omit [DecidableEq I] in
@[simp]
theorem appendAll_nil (agenda : ℕ → List (Option (Scheduled I C O))) : appendAll agenda [] = agenda := by
  funext b
  simp [appendAll]

omit [DecidableEq I] in
theorem appendAll_append (agenda : ℕ → List (Option (Scheduled I C O)))
    (moves moves' : List (ℕ × Scheduled I C O)) :
    appendAll (appendAll agenda moves) moves' = appendAll agenda (moves ++ moves') := by
  funext b
  simp [appendAll, List.filter_append, List.append_assoc]

namespace Scheduled

/-- How many more times a task runs: once, and once more for each repetition left. -/
def remainingRuns (s : Scheduled I C O) : ℕ :=
  match s.maybePeriodic with
  | some (_, count) => count + 1
  | none => 1

/-- The period of a task, `0` when it does not repeat. -/
def period (s : Scheduled I C O) : ℕ :=
  match s.maybePeriodic with
  | some (period, _) => period
  | none => 0

/-- A task whose repetitions, if any, are at least a block apart and leave a run to count, as
`do_schedule` stores them. -/
def Sane (s : Scheduled I C O) : Prop :=
  ∀ period count, s.maybePeriodic = some (period, count) → 0 < period ∧ 0 < count

end Scheduled

namespace State

/-! ### The parts of the scheduler each update writes -/

section Updates

variable (sch : State I C O)

omit [DecidableEq I] in
@[simp]
theorem deposit_agenda (event : Event I) : (sch.deposit event).agenda = sch.agenda := rfl

omit [DecidableEq I] in
@[simp]
theorem deposit_blockNumber (event : Event I) : (sch.deposit event).blockNumber = sch.blockNumber :=
  rfl

omit [DecidableEq I] in
@[simp]
theorem deposit_events (event : Event I) : (sch.deposit event).events = sch.events ++ [event] := rfl

@[simp]
theorem setLookup_agenda (id : I) (address : Option (ℕ × ℕ)) :
    (sch.setLookup id address).agenda = sch.agenda := rfl

@[simp]
theorem setLookup_blockNumber (id : I) (address : Option (ℕ × ℕ)) :
    (sch.setLookup id address).blockNumber = sch.blockNumber := rfl

@[simp]
theorem setLookup_events (id : I) (address : Option (ℕ × ℕ)) :
    (sch.setLookup id address).events = sch.events := rfl

omit [DecidableEq I] in
theorem append_agenda (when : ℕ) (s : Scheduled I C O) :
    (sch.append when (some s)).agenda = appendAll sch.agenda [(when, s)] := by
  funext b
  by_cases hb : b = when
  · subst hb
    simp [append, appendAll]
  · simp [append, appendAll, hb, Ne.symm hb]

omit [DecidableEq I] in
@[simp]
theorem append_blockNumber (when : ℕ) (task : Option (Scheduled I C O)) :
    (sch.append when task).blockNumber = sch.blockNumber := rfl

omit [DecidableEq I] in
@[simp]
theorem append_events (when : ℕ) (task : Option (Scheduled I C O)) :
    (sch.append when task).events = sch.events := rfl

end Updates

/-! ### One task -/

/-- Where a task that runs at `now` is appended for its next run, with one run fewer, when it
repeats. -/
def nextRun (now : ℕ) (s : Scheduled I C O) : Option (ℕ × Scheduled I C O) :=
  s.maybePeriodic.map fun (period, count) =>
    (now + period, { s with maybePeriodic := if 1 < count then some (period, count - 1) else none })

omit [DecidableEq I] in
theorem nextRun_eq_none {now : ℕ} {s : Scheduled I C O} :
    nextRun now s = none ↔ s.maybePeriodic = none :=
  Option.map_eq_none_iff

omit [DecidableEq I] in
theorem remainingRuns_of_nextRun_eq_none {now : ℕ} {s : Scheduled I C O} (h : nextRun now s = none) :
    s.remainingRuns = 1 := by
  rw [Scheduled.remainingRuns, nextRun_eq_none.mp h]

omit [DecidableEq I] in
theorem nextRun_spec {now b : ℕ} {s s' : Scheduled I C O} (hs : s.Sane)
    (h : nextRun now s = some (b, s')) :
    b = now + s.period ∧ 0 < s.period ∧ s'.Sane ∧
      (s'.maybePeriodic = none ∨ s'.period = s.period) ∧ s'.remainingRuns + 1 = s.remainingRuns := by
  unfold nextRun at h
  obtain ⟨⟨period, count⟩, hp, heq⟩ := Option.map_eq_some_iff.mp h
  obtain ⟨hperiod, hcount⟩ := hs period count hp
  obtain ⟨rfl, rfl⟩ := Prod.mk.inj heq
  have hper : s.period = period := by simp only [Scheduled.period, hp]
  refine ⟨hper ▸ rfl, hper ▸ hperiod, ?_⟩
  -- the count left is one fewer, and the task repeats only while one is left
  by_cases hlt : 1 < count
  · simp only [Scheduled.Sane, Scheduled.period, Scheduled.remainingRuns, hp, hlt, if_true,
      Option.some.injEq, Prod.mk.injEq]
    refine ⟨?_, .inr trivial, by omega⟩
    rintro p k ⟨rfl, rfl⟩
    omega
  · simp only [Scheduled.Sane, Scheduled.remainingRuns, hp, hlt, if_false]
    exact ⟨fun _ _ hpk => (nomatch hpk), .inl trivial, by omega⟩

section Dispatch

variable (sch : State I C O) (now index : ℕ) (s : Scheduled I C O)

theorem dispatch_agenda : (sch.dispatch now index s).agenda = appendAll sch.agenda (nextRun now s).toList := by
  unfold dispatch nextRun
  rcases s.maybePeriodic with _ | ⟨period, count⟩
  · dsimp only
    split <;> simp
  · dsimp only
    split <;> simp [append_agenda]

@[simp]
theorem dispatch_blockNumber : (sch.dispatch now index s).blockNumber = sch.blockNumber := by
  obtain ⟨maybeId, priority, call, maybePeriodic, origin⟩ := s
  rcases maybePeriodic with _ | ⟨period, count⟩ <;> rcases maybeId with _ | id <;> rfl

theorem dispatch_events :
    (sch.dispatch now index s).events = sch.events ++ [.dispatched now index s.maybeId] := by
  obtain ⟨maybeId, priority, call, maybePeriodic, origin⟩ := s
  rcases maybePeriodic with _ | ⟨period, count⟩ <;> rcases maybeId with _ | id <;> rfl

end Dispatch

variable (cfg : Config C O)

/-- The test of `on_initialize` for the task at place `order` of the sorted agenda, with the
cumulative weight up to it: at the hard deadline or higher, within the limit, or the first. -/
def runsNow (order cumulative : ℕ) (s : Scheduled I C O) : Bool :=
  decide (s.priority ≤ hardDeadline) || decide (cumulative ≤ cfg.maximumWeight) || order == 0

theorem step_eq (now cumulative total : ℕ) (sch : State I C O) (order index : ℕ)
    (s : Scheduled I C O) :
    step cfg now (cumulative, total, sch) (order, index, s) =
      if runsNow cfg order (taskWeight cfg cumulative s) s then
        (taskWeight cfg cumulative s, taskWeight cfg cumulative s, sch.dispatch now index s)
      else (taskWeight cfg cumulative s, total, sch.append (now + 1) (some s)) := rfl

/-! ### The loop of `on_initialize` -/

/-- What the loop of `on_initialize` does with one task: its place in the sorted agenda, its slot,
the cumulative weight up to it, whether it runs, and where it is appended next, if anywhere. -/
structure Handled (I C O : Type) where
  order : ℕ
  index : ℕ
  cumulative : ℕ
  task : Scheduled I C O
  runs : Bool
  next : Option (ℕ × Scheduled I C O)

/-- The loop of `on_initialize` at `now` over the tasks, from the cumulative weight before them. -/
def handle (now : ℕ) : ℕ → List (ℕ × ℕ × Scheduled I C O) → List (Handled I C O)
  | _, [] => []
  | cumulative, (order, index, s) :: tasks =>
    let cumulative := taskWeight cfg cumulative s
    let runs := runsNow cfg order cumulative s
    ⟨order, index, cumulative, s, runs, if runs then nextRun now s else some (now + 1, s)⟩ ::
      handle now cumulative tasks

section Loop

variable (now : ℕ)

theorem foldl_step_agenda : ∀ (tasks : List (ℕ × ℕ × Scheduled I C O)) (cumulative total : ℕ)
    (sch : State I C O),
    (tasks.foldl (step cfg now) (cumulative, total, sch)).2.2.agenda =
      appendAll sch.agenda ((handle cfg now cumulative tasks).filterMap (·.next))
  | [], _, _, _ => by simp [handle]
  | (order, index, s) :: tasks, cumulative, total, sch => by
    rw [List.foldl_cons, step_eq]
    split
    · rename_i hruns
      rw [foldl_step_agenda tasks, dispatch_agenda, appendAll_append, handle, List.filterMap_cons]
      simp only [hruns, if_true]
      cases nextRun now s <;> rfl
    · rename_i hruns
      rw [foldl_step_agenda tasks, append_agenda, appendAll_append, handle, List.filterMap_cons]
      simp [hruns]

theorem foldl_step_events : ∀ (tasks : List (ℕ × ℕ × Scheduled I C O)) (cumulative total : ℕ)
    (sch : State I C O),
    (tasks.foldl (step cfg now) (cumulative, total, sch)).2.2.events =
      sch.events ++ ((handle cfg now cumulative tasks).filter (·.runs)).map
        fun h => .dispatched now h.index h.task.maybeId
  | [], _, _, _ => by simp [handle]
  | (order, index, s) :: tasks, cumulative, total, sch => by
    rw [List.foldl_cons, step_eq]
    split
    · rename_i hruns
      rw [foldl_step_events tasks, dispatch_events, handle, List.filter_cons]
      simp [hruns]
    · rename_i hruns
      rw [foldl_step_events tasks, append_events, handle, List.filter_cons]
      simp [hruns]

theorem foldl_step_blockNumber : ∀ (tasks : List (ℕ × ℕ × Scheduled I C O)) (cumulative total : ℕ)
    (sch : State I C O),
    (tasks.foldl (step cfg now) (cumulative, total, sch)).2.2.blockNumber = sch.blockNumber
  | [], _, _, _ => rfl
  | (order, index, s) :: tasks, cumulative, total, sch => by
    rw [List.foldl_cons, step_eq]
    split
    · rw [foldl_step_blockNumber tasks, dispatch_blockNumber]
    · rw [foldl_step_blockNumber tasks, append_blockNumber]

end Loop

/-- The tasks `on_initialize` takes from an agenda, each with its place in the order and its
slot. -/
def tasksOf (agenda : List (Option (Scheduled I C O))) : List (ℕ × ℕ × Scheduled I C O) :=
  (queued agenda).zipIdx.map fun (task, order) => (order, task.1, task.2)

/-- What `on_initialize` does with each task of the next block, in order. -/
def plan (sch : State I C O) : List (Handled I C O) :=
  handle cfg (sch.blockNumber + 1) (cfg.readsWrites 1 2) (tasksOf (sch.agenda (sch.blockNumber + 1)))

section OnInitialize

variable (sch : State I C O)

theorem onInitialize_agenda :
    (sch.onInitialize cfg).1.agenda =
      appendAll (Function.update sch.agenda (sch.blockNumber + 1) []) ((sch.plan cfg).filterMap (·.next)) :=
  foldl_step_agenda cfg _ _ _ _ _

theorem onInitialize_events :
    (sch.onInitialize cfg).1.events =
      sch.events ++ ((sch.plan cfg).filter (·.runs)).map
        fun h => .dispatched (sch.blockNumber + 1) h.index h.task.maybeId :=
  foldl_step_events cfg _ _ _ _ _

theorem onInitialize_blockNumber : (sch.onInitialize cfg).1.blockNumber = sch.blockNumber + 1 :=
  foldl_step_blockNumber cfg _ _ _ _ _

end OnInitialize

/-! ### The order of the loop and its test -/

section Plan

variable (now : ℕ)

omit [DecidableEq I] in
theorem handle_map_slot : ∀ (cumulative : ℕ) (tasks : List (ℕ × ℕ × Scheduled I C O)),
    (handle cfg now cumulative tasks).map (fun h => (h.index, h.task)) =
      tasks.map fun t => (t.2.1, t.2.2)
  | _, [] => rfl
  | cumulative, (order, index, s) :: tasks => by
    rw [handle, List.map_cons, List.map_cons, handle_map_slot _ tasks]

omit [DecidableEq I] in
theorem handle_map_order : ∀ (cumulative : ℕ) (tasks : List (ℕ × ℕ × Scheduled I C O)),
    (handle cfg now cumulative tasks).map (·.order) = tasks.map (·.1)
  | _, [] => rfl
  | cumulative, (order, index, s) :: tasks => by
    rw [handle, List.map_cons, List.map_cons, handle_map_order _ tasks]

omit [DecidableEq I] in
theorem handled_of_mem : ∀ {cumulative : ℕ} {tasks : List (ℕ × ℕ × Scheduled I C O)}
    {h : Handled I C O}, h ∈ handle cfg now cumulative tasks →
      h.runs = runsNow cfg h.order h.cumulative h.task ∧
        h.next = if h.runs then nextRun now h.task else some (now + 1, h.task)
  | _, [], _, hmem => nomatch hmem
  | cumulative, (order, index, s) :: tasks, h, hmem => by
    rw [handle, List.mem_cons] at hmem
    rcases hmem with rfl | hmem
    · exact ⟨rfl, rfl⟩
    · exact handled_of_mem hmem

omit [DecidableEq I] in
theorem taskWeight_le (cumulative : ℕ) (s : Scheduled I C O) : taskWeight cfg cumulative s ≤ 2 ^ 64 - 1 := by
  unfold taskWeight Saturating.add
  dsimp only
  split_ifs <;> omega

omit [DecidableEq I] in
theorem le_taskWeight {cumulative : ℕ} (h : cumulative ≤ 2 ^ 64 - 1) (s : Scheduled I C O) :
    cumulative ≤ taskWeight cfg cumulative s := by
  unfold taskWeight Saturating.add
  dsimp only
  split_ifs <;> omega

omit [DecidableEq I] in
theorem handle_cumulative : ∀ {cumulative : ℕ} (tasks : List (ℕ × ℕ × Scheduled I C O)),
    cumulative ≤ 2 ^ 64 - 1 →
      (∀ h ∈ handle cfg now cumulative tasks, cumulative ≤ h.cumulative) ∧
        (handle cfg now cumulative tasks).Pairwise fun h h' => h.cumulative ≤ h'.cumulative
  | _, [], _ => ⟨fun _ hmem => (nomatch hmem), List.Pairwise.nil⟩
  | cumulative, (order, index, s) :: tasks, hle => by
    have hstep := le_taskWeight cfg hle s
    obtain ⟨hrest, hpair⟩ := handle_cumulative tasks (taskWeight_le cfg cumulative s)
    rw [handle]
    refine ⟨?_, List.pairwise_cons.mpr ⟨hrest, hpair⟩⟩
    intro h hmem
    rcases List.mem_cons.mp hmem with rfl | hmem
    · exact hstep
    · exact hstep.trans (hrest h hmem)

end Plan

omit [DecidableEq I] in
theorem tasksOf_map_slot (agenda : List (Option (Scheduled I C O))) :
    (tasksOf agenda).map (fun t => (t.2.1, t.2.2)) = queued agenda := by
  simp only [tasksOf, List.map_map, Function.comp_def]
  exact List.zipIdx_map_fst 0 _

omit [DecidableEq I] in
theorem tasksOf_map_order (agenda : List (Option (Scheduled I C O))) :
    (tasksOf agenda).map (·.1) = List.range (tasksOf agenda).length := by
  simp only [tasksOf, List.map_map, Function.comp_def, List.length_map, List.length_zipIdx]
  rw [List.range_eq_range']
  exact List.zipIdx_map_snd 0 _

omit [DecidableEq I] in
theorem queued_pairwise (agenda : List (Option (Scheduled I C O))) :
    (queued agenda).Pairwise fun a b => a.2.priority ≤ b.2.priority := by
  have : Std.Total fun a b : ℕ × Scheduled I C O => a.2.priority ≤ b.2.priority :=
    ⟨fun a b => le_total _ _⟩
  have : IsTrans (ℕ × Scheduled I C O) fun a b => a.2.priority ≤ b.2.priority :=
    ⟨fun _ _ _ hab hbc => hab.trans hbc⟩
  exact List.pairwise_insertionSort _ _

omit [DecidableEq I] in
/-- **One block of `on_initialize`.** It takes each task of the block once, sorted by priority,
and the cumulative weight only grows along the way. A task runs exactly when its priority is at
the hard deadline or higher, when the cumulative weight up to it is within the limit, or when it
is the first; a task that runs goes to its next run if it repeats, and one that does not goes to
the next block. -/
theorem plan_spec (sch : State I C O) :
    (sch.plan cfg).map (fun h => (h.index, h.task)) = queued (sch.agenda (sch.blockNumber + 1)) ∧
    (sch.plan cfg).map (·.order) = List.range (sch.plan cfg).length ∧
    (sch.plan cfg).Pairwise
      (fun h h' => h.task.priority ≤ h'.task.priority ∧ h.cumulative ≤ h'.cumulative) ∧
    ∀ h ∈ sch.plan cfg,
      (h.runs = true ↔
        h.task.priority ≤ hardDeadline ∨ h.cumulative ≤ cfg.maximumWeight ∨ h.order = 0) ∧
      h.next = if h.runs then nextRun (sch.blockNumber + 1) h.task
        else some (sch.blockNumber + 1 + 1, h.task) := by
  have hslot : (sch.plan cfg).map (fun h => (h.index, h.task)) =
      queued (sch.agenda (sch.blockNumber + 1)) := by
    rw [plan, handle_map_slot, tasksOf_map_slot]
  have horder : (sch.plan cfg).map (·.order) = List.range (sch.plan cfg).length := by
    have hlen := congrArg List.length
      (handle_map_order cfg (sch.blockNumber + 1) (cfg.readsWrites 1 2)
        (tasksOf (sch.agenda (sch.blockNumber + 1))))
    simp only [List.length_map] at hlen
    rw [plan, handle_map_order, tasksOf_map_order, hlen]
  refine ⟨hslot, horder, ?_, fun h hmem => ?_⟩
  · -- the priorities are those of the sorted agenda, the weights those of the loop
    have hprio := queued_pairwise (sch.agenda (sch.blockNumber + 1))
    rw [← hslot, List.pairwise_map] at hprio
    have hweight := (handle_cumulative cfg (sch.blockNumber + 1)
      (tasksOf (sch.agenda (sch.blockNumber + 1)))
      (min_le_right _ _ : cfg.readsWrites 1 2 ≤ 2 ^ 64 - 1)).2
    exact hprio.and hweight
  · obtain ⟨hruns, hnext⟩ := handled_of_mem cfg _ hmem
    refine ⟨?_, hnext⟩
    rw [hruns, runsNow]
    simp only [Bool.or_eq_true, decide_eq_true_eq, beq_iff_eq, or_assoc]

/-! ### The slots of the agenda of a block -/

omit [DecidableEq I] in
theorem mem_queued {agenda : List (Option (Scheduled I C O))} {i : ℕ} {s : Scheduled I C O} :
    (i, s) ∈ queued agenda ↔ agenda[i]? = some (some s) := by
  rw [queued, List.mem_insertionSort, List.mem_filterMap]
  constructor
  · rintro ⟨⟨slot, j⟩, hmem, hslot⟩
    obtain ⟨s', rfl, heq⟩ := Option.map_eq_some_iff.mp hslot
    obtain ⟨rfl, rfl⟩ := Prod.mk.inj heq
    exact List.mk_mem_zipIdx_iff_getElem?.mp hmem
  · intro h
    exact ⟨(some s, i), List.mk_mem_zipIdx_iff_getElem?.mpr h, rfl⟩

omit [DecidableEq I] in
theorem queued_nodup (agenda : List (Option (Scheduled I C O))) :
    ((queued agenda).map Prod.fst).Nodup := by
  have hslots : agenda.zipIdx.Pairwise fun a b => a.2 ≠ b.2 := by
    rw [← List.pairwise_map, List.zipIdx_map_snd]
    exact List.nodup_range'
  have htasks := hslots.filterMap (S := fun a b : ℕ × Scheduled I C O => a.1 ≠ b.1)
    (fun p => p.1.map fun s => (p.2, s)) (by
      rintro ⟨slot, j⟩ ⟨slot', j'⟩ hne b hb b' hb'
      obtain ⟨s, -, rfl⟩ := Option.map_eq_some_iff.mp hb
      obtain ⟨s', -, rfl⟩ := Option.map_eq_some_iff.mp hb'
      exact hne)
  rw [List.Nodup, List.pairwise_map]
  exact htasks.perm (List.perm_insertionSort _ _).symm Ne.symm

/-! ### Following a task from slot to slot -/

/-- The task in the slot at an address of the agenda, if any. -/
def taskAt (sch : State I C O) (address : ℕ × ℕ) : Option (Scheduled I C O) :=
  ((sch.agenda address.1)[address.2]?).join

/-- The slot the loop appends the task of slot `index` to, walking the plan as the loop does: the
block of its move and the length of that block's agenda at that moment; none when the task runs
for the last time. -/
def movedTo (index : ℕ) :
    (ℕ → List (Option (Scheduled I C O))) → List (Handled I C O) → Option (ℕ × ℕ)
  | _, [] => none
  | agenda, h :: hs =>
    if h.index = index then h.next.map fun m => (m.1, (agenda m.1).length)
    else movedTo index (appendAll agenda h.next.toList) hs

/-- Where the task in the slot at `address` is after `on_initialize`: in the same slot when its
block is not the one taken, and otherwise in the slot the loop appends it to. -/
def follow (sch : State I C O) (address : ℕ × ℕ) : Option (ℕ × ℕ) :=
  if address.1 = sch.blockNumber + 1 then
    movedTo address.2 (Function.update sch.agenda (sch.blockNumber + 1) []) (sch.plan cfg)
  else some address

/-- Whether `on_initialize` runs the task in the slot at `address`. -/
def runsAt (sch : State I C O) (address : ℕ × ℕ) : Bool :=
  decide (address.1 = sch.blockNumber + 1) &&
    (sch.plan cfg).any fun h => decide (h.index = address.2) && h.runs

omit [DecidableEq I] in
theorem movedTo_append : ∀ (agenda : ℕ → List (Option (Scheduled I C O))) (pre : List (Handled I C O))
    (h : Handled I C O) (post : List (Handled I C O)), (∀ g ∈ pre, g.index ≠ h.index) →
      movedTo h.index agenda (pre ++ h :: post) =
        h.next.map fun m => (m.1, (appendAll agenda (pre.filterMap (·.next)) m.1).length)
  | agenda, [], h, post, _ => by simp [movedTo]
  | agenda, g :: pre, h, post, hpre => by
    rw [List.cons_append, movedTo, if_neg (hpre g List.mem_cons_self),
      movedTo_append _ pre h post fun g' hg' => hpre g' (List.mem_cons_of_mem _ hg'),
      List.filterMap_cons, appendAll_append]
    cases g.next <;> rfl

omit [DecidableEq I] in
theorem getElem?_appendAll_moved (agenda : ℕ → List (Option (Scheduled I C O)))
    (pre : List (Handled I C O)) (h : Handled I C O) (post : List (Handled I C O)) {m : ℕ × Scheduled I C O}
    (hm : h.next = some m) :
    (appendAll agenda ((pre ++ h :: post).filterMap (·.next)) m.1)[
      (appendAll agenda (pre.filterMap (·.next)) m.1).length]? = some (some m.2) := by
  simp only [List.filterMap_append, List.filterMap_cons, hm, ← appendAll_append]
  simp [appendAll]

omit [DecidableEq I] in
theorem exists_plan_split (sch : State I C O) {i : ℕ} {s : Scheduled I C O}
    (hslot : (sch.agenda (sch.blockNumber + 1))[i]? = some (some s)) :
    ∃ pre h post, sch.plan cfg = pre ++ h :: post ∧ h.index = i ∧ h.task = s ∧
      (∀ g ∈ pre, g.index ≠ i) ∧ ∀ g ∈ post, g.index ≠ i := by
  obtain ⟨hslots, -⟩ := plan_spec cfg sch
  have hmem : (i, s) ∈ (sch.plan cfg).map fun h => (h.index, h.task) := by
    rw [hslots]
    exact mem_queued.mpr hslot
  have hnodup := queued_nodup (sch.agenda (sch.blockNumber + 1))
  rw [← hslots, List.map_map] at hnodup
  simp only [Function.comp_def] at hnodup
  obtain ⟨h, hh, hih⟩ := List.mem_map.mp hmem
  obtain ⟨pre, post, hsplit⟩ := List.append_of_mem hh
  obtain ⟨rfl, rfl⟩ := Prod.mk.inj hih
  rw [hsplit, List.map_append, List.map_cons, List.nodup_append] at hnodup
  obtain ⟨-, hpost, hapart⟩ := hnodup
  refine ⟨pre, h, post, hsplit, rfl, rfl, fun g hg hgi => ?_, fun g hg hgi => ?_⟩
  · exact hapart _ (List.mem_map_of_mem hg) _ List.mem_cons_self hgi
  · exact (List.nodup_cons.mp hpost).1 (List.mem_map.mpr ⟨g, hg, hgi⟩)

/-- **One block, for one task.** The task in a slot of a later block stays in its slot and does not
run. The task in a slot of the block taken runs as the loop decides, and after the loop it is in the
slot the loop appends it to, as the loop moves it. -/
theorem follow_spec (sch : State I C O) {address : ℕ × ℕ} {s : Scheduled I C O}
    (hslot : sch.taskAt address = some s) :
    (address.1 ≠ sch.blockNumber + 1 →
      sch.follow cfg address = some address ∧ sch.runsAt cfg address = false ∧
        (sch.onInitialize cfg).1.taskAt address = some s) ∧
    (address.1 = sch.blockNumber + 1 →
      ∃ h ∈ sch.plan cfg, h.task = s ∧ sch.runsAt cfg address = h.runs ∧
        (sch.follow cfg address).map (fun a => (a.1, (sch.onInitialize cfg).1.taskAt a)) =
          h.next.map fun m => (m.1, some m.2)) := by
  have hget : (sch.agenda address.1)[address.2]? = some (some s) := Option.join_eq_some_iff.mp hslot
  refine ⟨fun hlater => ⟨if_neg hlater, by simp [runsAt, hlater], ?_⟩, fun hnow => ?_⟩
  · -- a later block only gets tasks appended after its own
    rw [taskAt, onInitialize_agenda]
    simp only [appendAll, Function.update_of_ne hlater]
    rw [List.getElem?_append_left (List.getElem?_eq_some_iff.mp hget).1, hget]
    rfl
  · obtain ⟨pre, h, post, hsplit, hindex, htask, hpre, hpost⟩ :=
      exists_plan_split cfg sch (hnow ▸ hget)
    refine ⟨h, hsplit ▸ List.mem_append_right _ List.mem_cons_self, htask, ?_, ?_⟩
    · -- only the task's own step has its slot
      simp only [runsAt, hnow, decide_true, Bool.true_and, hsplit, List.any_append, List.any_cons,
        hindex]
      have hpre' : (pre.any fun g => decide (g.index = address.2) && g.runs) = false :=
        List.any_eq_false.mpr fun g hg => by simp [hpre g hg]
      have hpost' : (post.any fun g => decide (g.index = address.2) && g.runs) = false :=
        List.any_eq_false.mpr fun g hg => by simp [hpost g hg]
      simp [hpre', hpost']
    · rw [follow, if_pos hnow, hsplit, ← hindex, movedTo_append _ pre h post (hindex ▸ hpre)]
      cases hm : h.next with
      | none => rfl
      | some m =>
        simp only [Option.map_some, taskAt, onInitialize_agenda, hsplit]
        rw [getElem?_appendAll_moved _ pre h post hm]
        rfl

/-- **What one block does to a task**, from the slot it is followed to: it stays when its block is
later; when its block is taken it waits for the next block, runs for the last time, or runs and
goes to the block its period ahead with one run fewer. -/
theorem follow_cases (sch : State I C O) {address : ℕ × ℕ} {s : Scheduled I C O}
    (hslot : sch.taskAt address = some s) (hs : s.Sane) :
    (address.1 ≠ sch.blockNumber + 1 ∧ sch.runsAt cfg address = false ∧
      sch.follow cfg address = some address ∧ (sch.onInitialize cfg).1.taskAt address = some s) ∨
    (address.1 = sch.blockNumber + 1 ∧ sch.runsAt cfg address = false ∧
      ∃ a', sch.follow cfg address = some a' ∧ a'.1 = sch.blockNumber + 1 + 1 ∧
        (sch.onInitialize cfg).1.taskAt a' = some s) ∨
    (address.1 = sch.blockNumber + 1 ∧ sch.runsAt cfg address = true ∧
      sch.follow cfg address = none ∧ s.remainingRuns = 1) ∨
    (address.1 = sch.blockNumber + 1 ∧ sch.runsAt cfg address = true ∧
      ∃ a' s', sch.follow cfg address = some a' ∧ a'.1 = sch.blockNumber + 1 + s.period ∧
        (sch.onInitialize cfg).1.taskAt a' = some s' ∧ 0 < s.period ∧ s'.Sane ∧
        (s'.maybePeriodic = none ∨ s'.period = s.period) ∧
        s'.remainingRuns + 1 = s.remainingRuns) := by
  obtain ⟨hlater, hnow⟩ := follow_spec cfg sch hslot
  by_cases hdue : address.1 = sch.blockNumber + 1
  · obtain ⟨h, hmem, htask, hruns, hmove⟩ := hnow hdue
    have hnext := ((plan_spec cfg sch).2.2.2 h hmem).2
    rw [htask] at hnext
    cases hr : h.runs with
    | false =>
      -- the task waits: it is appended to the next block
      rw [hr, if_neg Bool.false_ne_true] at hnext
      rw [hnext, Option.map_some] at hmove
      obtain ⟨a', hfollow, hpair⟩ := Option.map_eq_some_iff.mp hmove
      obtain ⟨ha', hat⟩ := Prod.mk.inj hpair
      exact .inr (.inl ⟨hdue, hr ▸ hruns, a', hfollow, ha', hat⟩)
    | true =>
      rw [hr, if_pos rfl] at hnext
      cases hn : nextRun (sch.blockNumber + 1) s with
      | none =>
        rw [hnext, hn, Option.map_none, Option.map_eq_none_iff] at hmove
        exact .inr (.inr (.inl ⟨hdue, hr ▸ hruns, hmove, remainingRuns_of_nextRun_eq_none hn⟩))
      | some m =>
        obtain ⟨b, s'⟩ := m
        obtain ⟨hb, hperiod, hs', hper', hrem⟩ := nextRun_spec hs hn
        rw [hnext, hn, Option.map_some] at hmove
        obtain ⟨a', hfollow, hpair⟩ := Option.map_eq_some_iff.mp hmove
        obtain ⟨ha', hat⟩ := Prod.mk.inj hpair
        exact .inr (.inr (.inr ⟨hdue, hr ▸ hruns, a', s', hfollow, ha'.trans hb, hat, hperiod, hs',
          hper', hrem⟩))
  · obtain ⟨hfollow, hruns, hstay⟩ := hlater hdue
    exact .inl ⟨hdue, hruns, hfollow, hstay⟩

/-! ### Runs of `on_initialize` -/

/-- The blocks at which `on_initialize`, called `n` times from `sch`, runs the task in the slot at
`address`, followed from slot to slot. -/
def runBlocks : ℕ → State I C O → ℕ × ℕ → List ℕ
  | 0, _, _ => []
  | n + 1, sch, address =>
    (if sch.runsAt cfg address then [sch.blockNumber + 1] else []) ++
      match sch.follow cfg address with
      | some address' => runBlocks n (sch.onInitialize cfg).1 address'
      | none => []

omit [DecidableEq I] in
theorem remainingRuns_pos (s : Scheduled I C O) : 0 < s.remainingRuns := by
  unfold Scheduled.remainingRuns
  split <;> omega

theorem runBlocks_length_le : ∀ (n : ℕ) (sch : State I C O) {address : ℕ × ℕ} {s : Scheduled I C O},
    sch.taskAt address = some s → s.Sane →
      (runBlocks cfg n sch address).length ≤ s.remainingRuns
  | 0, _, _, s, _, _ => Nat.zero_le _
  | n + 1, sch, address, s, hslot, hs => by
    rcases follow_cases cfg sch hslot hs with
      ⟨-, hruns, hfollow, hstay⟩ | ⟨-, hruns, a', hfollow, -, hat⟩ | ⟨-, hruns, hfollow, hlast⟩ |
        ⟨-, hruns, a', s', hfollow, -, hat, -, hs', -, hrem⟩
    · rw [runBlocks, hruns, hfollow]
      exact runBlocks_length_le n _ hstay hs
    · rw [runBlocks, hruns, hfollow]
      exact runBlocks_length_le n _ hat hs
    · rw [runBlocks, hruns, hfollow, hlast]
      rfl
    · rw [runBlocks, hruns, hfollow, if_pos rfl, List.singleton_append, List.length_cons, ← hrem]
      exact Nat.succ_le_succ (runBlocks_length_le n _ hat hs')

/-- **On time, and a period apart.** A task followed through any number of blocks runs no earlier
than the block of its slot, and each run comes in a later block and at least `period` after the one
before, where `period` is the task's own unless it has no repetition left. -/
theorem runBlocks_spaced (period : ℕ) :
    ∀ (n : ℕ) (sch : State I C O) {address : ℕ × ℕ} {s : Scheduled I C O},
    sch.taskAt address = some s → s.Sane → s.maybePeriodic = none ∨ s.period = period →
      sch.blockNumber < address.1 →
      (runBlocks cfg n sch address).IsChain (fun d d' => d + period ≤ d' ∧ d < d') ∧
        ∀ d ∈ (runBlocks cfg n sch address).head?, address.1 ≤ d
  | 0, _, _, _, _, _, _, _ => ⟨List.isChain_nil, fun _ hd => nomatch hd⟩
  | n + 1, sch, address, s, hslot, hs, hperiod, hfuture => by
    have hbn := onInitialize_blockNumber cfg sch
    rcases follow_cases cfg sch hslot hs with
      ⟨hlater, hruns, hfollow, hstay⟩ | ⟨hdue, hruns, a', hfollow, ha', hat⟩ |
        ⟨hdue, hruns, hfollow, -⟩ |
        ⟨hdue, hruns, a', s', hfollow, ha', hat, hpos, hs', hper, -⟩
    · rw [runBlocks, hruns, hfollow]
      exact runBlocks_spaced period n _ hstay hs hperiod (by omega)
    · -- waiting moves the task one block on
      rw [runBlocks, hruns, hfollow]
      obtain ⟨hchain, hhead⟩ := runBlocks_spaced period n _ hat hs hperiod (by omega)
      exact ⟨hchain, fun d hd => by have := hhead d hd; omega⟩
    · rw [runBlocks, hruns, hfollow, if_pos rfl]
      exact ⟨List.isChain_singleton _, fun d hd => by simp at hd; omega⟩
    · -- a task that repeats has its period, and its next run is in the block a period ahead
      have hsp : s.period = period :=
        hperiod.resolve_left fun hnone => by simp [Scheduled.period, hnone] at hpos
      rw [runBlocks, hruns, hfollow, if_pos rfl, List.singleton_append]
      obtain ⟨hchain, hhead⟩ :=
        runBlocks_spaced period n _ hat hs' (hper.imp_right (·.trans hsp)) (by omega)
      refine ⟨List.isChain_cons.mpr ⟨fun d hd => ?_, hchain⟩, fun d hd => ?_⟩
      · have := hhead d hd
        constructor <;> omega
      · simp at hd
        omega

end State

end Tetcore.Scheduler
