import Mathlib
import Tetcore.Lib.Saturating

/-!
# The scheduler

`fabric/scheduler/src/lib.rs`. Tasks wait in `Agenda`, a vector of slots for each block; a named
task's slot is also recorded in `Lookup` under its name. `on_initialize` takes the agenda of the
block, dispatches its tasks in priority order while the weight allows, moves periodic tasks to
their next block, and appends the tasks left over to the agenda of the next block.

Block numbers and weights are natural numbers; weights saturate at the bound of `u64`, as the
source's `saturating_add` does. Dispatching a call is not modelled beyond its event.
-/

namespace Tetcore.Scheduler

inductive DispatchTime
  | at (block : ℕ)
  | after (blocks : ℕ)

structure Scheduled (I C O : Type) where
  maybeId : Option I
  priority : ℕ
  call : C
  maybePeriodic : Option (ℕ × ℕ)
  origin : O

inductive Event (I : Type)
  | scheduled (when index : ℕ)
  | canceled (when index : ℕ)
  | dispatched (when index : ℕ) (id : Option I)
  deriving DecidableEq, Repr

inductive Error
  | failedToSchedule
  | notFound
  | targetBlockNumberInPast
  | rescheduleNoChange
  | badOrigin
  deriving DecidableEq, Repr

/-- `schedule::HARD_DEADLINE`: a task of this priority or a higher one runs even past the limit. -/
def hardDeadline : ℕ := 63

/-- The runtime's configuration: `MaximumWeight`, `DbWeight`, the weight of each call, which
origins are signed, and `ScheduleOrigin`. -/
structure Config (C O : Type) where
  maximumWeight : ℕ
  dbRead : ℕ
  dbWrite : ℕ
  callWeight : C → ℕ
  isSigned : O → Bool
  ensureOrigin : O → Bool

namespace Config

variable {C O : Type} (cfg : Config C O)

def readsWrites (r w : ℕ) : ℕ :=
  Saturating.add 64 (Saturating.mul 64 cfg.dbRead r) (Saturating.mul 64 cfg.dbWrite w)

def writes (w : ℕ) : ℕ := Saturating.mul 64 cfg.dbWrite w

end Config

/-- The storage of the pallet, with the block number and the events deposited. -/
structure State (I C O : Type) where
  blockNumber : ℕ
  agenda : ℕ → List (Option (Scheduled I C O))
  lookup : I → Option (ℕ × ℕ)
  events : List (Event I)

namespace State

variable {I C O : Type} [DecidableEq I] [DecidableEq O]

def empty : State I C O := ⟨0, fun _ => [], fun _ => none, []⟩

def deposit (sch : State I C O) (event : Event I) : State I C O :=
  { sch with events := sch.events ++ [event] }

/-- `Agenda::append`. -/
def append (sch : State I C O) (when : ℕ) (task : Option (Scheduled I C O)) :
    State I C O :=
  { sch with agenda := Function.update sch.agenda when (sch.agenda when ++ [task]) }

/-- Empty slot `index` of the agenda of block `when`. -/
def clearSlot (sch : State I C O) (when index : ℕ) : State I C O :=
  { sch with agenda := Function.update sch.agenda when ((sch.agenda when).set index none) }

def setLookup (sch : State I C O) (id : I) (address : Option (ℕ × ℕ)) : State I C O :=
  { sch with lookup := Function.update sch.lookup id address }

def resolveTime (sch : State I C O) (when : DispatchTime) : Except Error ℕ :=
  let when := match when with
    | .at x => x
    | .after x => sch.blockNumber + x + 1
  if when ≤ sch.blockNumber then .error .targetBlockNumberInPast else .ok when

/-- A period repeats at least twice and is not empty; one run is scheduled now. -/
def sanitize (maybePeriodic : Option (ℕ × ℕ)) : Option (ℕ × ℕ) :=
  (maybePeriodic.filter fun p => decide (1 < p.2) && p.1 != 0).map fun p => (p.1, p.2 - 1)

def doSchedule (sch : State I C O) (when : DispatchTime) (maybePeriodic : Option (ℕ × ℕ))
    (priority : ℕ) (origin : O) (call : C) : Except Error (State I C O × (ℕ × ℕ)) := do
  let when ← sch.resolveTime when
  let sch := sch.append when (some ⟨none, priority, call, sanitize maybePeriodic, origin⟩)
  let index := (sch.agenda when).length - 1
  return (sch.deposit (.scheduled when index), (when, index))

/-- The origin given, if any, must be the origin of the task in the slot. -/
def checkOrigin (origin : Option O) (slot : Option (Scheduled I C O)) : Bool :=
  match origin, slot with
  | some o, some s => o == s.origin
  | _, _ => true

def doCancel (sch : State I C O) (origin : Option O) (when index : ℕ) :
    Except Error (State I C O) :=
  match (sch.agenda when)[index]? with
  | none => .error .notFound
  | some slot =>
    if !checkOrigin origin slot then .error .badOrigin
    else
      match slot with
      | none => .error .notFound
      | some s =>
        let sch := sch.clearSlot when index
        let sch := match s.maybeId with
          | some id => sch.setLookup id none
          | none => sch
        .ok (sch.deposit (.canceled when index))

/-- Move the task in slot `index` of block `when` to the end of the agenda of `newTime`. -/
def moveTask (sch : State I C O) (when index newTime : ℕ) : Except Error (State I C O) :=
  match (sch.agenda when)[index]? with
  | some (some task) =>
    .ok ((sch.clearSlot when index).append newTime (some task))
  | _ => .error .notFound

def doReschedule (sch : State I C O) (when index : ℕ) (newTime : DispatchTime) :
    Except Error (State I C O × (ℕ × ℕ)) := do
  let newTime ← sch.resolveTime newTime
  if newTime = when then throw .rescheduleNoChange
  let sch ← sch.moveTask when index newTime
  let newIndex := (sch.agenda newTime).length - 1
  return ((sch.deposit (.canceled when index)).deposit (.scheduled newTime newIndex),
    (newTime, newIndex))

def doScheduleNamed (sch : State I C O) (id : I) (when : DispatchTime)
    (maybePeriodic : Option (ℕ × ℕ)) (priority : ℕ) (origin : O) (call : C) :
    Except Error (State I C O × (ℕ × ℕ)) := do
  if (sch.lookup id).isSome then throw .failedToSchedule
  let when ← sch.resolveTime when
  let sch := sch.append when (some ⟨some id, priority, call, sanitize maybePeriodic, origin⟩)
  let index := (sch.agenda when).length - 1
  return ((sch.setLookup id (some (when, index))).deposit (.scheduled when index), (when, index))

def doCancelNamed (sch : State I C O) (origin : Option O) (id : I) :
    Except Error (State I C O) :=
  match sch.lookup id with
  | none => .error .notFound
  | some (when, index) =>
    match (sch.agenda when)[index]? with
    | some slot =>
      if !checkOrigin origin slot then .error .badOrigin
      else
        .ok (((sch.clearSlot when index).setLookup id none).deposit (.canceled when index))
    -- no slot at that index: nothing to clear, and the name is released all the same
    | none => .ok ((sch.setLookup id none).deposit (.canceled when index))

def doRescheduleNamed (sch : State I C O) (id : I) (newTime : DispatchTime) :
    Except Error (State I C O × (ℕ × ℕ)) := do
  let newTime ← sch.resolveTime newTime
  let some (when, index) := sch.lookup id | throw .notFound
  if newTime = when then throw .rescheduleNoChange
  let sch ← sch.moveTask when index newTime
  let newIndex := (sch.agenda newTime).length - 1
  return (((sch.deposit (.canceled when index)).deposit (.scheduled newTime newIndex)).setLookup
    id (some (newTime, newIndex)), (newTime, newIndex))

/-! ### `on_initialize` -/

variable (cfg : Config C O)

/-- The weight `on_initialize` counts for a task, added to the weight of the tasks before it. -/
def taskWeight (cumulative : ℕ) (s : Scheduled I C O) : ℕ :=
  let w := Saturating.add 64 cumulative (cfg.callWeight s.call)
  let w := if cfg.isSigned s.origin then Saturating.add 64 w (cfg.readsWrites 1 1) else w
  let w := if s.maybeId.isSome then Saturating.add 64 w (cfg.writes 1) else w
  if s.maybePeriodic.isSome then Saturating.add 64 w (cfg.readsWrites 1 1) else w

/-- Dispatch a task at `now`: a periodic one goes to its next block, under its name if it has
one, and a named one that does not repeat releases its name. -/
def dispatch (sch : State I C O) (now index : ℕ) (s : Scheduled I C O) : State I C O :=
  let sch := match s.maybePeriodic with
    | some (period, count) =>
      let s' := { s with maybePeriodic := if 1 < count then some (period, count - 1) else none }
      let next := now + period
      let sch := match s.maybeId with
        | some id => sch.setLookup id (some (next, (sch.agenda next).length))
        | none => sch
      sch.append next (some s')
    | none =>
      match s.maybeId with
      | some id => sch.setLookup id none
      | none => sch
  sch.deposit (.dispatched now index s.maybeId)

/-- One round of the loop of `on_initialize`: the cumulative weight, the weight of the tasks
dispatched so far, and the scheduler. A task runs when its priority is at the hard deadline or
higher, when the weight stays within the limit, or when it is the first; otherwise it waits for
the next block. -/
def step (now : ℕ) (acc : ℕ × ℕ × State I C O) (task : ℕ × ℕ × Scheduled I C O) :
    ℕ × ℕ × State I C O :=
  let (cumulative, total, sch) := acc
  let (order, index, s) := task
  let cumulative := taskWeight cfg cumulative s
  if decide (s.priority ≤ hardDeadline) || decide (cumulative ≤ cfg.maximumWeight) || order == 0
  then (cumulative, cumulative, sch.dispatch now index s)
  else (cumulative, total, sch.append (now + 1) (some s))

/-- The tasks of an agenda with their slot index, in a stable sort by priority. -/
def queued (agenda : List (Option (Scheduled I C O))) : List (ℕ × Scheduled I C O) :=
  ((agenda.zipIdx.filterMap fun (slot, index) => slot.map fun s => (index, s))).insertionSort
    fun a b => a.2.priority ≤ b.2.priority

/-- `on_initialize(now)` for the next block: the scheduler and the weight it returns. -/
def onInitialize (sch : State I C O) : State I C O × ℕ :=
  let now := sch.blockNumber + 1
  let tasks := (queued (sch.agenda now)).zipIdx.map fun (task, order) => (order, task.1, task.2)
  let sch := { sch with blockNumber := now, agenda := Function.update sch.agenda now [] }
  let (_, total, sch) := tasks.foldl (step cfg now) (cfg.readsWrites 1 2, 0, sch)
  (sch, total)

end State

/-- The calls of the runs considered: the dispatchables, and the functions of the `Anon` and
`Named` traits that other pallets call, which cancel with no origin. -/
inductive Call (I C O : Type)
  | schedule (origin : O) (when : DispatchTime) (maybePeriodic : Option (ℕ × ℕ)) (priority : ℕ)
      (call : C)
  | cancel (origin : Option O) (when index : ℕ)
  | scheduleNamed (origin : O) (id : I) (when : DispatchTime) (maybePeriodic : Option (ℕ × ℕ))
      (priority : ℕ) (call : C)
  | cancelNamed (origin : Option O) (id : I)
  | reschedule (when index : ℕ) (newTime : DispatchTime)
  | rescheduleNamed (id : I) (newTime : DispatchTime)
  | onInitialize

namespace State

variable {I C O : Type} [DecidableEq I] [DecidableEq O] (cfg : Config C O)

/-- `ScheduleOrigin::ensure_origin` for the calls that give an origin. -/
def ensureOrigin (origin : Option O) : Except Error Unit :=
  match origin with
  | some o => if cfg.ensureOrigin o then .ok () else .error .badOrigin
  | none => .ok ()

/-- The scheduler after a call, and the call's result; a failed call changes nothing. -/
def exec (sch : State I C O) : Call I C O → State I C O × Except Error Unit
  | .schedule origin when maybePeriodic priority call =>
    finish (ensureOrigin cfg (some origin) >>= fun _ =>
      (sch.doSchedule when maybePeriodic priority origin call).map Prod.fst)
  | .cancel origin when index =>
    finish (ensureOrigin cfg origin >>= fun _ => sch.doCancel origin when index)
  | .scheduleNamed origin id when maybePeriodic priority call =>
    finish (ensureOrigin cfg (some origin) >>= fun _ =>
      (sch.doScheduleNamed id when maybePeriodic priority origin call).map Prod.fst)
  | .cancelNamed origin id => finish (ensureOrigin cfg origin >>= fun _ => sch.doCancelNamed origin id)
  | .reschedule when index newTime => finish ((sch.doReschedule when index newTime).map Prod.fst)
  | .rescheduleNamed id newTime => finish ((sch.doRescheduleNamed id newTime).map Prod.fst)
  | .onInitialize => ((sch.onInitialize cfg).1, .ok ())
where
  finish : Except Error (State I C O) → State I C O × Except Error Unit
    | .ok sch' => (sch', .ok ())
    | .error e => (sch, .error e)

/-- The scheduler after the calls, from the empty one. -/
def run (calls : List (Call I C O)) : State I C O :=
  calls.foldl (fun sch call => (sch.exec cfg call).1) empty

end State

/-- A limit of `10`, each call of the weight it names, and no database weight. -/
def tenPerBlock : Config ℕ Unit := ⟨10, 0, 0, id, fun _ => false, fun _ => true⟩

/-- Two tasks of weight `8` for block `2`, an anonymous one and then one named `0`. -/
def twoHeavyTasks : List (Call ℕ ℕ Unit) :=
  [.onInitialize, .schedule () (.at 2) none 100 8, .scheduleNamed () 0 (.at 2) none 100 8,
    .onInitialize]

/-- At block `2` the named task does not fit and moves to block `3`, while `Lookup` still gives
its old slot: `cancel_named` then clears nothing, succeeds and releases the name, and the task
runs at block `3`. -/
theorem cancelNamed_misses_deferred_task :
    (State.run tenPerBlock twoHeavyTasks).lookup 0 = some (2, 1) ∧
      (State.run tenPerBlock twoHeavyTasks).agenda 2 = [] ∧
      (State.run tenPerBlock twoHeavyTasks).agenda 3 ≠ [] ∧
      ((State.run tenPerBlock twoHeavyTasks).exec tenPerBlock (.cancelNamed (some ()) 0)).2 =
        .ok () ∧
      (State.run tenPerBlock (twoHeavyTasks ++ [.cancelNamed (some ()) 0, .onInitialize])).events =
        [.scheduled 2 0, .scheduled 2 1, .dispatched 2 0 none, .canceled 2 1,
          .dispatched 3 0 (some 0)] := by
  refine ⟨rfl, rfl, ?_, rfl, rfl⟩
  decide

end Tetcore.Scheduler
