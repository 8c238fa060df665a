import Tetcore.StateMachine.Changeset

/-!
# The snapshot stack an overlay stands for

What an `OverlayedMap` is for: a stack of snapshots `S_d, …, S_0` of the store, one per open
transaction from the innermost down and the committed one at the bottom. Writes change `S_d`
only; opening a transaction pushes a copy of `S_d`; committing replaces `S_{d-1}` by `S_d`, and
rolling back discards `S_d`. In runtime mode the transactions the client opened cannot be closed,
and leaving the runtime rolls back every transaction the runtime left open.
-/

namespace Tetcore.StateMachine

/-- A stack of snapshots, innermost first, with the execution mode and the number of transactions
the client opened. -/
@[ext]
structure Snapshots (K V : Type) where
  stack : List (K → Option V)
  nonempty : stack ≠ []
  numClientTransactions : ℕ
  executionMode : ExecutionMode

namespace Snapshots

variable {K V W : Type} (S : Snapshots K V)

/-- The store before any change: one snapshot, with no value anywhere. -/
def initial : Snapshots K V := ⟨[fun _ => none], List.cons_ne_nil _ _, 0, .client⟩

/-- `d`, the number of open transactions. -/
def depth : ℕ := S.stack.length - 1

/-- `S_d`, the store as the innermost transaction sees it. -/
def top : K → Option V := S.stack.head S.nonempty

/-- `S_0`, the committed store. -/
def bottom : K → Option V := S.stack.getLast S.nonempty

/-- Change `S_d`. -/
def writeTop (f : (K → Option V) → K → Option V) : Snapshots K V :=
  { S with stack := f S.top :: S.stack.tail, nonempty := List.cons_ne_nil _ _ }

def set [DecidableEq K] (key : K) (value : V) : Snapshots K V := S.writeTop (Function.update · key (some value))

def startTransaction : Snapshots K V :=
  { S with stack := S.top :: S.stack, nonempty := List.cons_ne_nil _ _ }

/-- In runtime mode only the transactions the runtime opened may be closed. -/
def mayClose : Bool := !(S.executionMode = .runtime && S.depth ≤ S.numClientTransactions)

theorem tail_ne_nil (hdepth : 0 < S.depth) : S.stack.tail ≠ [] := by
  rw [Ne, ← List.length_eq_zero_iff, List.length_tail]
  unfold depth at hdepth
  omega

/-- Committing replaces `S_{d-1}` by `S_d`. -/
def commitTransaction : Snapshots K V :=
  if S.mayClose ∧ 0 < S.depth then
    { S with stack := S.top :: S.stack.tail.tail, nonempty := List.cons_ne_nil _ _ }
  else S

/-- Rolling back discards `S_d`. -/
def rollbackTransaction : Snapshots K V :=
  if h : S.mayClose ∧ 0 < S.depth then
    { S with stack := S.stack.tail, nonempty := S.tail_ne_nil h.2 }
  else S

def enterRuntime : Snapshots K V :=
  match S.executionMode with
  | .runtime => S
  | .client => { S with executionMode := .runtime, numClientTransactions := S.depth }

theorem drop_ne_nil (n : ℕ) : S.stack.drop (S.depth - n) ≠ [] := by
  have hlen : 0 < S.stack.length := List.length_pos_of_ne_nil S.nonempty
  rw [Ne, List.drop_eq_nil_iff]
  unfold depth
  omega

/-- The snapshots without those of the transactions the runtime opened. -/
def dropRuntimeTransactions : Snapshots K V :=
  { S with stack := S.stack.drop (S.depth - S.numClientTransactions), nonempty := S.drop_ne_nil _ }

/-- Leaving the runtime discards the snapshots of the transactions the runtime left open. -/
def exitRuntime : Snapshots K V :=
  match S.executionMode with
  | .client => S
  | .runtime => { S with executionMode := .client }.dropRuntimeTransactions

section ChangeSet

variable [DecidableEq K] (S : Snapshots K (Option W))

/-- `modify`: the value the caller writes over the current one, or over `Some(init)`. -/
def modify (key : K) (init : W) (write : Option W → Option W) : Snapshots K (Option W) :=
  S.set key (write ((S.top key).getD (some init)))

/-- `clear_where`: every selected key with a value gets the value `None`. -/
def clear (keys : K → Bool) : Snapshots K (Option W) :=
  S.writeTop fun s k => if keys k && (s k).isSome then some none else s k

end ChangeSet

/-- The operations on the snapshot stack. -/
inductive Op (K W : Type)
  | set (key : K) (value : Option W)
  | modify (key : K) (init : W) (write : Option W → Option W)
  | clear (keys : K → Bool)
  | startTransaction
  | commitTransaction
  | rollbackTransaction
  | enterRuntime
  | exitRuntime

def apply [DecidableEq K] (S : Snapshots K (Option W)) : Op K W → Snapshots K (Option W)
  | .set key value => S.set key value
  | .modify key init write => S.modify key init write
  | .clear keys => S.clear keys
  | .startTransaction => S.startTransaction
  | .commitTransaction => S.commitTransaction
  | .rollbackTransaction => S.rollbackTransaction
  | .enterRuntime => S.enterRuntime
  | .exitRuntime => S.exitRuntime

end Snapshots

end Tetcore.StateMachine
