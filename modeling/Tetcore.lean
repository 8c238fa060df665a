import Tetcore.Lib.Run
import Tetcore.Balances.Currency
import Tetcore.Balances.Issuance
import Tetcore.Balances.Locks
import Tetcore.Vesting.Schedule
import Tetcore.Staking.Ledger
import Tetcore.Staking.Slashing
import Tetcore.Assets.Class
import Tetcore.Runtime.Era
import Tetcore.Democracy.Calls
import Tetcore.Allocator.FreeingBump
import Tetcore.Allocator.Poison
import Tetcore.Democracy.Lock
import Tetcore.Trie.NodeCodec
import Tetcore.Trie.DecodeSafety
import Tetcore.Trie.Encode
import Tetcore.Client.Leaves
import Tetcore.Lib.VersionStack
import Tetcore.StateMachine.Changeset
import Tetcore.StateMachine.Snapshots
import Tetcore.StateMachine.Refinement
import Tetcore.StateMachine.Transactions
import Tetcore.StateMachine.Correctness
import Tetcore.StateMachine.TxState
import Tetcore.StateMachine.OverlayedChanges
import Tetcore.StateMachine.Lockstep
import Tetcore.StateMachine.Extrinsics
import Tetcore.StateDb.Db
import Tetcore.StateDb.NonCanonical
import Tetcore.StateDb.Restart
import Tetcore.StateDb.Revert
import Tetcore.StateDb.Pinning
import Tetcore.StateDb.Pruning
import Tetcore.StateDb.PruningRuns
import Tetcore.Lib.Rose
import Tetcore.ForkTree.Model
import Tetcore.ForkTree.Import
import Tetcore.ForkTree.WellFormed
import Tetcore.ForkTree.Query
import Tetcore.Grandpa.Authorities
import Tetcore.Lib.Saturating
import Tetcore.Scheduler.Model
import Tetcore.TxPool.Ready
import Tetcore.Lib.AList
import Tetcore.TxPool.Future
import Tetcore.TxPool.BasePool
import Tetcore.Arithmetic.Normalize
import Tetcore.Arithmetic.PerThing
import Tetcore.Arithmetic.Rational
import Tetcore.Elections.Model
import Tetcore.Elections.Balancing
import Tetcore.Elections.Phragmen
import Tetcore.Elections.Evaluate
import Tetcore.Democracy.Tally
import Tetcore.Democracy.Invariant
import Tetcore.Allocator.Layout
import Tetcore.ForkTree.Fallible
import Tetcore.Arithmetic.FixedPoint
import Tetcore.Peerset.PeersState
import Tetcore.Peerset.Invariant
import Tetcore.Lib.Digits
import Tetcore.Arithmetic.BigUint
import Tetcore.Arithmetic.BigUintDiv
import Tetcore.ForkTree.Search
import Tetcore.ForkTree.Prune
import Tetcore.ForkTree.Finalize
import Tetcore.Lib.Schedule
import Tetcore.TxPool.Best
import Tetcore.Elections.Reduce
import Tetcore.Elections.Score
import Tetcore.Babe.Threshold
import Tetcore.Democracy.Threshold
import Tetcore.Staking.Spans
import Tetcore.Payment.Multiplier
import Tetcore.Runtime.Curve
import Tetcore.Allocator.Invariant
import Tetcore.Payment.Fee
import Tetcore.System.CheckWeight
import Tetcore.Epochs.Changes
import Tetcore.Scheduler.Dispatch
import Tetcore.Scheduler.Horizon
import Tetcore.Scheduler.Liveness
import Tetcore.Scheduler.Drain
import Tetcore.Balances.Conservation
import Tetcore.Client.BlockTree
