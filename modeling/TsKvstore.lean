import TsKvstore.Transactions
import TsKvstore.Ownership
import TsKvstore.IndexHandles
import TsKvstore.SingletonCells
import TsKvstore.Reference
import TsKvstore.Refinement
import TsKvstore.Lib.RwLock
import TsKvstore.Clients
import TsKvstore.Deadlock
import TsKvstore.IndexIteration
import TsKvstore.BulkMutation
import TsKvstore.Outcomes
import TsKvstore.KeyReference
import TsKvstore.Lib.LockInvariant
import TsKvstore.Poisoning
import TsKvstore.Waiting
import TsKvstore.Interleavings
import TsKvstore.Lib.LockSections
import TsKvstore.CriticalSections
import TsKvstore.IndexIntegrity
import TsKvstore.RowByRow
import TsKvstore.Lib.LockSimulation
import TsKvstore.Builds
import TsKvstore.BaseHandles
import TsKvstore.UnwoundRows
import TsKvstore.Unwinding
import TsKvstore.SharedSingletons
import TsKvstore.OwnerElection
import TsKvstore.Snapshots
import TsKvstore.Panics
