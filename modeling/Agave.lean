import Agave.VoteStateView.Correct
import Agave.TransactionView.Resolved
import Agave.Scheduler.Safety
import Agave.Scheduler.Progress
import Agave.Scheduler.Order
import Agave.VoteProgram.Agreement
import Agave.VoteProgram.Credits
import Agave.AccountsDb.AccountLocks
import Agave.AccountsDb.AncientPacking
import Agave.AccountsDb.CleanRooted
import Agave.SchedulingUtils.LockManager
import Agave.TransactionContext.Ownership
import Agave.TransactionContext.Conservation
import Agave.Runtime.StatusCacheRun
import Agave.Runtime.EpochRewards.Inflation
import Agave.Gossip.Convergence
import Agave.AccountsDb.InMemAccountsIndex
import Agave.Repair.Verdict
import Agave.ProgramRuntime.Privileges
import Agave.ProgramRuntime.Pruning
import Agave.Svm.Fees
import Agave.Svm.NonceReplay
import Agave.VoteProgram.Validation
import Agave.Runtime.AccountsLtHash
import Agave.Consensus.OptimisticConfirmation
import Agave.Fs.FileIo
