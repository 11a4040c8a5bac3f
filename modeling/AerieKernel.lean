import AerieKernel.ExtentRun
import AerieKernel.AdvisoryLockDeadlock
import AerieKernel.TimeoutRun
import AerieKernel.BpfSafety
import AerieKernel.BpfScratch
import AerieKernel.PfRuleLoopSkips
import AerieKernel.PfStateAccounting
import AerieKernel.PfFragmentCache
import AerieKernel.PfReassemblyComplete
import AerieKernel.PfTcpTracking
import AerieKernel.PfBounds
import AerieKernel.PfChecksums
import AerieKernel.SemaphoreUndo
import AerieKernel.SemaphoreValues
import AerieKernel.RwlockSafety
import AerieKernel.ClistQueue
import AerieKernel.MilfsTrees
import AerieKernel.MilfsBitmap
import AerieKernel.SplayCalls
import AerieKernel.PoolRun
import AerieKernel.NameCacheCoherence
import AerieKernel.TcpReassembly
import AerieKernel.IpReassembly
import AerieKernel.EcnReassembly
import AerieKernel.PipeFifo
import AerieKernel.SackScoreboard
import AerieKernel.SynCacheRuns
import AerieKernel.AmapRefs
import AerieKernel.LdValues
import AerieKernel.MsgQueues
import AerieKernel.Qsort
