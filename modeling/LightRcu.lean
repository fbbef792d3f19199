import LightRcu.Execution
import LightRcu.GetSynchronizedReasons
import LightRcu.Barrier
import LightRcu.CallbackConservation
import LightRcu.GracePeriod
import LightRcu.SynchronizeSafety
import LightRcu.RangeTreeCoverage
import LightRcu.RangeTreeExact
import LightRcu.RangeTreeBounds
import LightRcu.RangeTreeReads
import LightRcu.RangeTreeSqueeze
import LightRcu.RangeTreeRetry
import LightRcu.ListLoopCheck
import LightRcu.LazyReclamation
import LightRcu.TimerAgreement
import LightRcu.StartUpFailure
import LightRcu.SpinlockSafety
import LightRcu.VersionClock
import LightRcu.NamespaceRemovalFailure
import LightRcu.ThreadRegistryDeinit
import LightRcu.ThreadNodesPass
import LightRcu.ProcessedVersion
import LightRcu.HungRecovery
import LightRcu.AtomicQueueSafety
import LightRcu.ListReadingSafety
import LightRcu.SharedWorkerSafety
import LightRcu.StaleRanges
import LightRcu.BarrierReturns
import LightRcu.PassTurns
import LightRcu.LockedListsReturns
import LightRcu.LockedListsChecks
import LightRcu.SharedWorkerRounds
