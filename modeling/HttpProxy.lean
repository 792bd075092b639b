import HttpProxy.JobStackMutex
import HttpProxy.JobStackBounds
import HttpProxy.RequestSafety
import HttpProxy.BlockedHosts
import HttpProxy.CacheGrants
import HttpProxy.RelayEnds
import HttpProxy.CacheTransparency
import HttpProxy.CacheFreshness
import HttpProxy.JobStackWakeups
import HttpProxy.Lib.Ownership
import HttpProxy.WorkerPool
import HttpProxy.WorkerRoles
import HttpProxy.JobOwnership
import HttpProxy.JobHistory
import HttpProxy.ShutdownDrains
import HttpProxy.PrefetchKept
import HttpProxy.PrefetchCalls
import HttpProxy.PrefetchApart
import HttpProxy.ClientDeadline
import HttpProxy.RequestBuffer
import HttpProxy.RequestStream
import HttpProxy.ResponseHead
import HttpProxy.HeadsComplete
import HttpProxy.BlockList
import HttpProxy.BlockedLines
import HttpProxy.HostnameCase
import HttpProxy.HeaderLines
import HttpProxy.RequestCuts
import HttpProxy.LongFirstLine
import HttpProxy.AbsoluteRequest
import HttpProxy.RequestGrammar
import HttpProxy.HostHeader
import HttpProxy.UpstreamRequest
import HttpProxy.ShellCommand
import HttpProxy.CacheLookups
import HttpProxy.CacheKeys
import HttpProxy.OwnFiles
import HttpProxy.LinkSearch
import HttpProxy.PhantomLinks
import HttpProxy.MissedLinks
import HttpProxy.PrefetchRequests
import HttpProxy.HeaderLengths
import HttpProxy.JobStackDeque
import HttpProxy.IdleRecords
import HttpProxy.LinkScans
import HttpProxy.CacheHits
import HttpProxy.NullObjects
import HttpProxy.RelayArithmetic
import HttpProxy.Lib.Ledger
import HttpProxy.Lib.LetterCase
import HttpProxy.SystemResources
import HttpProxy.Lib.ChainedHash
import HttpProxy.Uthash
import HttpProxy.UthashMap
import HttpProxy.HashedBlockTable
import HttpProxy.HashedCacheTable
import HttpProxy.Lib.CriticalSection
import HttpProxy.SafeFile
import HttpProxy.BlockTableRuns
import HttpProxy.Lib.LockOrder
import HttpProxy.CacheProgress
import HttpProxy.StackInPool
import HttpProxy.ServerRuns
import HttpProxy.ServerStacks
import HttpProxy.ServerConnections
import HttpProxy.ServerShutdown
import HttpProxy.StackTurns
import HttpProxy.Lib.MessageLog
import HttpProxy.LoggedWorker
import HttpProxy.LoggedErasure
import HttpProxy.PrefetchDispatch
import HttpProxy.CacheMemory
import HttpProxy.PrefetchHits
import HttpProxy.CacheAtomicity
import HttpProxy.LockedWorld
import HttpProxy.SlowClient
import HttpProxy.ForwardingLoops
