import HyScanCache.Lib.Lts
import HyScanCache.Lib.LinkedList
import HyScanCache.Lib.Recency
import HyScanCache.Lib.Prog
import HyScanCache.Lib.Locking
import HyScanCache.Lib.Linearization
import HyScanCache.Lib.Nested
import HyScanCache.Lib.Rounding
import HyScanCache.Memory
import HyScanCache.Buffer
import HyScanCache.PlainBuffer
import HyScanCache.Farmhash
import HyScanCache.Farmhash.Reads
import HyScanCache.Interface
import HyScanCache.Cached
import HyScanCache.Store
import HyScanCache.Cached.Links
import HyScanCache.Cached.Table
import HyScanCache.Cached.Write
import HyScanCache.Service
import HyScanCache.History
import HyScanCache.Cached.Calls
import HyScanCache.Cached.Runs
import HyScanCache.Cached.Names
import HyScanCache.Cached.Invariants
import HyScanCache.Cached.Laws
import HyScanCache.Cached.Eviction
import HyScanCache.Cached.Failures
import HyScanCache.Cached.Deletion
import HyScanCache.Cached.Limit
import HyScanCache.Cached.Ratio
import HyScanCache.Cached.Finalize
import HyScanCache.Cached.Readers
import HyScanCache.Cached.Locked
import HyScanCache.Cached.Sections
import HyScanCache.Cached.Places
import HyScanCache.Cached.Linearizable
import HyScanCache.Remote.Rpc
import HyScanCache.Remote.Client
import HyScanCache.Remote.Copies
import HyScanCache.Remote.Server
import HyScanCache.Remote.Refinement
import HyScanCache.Remote.Answers
import HyScanCache.Remote.Failures
import HyScanCache.Remote.Exclusive
import HyScanCache.Remote.Delivery
import HyScanCache.Remote.Threads
import HyScanCache.Remote.Transports
import HyScanCache.Remote.Concurrent
import HyScanCache.Remote.Lifecycle
import HyScanCache.Remote.Handshake
import HyScanCache.CacheTest
