import PoserCore.Lib.Machine
import PoserCore.Lib.Census
import PoserCore.Lib.Tickets
import PoserCore.Lib.Links
import PoserCore.JobQueue.Model
import PoserCore.JobQueue.Invariant
import PoserCore.JobQueue.Safety
import PoserCore.SharedObj.Model
import PoserCore.CommandQueue.Model
import PoserCore.CommandQueue.Shape
import PoserCore.CommandQueue.Invariant
import PoserCore.CommandQueue.Preserve
import PoserCore.CommandQueue.Safety
import PoserCore.CommandQueue.Wakeup
import PoserCore.SharedObj.System
import PoserCore.SharedObj.Reclaim
import PoserCore.SharedObj.Wraparound
import PoserCore.Dictionary.Model
import PoserCore.Dictionary.Buckets
import PoserCore.Dictionary.Refine
import PoserCore.Dictionary.Count
import PoserCore.Dictionary.Deleters
import PoserCore.Json.Model
import PoserCore.Json.Parser
import PoserCore.Json.Grammar
import PoserCore.Json.Strings
import PoserCore.Json.Numbers
import PoserCore.Json.Reader
import PoserCore.Json.Truncated
import PoserCore.Json.Trees
import PoserCore.Json.Ownership
import PoserCore.Json.Simulate
import PoserCore.Json.Deserialize
import PoserCore.Json.Builders
import PoserCore.Json.Serialize
import PoserCore.Json.RoundTrip
import PoserCore.Json.FixedBuffer
import PoserCore.Json.Objects
import PoserCore.Json.Cursor
import PoserCore.Json.Bounds
import PoserCore.Json.Decoding
import PoserCore.ObjectPool.Model
import PoserCore.ObjectPool.Invariant
import PoserCore.ObjectPool.Alloc
import PoserCore.ObjectPool.Free
import PoserCore.ObjectPool.Safety
import PoserCore.ObjectPool.LastUsed
import PoserCore.ObjectPool.Bounds
import PoserCore.ObjectPool.Destroy
import PoserCore.ObjectPool.Destroyed
import PoserCore.Lib.Ring
import PoserCore.RateLimits.Model
import PoserCore.RateLimits.Slots
import PoserCore.RateLimits.Window
import PoserCore.RateLimits.Invariant
import PoserCore.RateLimits.Exact
import PoserCore.RateLimits.Threads
import PoserCore.Lib.Buffer
import PoserCore.Lib.Strtol
import PoserCore.IpAddr.Model
import PoserCore.IpAddr.Matches
import PoserCore.IpAddr.Grammar
import PoserCore.IpAddr.Parser
import PoserCore.IpAddr.Accepts
import PoserCore.IpAddr.RoundTrip
import PoserCore.Events.Model
import PoserCore.Events.Registry
import PoserCore.Events.Entries
import PoserCore.Events.Dispatch
import PoserCore.Resolver.Model
import PoserCore.Resolver.Lifetime
import PoserCore.Lib.Keyed
import PoserCore.Backends.Model
import PoserCore.Backends.Tables
import PoserCore.Backends.Agree
import PoserCore.Connection.Sender
import PoserCore.Connection.SentStream
import PoserCore.Connection.Staging
import PoserCore.Connection.DataSent
import PoserCore.Connection.Receiver
import PoserCore.Connection.Handling
import PoserCore.Connection.Unread
import PoserCore.Connection.Pausing
import PoserCore.Connection.ReceivedStream
import PoserCore.Connection.Lines
import PoserCore.Connection.LineMode
import PoserCore.Timers.Model
import PoserCore.Timers.Safety
import PoserCore.Server.Model
import PoserCore.Server.Counts
import PoserCore.Server.Teardown
import PoserCore.Server.Graceful
import PoserCore.ThreadPool.Model
import PoserCore.ThreadPool.Conserve
import PoserCore.Processes.Model
import PoserCore.Processes.Stages
import PoserCore.Processes.Lifecycle
import PoserCore.Connection.Lifecycle
import PoserCore.Connection.Registered
import PoserCore.Connection.Closing
import PoserCore.Base64.Model
import PoserCore.Base64.Decoding
import PoserCore.Base64.RoundTrip
import PoserCore.IpAddr.Canonical
import PoserCore.IpAddr.Nat64
import PoserCore.Timers.Settings
import PoserCore.Itimers.Model
import PoserCore.Itimers.Locking
import PoserCore.RateLimits.EntryLock
import PoserCore.Connection.WriteInterest
import PoserCore.Connection.ReadRoom
import PoserCore.Dictionary.Structure
import PoserCore.Dictionary.BucketLocks
import PoserCore.Queue.Model
import PoserCore.Queue.Fifo
import PoserCore.Random.Model
import PoserCore.Random.Bytes
import PoserCore.Random.Strings
import PoserCore.Server.Configure
import PoserCore.HashTable.Model
import PoserCore.HashTable.Chains
import PoserCore.HashTable.Held
import PoserCore.HashTable.FiniteMap
import PoserCore.ObjectPool.Trim
import PoserCore.Lib.Objects
import PoserCore.JobQueue.Locked
import PoserCore.CommandQueue.Locked
import PoserCore.CommandQueue.Mailbox
import PoserCore.CommandQueue.LockedWakeup
import PoserCore.Dictionary.Shared
import PoserCore.Dictionary.SharedMap
import PoserCore.Service.Model
import PoserCore.Service.Shutdown
import PoserCore.Backends.Rounds
import PoserCore.Backends.Dispatch
import PoserCore.Signals.Model
import PoserCore.Signals.Histories
import PoserCore.ThreadPool.Coroutines
import PoserCore.ThreadPool.Track
import PoserCore.ThreadPool.Stacks
import PoserCore.Client.Model
import PoserCore.Client.Blacklist
import PoserCore.Client.Accounts
import PoserCore.Daemon.Launch
