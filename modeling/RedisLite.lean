import RedisLite.Lib.Exec
import RedisLite.Lib.Amortized
import RedisLite.Lib.Memory
import RedisLite.Lib.Simulation
import RedisLite.Lib.Tree
import RedisLite.Lib.HeapOrder
import RedisLite.Lib.LittleEndian
import RedisLite.Lib.Linearization
import RedisLite.Lib.Pieces
import RedisLite.Lib.PrefixCode
import RedisLite.Lib.Ring
import RedisLite.Bytes
import RedisLite.Avl.Core
import RedisLite.Avl.Represents
import RedisLite.Avl.Fix
import RedisLite.Avl.Insert
import RedisLite.Avl.Delete
import RedisLite.Avl.Offset
import RedisLite.HashTable.Core
import RedisLite.HashTable.Valid
import RedisLite.HashTable.Map
import RedisLite.HashTable.Load
import RedisLite.HashTable.Work
import RedisLite.HashTable.Foreach
import RedisLite.Heap.Core
import RedisLite.Heap.Valid
import RedisLite.Heap.Operations
import RedisLite.Heap.Repair
import RedisLite.ZSet.Core
import RedisLite.ZSet.Valid
import RedisLite.ZSet.Operations
import RedisLite.ZSet.Map
import RedisLite.ZSet.Costs
import RedisLite.Protocol.Value
import RedisLite.Protocol.Request
import RedisLite.Server.Numbers
import RedisLite.Server.Core
import RedisLite.Server.Commands
import RedisLite.Server.Arguments
import RedisLite.Server.Store
import RedisLite.Server.Deadlines
import RedisLite.Server.Denotes
import RedisLite.Server.Operations
import RedisLite.Server.Requests
import RedisLite.Server.Walk
import RedisLite.Server.Slice
import RedisLite.Server.SortedSets
import RedisLite.Server.Sweep
import RedisLite.Server.Runs
import RedisLite.Server.Capacity
import RedisLite.Server.Expiry
import RedisLite.Server.Freshness
import RedisLite.Server.Backlog
import RedisLite.Server.Batches
import RedisLite.Server.Keys
import RedisLite.Server.Zquery
import RedisLite.Client.Core
import RedisLite.Client.Decode
import RedisLite.Client.Robust
import RedisLite.Client.Send
import RedisLite.Client.Receive
import RedisLite.Client.Aphelo
import RedisLite.Client.Decimal
import RedisLite.Server.Respond
import RedisLite.Server.Errors
import RedisLite.Server.Listing
import RedisLite.Server.Isolation
import RedisLite.Server.Pages
import RedisLite.EventLoop.Conn
import RedisLite.EventLoop.Core
import RedisLite.EventLoop.Stream
import RedisLite.EventLoop.Traffic
import RedisLite.EventLoop.Idle
import RedisLite.EventLoop.Turns
import RedisLite.EventLoop.Timers
import RedisLite.EventLoop.Runs
import RedisLite.EventLoop.Safety
import RedisLite.EventLoop.Ownership
import RedisLite.EventLoop.Effects
import RedisLite.EventLoop.Order
import RedisLite.EventLoop.Buffers
import RedisLite.EventLoop.Progress
import RedisLite.EventLoop.Eviction
import RedisLite.EventLoop.Reads
import RedisLite.EventLoop.Wakeups
import RedisLite.EventLoop.Sleep
import RedisLite.EventLoop.Errors
import RedisLite.EventLoop.Answers
import RedisLite.EventLoop.Sessions
import RedisLite.EventLoop.Registers
import RedisLite.EventLoop.Leases
import RedisLite.Avl.Container
import RedisLite.Avl.Contents
import RedisLite.Avl.Ranks
import RedisLite.Client.Benchmark
import RedisLite.EventLoop.Benchmark
import RedisLite.Heap.Container
import RedisLite.Heap.Costs
