import TouchDb.Core.Prog
import TouchDb.Core.Bytes
import TouchDb.Core.Words
import TouchDb.Core.Mixing
import TouchDb.Core.Linked
import TouchDb.Core.Tiling
import TouchDb.Core.Segregated
import TouchDb.Core.History
import TouchDb.Core.Preserves
import TouchDb.Core.Costs
import TouchDb.Common
import TouchDb.Pool.Model
import TouchDb.Pool.Rep
import TouchDb.Pool.Refine
import TouchDb.Pool.Runs
import TouchDb.Pool.Safety
import TouchDb.Pool.Classes
import TouchDb.Heap.Model
import TouchDb.Heap.Translate
import TouchDb.Heap.Pools
import TouchDb.Heap.Rules
import TouchDb.Heap.Allocated
import TouchDb.Heap.Preserved
import TouchDb.Heap.Costs
import TouchDb.Str.Model
import TouchDb.Str.Rules
import TouchDb.Chain.Model
import TouchDb.Map.Model
import TouchDb.Map.Rep
import TouchDb.Map.Search
import TouchDb.Map.Put
import TouchDb.Map.Overwrite
import TouchDb.Map.Buckets
import TouchDb.Map.Balanced
import TouchDb.Map.Init
import TouchDb.Map.Lookup
import TouchDb.Map.Preserved
import TouchDb.Store.Model
import TouchDb.Store.New
import TouchDb.Store.PutStr
import TouchDb.Store.Runs
import TouchDb.Store.IndexOk
import TouchDb.Store.Lookup
import TouchDb.Store.Table
import TouchDb.Store.Puts
import TouchDb.Store.Owners
import TouchDb.Store.Leaks
import TouchDb.Store.Agree
import TouchDb.Store.PutRuns
import TouchDb.Store.PutStrRuns
import TouchDb.Store.Readers
import TouchDb.Core.Deques
import TouchDb.Chain.Rep
import TouchDb.Chain.Push
import TouchDb.Chain.Pull
import TouchDb.Chain.Search
import TouchDb.Chain.Client
import TouchDb.Chain.Costs
import TouchDb.Chain.Family
import TouchDb.Chain.Moves
import TouchDb.Chain.Steps
import TouchDb.Chain.Queues
import TouchDb.Chain.Iter
import TouchDb.Chain.Ends
import TouchDb.Chain.Readers
import TouchDb.Store.Lists
import TouchDb.Store.Waits
import TouchDb.Store.Popped
import TouchDb.Core.Lockstep
import TouchDb.Heap.Rebase
import TouchDb.Store.Rebase
import TouchDb.Store.Relocate
import TouchDb.Store.Files
import TouchDb.Store.Open
import TouchDb.Core.RedBlack
import TouchDb.Rbtree.Model
import TouchDb.Rbtree.Rep
import TouchDb.Rbtree.Focus
import TouchDb.Rbtree.Rotate
import TouchDb.Rbtree.Turn
import TouchDb.Rbtree.Search
import TouchDb.Rbtree.Lookup
import TouchDb.Rbtree.Unlink
import TouchDb.Rbtree.DelFixup
import TouchDb.Rbtree.State
import TouchDb.Rbtree.Insert
import TouchDb.Rbtree.Delete
import TouchDb.Rbtree.Depth
import TouchDb.Rbtree.Table
import TouchDb.Rbtree.Touch
import TouchDb.Rbtree.Mirror
import TouchDb.Rbtree.Undo
import TouchDb.Rbtree.InsertFixup
import TouchDb.Rbtree.Attach
import TouchDb.Core.Doubly
import TouchDb.Chain.Doubly
import TouchDb.Chain.Find
import TouchDb.Chain.Delete
import TouchDb.Chain.Stock
import TouchDb.Chain.Lookup
import TouchDb.Chain.Insert
import TouchDb.Chain.Exhausted
import TouchDb.Chain.InsertAt
import TouchDb.Chain.Compare
import TouchDb.Core.Watch
import TouchDb.Chain.Watched
import TouchDb.Chain.Destroy
import TouchDb.Str.Copy
import TouchDb.Str.CopyOk
import TouchDb.Core.Directories
import TouchDb.Path.Model
import TouchDb.Path.Named
import TouchDb.Core.Stutter
import TouchDb.Store.Processes
import TouchDb.Store.Reads
import TouchDb.Store.Reopen
import TouchDb.Store.Clients
import TouchDb.Core.Keyed
import TouchDb.Store.Keyed
import TouchDb.Store.Costs
import TouchDb.Store.KeyedRep
import TouchDb.Store.KeyedSteps
import TouchDb.Store.KeyedRuns
import TouchDb.Core.Terminated
import TouchDb.Str.Compare
import TouchDb.Str.Values
import TouchDb.Worker.Model
import TouchDb.Worker.Shelf
import TouchDb.Worker.Tracks
import TouchDb.Worker.Session
import TouchDb.Pool.Info
