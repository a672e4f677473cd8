import C11AndC.WorkQueue.Shutdown
import C11AndC.Avl.Balance
import C11AndC.RedBlack.Shape
import C11AndC.RedBlack.Repair
import C11AndC.RedBlack.Rounds
import C11AndC.RedBlack.Insert
import C11AndC.Library.Parts
import C11AndC.TwoThree.Model
import C11AndC.TwoThree.Shape
import C11AndC.TwoThree.Rules
import C11AndC.TwoThree.Deletion
import C11AndC.TwoThree.Search
import C11AndC.TwoThree.Insertion
import C11AndC.TwoThree.Insert
import C11AndC.TwoThree.Rotations
import C11AndC.TwoThree.Local
import C11AndC.TwoThree.Mergers
import C11AndC.TwoThree.Ends
import C11AndC.TwoThree.Global
import C11AndC.TwoThree.Repair
import C11AndC.TwoThree.Delete
import C11AndC.Suspend.Model
import C11AndC.Suspend.Set
import C11AndC.Avl.Order
import C11AndC.Barrier.Agreement
import C11AndC.Barrier.Threads
import C11AndC.Barrier.Arrays
import C11AndC.Crew.Count
import C11AndC.Crew.Reuse
import C11AndC.Crew.Blocks
import C11AndC.Crew.Visit
import C11AndC.Alarm.Model
import C11AndC.Alarm.Order
import C11AndC.Pipe.Model
import C11AndC.Pipe.Order
import C11AndC.Library.CString
import C11AndC.Terminal.Model
import C11AndC.Terminal.Sections
import C11AndC.Terminal.Ownership
import C11AndC.Binomial.Model
import C11AndC.Binomial.Forest
import C11AndC.Binomial.Union
import C11AndC.Binomial.Trees
import C11AndC.Binomial.Extract
import C11AndC.Binomial.Heap
import C11AndC.Binomial.Runs
import C11AndC.Binomial.Decrease
import C11AndC.Binomial.Links
import C11AndC.Cyclic.Model
import C11AndC.Cyclic.Inverse
import C11AndC.Cuckoo.Model
import C11AndC.Cuckoo.Placement
import C11AndC.Accumulate.Model
import C11AndC.Accumulate.Blocks
import C11AndC.BoundedBuffer.Model
import C11AndC.BoundedBuffer.Control
import C11AndC.BoundedBuffer.Slots
import C11AndC.Library.Ring
import C11AndC.War.Model
import C11AndC.War.Queue
import C11AndC.War.Game
import C11AndC.War.Ranks
import C11AndC.Socket.Model
import C11AndC.Socket.Framing
import C11AndC.Median.Model
import C11AndC.Median.Heap
import C11AndC.Median.Running
import C11AndC.TwoThree.Orders
import C11AndC.TwoThree.Traversal
import C11AndC.Articulation.Model
import C11AndC.Library.Cut
import C11AndC.Articulation.Search
import C11AndC.Articulation.Counter
import C11AndC.Articulation.Points
import C11AndC.RedBlack.Fresh
import C11AndC.RedBlack.Again
import C11AndC.WorkQueue.Failure
import C11AndC.Binomial.Merge
import C11AndC.Binomial.Delete
import C11AndC.Terminal.Startup
import C11AndC.Terminal.Quit
import C11AndC.Terminal.Text
import C11AndC.Barrier.Destroy
import C11AndC.Suspend.Growth
import C11AndC.Median.Calls
import C11AndC.Library.Eviction
import C11AndC.Library.Orbit
import C11AndC.Cuckoo.Cycle
import C11AndC.Library.Multigraph
import C11AndC.UnionFind.Model
import C11AndC.UnionFind.Cycle
import C11AndC.Crew.Search
import C11AndC.TwoThree.Cleanup
import C11AndC.Cyclic.Cycles
import C11AndC.LinkedList.Node
import C11AndC.LinkedList.Addition
import C11AndC.LinkedList.Merge
import C11AndC.LinkedList.Deletion
import C11AndC.LinkedList.Weave
import C11AndC.LinkedList.Insertion
import C11AndC.LinkedList.Loop
import C11AndC.ThreadedTree.Model
import C11AndC.ThreadedTree.Threads
import C11AndC.Library.Trees
import C11AndC.Subtree.Serial
import C11AndC.Library.Edits
import C11AndC.EditDistance.Distance
import C11AndC.Library.Wrap
import C11AndC.Library.TreePaths
import C11AndC.PathSum.MaxSum
import C11AndC.Library.LevelOrder
import C11AndC.BottomView.View
import C11AndC.ShortPaths.Removal
import C11AndC.Library.Leaves
import C11AndC.LeafPaths.Printers
import C11AndC.Library.Levels
import C11AndC.Alternate.Reversal
import C11AndC.Library.Grid
import C11AndC.Library.Equilibrium
import C11AndC.Coins.Game
import C11AndC.Coins.Table
import C11AndC.Library.Longest
import C11AndC.LongestPath.Model
import C11AndC.LongestPath.Search
import C11AndC.Library.Choices
import C11AndC.Triplets.Count
import C11AndC.Cyclic.TwoSided
import C11AndC.Library.Carry
import C11AndC.ThreadedTree.Sum
import C11AndC.Library.SortedPairs
import C11AndC.SortedArrays.Printers
import C11AndC.Library.Groups
import C11AndC.LinkedList.Groups
import C11AndC.Generate.Sequences
import C11AndC.Library.Preorder
import C11AndC.Triplets.Checked
import C11AndC.Triplets.Recursion
import C11AndC.Pipe.Overflow
import C11AndC.Barrier.Cycles
import C11AndC.Median.Bounds
import C11AndC.Library.Progress
import C11AndC.BoundedBuffer.Progress
import C11AndC.WorkQueue.Progress
import C11AndC.WorkQueue.Requests
import C11AndC.WorkQueue.Engines
import C11AndC.Pipe.Progress
import C11AndC.Barrier.Printing
import C11AndC.Library.Sessions
import C11AndC.TwoThree.Calls
import C11AndC.RedBlack.Traversal
import C11AndC.Library.SearchTrees
import C11AndC.Avl.Shallow
import C11AndC.Alarm.Progress
import C11AndC.Crew.Progress
import C11AndC.Terminal.Progress
import C11AndC.Condition.Model
import C11AndC.Condition.Threshold
import C11AndC.Library.Interleaving
import C11AndC.Putchar.Model
import C11AndC.Putchar.Output
import C11AndC.Alarm.Mutex
import C11AndC.Trylock.Rounds
import C11AndC.Flock.Orders
import C11AndC.Cancel.Cleanup
import C11AndC.ForkServer.Model
import C11AndC.ForkServer.Service
import C11AndC.PipeStream.Model
import C11AndC.PipeStream.Copy
import C11AndC.Partition.MinDifference
import C11AndC.CommonAncestor.Lca
