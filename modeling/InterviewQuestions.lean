import InterviewQuestions.Library.HeapOrder
import InterviewQuestions.Library.Machine
import InterviewQuestions.Library.RecencySet
import InterviewQuestions.LruCache.Model
import InterviewQuestions.LruCache.Refinement
import InterviewQuestions.LruCache.Duplicates
import InterviewQuestions.Library.LongestMatch
import InterviewQuestions.RoutingTable
import InterviewQuestions.Stdio.Model
import InterviewQuestions.Stdio.Reading
import InterviewQuestions.Stdio.Writing
import InterviewQuestions.Stdio.Slots
import InterviewQuestions.Library.LinkedLists
import InterviewQuestions.WorkQueue.Coherence
import InterviewQuestions.WorkQueue.Safety
import InterviewQuestions.Library.Extents
import InterviewQuestions.Library.DoublyLinked
import InterviewQuestions.Malloc.FreeList
import InterviewQuestions.Malloc.Arranged
import InterviewQuestions.Malloc.Conservation
import InterviewQuestions.Library.Threads
import InterviewQuestions.Semaphore
import InterviewQuestions.Barrier.Rounds
import InterviewQuestions.CopyBuffers
import InterviewQuestions.SharedList
import InterviewQuestions.Library.CString
import InterviewQuestions.Library.Scanf
import InterviewQuestions.OpenServer
import InterviewQuestions.PrioQueue.Model
import InterviewQuestions.PrioQueue.Climb
import InterviewQuestions.Library.PointerTree
import InterviewQuestions.Bst.Model
import InterviewQuestions.Bst.Pointers
import InterviewQuestions.Bst.Successor
import InterviewQuestions.Bst.Runs
import InterviewQuestions.Cp
import InterviewQuestions.Library.Components
import InterviewQuestions.NormalizePath.Tokens
import InterviewQuestions.NormalizePath.Result
import InterviewQuestions.Library.Cancelling
import InterviewQuestions.Library.FileTree
import InterviewQuestions.NormalizePath.Location
import InterviewQuestions.Library.Arithmetic
import InterviewQuestions.Library.Descent
import InterviewQuestions.ExprEvaluator
import InterviewQuestions.Library.MixedRadix
import InterviewQuestions.MagicNumbers
import InterviewQuestions.RedundantParens.Soundness
import InterviewQuestions.Library.Regrouping
import InterviewQuestions.BoggleBoard.Scores
import InterviewQuestions.HashTable.Model
import InterviewQuestions.HashTable.Refinement
import InterviewQuestions.Library.CountingLoop
import InterviewQuestions.Library.Packing
import InterviewQuestions.Knapsack
import InterviewQuestions.Library.Backtracking
import InterviewQuestions.TokenizeWords.Search
import InterviewQuestions.TokenizeWords.Agreement
import InterviewQuestions.PathFill.Search
import InterviewQuestions.PathFill.Filling
import InterviewQuestions.Library.OrderedSet
import InterviewQuestions.Library.ShortestPaths
import InterviewQuestions.Dijkstra.Relaxation
import InterviewQuestions.Dijkstra.Distances
import InterviewQuestions.Library.Rearrangement
import InterviewQuestions.NextPermutation
import InterviewQuestions.RodCutting
import InterviewQuestions.SerializeNtree
import InterviewQuestions.Library.Subscript
import InterviewQuestions.Flatten
import InterviewQuestions.TargetNumber.Ways
import InterviewQuestions.Library.Pairing
import InterviewQuestions.Canoes
import InterviewQuestions.Library.DepthFirst
import InterviewQuestions.PackageDependencies
import InterviewQuestions.Library.LinearExtension
import InterviewQuestions.SortAttempt
import InterviewQuestions.Library.SearchTree
import InterviewQuestions.BstSequences
import InterviewQuestions.FoldPaper.Model
import InterviewQuestions.FoldPaper.Refinement
import InterviewQuestions.SerializeTree
import InterviewQuestions.Library.ThreadedTree
import InterviewQuestions.MorrisTraversal
import InterviewQuestions.Library.Digits
import InterviewQuestions.BigintSum.ReversedSum
import InterviewQuestions.BigintSum.ForwardSum
import InterviewQuestions.Library.SeveralStacks
import InterviewQuestions.ThreeStacks
import InterviewQuestions.RpnCalculator.StackEvaluator
import InterviewQuestions.RpnCalculator.ListEvaluator
import InterviewQuestions.Library.Merging
import InterviewQuestions.TrackMedian.Model
import InterviewQuestions.TrackMedian.Medians
import InterviewQuestions.Library.CountingTree
import InterviewQuestions.IntStream.Counters
import InterviewQuestions.Malloc.Coalescing
import InterviewQuestions.Malloc.Requests
import InterviewQuestions.Quicksort
import InterviewQuestions.Heapsort
import InterviewQuestions.Mergesort
import InterviewQuestions.Library.CommonSubsequence
import InterviewQuestions.Lcs
import InterviewQuestions.Library.Patience
import InterviewQuestions.Library.Bisection
import InterviewQuestions.Lis
import InterviewQuestions.PatienceSort.Sorting
import InterviewQuestions.Bst.Neighbours
import InterviewQuestions.Bst.Deletion
import InterviewQuestions.HashTable.Release
import InterviewQuestions.Dijkstra.Wrapping
import InterviewQuestions.Library.Recording
import InterviewQuestions.BinSearch.Occurrences
import InterviewQuestions.BinSearch.Closest
import InterviewQuestions.Library.Traversal
import InterviewQuestions.Library.BreadthFirst
import InterviewQuestions.Library.Ring
import InterviewQuestions.AdjacencyList.Lists
import InterviewQuestions.AdjacencyList.BreadthFirst
import InterviewQuestions.Library.LetterLanguage
import InterviewQuestions.GlobMatcher
import InterviewQuestions.KleeneStar
import InterviewQuestions.TokenizeWords.Buffer
import InterviewQuestions.Library.Grouping
import InterviewQuestions.BinaryExpr
import InterviewQuestions.Library.Runs
import InterviewQuestions.RgbStripes.Placements
import InterviewQuestions.RgbStripes.Optimality
import InterviewQuestions.OptimalConcat
import InterviewQuestions.Library.Swaps
import InterviewQuestions.MergeIntervals
import InterviewQuestions.MinSwaps
import InterviewQuestions.Switch
import InterviewQuestions.Library.Maze
import InterviewQuestions.TopBox.Model
import InterviewQuestions.TopBox.Search
import InterviewQuestions.TopBox.Words
import InterviewQuestions.TopBox.Endless
import InterviewQuestions.ParallelInorder
import InterviewQuestions.IsBalanced
import InterviewQuestions.Library.InorderTrees
import InterviewQuestions.InorderToTrees
import InterviewQuestions.IsBst
import InterviewQuestions.FriendsByLevel
import InterviewQuestions.Library.Sampling
import InterviewQuestions.RandomNode
import InterviewQuestions.RandShrink
import InterviewQuestions.UniqueBoundedRand.Shuffle
import InterviewQuestions.BigintSum.BufferUse
import InterviewQuestions.FindMergeSpot
import InterviewQuestions.ListQuicksort
import InterviewQuestions.RpnCalculator.Independence
import InterviewQuestions.BinSearch2d
import InterviewQuestions.WaveArray
import InterviewQuestions.Library.BestFirst
import InterviewQuestions.KthLargest
import InterviewQuestions.Library.FrequencyTable
import InterviewQuestions.MatchPermutations
import InterviewQuestions.StreamSum
import InterviewQuestions.CountSay
import InterviewQuestions.DuplicatesWithinK
import InterviewQuestions.ConsecutiveDates
import InterviewQuestions.ThreeRepeats
import InterviewQuestions.Library.Bits
import InterviewQuestions.ScreenArray
import InterviewQuestions.NextLargestAndSmallest
import InterviewQuestions.Philosophers
import InterviewQuestions.Library.TokenRing
import InterviewQuestions.OrderPrints
import InterviewQuestions.OrderFunctionCalls
import InterviewQuestions.Library.Baton
import InterviewQuestions.ForkSync.Program
import InterviewQuestions.ForkSync.Mechanisms
import InterviewQuestions.ForkSync.RecordLocks
import InterviewQuestions.Library.LockStep
import InterviewQuestions.Coprocesses
import InterviewQuestions.ClientServer
import InterviewQuestions.BoggleBoard.Boards
import InterviewQuestions.OpenDaemon
import InterviewQuestions.NQueens
import InterviewQuestions.NetSimul
import InterviewQuestions.WordPath
import InterviewQuestions.ReadersVsWriters.Chain
import InterviewQuestions.ReadersVsWriters.Starvation
import InterviewQuestions.MatchStr
import InterviewQuestions.Pty
import InterviewQuestions.DaemonizeUnique
import InterviewQuestions.FileLocks
import InterviewQuestions.Library.MonotoneQueue
import InterviewQuestions.SlidingWindow
import InterviewQuestions.Tail
