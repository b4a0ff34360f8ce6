import MultiCore.Lib.Run
import MultiCore.Lib.Checksum
import MultiCore.Lib.MultiWordCas
import MultiCore.Lib.Chain
import MultiCore.Lib.Loop
import MultiCore.Lib.OpenAddressing
import MultiCore.Lib.Routing
import MultiCore.Lib.Sharing
import MultiCore.Lib.Shards
import MultiCore.Lib.LockOrder
import MultiCore.Util.Counter
import MultiCore.Util.Bucket
import MultiCore.Util.Probe
import MultiCore.Util.Murmur3
import MultiCore.Util.AccurateRead
import MultiCore.Kcas.Descriptor
import MultiCore.Kcas.TIDGenerator
import MultiCore.DoublyLinkedList.Model
import MultiCore.DoublyLinkedList.Invariant
import MultiCore.DoublyLinkedList.Traversal
import MultiCore.DoublyLinkedList.Progress
import MultiCore.DoublyLinkedList.Checksum
import MultiCore.ExternalTree.Model
import MultiCore.ExternalTree.Invariant
import MultiCore.ExternalTree.Updates
import MultiCore.ExternalTree.Insert
import MultiCore.ExternalTree.Erase
import MultiCore.ExternalTree.Answers
import MultiCore.ExternalTree.Correct
import MultiCore.ExternalTree.WellFormed
import MultiCore.TLEHashTable.Model
import MultiCore.TLEHashTable.Accounting
import MultiCore.AlgorithmD.Bucket
import MultiCore.AlgorithmD.Chunks
import MultiCore.AlgorithmD.Sequential
import MultiCore.AlgorithmD.Completion
import MultiCore.AlgorithmD.OneExpansion
import MultiCore.AlgorithmD.Protocol
import MultiCore.AlgorithmD.Concurrent
import MultiCore.AlgorithmD.Effect
import MultiCore.AlgorithmD.Invariant
import MultiCore.AlgorithmD.Moves
import MultiCore.AlgorithmD.Migration
import MultiCore.AlgorithmD.Presence
import MultiCore.AlgorithmD.KeySet
import MultiCore.AlgorithmD.Answers
import MultiCore.AlgorithmD.Sizing
import MultiCore.AlgorithmD.Ledger
import MultiCore.AlgorithmD.BigEnough
import MultiCore.AlgorithmD.Progress
import MultiCore.TLEHashTable.Reference
import MultiCore.TLEHashTable.Completion
import MultiCore.TLEHashTable.OneExpansion
import MultiCore.TLEHashTable.Agreement
import MultiCore.Lib.RacingTable
import MultiCore.Lib.Calls
import MultiCore.Lib.WaitFree
import MultiCore.TwoThreadLock.Mutex
import MultiCore.Counters.ShardedWaitfree
import MultiCore.Counters.ShardedLocked
import MultiCore.Counters.Approximate
import MultiCore.FixedTable.AlgorithmC
import MultiCore.FixedTable.AlgorithmA
import MultiCore.FixedTable.SumOfKeys
import MultiCore.FixedTable.AlgorithmB
import MultiCore.SequentialTree.Model
import MultiCore.SequentialTree.Invariant
import MultiCore.SequentialTree.Updates
import MultiCore.SequentialTree.SameSet
import MultiCore.SequentialTree.LockElision
import MultiCore.Lib.Reclamation
import MultiCore.Lib.Bags
import MultiCore.ReclaimList.FreedOnce
import MultiCore.ReclaimTree.HandsOver
import MultiCore.KCASLockFree.Model
import MultiCore.KCASLockFree.Invariant
import MultiCore.KCASLockFree.Writes
import MultiCore.KCASLockFree.Frames
import MultiCore.KCASLockFree.Steps
import MultiCore.KCASLockFree.Helping
import MultiCore.KCASLockFree.Sound
import MultiCore.KCASLockFree.Atomic
import MultiCore.KCASLockFree.Tags
import MultiCore.KCASLockFree.Dangling
import MultiCore.KCASLockFree.Encoding
import MultiCore.Debra.Steps
import MultiCore.Debra.GracePeriod
import MultiCore.Debra.Progress
import MultiCore.Debra.Program
import MultiCore.ReclaimList.OverDebra
import MultiCore.Lib.Linked
import MultiCore.Lib.Partition
import MultiCore.BlockBag.Records
import MultiCore.Lib.Atomic
import MultiCore.LockFreeBlockBag.Stack
