import Mcl.Library.Heap
import Mcl.Library.Row
import Mcl.Library.Ring
import Mcl.Library.Linked
import Mcl.Library.Scan
import Mcl.Library.Runs
import Mcl.Library.Keyed
import Mcl.Library.Cursor
import Mcl.Library.Strip
import Mcl.Library.Lines
import Mcl.Util.Common
import Mcl.Util.ListModel
import Mcl.Util.ListCode
import Mcl.Util.ListRefinement
import Mcl.Util.ListRuns
import Mcl.Util.ListErase
import Mcl.Util.ListSearch
import Mcl.Util.String
import Mcl.Util.StringTrim
import Mcl.Util.HashFunction
import Mcl.Util.Hash
import Mcl.Util.HashRows
import Mcl.Util.HashMaps
import Mcl.Util.HashRuns
import Mcl.Util.HashReinsert
import Mcl.Util.HashTraversal
import Mcl.Util.HashCursor
import Mcl.Util.HashScan
import Mcl.Util.HashErase
import Mcl.Util.HashOwnership
import Mcl.Util.Blocks
import Mcl.Util.StringCode
import Mcl.Util.ListBlocks
import Mcl.Util.HashCode
import Mcl.Util.HashBlocks
import Mcl.Util.HashBuckets
import Mcl.Util.HashMemory
import Mcl.Util.HashSession
import Mcl.Util.StringRefs
import Mcl.Util.Log
import Mcl.Util.LogJournal
import Mcl.Util.Array
import Mcl.Util.ArrayRuns
import Mcl.Util.ArrayDelete
import Mcl.Util.ArrayCalls
import Mcl.Util.ArrayElems
import Mcl.Util.ArrayRemoval
import Mcl.Util.ArrayRanges
import Mcl.Util.ArrayObjects
import Mcl.Util.ArrayRefinement
import Mcl.Util.ArrayInsertion
import Mcl.Util.ArrayCapacity
import Mcl.Util.ArrayKept
import Mcl.Util.ArrayGrowth
import Mcl.Util.ArraySequence
import Mcl.Util.ArrayTraversal
import Mcl.Util.EraseFn
import Mcl.Net.Event
import Mcl.Net.Loop
import Mcl.Net.Select
import Mcl.Net.SelectLoop
import Mcl.Net.SelectSound
import Mcl.Net.SelectCalls
import Mcl.Net.SelectRuns
import Mcl.Net.SelectDelete
import Mcl.Net.SelectAdd
import Mcl.Net.SelectRound
import Mcl.Net.SelectScan
import Mcl.Net.SelectReentry
import Mcl.Net.SelectMoves
import Mcl.Net.SelectPoll
import Mcl.Net.SelectFds
import Mcl.Net.SelectTimeout
import Mcl.Net.SelectDeparts
import Mcl.Net.SelectPass
import Mcl.Net.Registry
import Mcl.Net.SelectDispatch
import Mcl.Net.SelectCleanup
import Mcl.Net.NetRaw
import Mcl.Net.Kqueue
import Mcl.Net.KqueueLoop
import Mcl.Net.KqueueSound
import Mcl.Net.KqueueCalls
import Mcl.Net.KqueueDispatch
import Mcl.Net.KqueueCoherence
import Mcl.Net.KqueueBatch
import Mcl.Net.KqueueRounds
import Mcl.Net.KqueueCleanup
import Mcl.Net.Backends
import Mcl.Net.BackendRounds
