import Libdft.Sparse
import Libdft.TagMap
import Libdft.TagTrait
import Libdft.Syscall
import Libdft.SyscallHook
import Libdft.SyscallTable
import Libdft.SyscallApi
import Libdft.DefaultHandling
import Libdft.StaleArguments
import Libdft.Descriptors
import Libdft.FailedCalls
import Libdft.ClearedRanges
import Libdft.TaintingLoops
import Libdft.ScatteredInput
import Libdft.Loop
import Libdft.Run
import Libdft.Probing
import Libdft.Llmsset
import Libdft.LlmssetTable
import Libdft.LlmssetThreads
import Libdft.LlmssetProbe
import Libdft.Ring
import Libdft.Owners
import Libdft.BddTag
import Libdft.BddTrie
import Libdft.BddInsert
import Libdft.BddSets
import Libdft.BddCombine
import Libdft.BddSession
import Libdft.BddCanonical
import Libdft.BddEmptiness
import Libdft.BddOffsets
import Libdft.BddRepeat
import Libdft.BddShape
import Libdft.BddSegments
import Libdft.BddMerge
import Libdft.BddSegmentSession
import Libdft.SsaBackend
import Libdft.SsaPool
import Libdft.SsaTag
import Libdft.SsaGc
import Libdft.SsaCells
import Libdft.SsaProtection
import Libdft.SsaNogc
import Libdft.SsaSets
import Libdft.TagBackends
import Libdft.SsaThreads
import Libdft.SsaThreadSafety
import Libdft.Vcpu
import Libdft.Moves
import Libdft.Relational
import Libdft.TrackerRelations
import Libdft.TagFlow
import Libdft.InsHelper
import Libdft.InsXfer
import Libdft.InsBinary
import Libdft.InsXchg
import Libdft.InsInspect
import Libdft.ShadowReads
import Libdft.SavedRegisters
import Libdft.Triple
import Libdft.ClearedTags
import Libdft.SinkRow
import Libdft.NarrowRows
import Libdft.XferWidth
import Libdft.BinaryUnion
import Libdft.StringStore
import Libdft.MemoryMoves
import Libdft.Widening
import Libdft.MultiplyDivide
import Libdft.Exchange
import Libdft.CompareExchange
import Libdft.MyTool
import Libdft.SourceLabels
import Libdft.WorkerProtocol
import Libdft.WorkerSafety
import Libdft.DecisionDiagram
import Libdft.SylvanAnd
import Libdft.SylvanUnion
import Libdft.OperationCache
import Libdft.OperationCacheThreads
import Libdft.OperationCacheAlone
import Libdft.LlmssetFound
import Libdft.LlmssetAlone
import Libdft.SylvanWords
import Libdft.WordUnion
import Libdft.Ewah
import Libdft.EwahBits
import Libdft.EwahTags
