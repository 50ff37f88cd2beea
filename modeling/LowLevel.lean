import LowLevel.Interview.WorkerpoolProgress
import LowLevel.Interview.WorkerpoolRaces
import LowLevel.Interview.WorkerpoolOrder
import LowLevel.Interview.WorkerpoolSchedule
import LowLevel.Interview.LruRefinement
import LowLevel.Interview.LruInclusion
import LowLevel.Interview.LruSize
import LowLevel.Interview.LruHistory
import LowLevel.Interview.LruCompetitive
import LowLevel.Interview.LruReference
import LowLevel.Interview.LogparseRoundTrip
import LowLevel.Interview.LogparseNewline
import LowLevel.Interview.LogparseAggregates
import LowLevel.Interview.SlugifySafe
import LowLevel.Interview.WordFreqLaws
import LowLevel.Interview.Duplicates
import LowLevel.Interview.DupesCount
import LowLevel.Interview.MergeIntervalsFrame
import LowLevel.Interview.MergeIntervalsNormal
import LowLevel.Interview.BinarySearchCost
import LowLevel.Basis.AddressSpace
import LowLevel.Basis.Loop
import LowLevel.ProperC.LinkedListLifecycle
import LowLevel.ProperC.LinkedListCycle
import LowLevel.ProperC.LinkedListReverse
import LowLevel.ProperC.LinkedListPush
import LowLevel.ProperC.LinkedListWalks
import LowLevel.ProperC.FuncptrSort
import LowLevel.ProperC.FuncptrFilter
import LowLevel.ProperC.FuncptrPrograms
import LowLevel.ProperC.PointersCopy
import LowLevel.ProperC.IndexArithmetic
import LowLevel.ProperC.SafetyBounds
import LowLevel.ProperC.SafetyTruncation
import LowLevel.ProperC.Bits
import LowLevel.ProperC.StructsCodec
import LowLevel.ProperC.StructsShift
import LowLevel.ProperC.CtestVerdict
import LowLevel.ProperC.CtestWatchdog
import LowLevel.ProperDS.Strdp
import LowLevel.ProperDS.StrdpMasks
import LowLevel.ProperDS.Unionfind
import LowLevel.ProperDS.SetOracle
import LowLevel.ProperDS.MapOracle
import LowLevel.ProperDS.TrieOracle
import LowLevel.ProperDS.VectorOracle
import LowLevel.ProperDS.DllOracle
import LowLevel.ProperDS.SllOracle
import LowLevel.ProperDS.StackqueueOracle
import LowLevel.ProperDS.TreeOracle
import LowLevel.ProperMachine.Bench
