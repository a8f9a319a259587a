import Witcher.CrashImages
import Witcher.CrashPlanner
import Witcher.CrashTarget
import Witcher.DependencePaths
import Witcher.OracleComparison
import Witcher.StoreClassification
import Witcher.ParallelEdges
import Witcher.BarrierSafety
import Witcher.TxReplay
import Witcher.StoreValues
import Witcher.TraceEntries
import Witcher.TraceRanges
import Witcher.TraceRoundTrip
import Witcher.PersistentAddresses
import Witcher.GraphRoundTrip
import Witcher.FullPlans
import Witcher.StoreChunks
import Witcher.LoggedStores
import Witcher.ExecForcers
import Witcher.PersistentReachability
import Witcher.BeliefRules
import Witcher.CandidateGeneration
import Witcher.FlushRanges
import Witcher.CrashPointRuns
import Witcher.EnclosingBlocks
import Witcher.PMDKGroups
import Witcher.ResultSummary
import Witcher.StoreRecords
import Witcher.TransactionRecords
import Witcher.TransactionGraphs
import Witcher.TruncatedTraces
import Witcher.VertexObjects
import Witcher.Slices
import Witcher.ControlDependences
import Witcher.FixedRecords
import Witcher.TraceFiles
import Witcher.BlockKeys
