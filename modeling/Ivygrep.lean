import Ivygrep.Spec.ChunkSource
import Ivygrep.Native.RegexPrefilter
import Ivygrep.ForStd.List
import Ivygrep.Spec.RegexPrefilterCorrect
import Ivygrep.Native.Merkle
import Ivygrep.ForStd.FileTree
import Ivygrep.ForStd.Outcome
import Ivygrep.Native.Staging
import Ivygrep.Spec.MerkleBuild
import Ivygrep.Spec.MerkleDiff
import Ivygrep.Spec.MerkleHash
import Ivygrep.Spec.MerkleRefresh
import Ivygrep.Spec.StagingPlan
import Ivygrep.Spec.StagingOps
import Ivygrep.Spec.StagingLoops
import Ivygrep.Spec.StagingCorrect
import Ivygrep.Native.Overlay
import Ivygrep.Spec.OverlayScan
import Ivygrep.Spec.OverlayStore
import Ivygrep.Spec.OverlayView
import Ivygrep.Spec.OverlayUpdate
import Ivygrep.Spec.OverlayCorrect
import Ivygrep.Native.ModeLease
import Ivygrep.Spec.ModeLeaseInv
import Ivygrep.Spec.ModeLeaseWake
import Ivygrep.Spec.ModeLeaseCorrect
import Ivygrep.Spec.ModeLeaseOrder
import Ivygrep.Spec.ModeLeaseServed
import Ivygrep.Native.IndexFlight
import Ivygrep.Spec.IndexFlightCorrect
import Ivygrep.Native.IndexRequest
import Ivygrep.Spec.IndexRequestWalks
import Ivygrep.Spec.IndexRequestSteps
import Ivygrep.Spec.IndexRequestServed
import Ivygrep.Native.WatchQueue
import Ivygrep.Spec.WatchQueueInv
import Ivygrep.Spec.WatchQueueRuns
import Ivygrep.Spec.WatchQueueCorrect
import Ivygrep.Native.SourceWalker
import Ivygrep.Native.WatchFilter
import Ivygrep.Spec.SourceWalkerCorrect
import Ivygrep.Spec.WatchFilterCorrect
import Ivygrep.ForStd.LruCache
import Ivygrep.Native.ByteCache
import Ivygrep.Spec.ByteCacheCorrect
import Ivygrep.ForStd.Ranking
import Ivygrep.Native.FileSearchBatch
import Ivygrep.Spec.FileSearchBatchCorrect
import Ivygrep.Native.Jobs
import Ivygrep.Spec.JobsCorrect
import Ivygrep.Native.EnhancementQueue
import Ivygrep.Spec.EnhancementQueueInv
import Ivygrep.Spec.EnhancementQueueCorrect
import Ivygrep.Native.CandidateCollector
import Ivygrep.Spec.CandidateCollectorCorrect
import Ivygrep.ForStd.Interleaved
import Ivygrep.Native.IndexGc
import Ivygrep.Spec.IndexGcCorrect
import Ivygrep.Native.TestEdges
import Ivygrep.Spec.TestEdgesCorrect
import Ivygrep.Native.TokenBudget
import Ivygrep.Native.ContextBundle
import Ivygrep.Spec.TokenBudgetCorrect
import Ivygrep.Spec.BundleMetrics
import Ivygrep.Spec.ContextBundleCorrect
import Ivygrep.Spec.MerkleDiffExact
import Ivygrep.ForStd.Utf8
import Ivygrep.Native.TextSniff
import Ivygrep.Spec.TextSniffCorrect
import Ivygrep.Native.Compression
import Ivygrep.Spec.CompressionCorrect
import Ivygrep.ForStd.Kmp
import Ivygrep.Native.LiteralLines
import Ivygrep.Spec.LiteralLinesCorrect
import Ivygrep.ForStd.Touched
import Ivygrep.Native.IncrementalStats
import Ivygrep.Spec.IncrementalStatsCorrect
import Ivygrep.Native.SemanticRefill
import Ivygrep.ForStd.Partition
import Ivygrep.ForStd.TreeWalk
import Ivygrep.Native.RegexSearch
import Ivygrep.Spec.SemanticRefillCorrect
import Ivygrep.Spec.RegexSearchCorrect
import Ivygrep.ForStd.BinaryHeap
import Ivygrep.Native.LiteralFiles
import Ivygrep.Spec.LiteralFilesCorrect
import Ivygrep.ForStd.Brackets
import Ivygrep.ForStd.RowLimit
import Ivygrep.Native.GitStatus
import Ivygrep.Native.GroupedImports
import Ivygrep.Native.LiteralSearch
import Ivygrep.Native.McpFraming
import Ivygrep.Native.SearchBoolean
import Ivygrep.Native.SearchCancellation
import Ivygrep.Native.Symbols
import Ivygrep.Spec.GitStatusCorrect
import Ivygrep.Spec.GroupedImportsCorrect
import Ivygrep.Spec.LiteralSearchCorrect
import Ivygrep.Spec.McpFramingCorrect
import Ivygrep.Spec.SearchBooleanCorrect
import Ivygrep.Spec.SearchCancellationCorrect
import Ivygrep.Spec.SymbolSearchCorrect
import Ivygrep.ForStd.Exchange
import Ivygrep.ForStd.Quota
import Ivygrep.Native.BatchBudget
import Ivygrep.Native.DefinitionCandidates
import Ivygrep.Native.DenseFusion
import Ivygrep.Native.IdleContexts
import Ivygrep.Native.PreviewWindow
import Ivygrep.Native.SymbolLines
import Ivygrep.Native.VectorStore
import Ivygrep.Spec.BatchBudgetCorrect
import Ivygrep.Spec.DefinitionCandidatesCorrect
import Ivygrep.Spec.IdleContextsCorrect
import Ivygrep.Spec.PreviewWindowCorrect
import Ivygrep.Spec.VectorStoreCorrect
import Ivygrep.Spec.SymbolLinesCorrect
import Ivygrep.Spec.DenseFusionCorrect
import Ivygrep.Native.SymbolRows
import Ivygrep.Spec.SymbolRowsCorrect
import Ivygrep.ForStd.Binary32
import Ivygrep.Native.ScoreFilter
import Ivygrep.Spec.ScoreFilterCorrect
import Ivygrep.Native.CallSites
import Ivygrep.Spec.CallSitesCorrect
import Ivygrep.Native.CodeLines
import Ivygrep.Spec.AnnotationLines
import Ivygrep.ForStd.UnixFs
import Ivygrep.Native.WorkspaceFile
import Ivygrep.Spec.WorkspaceFileCorrect
import Ivygrep.Native.LiteralPrefilter
import Ivygrep.Spec.LiteralPrefilterCorrect
import Ivygrep.Native.LiteralCandidates
import Ivygrep.Spec.LiteralCandidatesCorrect
import Ivygrep.Native.PathGlob
import Ivygrep.Spec.PathGlobCorrect
import Ivygrep.Native.QueryResults
import Ivygrep.Spec.QueryResultsCorrect
