import Notely.Lib.Batches
import Notely.Lib.Greedy
import Notely.Lib.FileTree
import Notely.Lib.Lts
import Notely.Lib.Paths
import Notely.Lib.Programs
import Notely.Lib.Strings
import Notely.Lib.Table
import Notely.Lib.Utf8
import Notely.Engine.Analysis
import Notely.Engine.Answers
import Notely.Engine.Chunker
import Notely.Engine.DeferredRuns
import Notely.Engine.Domain
import Notely.Engine.HybridSearch
import Notely.Engine.Jobs
import Notely.Engine.Markdown
import Notely.Engine.Orchestrator
import Notely.Engine.Preprocess
import Notely.Engine.SearchIndex
import Notely.Engine.SearchSync
import Notely.Engine.VaultFiles
import Notely.Desktop.Dart
import Notely.Desktop.EditorSaves
import Notely.Desktop.EditorState
import Notely.Desktop.FileSafety
import Notely.Desktop.FileSystem
import Notely.Desktop.Framing
import Notely.Desktop.Listening
import Notely.Desktop.SummaryNote
import Notely.Engine.CachedGeneration
import Notely.Engine.EmbeddingLockstep
import Notely.Engine.IndexExactness
import Notely.Engine.Synthesis
import Notely.Engine.VaultScope
import Notely.Lib.Monitors
import Notely.Engine.EventTraces
import Notely.Engine.RunPhases
import Notely.Engine.CancelAtomicity
import Notely.Engine.Pool
import Notely.Engine.Truthfulness
import Notely.Engine.EnrichmentRaces
import Notely.Engine.Custody
import Notely.Summary.Connection
import Notely.Summary.Isolation
import Notely.Summary.Captures
import Notely.Engine.AnalysisDrivers
import Notely.Engine.DurableQueue
import Notely.Engine.JobRecovery
import Notely.Engine.CacheTransparency
import Notely.Engine.Extraction
import Notely.Lib.Json
import Notely.Engine.Protocol
import Notely.Desktop.Protocol
import Notely.Desktop.ProtocolAgreement
import Notely.Lib.Handles
import Notely.Desktop.Capture
import Notely.Desktop.CaptureSafety
import Notely.Desktop.MeetingSession
import Notely.Desktop.MeetingCoherence
import Notely.Desktop.MeetingPrompts
import Notely.Engine.Server
import Notely.Desktop.ReadTree
import Notely.Desktop.ExplorerTree
import Notely.Desktop.Detector
import Notely.Desktop.ProviderGate
import Notely.Desktop.ClientDisposal
import Notely.Desktop.OpenPath
import Notely.Desktop.TitleSync
import Notely.Summary.Duplicates
import Notely.Engine.NoteChunks
import Notely.Engine.SegmentChunks
import Notely.Engine.Normalizing
import Notely.Engine.RankFusion
import Notely.Desktop.CitationLines
import Notely.Engine.StatusOwners
import Notely.Desktop.MeetingEndings
import Notely.Desktop.FailedFlush
import Notely.Desktop.AtomicMoves
import Notely.Desktop.AskStore
import Notely.Desktop.AskState
import Notely.Desktop.AskHistory
import Notely.Lib.Maxima
import Notely.Lib.Rankings
import Notely.Engine.Grounding
import Notely.Engine.SimilarTexts
import Notely.Engine.OwnerGuard
import Notely.Engine.VaultAnswers
import Notely.Engine.FusionTies
import Notely.Engine.EmbeddingFailures
import Notely.Engine.EmbeddingModels
import Notely.Lib.Commonmark
import Notely.Engine.ActionTable
import Notely.Engine.DocumentOutline
import Notely.Engine.MatchQueries
import Notely.Lib.Digits
import Notely.Lib.Calendar
import Notely.Engine.MeetingOrder
import Notely.Desktop.LineEndings
import Notely.Lib.Regexes
import Notely.Desktop.Highlighting
import Notely.Desktop.Creation
import Notely.Desktop.ExplorerPointers
import Notely.Desktop.ListedNodes
import Notely.Desktop.RenamedNodes
import Notely.Desktop.TitleSettling
import Notely.Lib.Timelines
import Notely.Desktop.ElapsedTime
import Notely.Lib.FixedCodes
import Notely.Lib.Buckets
import Notely.Lib.JsonText
import Notely.Lib.JsonPairs
import Notely.Engine.VectorBlobs
import Notely.Engine.CleanAnswers
import Notely.Desktop.ImportedImages
import Notely.Desktop.Redetections
import Notely.Desktop.SavedChats
