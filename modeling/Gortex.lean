import Gortex.Indexer.Transparent
import Gortex.Resolver.CrossFlag
import Gortex.Resolver.Agreement
import Gortex.Daemon.Healing
import Gortex.Daemon.Recovery
import Gortex.Savings.Counting
import Gortex.Indexer.Reindex
import Gortex.Indexer.Multi
import Gortex.Indexer.Convergence
import Gortex.Indexer.Watcher
import Gortex.Indexer.Indexer
import Gortex.Resolver.Passes
import Gortex.Resolver.Resolver
import Gortex.Daemon.RoundTrip
import Gortex.Query.Traversal
import Gortex.Search.BM25
import Gortex.Query.Engine
import Gortex.Graph.Replay
import Gortex.Graph.Reachable
import Gortex.Parser.Registry
import Gortex.Contracts.Validate
import Gortex.Contracts.Shape
import Gortex.Contracts.Matcher
import Gortex.Contracts.Indexes
import Gortex.Contracts.Registry
import Gortex.Indexer.Disk
import Gortex.Daemon.SearchIndex
import Gortex.Indexer.Implements
import Gortex.Resolver.Accounting
import Gortex.Resolver.OwnRepo
import Gortex.Graph.QualNames
import Gortex.Indexer.SymbolChange
import Gortex.Query.Incident
import Gortex.Analysis.Cycles
import Gortex.Lib.TarjanOrder
import Gortex.Analysis.CycleKinds
import Gortex.Lib.Modularity
import Gortex.Lib.Totals
import Gortex.Analysis.Communities
import Gortex.Analysis.Newman
import Gortex.Analysis.Gains
import Gortex.Lib.DepthLimited
import Gortex.Analysis.Processes
import Gortex.Lib.Levels
import Gortex.Analysis.Impact
import Gortex.Lib.Scanner
import Gortex.Indexer.NameStatus
import Gortex.Lib.Rewrite
import Gortex.Contracts.HttpPath
import Gortex.Lib.GoText
import Gortex.Analysis.DiffHunks
import Gortex.Lib.Brackets
import Gortex.Analysis.Signature
import Gortex.Analysis.SignatureText
import Gortex.Lib.Frontier
import Gortex.Mcp.Untested
import Gortex.Lib.Sorting
import Gortex.Mcp.Combo
import Gortex.Mcp.Frecency
import Gortex.Mcp.Rerank
import Gortex.Lib.Recent
import Gortex.Mcp.Learning
import Gortex.Mcp.Lesson
import Gortex.Contracts.Bind
import Gortex.Mcp.Scope
import Gortex.Contracts.Stability
import Gortex.Contracts.Wrapper
import Gortex.Indexer.Bridges
import Gortex.Contracts.SchemaEnrich
import Gortex.Indexer.Handlers
import Gortex.Contracts.Canonical
import Gortex.Analysis.Verify
import Gortex.Search.Hybrid
import Gortex.Search.Candidates
import Gortex.Agents.Instructions
import Gortex.Mcp.EditSymbol
import Gortex.Mcp.EditOrder
import Gortex.Mcp.BatchEdit
import Gortex.Mcp.Rename
import Gortex.Lib.Fueled
import Gortex.Lib.Wire
import Gortex.Semantic.Proto
import Gortex.Semantic.Scip
import Gortex.Query.ExactNames
import Gortex.Lib.Upsert
import Gortex.Lib.Closest
import Gortex.Semantic.Enricher
import Gortex.Semantic.Matcher
import Gortex.Semantic.References
import Gortex.Semantic.Enrich
import Gortex.Semantic.Rerun
import Gortex.Semantic.GoTypes
import Gortex.Semantic.GoImplements
import Gortex.Semantic.GoRun
import Gortex.Lib.Groups
import Gortex.Semantic.GoOrder
import Gortex.Semantic.Manager
import Gortex.Semantic.Encode
import Gortex.Contracts.GrpcServices
import Gortex.Lib.Backtrack
import Gortex.Query.Mermaid
import Gortex.Config.Global
import Gortex.Indexer.FilePaths
import Gortex.Lib.Automaton
import Gortex.Contracts.FirstArg
import Gortex.Contracts.GoFields
import Gortex.Contracts.GoLines
import Gortex.Contracts.GoStruct
import Gortex.Hooks.BashClassify
import Gortex.Hooks.Shell
import Gortex.Daemon.Registry
import Gortex.Semantic.LspAnswers
import Gortex.Indexer.GitFollow
import Gortex.Graph.Concurrent
