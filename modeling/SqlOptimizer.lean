import SqlOptimizer.Library.Binary64
import SqlOptimizer.Library.ExactSum
import SqlOptimizer.Library.Extreme
import SqlOptimizer.Library.Failure
import SqlOptimizer.Library.Drain
import SqlOptimizer.Library.Pairs
import SqlOptimizer.Library.Grouping
import SqlOptimizer.Parser.Ast
import SqlOptimizer.Execution.ValueOps
import SqlOptimizer.Execution.RowSchema
import SqlOptimizer.Execution.ExprEval
import SqlOptimizer.Storage.Database
import SqlOptimizer.Physical.Cost
import SqlOptimizer.Physical.Plan
import SqlOptimizer.Execution.Operators
import SqlOptimizer.Execution.Run
import SqlOptimizer.Execution.Aggregation
import SqlOptimizer.Execution.ValueOrder
import SqlOptimizer.Library.Truth
import SqlOptimizer.Execution.WhereTruth
import SqlOptimizer.Library.SortKeys
import SqlOptimizer.Execution.SortOrder
import SqlOptimizer.Execution.Builder
import SqlOptimizer.Execution.JoinAgreement
import SqlOptimizer.Execution.OuterJoin
import SqlOptimizer.Execution.SqlEvaluation
import SqlOptimizer.Logical.Schema
import SqlOptimizer.Logical.Plan
import SqlOptimizer.Logical.Planner
import SqlOptimizer.Logical.Optimizer
import SqlOptimizer.Optimizer.Estimators
import SqlOptimizer.Optimizer.JoinGraph
import SqlOptimizer.Optimizer.AccessPath
import SqlOptimizer.Optimizer.JoinEnumerator
import SqlOptimizer.Optimizer.SearchInvariant
import SqlOptimizer.Physical.Planner
import SqlOptimizer.Library.Assignment
import SqlOptimizer.Execution.Relational
import SqlOptimizer.Execution.Layout
import SqlOptimizer.Optimizer.JoinSearch
import SqlOptimizer.Optimizer.JoinSearchRows
import SqlOptimizer.Library.Contraction
import SqlOptimizer.Logical.Pushdown
import SqlOptimizer.Logical.GreedyOrder
import SqlOptimizer.Logical.ReorderConditions
import SqlOptimizer.Logical.PushdownRows
import SqlOptimizer.Distributed.PartialAggregates
import SqlOptimizer.Distributed.MergeAggregates
import SqlOptimizer.Distributed.Partition
import SqlOptimizer.Distributed.Coordinator
import SqlOptimizer.Distributed.Relations
import SqlOptimizer.Distributed.PartitionedScan
import SqlOptimizer.Distributed.BroadcastJoin
import SqlOptimizer.Distributed.ShuffleJoin
import SqlOptimizer.Distributed.CoLocation
import SqlOptimizer.Physical.HashJoins
import SqlOptimizer.Physical.JoinCorrespondence
import SqlOptimizer.Library.LinkedList
import SqlOptimizer.Library.Weights
import SqlOptimizer.Library.Decimal
import SqlOptimizer.Cache.Storage.Shard
import SqlOptimizer.Cache.Storage.Store
import SqlOptimizer.Cache.Storage.Bookkeeping
import SqlOptimizer.Library.BigEndian
import SqlOptimizer.Cache.Persistence.Snapshot
import SqlOptimizer.Cache.Persistence.RoundTrip
import SqlOptimizer.Cache.Persistence.Restart
import SqlOptimizer.Cache.Resp.Codec
import SqlOptimizer.Integration.CacheClient
import SqlOptimizer.Cache.Resp.RoundTrip
import SqlOptimizer.Integration.Framing
import SqlOptimizer.Cache.Command.Dispatcher
import SqlOptimizer.Cache.Command.Operations
import SqlOptimizer.Cache.Command.Replies
import SqlOptimizer.Cache.Server.Connection
import SqlOptimizer.Cache.Server.Frames
import SqlOptimizer.Cache.Storage.Expiry
import SqlOptimizer.Cache.Command.Sweeps
import SqlOptimizer.Cache.Command.Sharding
import SqlOptimizer.Cache.Storage.Objects
import SqlOptimizer.Cache.Persistence.PointInTime
import SqlOptimizer.Library.Pull
import SqlOptimizer.Execution.Iterators
import SqlOptimizer.Execution.ListEvaluation
import SqlOptimizer.Execution.PullRuns
import SqlOptimizer.Physical.JoinTrees
import SqlOptimizer.Physical.StatementPlan
import SqlOptimizer.Execution.SelectList
import SqlOptimizer.Execution.ResultRows
import SqlOptimizer.Execution.GroupByValue
import SqlOptimizer.Util.Json
import SqlOptimizer.Util.JsonRoundTrip
import SqlOptimizer.Integration.PlanSerializer
import SqlOptimizer.Integration.PlanRoundTrip
import SqlOptimizer.Integration.PlanDecoding
import SqlOptimizer.Parser.Lexer
import SqlOptimizer.Parser.Parser
import SqlOptimizer.Library.Reading
import SqlOptimizer.Parser.Grammar
import SqlOptimizer.Parser.Recognition
import SqlOptimizer.Parser.Leftovers
import SqlOptimizer.Parser.Precedence
import SqlOptimizer.Parser.LexerRoundTrip
import SqlOptimizer.Parser.SqlPrinter
import SqlOptimizer.Integration.CacheKey
import SqlOptimizer.Integration.CachedPlanner
import SqlOptimizer.Distributed.Finish
import SqlOptimizer.Optimizer.CheapestOrder
import SqlOptimizer.Optimizer.PlanShape
import SqlOptimizer.Optimizer.AccessRows
import SqlOptimizer.Library.Mask
import SqlOptimizer.Logical.ProjectionRows
import SqlOptimizer.Library.Delimited
import SqlOptimizer.Parser.Produced
import SqlOptimizer.Parser.CanonicalText
import SqlOptimizer.Cache.Persistence.AllOrNothing
import SqlOptimizer.Library.Recency
import SqlOptimizer.Cache.Storage.Eviction
import SqlOptimizer.Cache.Persistence.Started
import SqlOptimizer.Cache.Command.Counters
import SqlOptimizer.Library.RoundingBounds
import SqlOptimizer.Cache.Command.TtlReplies
import SqlOptimizer.Library.Chunks
import SqlOptimizer.Web.HttpServer
import SqlOptimizer.Distributed.HttpClient
import SqlOptimizer.Web.HttpFraming
import SqlOptimizer.Cache.Command.TtlDuration
import SqlOptimizer.Library.Spellings
import SqlOptimizer.Cache.Resp.Accepted
import SqlOptimizer.Optimizer.CostModel
import SqlOptimizer.Physical.PlanCosts
import SqlOptimizer.Library.JsonGrammar
import SqlOptimizer.Util.JsonTokens
import SqlOptimizer.Util.JsonReading
import SqlOptimizer.Util.JsonAccepted
import SqlOptimizer.Util.JsonNumbers
import SqlOptimizer.Integration.PlanKeys
import SqlOptimizer.Distributed.RowJson
import SqlOptimizer.Distributed.WorkerService
import SqlOptimizer.Distributed.WorkerCalls
import SqlOptimizer.Library.LeastSquares
import SqlOptimizer.Adaptive.Calibration
import SqlOptimizer.Storage.CsvReader
import SqlOptimizer.Library.ExactValues
import SqlOptimizer.Statistics.Histogram
import SqlOptimizer.Statistics.Analyzer
import SqlOptimizer.Statistics.RangeEstimates
import SqlOptimizer.Integration.SchemaVersion
import SqlOptimizer.Library.Machine
import SqlOptimizer.Cache.Command.Forgetting
import SqlOptimizer.Integration.SharedCache
import SqlOptimizer.Adaptive.Bandit
import SqlOptimizer.Distributed.QueryRouting
import SqlOptimizer.Distributed.StrategyLearning
import SqlOptimizer.Execution.Reordered
import SqlOptimizer.Execution.Correspondence
import SqlOptimizer.Distributed.Collecting
import SqlOptimizer.Distributed.SpreadAggregates
import SqlOptimizer.Distributed.DistributedAnswers
import SqlOptimizer.Optimizer.Renumbering
import SqlOptimizer.Physical.JoinRuns
import SqlOptimizer.Physical.TreeRows
import SqlOptimizer.Physical.RewrittenTrees
import SqlOptimizer.Physical.StatementAnswers
import SqlOptimizer.Physical.ReferenceAnswers
import SqlOptimizer.Physical.StatisticsAnswers
import SqlOptimizer.Adaptive.Persistence
import SqlOptimizer.Storage.Loading
import SqlOptimizer.Distributed.LoadedPartitions
import SqlOptimizer.Storage.WrittenTables
