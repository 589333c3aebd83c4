import Yurine.Search.Declining
import Yurine.Search.Exactness
import Yurine.Search.Verify
import Yurine.Costs.CustomRoundTrip
import Yurine.Cli.RebuildFailure
import Yurine.Cli.SnapshotFailure
import Yurine.Costs.EmbeddingRuns
import Yurine.Search.Limit
import Yurine.Search.Completeness
import Yurine.Search.CandidateLists
import Yurine.Search.Approximation
import Yurine.Search.Radius
import Yurine.Search.Agreement
import Yurine.Costs.CustomOpening
import Yurine.Search.Faithfulness
import Yurine.Costs.DotProduct
import Yurine.Cli.Quotes
import Yurine.Postings.Runs
import Yurine.Search.CacheRuns
import Yurine.Search.Composition
import Yurine.Cli.EndToEnd
import Yurine.Cli.CostLoading
import Yurine.Costs.Angles
import Yurine.Cli.CostCompiler
import Yurine.Costs.RowCache
