import Hoglet.Projections.Identified
import Hoglet.Projections.SentIds
import Hoglet.Query.Labels
import Hoglet.Query.Spans
import Hoglet.Wal.CrashImage
import Hoglet.Wal.GroupCommit
import Hoglet.Wal.Race
import Hoglet.Wal.Reopen
import Hoglet.Wal.Steady
import Hoglet.Wal.Window
import Hoglet.Lake.Catalogue
import Hoglet.Lake.Changes
import Hoglet.Lake.CompactorRuns
import Hoglet.Lake.Leases
import Hoglet.Lake.Rest
import Hoglet.Control.Owners
import Hoglet.Flags.Cache
import Hoglet.Flags.Subject
import Hoglet.Storage.Starts
import Hoglet.Wal.Unpublished
import Hoglet.Explore.Visits
import Hoglet.Query.Funnels.Scans
import Hoglet.Query.Funnels.Thinned
import Hoglet.Query.Funnels.Agree
import Hoglet.Query.Funnels.Cells
import Hoglet.Query.Funnels.Buckets
import Hoglet.Import.Complete
import Hoglet.Lake.Parquet
import Hoglet.Query.Relation
import Hoglet.Query.Uniform
import Hoglet.Capture.Base64
import Hoglet.Capture.Decompress
import Hoglet.Capture.Lies
import Hoglet.Capture.LzCompress
import Hoglet.Capture.LzRoundTrip
import Hoglet.Capture.Transports
import Hoglet.Islands
import Hoglet.Query.Trends.Compute
import Hoglet.Query.Trends.Answer
import Hoglet.Query.Trends.Periods
import Hoglet.Query.Trends.General
import Hoglet.Query.Trends.Masks
import Hoglet.Query.Trends.Agree
import Hoglet.Query.Trends.Points
import Hoglet.Query.Funnels.Histogram
import Hoglet.Capture.Calendar
import Hoglet.Query.Buckets
import Hoglet.Runs
import Hoglet.Query.Lifecycle.Classify
import Hoglet.Query.Lifecycle.Balance
import Hoglet.Query.Paths.Scan
import Hoglet.Query.Paths.Links
import Hoglet.Query.Paths.Persons
import Hoglet.Capture.LzExact
import Hoglet.Capture.Accepted
import Hoglet.Capture.Charges
import Hoglet.Flags.Matching
import Hoglet.Choices
import Hoglet.Flags.Eval
import Hoglet.Flags.Raised
import Hoglet.Flags.Validate
import Hoglet.Flags.Served
import Hoglet.Json.Lexical
import Hoglet.Flags.Nesting
import Hoglet.Flags.Conservative
import Hoglet.Eviction
import Hoglet.Query.Trends.Scan
import Hoglet.Since
import Hoglet.Query.ResultCache
import Hoglet.Query.ResultCacheRuns
import Hoglet.Control.Throttle
import Hoglet.Control.ThrottleRuns
import Hoglet.Query.Aligned
import Hoglet.Explore.Dates
import Hoglet.Rollup
import Hoglet.Projections.Windows
import Hoglet.Capture.TextOrder
import Hoglet.Explore.Tiled
import Hoglet.Projections.Rows
import Hoglet.Projections.Twice
import Hoglet.Projections.Dated
import Hoglet.Projections.Replayed
import Hoglet.Paging
import Hoglet.Explore.Events
import Hoglet.Explore.EventPages
import Hoglet.Explore.EventRuns
import Hoglet.Base64Url
import Hoglet.Persons.Listing
import Hoglet.Projections.Surviving
import Hoglet.Persons.Cursors
import Hoglet.Persons.Pages
import Hoglet.Chains
import Hoglet.Query.Floats
import Hoglet.Query.Formulas.Tokens
import Hoglet.Query.Formulas.Parser
import Hoglet.Query.Formulas.Grammar
import Hoglet.Scanners
import Hoglet.Query.Numeric
import Hoglet.Explore.Ties
import Hoglet.Explore.Partitions
import Hoglet.Explore.Totals
import Hoglet.Explore.Series
import Hoglet.Explore.Overview
import Hoglet.Lake.Ledger
import Hoglet.Lake.LedgerRuns
import Hoglet.Pipeline
import Hoglet.Interning
import Hoglet.Query.Retention
import Hoglet.Query.Stickiness
import Hoglet.Query.SqlOutline
import Hoglet.Query.SqlStatements
