import YdbSnippets.Effects.Program
import YdbSnippets.Python.Json
import YdbSnippets.Python.Text
import YdbSnippets.Python.Lines
import YdbSnippets.LegacyTables.Classify
import YdbSnippets.LegacyTables.Repair
import YdbSnippets.LegacyTables.Server
import YdbSnippets.LegacyTables.Renaming
import YdbSnippets.LegacyTables.RepairRun
import YdbSnippets.LegacyTables.RepairSafety
import YdbSnippets.LegacyTables.RepairFailure
import YdbSnippets.LegacyTables.Classifiers
import YdbSnippets.LockRecord.Record
import YdbSnippets.LockRecord.MutualExclusion
import YdbSnippets.Dns.Names
import YdbSnippets.Dns.Inventory
import YdbSnippets.Dns.Plan
import YdbSnippets.Dns.Reconcile
import YdbSnippets.Dns.Apply
import YdbSnippets.Records.Edits
import YdbSnippets.Backup.Scanner
import YdbSnippets.Backup.Slices
import YdbSnippets.Backup.Blocks
import YdbSnippets.Backup.Layout
import YdbSnippets.Backup.Escapes
import YdbSnippets.Backup.Walking
import YdbSnippets.Backup.Segments
import YdbSnippets.Backup.Braces
import YdbSnippets.Backup.Keys
import YdbSnippets.Backup.Lines
import YdbSnippets.Backup.Finder
import YdbSnippets.Backup.Pruning
import YdbSnippets.Backup.Store
import YdbSnippets.Backup.Checksums
import YdbSnippets.Backup.Phases
import YdbSnippets.Backup.Convergence
import YdbSnippets.Tablets.Paths
import YdbSnippets.Tablets.Retries
import YdbSnippets.Commits.Report
import YdbSnippets.Commits.FileLists
import YdbSnippets.Dns.Spellings
import YdbSnippets.Lists.Matching
import YdbSnippets.Lists.Replaced
import YdbSnippets.Schemas.Fingerprint
import YdbSnippets.Schemas.Structure
import YdbSnippets.Backup.DryRun
import YdbSnippets.Backup.Rejection
import YdbSnippets.Dns.Slots
import YdbSnippets.Dns.Stability
import YdbSnippets.Dns.Assignment
import YdbSnippets.Backup.Schemes
import YdbSnippets.Backup.SchemeWalking
import YdbSnippets.Backup.SchemeKeys
import YdbSnippets.Backup.SchemeBlocks
import YdbSnippets.Backup.SchemeSegments
import YdbSnippets.Backup.SchemeFinder
import YdbSnippets.Backup.SchemePruning
import YdbSnippets.Backup.Comments
import YdbSnippets.Python.Dict
import YdbSnippets.Python.Words
import YdbSnippets.Python.Numbers
import YdbSnippets.Python.Patterns
import YdbSnippets.Text.Numerals
import YdbSnippets.Text.Search
import YdbSnippets.Lists.Sorting
import YdbSnippets.Lists.Worklist
import YdbSnippets.Pools.Workers
import YdbSnippets.Tablets.Objects
import YdbSnippets.VDisks.Ids
import YdbSnippets.VDisks.Groups
import YdbSnippets.VDisks.Waiting
import YdbSnippets.Commits.SkipFiles
import YdbSnippets.Commits.LogParser
import YdbSnippets.Viewer.HtmlTables
import YdbSnippets.Viewer.Pages
import YdbSnippets.Tablets.Inflight
import YdbSnippets.Viewer.SchemeOperations
import YdbSnippets.LegacyTables.TablesFile
import YdbSnippets.LegacyTables.Find
import YdbSnippets.LegacyTables.Messages
import YdbSnippets.LegacyTables.Client
import YdbSnippets.Lists.Firsts
import YdbSnippets.Python.Values
import YdbSnippets.Tablets.Describes
import YdbSnippets.Tablets.Discovery
import YdbSnippets.Tablets.Walks
import YdbSnippets.Tablets.Selection
import YdbSnippets.Tablets.PlainPaths
import YdbSnippets.Numbers.Positional
import YdbSnippets.UuidSharded.Layout
import YdbSnippets.SplitString.SplitPoints
import YdbSnippets.Python.Bytes
import YdbSnippets.Lists.Paging
import YdbSnippets.Stroppy.Borders
import YdbSnippets.UuidSharded.Uuids
import YdbSnippets.UuidSharded.Sampler
import YdbSnippets.Lists.Ranges
import YdbSnippets.Python.Hex
import YdbSnippets.UuidSharded.Partitions
import YdbSnippets.Commits.Refs
import YdbSnippets.Restore.Listings
import YdbSnippets.Restore.Destinations
import YdbSnippets.Cdc.TopicSizes
import YdbSnippets.Backup.Spans
import YdbSnippets.Backup.ScanErrors
import YdbSnippets.Backup.InnerScan
import YdbSnippets.Tablets.Narrowing
import YdbSnippets.Tablets.NarrowedTables
import YdbSnippets.Tablets.NarrowedSelection
import YdbSnippets.Effects.Threads
import YdbSnippets.VDisks.Processing
import YdbSnippets.VDisks.Overlaps
import YdbSnippets.VDisks.Sequences
import YdbSnippets.Effects.Pages
import YdbSnippets.Dns.Run
import YdbSnippets.Dns.Runs
import YdbSnippets.Lists.Keyed
import YdbSnippets.Tablets.Actions
import YdbSnippets.Tablets.Acting
import YdbSnippets.Commits.Issues
import YdbSnippets.Commits.Missing
import YdbSnippets.Commits.Validation
import YdbSnippets.Backup.Concurrency
import YdbSnippets.UuidSharded.Chrono
import YdbSnippets.Tokens.TokenFile
import YdbSnippets.Tokens.Refreshes
