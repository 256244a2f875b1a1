import Gfs.Lib.Checked
import Gfs.Lib.Mapped
import Gfs.Lib.Nesting
import Gfs.Lib.Overwrites
import Gfs.Lib.Runs
import Gfs.Types.Path
import Gfs.Types.Time
import Gfs.Overlay.Merge
import Gfs.Overlay.Journal
import Gfs.Overlay.Operations
import Gfs.Overlay.Model
import Gfs.Overlay.Commit
import Gfs.Overlay.View
import Gfs.Overlay.Steps
import Gfs.Overlay.Relocation
import Gfs.Overlay.Execution
import Gfs.Overlay.Editing
import Gfs.Overlay.Emptiness
import Gfs.Overlay.Removal
import Gfs.Overlay.Renaming
import Gfs.Overlay.Walk
import Gfs.Overlay.Effects
import Gfs.Overlay.Reference
import Gfs.Overlay.Refinement
import Gfs.Overlay.Requests
import Gfs.Overlay.Serving
import Gfs.Overlay.Status
import Gfs.Overlay.Report
import Gfs.Overlay.Completeness
import Gfs.Overlay.Durable
import Gfs.Overlay.Ledger
import Gfs.Overlay.Balance
import Gfs.Overlay.Rebuilding
import Gfs.Overlay.Agreement
import Gfs.Overlay.Clock
import Gfs.Overlay.Stock
import Gfs.Overlay.Crash
import Gfs.Overlay.Contents
import Gfs.Overlay.Interleaving
import Gfs.Lib.Scripts
import Gfs.Types.Decimal
import Gfs.Overlay.Myers
import Gfs.Overlay.Diff
import Gfs.Overlay.Patch
import Gfs.Mount.Listing
import Gfs.Lib.Tallies
import Gfs.Mount.Cache
import Gfs.Mount.Seeding
import Gfs.Mount.Caching
import Gfs.Types.Text
import Gfs.Types.Error
import Gfs.Types.Revision
import Gfs.Types.Ids
import Gfs.Types.Oid
import Gfs.Types.Base64
import Gfs.Service.Refs
import Gfs.Service.Outbox
import Gfs.Service.Push
import Gfs.Service.Leases
import Gfs.Service.Capability
import Gfs.Service.Mounts
import Gfs.Service.Housekeeping
import Gfs.Service.Anchoring
import Gfs.Service.Visibility
import Gfs.Search.Snapshots
import Gfs.Lib.Grams
import Gfs.Types.Glob
import Gfs.Search.Classify
import Gfs.Search.Trigram
import Gfs.Search.Postings
import Gfs.Search.Query
import Gfs.Search.Reading
import Gfs.Search.Engine
import Gfs.Search.Answer
import Gfs.Search.Completeness
import Gfs.Search.Paging
import Gfs.Search.Building
import Gfs.Search.Chains
import Gfs.Search.Ingestion
import Gfs.Lib.Ordered
import Gfs.Service.Odb
import Gfs.Mount.Odb
import Gfs.Mount.Residency
import Gfs.Mount.Projection
import Gfs.Mount.Projecting
import Gfs.Git.Listing
import Gfs.Git.CacheTree
import Gfs.Git.Descent
import Gfs.Git.Pages
import Gfs.Overlay.Columns
import Gfs.Overlay.Shortest
import Gfs.Service.Advertisement
import Gfs.Lib.Totals
import Gfs.Overlay.Accounts
import Gfs.Overlay.Quota
import Gfs.Overlay.Section
import Gfs.Types.Escaped
import Gfs.Types.GlobGrammar
import Gfs.Service.Branches
import Gfs.Service.Ingest
import Gfs.Search.Coverage
import Gfs.Search.Required
import Gfs.Search.Lookup
import Gfs.Search.Ignore
import Gfs.Service.Dates
import Gfs.Mount.BlobMemory
import Gfs.Mount.Budget
import Gfs.Service.Ranges
import Gfs.Mount.Remotes
import Gfs.Mount.LocalSearch
import Gfs.Mount.Prefetch
import Gfs.Mount.Passes
import Gfs.Git.Filters
