import Furrow.Lib.OrdMap
import Furrow.Lib.Pairing
import Furrow.Lib.Classes
import Furrow.Lib.SepOrder
import Furrow.Lib.Stems
import Furrow.Lib.Cursor
import Furrow.Lib.LittleEndian
import Furrow.Lib.Fallible
import Furrow.Lib.Marking
import Furrow.Lib.Paging
import Furrow.Lib.Run
import Furrow.Lib.Arrival
import Furrow.Lib.Tour
import Furrow.Model
import Furrow.Objects
import Furrow.ContentClass
import Furrow.Chunker.Stream
import Furrow.Chunker.Window
import Furrow.Tree.Read
import Furrow.Tree.Dir
import Furrow.Tree.Build
import Furrow.Tree.Levels
import Furrow.Merge.Plan
import Furrow.Merge.Trees
import Furrow.Merge.Apply
import Furrow.Merge.Base
import Furrow.Pack.Record
import Furrow.Pack.Catalog
import Furrow.Pack.Recover
import Furrow.Pack.Exact
import Furrow.Pack.Store
import Furrow.Retention.Aging
import Furrow.Retention.Plan
import Furrow.Retention.Answers
import Furrow.Capture.StatCache
import Furrow.Capture.Retained
import Furrow.Policy
import Furrow.Capture.SortedDirectory
import Furrow.Ignore.Tracked
import Furrow.Ignore.Rules
import Furrow.Capture.Racy
import Furrow.Gc.Traverse
import Furrow.Capture.Tracking
import Furrow.Gc.Collect
import Furrow.Gc.Run
import Furrow.Gc.Exact
import Furrow.Claims.Glob
import Furrow.Claims.Spec
import Furrow.Claims.Memo
import Furrow.Daemon.Router
import Furrow.Daemon.Durability
import Furrow.Daemon.Requests
import Furrow.Claims.Registry
import Furrow.Radar.Scopes
import Furrow.Radar.Conflicts
import Furrow.Radar.Events
import Furrow.Radar.Changes
import Furrow.Radar.Visits
import Furrow.Radar.Incremental
import Furrow.Refs.Frame
import Furrow.Refs.Index
import Furrow.Refs.Append
import Furrow.Refs.Answers
import Furrow.Refs.Repair
import Furrow.Exchange.Survey
import Furrow.Exchange.Import
import Furrow.Exchange.Packing
import Furrow.Exchange.Frame
import Furrow.Exchange.Export
import Furrow.Exchange.Ledger
import Furrow.Exchange.Bundle
import Furrow.Remote.Keys
import Furrow.Remote.Frame
import Furrow.Remote.Values
import Furrow.Remote.Sealer
import Furrow.Sync.Push
import Furrow.Sync.Batches
import Furrow.Sync.Lockstep
import Furrow.Sync.Pull
import Furrow.Sync.Stream
import Furrow.Coord.Files
import Furrow.Coord.Converge
import Furrow.Restore.Calls
import Furrow.Restore.Disk
import Furrow.Restore.Apply
import Furrow.Restore.Relink
import Furrow.Archive.Remainder
import Furrow.Shrink
import Furrow.Restore.Links
import Furrow.Restore.Folding
import Furrow.Restore.Diff
import Furrow.Restore.Steps
import Furrow.Restore.Crash
import Furrow.Restore.Agreement
import Furrow.Archive.RoundTrip
import Furrow.Archive.Confined
import Furrow.Archive.Publish
import Furrow.Daemon.GroupCommit
