import StorageHarvester.Atlas.Files
import StorageHarvester.Atlas.Overlap
import StorageHarvester.Btrfs.Collect
import StorageHarvester.Btrfs.Freed
import StorageHarvester.Btrfs.Paging
import StorageHarvester.Btrfs.Search
import StorageHarvester.Btrfs.Settle
import StorageHarvester.Btrfs.Sharing
import StorageHarvester.Btrfs.Skeleton
import StorageHarvester.Btrfs.Subvolumes
import StorageHarvester.Btrfs.Totals
import StorageHarvester.Btrfs.Watch
import StorageHarvester.Config.Resolve
import StorageHarvester.Exporter.Accepted
import StorageHarvester.Exporter.Lines
import StorageHarvester.Exporter.Prometheus
import StorageHarvester.Exporter.WellFormed
import StorageHarvester.Fsinfo.Disks
import StorageHarvester.Fsinfo.Locate
import StorageHarvester.Lib.BinarySearch
import StorageHarvester.Lib.Channel
import StorageHarvester.Lib.Forest
import StorageHarvester.Lib.Heap
import StorageHarvester.Lib.LittleEndian
import StorageHarvester.Lib.Memo
import StorageHarvester.Lib.MergeJoin
import StorageHarvester.Lib.Records
import StorageHarvester.Lib.Search
import StorageHarvester.Lib.Sweep
import StorageHarvester.Lib.Table
import StorageHarvester.Lib.Text
import StorageHarvester.Lib.Traversal
import StorageHarvester.Lib.UnixPath
import StorageHarvester.Lib.Utf8
import StorageHarvester.Lib.WorkPool
import StorageHarvester.Lib.WorkPoolBag
import StorageHarvester.Lib.WorkPoolOutput
import StorageHarvester.Lib.WorkPoolSafety
import StorageHarvester.Live.Accounts
import StorageHarvester.Live.Agrees
import StorageHarvester.Live.Cap
import StorageHarvester.Live.CapKept
import StorageHarvester.Live.Counted
import StorageHarvester.Live.Engine
import StorageHarvester.Live.Events
import StorageHarvester.Live.Exact
import StorageHarvester.Live.Explained
import StorageHarvester.Live.Fanotify
import StorageHarvester.Live.Frame
import StorageHarvester.Live.HandOver
import StorageHarvester.Live.Holders
import StorageHarvester.Live.Links
import StorageHarvester.Live.Listing
import StorageHarvester.Live.Merge
import StorageHarvester.Live.Mountinfo
import StorageHarvester.Live.Owners
import StorageHarvester.Live.PastCap
import StorageHarvester.Live.Plain
import StorageHarvester.Live.Pruned
import StorageHarvester.Live.Relist
import StorageHarvester.Live.Resolve
import StorageHarvester.Live.Rewalked
import StorageHarvester.Live.RolledUp
import StorageHarvester.Live.Signals
import StorageHarvester.Live.State
import StorageHarvester.Live.Synotify
import StorageHarvester.Live.Times
import StorageHarvester.Live.Totals
import StorageHarvester.Live.Who
import StorageHarvester.Lvm.Allocations
import StorageHarvester.Lvm.Arena
import StorageHarvester.Lvm.Estimate
import StorageHarvester.Lvm.Mapper
import StorageHarvester.Lvm.Placed
import StorageHarvester.Lvm.Poller
import StorageHarvester.Lvm.Pool
import StorageHarvester.Lvm.Readings
import StorageHarvester.Lvm.Run
import StorageHarvester.Lvm.Sums
import StorageHarvester.Lvm.Times
import StorageHarvester.Lvm.Volumes
import StorageHarvester.Pictures.Cache
import StorageHarvester.Pictures.Queue
import StorageHarvester.Scan.Agrees
import StorageHarvester.Scan.Answer
import StorageHarvester.Scan.Basic
import StorageHarvester.Scan.Cap
import StorageHarvester.Scan.Census
import StorageHarvester.Scan.Counted
import StorageHarvester.Scan.Finish
import StorageHarvester.Scan.Fresh
import StorageHarvester.Scan.Logged
import StorageHarvester.Scan.Lowest
import StorageHarvester.Scan.Newest
import StorageHarvester.Scan.Observed
import StorageHarvester.Scan.Plain
import StorageHarvester.Scan.Pruned
import StorageHarvester.Scan.Reach
import StorageHarvester.Scan.Rebased
import StorageHarvester.Scan.Refused
import StorageHarvester.Scan.Run
import StorageHarvester.Scan.Scheduler
import StorageHarvester.Scan.Times
import StorageHarvester.Scan.Traced
import StorageHarvester.Scan.Tracked
import StorageHarvester.Scan.Visits
import StorageHarvester.Tree.Basic
import StorageHarvester.Tree.Diff
import StorageHarvester.Tree.Edit
import StorageHarvester.Tree.Find
import StorageHarvester.Tree.Fresh
import StorageHarvester.Tree.Owners
import StorageHarvester.Tree.Pruned
import StorageHarvester.Tree.RollUp
import StorageHarvester.Tree.Selection
import StorageHarvester.Tree.Shape
import StorageHarvester.Tree.Tally
import StorageHarvester.Tree.Times
