import Kdns.Lib.FramedLog
import Kdns.Lib.Overwrite
import Kdns.Lib.BufferedFile
import Kdns.Lib.Prefixes
import Kdns.Lib.SortedEdges
import Kdns.WalReject
import Kdns.Radix.Wildcards
import Kdns.Store.Crash
import Kdns.Store.Rounds
import Kdns.Store.Failure
import Kdns.Store.Partition
import Kdns.Cluster.Protocol
import Kdns.Cluster.Resync
import Kdns.Lib.Guarded
import Kdns.Cluster.HotReload
import Kdns.Cluster.Restart
import Kdns.Cluster.Wakeup
import Kdns.Daemon
import Kdns.Radix.Existence
import Kdns.State.Interleaving
import Kdns.Server.Authentic
import Kdns.Server.Reflection
import Kdns.Wire.Truncation
import Kdns.Server.Sizes
import Kdns.Server.Connection
import Kdns.Wire.Intended
import Kdns.Wire.Served
import Kdns.Store.Serial
import Kdns.Update.Sets
import Kdns.Update.Prerequisites
import Kdns.Update.Zones
import Kdns.Update.Atomic
import Kdns.Update.Order
import Kdns.Update.Concurrent
import Kdns.Dnssec.Denial
import Kdns.Doh.Parity
import Kdns.Radix.Reload
import Kdns.Api.Listing
import Kdns.SnapshotLimits
import Kdns.Wire.NameLimits
import Kdns.Server.Negative
import Kdns.Server.Bounds
import Kdns.Store.Closing
import Kdns.Zone.Lines
import Kdns.Rrl.Schedule
import Kdns.Wire.Slip
import Kdns.Server.Replies
import Kdns.Update.Singletons
import Kdns.Lib.GoFormat
import Kdns.Wire.Encoders
import Kdns.Wire.Presentation
import Kdns.Wire.Detached
import Kdns.Update.Pointers
import Kdns.Store.Increment
import Kdns.Dnssec.Bitmaps
import Kdns.Server.RoundTrip
import Kdns.Wire.WriteBack
import Kdns.Wire.Stable
import Kdns.Radix.Segments
import Kdns.Wire.Validated
import Kdns.Cache.Recency
import Kdns.Zone.Relative
import Kdns.Dnssec.Verified
import Kdns.Zone.Layout
