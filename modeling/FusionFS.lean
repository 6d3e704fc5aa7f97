import FusionFS.Borrow
import FusionFS.CString
import FusionFS.CacheModes
import FusionFS.Calls
import FusionFS.Cleanup
import FusionFS.ClientStatus
import FusionFS.Clock
import FusionFS.ClockRefinement
import FusionFS.ClockRing
import FusionFS.ClockRun
import FusionFS.ClockTrace
import FusionFS.Cluster
import FusionFS.Concurrent
import FusionFS.Copying
import FusionFS.Disk
import FusionFS.DiskSlots
import FusionFS.Effects
import FusionFS.ElementCount
import FusionFS.EvictionLoops
import FusionFS.Failures
import FusionFS.Framing
import FusionFS.Lib.AccessLog
import FusionFS.Lib.CBuffer
import FusionFS.Lib.CellRing
import FusionFS.Lib.Chain
import FusionFS.Lib.Delimited
import FusionFS.Lib.Follow
import FusionFS.Lib.HandTrace
import FusionFS.Lib.InputStream
import FusionFS.Lib.Interleave
import FusionFS.Lib.IntervalSet
import FusionFS.Lib.IntervalSlots
import FusionFS.Lib.MapProgram
import FusionFS.Lib.NextRing
import FusionFS.Lib.Protobuf
import FusionFS.Lib.RawInt
import FusionFS.Lib.Recency
import FusionFS.Lib.RecordLog
import FusionFS.Lib.Ring
import FusionFS.Lib.Rounding
import FusionFS.Lib.Run
import FusionFS.Lib.SecondChance
import FusionFS.Lib.SerialNumber
import FusionFS.Lib.Shell
import FusionFS.Lib.SlotChain
import FusionFS.LinkedQueue
import FusionFS.LinkedQueueSpec
import FusionFS.Listing
import FusionFS.LogAgreement
import FusionFS.Membership
import FusionFS.MetadataService
import FusionFS.MetadataStack
import FusionFS.Mount
import FusionFS.Namespace
import FusionFS.NamespaceRequests
import FusionFS.NoVoHT
import FusionFS.NoVoHTRefinement
import FusionFS.Orphans
import FusionFS.Ownership
import FusionFS.PackageBytes
import FusionFS.PathLengths
import FusionFS.Persist
import FusionFS.QueueFiles
import FusionFS.QueueOrder
import FusionFS.RemoteRemoval
import FusionFS.RemoveStatus
import FusionFS.Removed
import FusionFS.Rename
import FusionFS.Replication
import FusionFS.Requests
import FusionFS.RoundTrip
import FusionFS.Routing
import FusionFS.ShellCommands
import FusionFS.SsdUsage
import FusionFS.StoredValues
import FusionFS.TierFlag
import FusionFS.TierPaths
import FusionFS.Tiering
import FusionFS.Transfer
import FusionFS.Udt.Connection
import FusionFS.Udt.LossCoalescing
import FusionFS.Udt.LossInsertion
import FusionFS.Udt.LossRemoval
import FusionFS.Udt.LossRuns
import FusionFS.Udt.RcvBuffer
import FusionFS.Udt.RcvLossList
import FusionFS.Udt.Receiver
import FusionFS.Udt.Reception
import FusionFS.Udt.Sender
import FusionFS.Udt.SeqNo
import FusionFS.Udt.SndBuffer
import FusionFS.Udt.SndLossList
import FusionFS.Udt.SndLossRemoval
import FusionFS.Udt.SndLossRuns
import FusionFS.Udt.Transmission
import FusionFS.Wire
import FusionFS.Zht
