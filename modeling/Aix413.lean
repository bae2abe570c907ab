import Aix413.Bucket.Calls
import Aix413.Callout.OneCall
import Aix413.Cartesian.ValidTrees
import Aix413.Clock.IntervalTimer
import Aix413.Dispatch.MostFavoured
import Aix413.Dmap.MapGrowth
import Aix413.Events.NeverLost
import Aix413.Genalloc.Objects
import Aix413.Hsearch.BoundedMap
import Aix413.Indirect.MapKept
import Aix413.Ipc.Identifiers
import Aix413.Lib.MaxTree
import Aix413.Lib.Ring
import Aix413.Lockctl.Deadlock
import Aix413.Lockctl.NoLostWakeup
import Aix413.Lockctl.RecordLocks
import Aix413.Lockctl.TableFull
import Aix413.Lockword.MoreLocks
import Aix413.Lockword.Ownership
import Aix413.Log.GroupLeader
import Aix413.Log.RoundTrip
import Aix413.Logredo.CommitTable
import Aix413.Logredo.MapRebuild
import Aix413.Logredo.ReplayCache
import Aix413.Lvm.Cleaners
import Aix413.Lvm.LastCopy
import Aix413.Lvm.MirrorReads
import Aix413.Lvm.PvWait
import Aix413.Lvm.Relocation
import Aix413.Lvm.Resync
import Aix413.Lvm.Serialization
import Aix413.Lvm.StripeTransfer
import Aix413.Lvm.WheelCont
import Aix413.Message.Wakeups
import Aix413.PageIo.Coalescing
import Aix413.Pse.MessageBytes
import Aix413.Pse.OsrRun
import Aix413.Qsort.Sorted
import Aix413.Quota.Charging
import Aix413.Quota.Conservation
import Aix413.Rename.Deadlocks
import Aix413.Rename.TreeKept
import Aix413.Select.Entries
import Aix413.Semop.AllOrNothing
import Aix413.Semop.Wakeups
import Aix413.Tsearch.FiniteSet
