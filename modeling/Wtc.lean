import Wtc.Spmc.Properties
import Wtc.Spsc.Properties
import Wtc.Bounded.Properties
import Wtc.Bounded.Handover
import Wtc.Waiter.Properties
import Wtc.CQueue.Properties
import Wtc.CQueue.Destroy
import Wtc.Segment.Many.Properties
import Wtc.Segment.One.Properties
import Wtc.Waiting.Properties
import Wtc.Shim.Properties
import Wtc.BatchPushes.Properties
import Wtc.StreamGate.Properties
import Wtc.Counted.Properties
import Wtc.Borrow.Returns
import Wtc.Escape.Properties
import Wtc.Verdict.Properties
import Wtc.Threads.Properties
import Wtc.Specialise.Properties
import Wtc.BlockingQuery.Properties
import Wtc.LocalRing.Properties
import Wtc.OnlyReturned.Properties
import Wtc.PreSpawn.Properties
import Wtc.Work.Properties
