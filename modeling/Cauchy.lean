import Cauchy.Core.Types
import Cauchy.Core.Wire
import Cauchy.Core.VClock
import Cauchy.Core.Context
import Cauchy.Core.ClockCondition
import Cauchy.Core.Pool
import Cauchy.Core.PoolSafety
import Cauchy.Core.PoolStats
import Cauchy.Core.Memory
import Cauchy.Core.PeakUse
import Cauchy.Core.Hazard
import Cauchy.Core.HazardRecords
import Cauchy.Core.HazardThreads
import Cauchy.Core.HazardSafety
import Cauchy.Core.HazardSolo
import Cauchy.Crdt.Buckets
import Cauchy.Crdt.GSet
import Cauchy.Crdt.TwoPSet
import Cauchy.Crdt.SetReplicas
import Cauchy.Crdt.ORSet
import Cauchy.Crdt.ORSetReplicas
import Cauchy.Crdt.ORSetContents
import Cauchy.Crdt.ORSetIter
import Cauchy.Crdt.GCounter
import Cauchy.Crdt.GCounterReplicas
import Cauchy.Crdt.PNCounter
import Cauchy.Crdt.PNCounterReplicas
import Cauchy.Crdt.LWWRegister
import Cauchy.Crdt.LWWReplicas
import Cauchy.Crdt.Codecs
