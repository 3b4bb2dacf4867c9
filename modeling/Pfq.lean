import Pfq.Skbuff
import Pfq.Netdev
import Pfq.Lazy
import Pfq.LazyCommit
import Pfq.TxRing
import Pfq.Swap
import Pfq.Lang
import Pfq.SkbPool
import Pfq.Drain
import Pfq.DrainAccounting
import Pfq.DrainTiming
import Pfq.DrainGiveUp
import Pfq.DrainBatch
import Pfq.DrainReads
import Pfq.DrainEffects
import Pfq.LazyEffects
