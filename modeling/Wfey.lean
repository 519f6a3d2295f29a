import Wfey.Frame
import Wfey.AltraEnergy
import Wfey.Phase
import Wfey.Doorbell
import Wfey.Schedule
import Wfey.Activation
import Wfey.Initialised
import Wfey.Samples
import Wfey.Wakeup
import Wfey.PromptStop
import Wfey.Catmon
import Wfey.Cores
import Wfey.Barriers
import Wfey.Quiescence
import Wfey.Iowork
import Wfey.Layout
import Wfey.Perf
import Wfey.Memwork
import Wfey.Options
import Wfey.Latency
import Wfey.LogPath
import Wfey.HwmonCache
import Wfey.InactiveTime
import Wfey.Sleep
import Wfey.StopEp
import Wfey.Counters
import Wfey.RealWakeups
import Wfey.WorkCalls
import Wfey.Response
import Wfey.Deaf
import Wfey.Books
import Wfey.LatencyLog
import Wfey.Sharing
import Wfey.Delivery
import Wfey.FullRun
