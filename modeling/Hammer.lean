import Hammer.TimerWheelExactness
import Hammer.SackReceiver
import Hammer.BihashOwnershipRuns
import Hammer.Scoreboard
import Hammer.ShiftInvariance
import Hammer.MsgQueueLayout
import Hammer.MsgQueueDrained
import Hammer.TcpDemux
import Hammer.TcpHeaderRoundTrip
import Hammer.TcpStateMachine
import Hammer.TcpTimestamps
import Hammer.TcpCookies
import Hammer.TcpLocalTimestamps
import Hammer.TcpDelivery
import Hammer.TcpAcks
import Hammer.BufferConservation
import Hammer.InterfaceRuns
import Hammer.HandoffRuns
import Hammer.WorkerBarrierRuns
import Hammer.BinaryApiRoundTrip
import Hammer.LossMarking
import Hammer.StatsVector
import Hammer.LoadBalance
import Hammer.FifoQueue
import Hammer.BufferChain
import Hammer.OooSegments
