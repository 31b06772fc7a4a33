import SimpleWebServer.Base.BufferQueue
import SimpleWebServer.Co.CoSleep
import SimpleWebServer.Co.SchedulerThread
import SimpleWebServer.Co.SharedScheduler
import SimpleWebServer.Co.WakeUps
import SimpleWebServer.Http.CounterRange
import SimpleWebServer.Http.HeaderLines
import SimpleWebServer.Http.QuerySplit
import SimpleWebServer.Http.RequestSoundness
import SimpleWebServer.Http.ResponseDetail
import SimpleWebServer.Http.Service
import SimpleWebServer.Http.WholeAnswer
import SimpleWebServer.Logging.DailyRoll
import SimpleWebServer.Logging.LogShutdown
import SimpleWebServer.Reactor.CallbackList
import SimpleWebServer.Reactor.LoopMutex
import SimpleWebServer.Reactor.Poller
import SimpleWebServer.Reactor.PoolStop
import SimpleWebServer.Tcp.ByteStream
import SimpleWebServer.Tcp.ConnectionsInOrder
import SimpleWebServer.Tcp.DeferredDestruction
import SimpleWebServer.Tcp.Framing
import SimpleWebServer.Tcp.LoopSpread
import SimpleWebServer.Tcp.Peers
import SimpleWebServer.Tcp.TCPConnector
import SimpleWebServer.Tcp.WriteInterest
import SimpleWebServer.Timers.SlotLookup
