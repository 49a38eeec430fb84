import CkServer.Verification.Lfu.Lists
import CkServer.Library.LinkedList
import CkServer.Model.LfuCache
import CkServer.Library.Search
import CkServer.Library.Lines
import CkServer.Library.Text
import CkServer.Library.Machine
import CkServer.Library.Resumable
import CkServer.Model.Buffer
import CkServer.Model.Channel
import CkServer.Model.EPollPoller
import CkServer.Model.EventLoop
import CkServer.Model.TcpConnection
import CkServer.Model.ConnectionSystem
import CkServer.Model.HttpRequest
import CkServer.Model.HttpContext
import CkServer.Model.HttpResponse
import CkServer.Model.HttpServer
import CkServer.Verification.Buffer.Readable
import CkServer.Verification.Tcp.Interest
import CkServer.Verification.Tcp.Output
import CkServer.Verification.Tcp.OneLoop
import CkServer.Verification.Tcp.System
import CkServer.Verification.Tcp.Disconnected
import CkServer.Verification.Tcp.UpDown
import CkServer.Verification.Tcp.CrossThread
import CkServer.Verification.Tcp.Shutdown
import CkServer.Verification.Http.Response
import CkServer.Verification.Http.Parser
import CkServer.Verification.Http.Incremental
import CkServer.Verification.Http.RequestLine
import CkServer.Verification.Http.Grammar
import CkServer.Verification.Http.Pipelining
import CkServer.Verification.Http.Body
import CkServer.Verification.Lfu.Aging
import CkServer.Library.Binary64
import CkServer.Model.HashLfuCache
import CkServer.Verification.Lfu.Losses
import CkServer.Verification.Lfu.Capacity
import CkServer.Verification.Lfu.Sentinel
import CkServer.Library.Memory
import CkServer.Model.EventLoopThread
import CkServer.Model.MemoryPool
import CkServer.Verification.Loop.Queue
import CkServer.Verification.Loop.Quit
import CkServer.Verification.Loop.Request
import CkServer.Verification.Pool.Owners
import CkServer.Verification.Pool.Slots
import CkServer.Model.InetAddress
import CkServer.Model.TcpServer
import CkServer.Verification.Server.Lifecycle
import CkServer.Library.Custody
import CkServer.Library.EntryOrder
import CkServer.Library.Fifo
import CkServer.Model.AsyncLogging
import CkServer.Model.BufferUser
import CkServer.Model.HttpConnection
import CkServer.Model.PolledChannels
import CkServer.Model.PoolSystem
import CkServer.Verification.Buffer.Queue
import CkServer.Verification.Http.Connection
import CkServer.Verification.Http.RoundTrip
import CkServer.Verification.Lfu.Eviction
import CkServer.Verification.Log.Drain
import CkServer.Verification.Poller.Bookkeeping
import CkServer.Verification.Poller.Unwatched
import CkServer.Verification.Pool.Threads
import CkServer.Library.Region
import CkServer.Model.Format
import CkServer.Model.Integers
import CkServer.Model.LogStream
import CkServer.Model.Logger
import CkServer.Model.FileUtil
import CkServer.Model.LogFile
import CkServer.Verification.Lfu.Order
import CkServer.Verification.Http.Termination
import CkServer.Verification.Log.Integers
import CkServer.Verification.Log.Pieces
import CkServer.Verification.Log.Records
import CkServer.Verification.Log.Timestamp
import CkServer.Verification.Log.Rolling
import CkServer.Verification.Log.Days
import CkServer.Verification.Log.ShortWrites
import CkServer.Verification.Log.Spares
import CkServer.Verification.Pool.Alignment
import CkServer.Library.Padding
import CkServer.Model.Webbench
import CkServer.Model.LogPipeline
import CkServer.Verification.Http.Dialogue
import CkServer.Verification.Http.Webbench
import CkServer.Verification.Log.Pipeline
import CkServer.Verification.Server.Sharing
import CkServer.Verification.Buffer.Memory
import CkServer.Verification.Tcp.Backpressure
import CkServer.Verification.Lfu.Ranking
import CkServer.Verification.Lfu.Refinement
import CkServer.Model.ThreadPool
import CkServer.Verification.Loop.Start
import CkServer.Verification.Tcp.Ending
import CkServer.Model.EchoServer
import CkServer.Verification.Tcp.Echo
import CkServer.Library.Slab
import CkServer.Verification.Pool.Slabs
import CkServer.Verification.Pool.Destruction
import CkServer.Model.PollLoop
import CkServer.Verification.Poller.Turns
