import CkServer.Library.Machine
import CkServer.Model.Format
import CkServer.Model.InetAddress
import CkServer.Model.Integers
import CkServer.Model.TcpConnection
import Mathlib.Algebra.Group.Int.Defs
import Mathlib.Algebra.Group.Nat.Defs

/-! # A server and its connections

The server's loop, which has the number 0, accepts connections and hands each to a loop of the
pool, which are numbered from 1; without a pool they stay in the server's loop. Every loop has
its own thread. Connections are numbered in the order in which they are accepted, and the
address of a channel is the number of its connection. -/

namespace CkServer

open Text

/-- What is fixed when the server starts. -/
structure ServerConfig where
  name_ : List UInt8
  listenAddr : InetAddress
  numThreads : ℕ
  callbacks : Callbacks

/-- A functor of a connection, or of the server. Both hold a reference to the connection. -/
inductive ServerFunctor where
  | connection (k : ℕ) (f : Functor)
  | removeConnectionInLoop (k : ℕ)
  deriving DecidableEq

/-- What a loop's thread has still to do: the callbacks of the active channels, the functors
taken out of the queue, and the rest of the function it is in. -/
inductive ServerTask where
  /-- `Acceptor::handleRead`. -/
  | acceptorRead
  /-- A callback of a connection's channel. -/
  | handle (k : ℕ) (cb : EventCallback)
  /-- The call of `closeCallback_` at the end of `handleClose`. -/
  | closeCallback (k : ℕ)
  | functor (f : ServerFunctor)
  deriving DecidableEq

/-- The stages of a connection: its functors, its event handlers, the end of `handleClose` and
the removal of its entry. -/
inductive Stage where
  | connectEstablished
  | handler (cb : EventCallback)
  | handleClose
  | removeConnectionInLoop
  | connectDestroyed
  deriving DecidableEq

/-- A connection object. `loop_` is the number of its loop, and `alive` tells that it is not yet
destroyed. -/
structure ServerConnection where
  conn : TcpConnection := .new 0 0 {}
  name_ : List UInt8 := []
  loop_ : ℕ := 0
  alive : Bool := false

/-- The state. `next_` belongs to the pool, `accepted` is the number of connections so far, and
`trace` is history. -/
structure TcpServer where
  nextConnId_ : ℤ := 1
  next_ : ℕ := 0
  connections_ : List (List UInt8 × ℕ) := []
  loops : ℕ → EventLoop ServerFunctor := fun _ => {}
  todo : ℕ → List ServerTask := fun _ => []
  conns : ℕ → ServerConnection := fun _ => {}
  accepted : ℕ := 0
  trace : List (ℕ × Stage) := []

/-- An active channel in what `poll` returns: that of the acceptor, or that of a connection. -/
inductive ActiveChannel where
  | acceptChannel_
  | connection (k : ℕ) (revents : Events)

/-- What a step gets from outside: the descriptor that `accept` returns, the results of `write`
and `readv`, and the bytes that `sendInLoop` is given. -/
structure ServerInput where
  accepted : Option ℕ := none
  written : Except Errno ℕ := .ok 0
  received : Except Errno (List UInt8) := .ok []
  data : List UInt8 := []

inductive ServerAction where
  /-- `poll` returns in the loop `l`. -/
  | poll (l : ℕ) (active : List ActiveChannel)
  | doPendingFunctors (l : ℕ)
  /-- The thread of the loop `l` does the first of its tasks. -/
  | execute (l : ℕ) (o : ServerInput)
  /-- The user's code calls `send` in the connection's loop. -/
  | send (k : ℕ) (data : List UInt8) (written : Except Errno ℕ)
  /-- The user's code calls `shutdown` in the connection's loop. -/
  | shutdown (k : ℕ)
  /-- The last reference to a connection is given up. -/
  | destroy (k : ℕ)

/-! ## Names -/

def ServerConfig.connName (cfg : ServerConfig) (nextConnId_ : ℤ) : List UInt8 :=
  cfg.name_ ++
    snprintf 64 (ascii "-" ++ cfg.listenAddr.toIpPort ++ ascii "#" ++ printInt nextConnId_)

namespace TcpServer

/-! ## Steps of the server -/

def mark (s : TcpServer) (k : ℕ) (stage : Stage) : TcpServer :=
  { s with trace := s.trace ++ [(k, stage)] }

def setTodo (s : TcpServer) (l : ℕ) (tasks : List ServerTask) : TcpServer :=
  { s with todo := Function.update s.todo l tasks }

def queueInLoop (s : TcpServer) (l : ℕ) (cb : ServerFunctor) : TcpServer :=
  { s with loops := Function.update s.loops l ((s.loops l).queueInLoop cb) }

/-- A member function of a connection is run in the connection's loop. -/
def onConnection (s : TcpServer) (k : ℕ) (op : TcpConnection → TcpConnection) : TcpServer :=
  let obj := s.conns k
  let loop := s.loops obj.loop_
  let c := op { obj.conn with loop_ := { poller_ := loop.poller_ } }
  { s with
    conns := Function.update s.conns k { obj with conn := c }
    loops := Function.update s.loops obj.loop_
      { poller_ := c.loop_.poller_
        pendingFuntors_ := loop.pendingFuntors_ ++ c.loop_.pendingFuntors_.map (.connection k) } }

/-- `EventLoopThreadPool::getNextLoop`, and the next value of `next_`. -/
def getNextLoop (s : TcpServer) (cfg : ServerConfig) : ℕ × ℕ :=
  if cfg.numThreads = 0 then (0, s.next_)
  else (s.next_ + 1, if s.next_ + 1 ≥ cfg.numThreads then 0 else s.next_ + 1)

/-- `connections_.erase`. -/
def erase (s : TcpServer) (name : List UInt8) : TcpServer :=
  { s with connections_ := s.connections_.filter (fun e => e.1 ≠ name) }

/-- `newConnection` up to the call of `runInLoop`. -/
def addConnection (s : TcpServer) (cfg : ServerConfig) (sockfd : ℕ) : TcpServer :=
  let (ioLoop, next) := s.getNextLoop cfg
  let connName := cfg.connName s.nextConnId_
  { s with
    nextConnId_ := increment s.nextConnId_
    next_ := next
    connections_ := (connName, s.accepted) :: (s.erase connName).connections_
    conns := Function.update s.conns s.accepted
      { conn := .new s.accepted sockfd cfg.callbacks, name_ := connName, loop_ := ioLoop,
        alive := true }
    accepted := s.accepted + 1 }

/-- `newConnection`, in the server's loop. -/
def newConnection (s : TcpServer) (cfg : ServerConfig) (sockfd : ℕ) : TcpServer :=
  let ioLoop := (s.getNextLoop cfg).1
  let cb := ServerFunctor.connection s.accepted .connectEstablished
  let t := s.addConnection cfg sockfd
  if ioLoop = 0 then t.setTodo 0 (.functor cb :: t.todo 0) else t.queueInLoop ioLoop cb

def removeConnectionInLoop (s : TcpServer) (k : ℕ) : TcpServer :=
  ((s.erase (s.conns k).name_).mark k .removeConnectionInLoop).queueInLoop (s.conns k).loop_
    (.connection k .connectDestroyed)

/-- `removeConnection` in the thread of the loop `l`. -/
def removeConnection (s : TcpServer) (l k : ℕ) : TcpServer :=
  if l = 0 then s.removeConnectionInLoop k else s.queueInLoop 0 (.removeConnectionInLoop k)

/-! ## Steps of the loops -/

/-- The callbacks of an active channel. -/
def callbacks (s : TcpServer) : ActiveChannel → List ServerTask
  | .acceptChannel_ => [.acceptorRead]
  | .connection k revents =>
      ((s.conns k).conn.channel_.set_revents revents).handleEventWithGuard.map (.handle k)

def runFunctor (s : TcpServer) (k : ℕ) (o : ServerInput) : Functor → TcpServer
  | .connectEstablished =>
      (s.onConnection k .connectEstablished).mark k .connectEstablished
  | .connectDestroyed => (s.onConnection k .connectDestroyed).mark k .connectDestroyed
  | .sendInLoop _ _ _ => s.onConnection k (fun c => c.sendInLoop o.data o.written)
  | .shutdownInLoop => s.onConnection k .shutdownInLoop
  | .writeCompleteCallback_ => s
  | .highWaterMarkCallback_ _ => s

/-- The first task of the loop `l` is done, and `rest` are the others. -/
def runTask (s : TcpServer) (cfg : ServerConfig) (l : ℕ) (o : ServerInput)
    (rest : List ServerTask) : ServerTask → TcpServer
  | .acceptorRead =>
      match o.accepted with
      | some connfd => (s.setTodo l rest).newConnection cfg connfd
      | none => s.setTodo l rest
  | .handle k .closeCallback_ =>
      ((s.setTodo l (.closeCallback k :: rest)).onConnection k .setDisconnected).mark k
        (.handler .closeCallback_)
  | .handle k .errorCallback_ => (s.setTodo l rest).mark k (.handler .errorCallback_)
  | .handle k .readCallback_ =>
      let closed := ((s.conns k).conn.readInput o.received).2
      ((s.setTodo l (if closed then .handle k .closeCallback_ :: rest else rest)).onConnection k
        (fun c => (c.readInput o.received).1)).mark k (.handler .readCallback_)
  | .handle k .writeCallback_ =>
      ((s.setTodo l rest).onConnection k (fun c => c.handleWrite o.written)).mark k
        (.handler .writeCallback_)
  | .closeCallback k =>
      (((s.setTodo l rest).onConnection k (fun c => c.invoke .closeCallback_)).mark k
        .handleClose).removeConnection l k
  | .functor (.connection k f) => (s.setTodo l rest).runFunctor k o f
  | .functor (.removeConnectionInLoop k) => (s.setTodo l rest).removeConnectionInLoop k

/-- The end of an object closes its socket, and the kernel forgets the descriptor. -/
def destroy (s : TcpServer) (k : ℕ) : TcpServer :=
  let obj := s.conns k
  let loop := s.loops obj.loop_
  { s with
    conns := Function.update s.conns k { obj with alive := false }
    loops := Function.update s.loops obj.loop_
      { loop with
        poller_ := { loop.poller_ with
          epoll := Function.update loop.poller_.epoll obj.conn.channel_.fd_ none } } }

def next (s : TcpServer) (cfg : ServerConfig) : ServerAction → TcpServer
  | .poll l active => s.setTodo l (active.flatMap s.callbacks)
  | .doPendingFunctors l =>
      { s with
        loops := Function.update s.loops l { s.loops l with pendingFuntors_ := [] }
        todo := Function.update s.todo l ((s.loops l).pendingFuntors_.map .functor) }
  | .execute l o =>
      match s.todo l with
      | task :: rest => s.runTask cfg l o rest task
      | [] => s
  | .send k data written => s.onConnection k (fun c => c.send data written)
  | .shutdown k => s.onConnection k .shutdown
  | .destroy k => s.destroy k

end TcpServer

/-! ## When a step may happen -/

/-- The connection that a functor holds a reference to. -/
def ServerFunctor.conn : ServerFunctor → ℕ
  | .connection k _ => k
  | .removeConnectionInLoop k => k

def ServerTask.holds (k : ℕ) : ServerTask → Bool
  | .functor f => f.conn = k
  | _ => false

namespace TcpServer

/-- The kernel reports a descriptor that is in its set, with the channel that put it there. -/
def CanReport (s : TcpServer) (l : ℕ) : ActiveChannel → Prop
  | .acceptChannel_ => l = 0
  | .connection k _ =>
      k < s.accepted ∧ (s.conns k).alive = true ∧ (s.conns k).loop_ = l ∧
        (s.loops l).poller_.epoll (s.conns k).conn.channel_.fd_ ≠ none

instance (s : TcpServer) (l : ℕ) : ∀ a, Decidable (s.CanReport l a)
  | .acceptChannel_ => inferInstanceAs (Decidable (l = 0))
  | .connection k _ =>
      inferInstanceAs (Decidable (k < s.accepted ∧ (s.conns k).alive = true ∧
        (s.conns k).loop_ = l ∧ _ ≠ none))

/-- `accept` returns a descriptor that no open socket has. -/
def CanAccept (s : TcpServer) : Option ℕ → Prop
  | some fd => ∀ k < s.accepted, (s.conns k).alive = true → (s.conns k).conn.channel_.fd_ ≠ fd
  | none => True

instance (s : TcpServer) : ∀ fd, Decidable (s.CanAccept fd)
  | some fd =>
      inferInstanceAs (Decidable (∀ k < s.accepted, (s.conns k).alive = true →
        (s.conns k).conn.channel_.fd_ ≠ fd))
  | none => .isTrue trivial

/-- The user's code has got the connection, and keeps it. -/
def CanUse (s : TcpServer) (k : ℕ) : Prop :=
  k < s.accepted ∧ (s.conns k).alive = true ∧ (s.conns k).conn.upcalls ≠ []

/-- Neither the server nor a functor refers to the connection. -/
def Unreferenced (s : TcpServer) (cfg : ServerConfig) (k : ℕ) : Prop :=
  (∀ e ∈ s.connections_, e.2 ≠ k) ∧
    ∀ l ≤ cfg.numThreads, (∀ t ∈ s.todo l, t.holds k = false) ∧
      ∀ f ∈ (s.loops l).pendingFuntors_, f.conn ≠ k

def Enabled (s : TcpServer) (cfg : ServerConfig) : ServerAction → Prop
  | .poll l active => l ≤ cfg.numThreads ∧ s.todo l = [] ∧ ∀ a ∈ active, s.CanReport l a
  | .doPendingFunctors l => l ≤ cfg.numThreads ∧ s.todo l = []
  | .execute l o => s.todo l ≠ [] ∧ s.CanAccept o.accepted
  | .send k _ _ => s.CanUse k
  | .shutdown k => s.CanUse k
  | .destroy k => k < s.accepted ∧ (s.conns k).alive = true ∧ s.Unreferenced cfg k

instance (s : TcpServer) (k : ℕ) : Decidable (s.CanUse k) :=
  inferInstanceAs (Decidable (k < s.accepted ∧ (s.conns k).alive = true ∧ _ ≠ []))

instance (cfg : ServerConfig) (s : TcpServer) (k : ℕ) : Decidable (s.Unreferenced cfg k) :=
  inferInstanceAs (Decidable ((∀ e ∈ s.connections_, e.2 ≠ k) ∧
    ∀ l ≤ cfg.numThreads, (∀ t ∈ s.todo l, t.holds k = false) ∧
      ∀ f ∈ (s.loops l).pendingFuntors_, f.conn ≠ k))

instance (cfg : ServerConfig) (s : TcpServer) : ∀ a, Decidable (s.Enabled cfg a)
  | .poll l active =>
      inferInstanceAs (Decidable
        (l ≤ cfg.numThreads ∧ s.todo l = [] ∧ ∀ a ∈ active, s.CanReport l a))
  | .doPendingFunctors l => inferInstanceAs (Decidable (l ≤ cfg.numThreads ∧ s.todo l = []))
  | .execute l o => inferInstanceAs (Decidable (s.todo l ≠ [] ∧ s.CanAccept o.accepted))
  | .send k _ _ => inferInstanceAs (Decidable (s.CanUse k))
  | .shutdown k => inferInstanceAs (Decidable (s.CanUse k))
  | .destroy k =>
      inferInstanceAs (Decidable
        (k < s.accepted ∧ (s.conns k).alive = true ∧ s.Unreferenced cfg k))

end TcpServer

/-- The machine of a server's loops. -/
def tcpServer (cfg : ServerConfig) : Machine TcpServer ServerAction where
  enabled s := s.Enabled cfg
  next s := s.next cfg

instance (cfg : ServerConfig) (s : TcpServer) (a : ServerAction) :
    Decidable ((tcpServer cfg).enabled s a) :=
  inferInstanceAs (Decidable (s.Enabled cfg a))

end CkServer
