import CkServer.Library.Machine
import CkServer.Model.TcpConnection
import Mathlib.Data.Fintype.Basic

/-! # A connection among threads

The thread of a connection's loop, `n` other threads that call `send` and `shutdown` on the
connection, the strings they send, and the server that owns the connection. A step is what
a thread does between two looks at what it shares with others: `state_`, the loop's queue and
the strings. The connection object is taken to live as long as someone uses it. -/

namespace CkServer

/-- Where another thread is in `send` or `shutdown`, after the test of `state_`. -/
inductive ThreadPc where
  | idle
  | queueSend (cell : ℕ)
  | storeDisconnecting
  | queueShutdown
  deriving DecidableEq

def ThreadPc.isQueueSend : ThreadPc → Bool
  | .queueSend _ => true
  | _ => false

/-- What the loop's thread has still to do: the callbacks of an event, the functors taken out
of the queue, and the rest of the function it is in. -/
inductive Task where
  | handleClose
  | handleError
  | handleRead
  | handleWrite
  | functor (f : Functor)
  /-- The look at `state_` at the end of `handleWrite`. -/
  | drained
  /-- The call of `closeCallback_` at the end of `handleClose`. -/
  | closeCallback
  /-- `sendInLoop` in a call of `send` in this thread, after the test. -/
  | sendInLoop (data : List UInt8)
  /-- `shutdown` in this thread, after the test. -/
  | storeDisconnecting
  /-- The second part of a functor `sendInLoop`, which has written the bytes `taken`. -/
  | bufferRest (taken : List UInt8) (data len call : ℕ) (faultError : Bool)
  /-- `connectDestroyed` after a positive test. -/
  | storeDisconnected
  /-- The end of `connectDestroyed`. -/
  | remove
  deriving DecidableEq

def Task.ofEvent : EventCallback → Task
  | .closeCallback_ => .handleClose
  | .errorCallback_ => .handleError
  | .readCallback_ => .handleRead
  | .writeCallback_ => .handleWrite

/-- A `sendInLoop` that has ended: the call of `send` it belongs to (none for a call in the
loop's thread), the bytes that the string held at the call, and those that it wrote or
buffered. -/
structure Handled where
  call : Option ℕ
  data : List UInt8
  emitted : List UInt8
  faultError : Bool

/-- What had been sent when `shutdown` last found the connection connected: the number of
`sendInLoop` functors queued and the number of `sendInLoop` calls ended. -/
structure Promise where
  queued : ℕ
  handled : ℕ

/-- The state. `cells` are the strings by the address of their bytes, `none` for those that
are freed. `sameLoop` tells that the server has no other loop, `inConnections` that
`connections_` has the connection, and `baseQueue` counts the `removeConnectionInLoop` that
the server's loop has still to run. The last fields are history. -/
structure ConnectionSystem (n : ℕ) where
  conn : TcpConnection
  todo : List Task := []
  threads : Fin n → ThreadPc := fun _ => .idle
  cells : ℕ → Option (List UInt8)
  sameLoop : Bool
  serverAlive : Bool := true
  inConnections : Bool := true
  baseQueue : ℕ := 0
  queuedSends : List (List UInt8) := []
  handled : List Handled := []
  promised : Option Promise := none
  destroyed : Bool := false

/-- What a step of the loop's thread gets from outside: the results of `write` and `readv`, and
the bytes at an address where the string has ended or is freed. -/
structure Outside where
  written : Except Errno ℕ := .ok 0
  received : Except Errno (List UInt8) := .ok []
  garbage : List UInt8 := []

inductive Action (n : ℕ) where
  /-- The beginning of `send` in another thread, on the string in a cell. -/
  | callSend (thread : Fin n) (cell : ℕ)
  | queueSend (thread : Fin n)
  /-- The beginning of `shutdown` in another thread. -/
  | callShutdown (thread : Fin n)
  | storeDisconnecting (thread : Fin n)
  | queueShutdown (thread : Fin n)
  /-- A string is overwritten, or freed. -/
  | assign (cell : ℕ) (value : Option (List UInt8))
  /-- `poll` returns events of the connection's channel. -/
  | poll (revents : Events)
  | doPendingFunctors
  /-- The beginning of `send` in the loop's thread. -/
  | loopSend (data : List UInt8)
  /-- The beginning of `shutdown` in the loop's thread. -/
  | loopShutdown
  /-- The loop's thread does the first of its tasks. -/
  | execute (o : Outside)
  /-- The server's loop runs a queued `removeConnectionInLoop`. -/
  | removeConnectionInLoop
  /-- `~TcpServer`. -/
  | destroyServer

namespace ConnectionSystem

variable {n : ℕ}

/-- The `len` bytes at an address. -/
def readString (s : ConnectionSystem n) (data len : ℕ) (garbage : List UInt8) : List UInt8 :=
  ((s.cells data).getD [] ++ garbage ++ List.replicate len 0).take len

def queueInLoop (s : ConnectionSystem n) (cb : Functor) : ConnectionSystem n :=
  { s with conn := s.conn.queueInLoop cb }

/-- `TcpServer::removeConnectionInLoop`. -/
def eraseConnection (s : ConnectionSystem n) : ConnectionSystem n :=
  { s.queueInLoop .connectDestroyed with inConnections := false }

/-- `TcpServer::removeConnection`. What happens when the server is gone is undefined, and left
out. -/
def removeConnection (s : ConnectionSystem n) : ConnectionSystem n :=
  if s.serverAlive then
    if s.sameLoop then s.eraseConnection else { s with baseQueue := s.baseQueue + 1 }
  else
    s

/-- A call of `shutdown` that finds the connection connected. -/
def promise (s : ConnectionSystem n) : ConnectionSystem n :=
  { s with promised := some ⟨s.queuedSends.length, s.handled.length⟩ }

/-- A functor that has been taken out of the queue. -/
def runFunctor (s : ConnectionSystem n) (o : Outside) (rest : List Task) :
    Functor → ConnectionSystem n
  | .connectEstablished => { s with conn := s.conn.connectEstablished, todo := rest }
  | .connectDestroyed =>
      { s with
        todo := (if s.conn.state_ = .kConnected then .storeDisconnected else .remove) :: rest }
  | .sendInLoop data len call =>
      let bytes := s.readString data len o.garbage
      let (conn, nwrote, faultError) := s.conn.writeDirect bytes o.written
      { s with
        conn := conn
        todo := .bufferRest (bytes.take nwrote) data len call faultError :: rest }
  | .shutdownInLoop => { s with conn := s.conn.shutdownInLoop, todo := rest }
  | .writeCompleteCallback_ => { s with todo := rest }
  | .highWaterMarkCallback_ _ => { s with todo := rest }

/-- The first task is done, and `rest` are the others. -/
def runTask (s : ConnectionSystem n) (o : Outside) (rest : List Task) :
    Task → ConnectionSystem n
  | .handleClose => { s with conn := s.conn.setDisconnected, todo := .closeCallback :: rest }
  | .handleError => { s with todo := rest }
  | .handleRead =>
      let (conn, closed) := s.conn.readInput o.received
      { s with conn := conn, todo := if closed then .handleClose :: rest else rest }
  | .handleWrite =>
      let (conn, drained) := s.conn.writeOutput o.written
      { s with conn := conn, todo := if drained then .drained :: rest else rest }
  | .functor f => s.runFunctor o rest f
  | .drained =>
      { s with
        conn := if s.conn.state_ = .kDisconnecting then s.conn.shutdownInLoop else s.conn
        todo := rest }
  | .closeCallback =>
      removeConnection { s with conn := s.conn.invoke .closeCallback_, todo := rest }
  | .sendInLoop data =>
      let (conn, nwrote, faultError) := s.conn.writeDirect data o.written
      { s with
        conn := conn.bufferRest (data.drop nwrote) faultError
        todo := rest
        handled := s.handled ++
          [⟨none, data, data.take nwrote ++ if faultError then [] else data.drop nwrote,
            faultError⟩] }
  | .storeDisconnecting =>
      { s with conn := (s.conn.setState .kDisconnecting).shutdownInLoop, todo := rest }
  | .bufferRest taken data len call faultError =>
      let left := (s.readString data len o.garbage).drop taken.length
      { s with
        conn := s.conn.bufferRest left faultError
        todo := rest
        handled := s.handled ++
          [⟨some call, s.queuedSends.getD call [], taken ++ if faultError then [] else left,
            faultError⟩] }
  | .storeDisconnected => { s with conn := s.conn.setDisconnected, todo := .remove :: rest }
  | .remove => { s with conn := s.conn.remove, todo := rest, destroyed := true }

def next (s : ConnectionSystem n) : Action n → ConnectionSystem n
  | .callSend thread cell =>
      if s.conn.state_ = .kConnected then
        { s with threads := Function.update s.threads thread (.queueSend cell) }
      else s
  | .queueSend thread =>
      match s.threads thread with
      | .queueSend cell =>
          let bytes := (s.cells cell).getD []
          { s.queueInLoop (.sendInLoop cell bytes.length s.queuedSends.length) with
            threads := Function.update s.threads thread .idle
            queuedSends := s.queuedSends ++ [bytes] }
      | _ => s
  | .callShutdown thread =>
      if s.conn.state_ = .kConnected then
        { s.promise with threads := Function.update s.threads thread .storeDisconnecting }
      else s
  | .storeDisconnecting thread =>
      { s with
        conn := s.conn.setState .kDisconnecting
        threads := Function.update s.threads thread .queueShutdown }
  | .queueShutdown thread =>
      { s.queueInLoop .shutdownInLoop with threads := Function.update s.threads thread .idle }
  | .assign cell value => { s with cells := Function.update s.cells cell value }
  | .poll revents =>
      let ch := s.conn.channel_.set_revents revents
      { s with
        conn := { s.conn with channel_ := ch }
        todo := ch.handleEventWithGuard.map .ofEvent }
  | .doPendingFunctors =>
      { s with
        conn := { s.conn with loop_ := { s.conn.loop_ with pendingFuntors_ := [] } }
        todo := s.conn.loop_.pendingFuntors_.map .functor }
  | .loopSend data =>
      if s.conn.state_ = .kConnected then { s with todo := .sendInLoop data :: s.todo } else s
  | .loopShutdown =>
      if s.conn.state_ = .kConnected then { s.promise with todo := .storeDisconnecting :: s.todo }
      else s
  | .execute o =>
      match s.todo with
      | task :: rest => s.runTask o rest task
      | [] => s
  | .removeConnectionInLoop => { s.eraseConnection with baseQueue := s.baseQueue - 1 }
  | .destroyServer =>
      let s' := { s with serverAlive := false, inConnections := false }
      if s.inConnections then
        if s.sameLoop then { s' with todo := [.functor .connectDestroyed] }
        else s'.queueInLoop .connectDestroyed
      else s'

/-! ## When a step may happen -/

/-- `write` takes no more bytes than there are. -/
def Fits (len : ℕ) : Except Errno ℕ → Prop
  | .ok k => k ≤ len
  | .error _ => True

instance (len : ℕ) : ∀ r, Decidable (Fits len r)
  | .ok k => inferInstanceAs (Decidable (k ≤ len))
  | .error _ => .isTrue trivial

/-- The number of bytes that a task offers to `write`, if it may write. -/
def writeSize (s : ConnectionSystem n) : Task → Option ℕ
  | .handleWrite => some s.conn.outputBuffer_.readableBytes
  | .sendInLoop data => some data.length
  | .functor (.sendInLoop _ len _) => some len
  | _ => none

def Possible (o : Outside) : Option ℕ → Prop
  | some len => Fits len o.written
  | none => True

instance (o : Outside) : ∀ size, Decidable (Possible o size)
  | some len => inferInstanceAs (Decidable (Fits len o.written))
  | none => .isTrue trivial

/-- The user's code in the loop's thread runs between the tasks and in the callbacks, which
come before the tasks `closeCallback` and `remove`. -/
def userCode : List Task → Bool
  | [] => true
  | .handleClose :: _ => true
  | .handleError :: _ => true
  | .handleRead :: _ => true
  | .handleWrite :: _ => true
  | .functor _ :: _ => true
  | .closeCallback :: _ => true
  | .remove :: _ => true
  | _ => false

/-- The user's code gets the connection in the first call of the connection callback. A string
is not changed while `send` runs on it. -/
def Enabled (s : ConnectionSystem n) : Action n → Prop
  | .callSend thread cell =>
      s.conn.upcalls ≠ [] ∧ s.threads thread = .idle ∧ (s.cells cell).isSome = true
  | .queueSend thread => (s.threads thread).isQueueSend = true
  | .callShutdown thread => s.conn.upcalls ≠ [] ∧ s.threads thread = .idle
  | .storeDisconnecting thread => s.threads thread = .storeDisconnecting
  | .queueShutdown thread => s.threads thread = .queueShutdown
  | .assign cell _ => ∀ thread, s.threads thread ≠ .queueSend cell
  | .poll _ => s.todo = [] ∧ s.conn.loop_.poller_.epoll s.conn.channel_.fd_ ≠ none
  | .doPendingFunctors => s.todo = []
  | .loopSend _ => s.conn.upcalls ≠ [] ∧ userCode s.todo = true
  | .loopShutdown => s.conn.upcalls ≠ [] ∧ userCode s.todo = true
  | .execute o => s.todo ≠ [] ∧ Possible o (s.todo.head?.bind s.writeSize)
  | .removeConnectionInLoop => 0 < s.baseQueue ∧ s.serverAlive = true
  | .destroyServer => s.serverAlive = true ∧ (s.sameLoop = true → s.todo = [])

instance (s : ConnectionSystem n) : ∀ a, Decidable (s.Enabled a)
  | .callSend thread cell =>
      inferInstanceAs (Decidable (_ ≠ [] ∧ s.threads thread = .idle ∧ (s.cells cell).isSome = true))
  | .queueSend thread => inferInstanceAs (Decidable ((s.threads thread).isQueueSend = true))
  | .callShutdown thread => inferInstanceAs (Decidable (_ ≠ [] ∧ s.threads thread = .idle))
  | .storeDisconnecting thread =>
      inferInstanceAs (Decidable (s.threads thread = .storeDisconnecting))
  | .queueShutdown thread => inferInstanceAs (Decidable (s.threads thread = .queueShutdown))
  | .assign cell _ => inferInstanceAs (Decidable (∀ thread, s.threads thread ≠ .queueSend cell))
  | .poll _ => inferInstanceAs (Decidable (s.todo = [] ∧ _ ≠ none))
  | .doPendingFunctors => inferInstanceAs (Decidable (s.todo = []))
  | .loopSend _ => inferInstanceAs (Decidable (_ ≠ [] ∧ userCode s.todo = true))
  | .loopShutdown => inferInstanceAs (Decidable (_ ≠ [] ∧ userCode s.todo = true))
  | .execute o =>
      inferInstanceAs (Decidable (s.todo ≠ [] ∧ Possible o (s.todo.head?.bind s.writeSize)))
  | .removeConnectionInLoop => inferInstanceAs (Decidable (0 < s.baseQueue ∧ s.serverAlive = true))
  | .destroyServer =>
      inferInstanceAs (Decidable (s.serverAlive = true ∧ (s.sameLoop = true → s.todo = [])))

end ConnectionSystem

def connectionSystem (n : ℕ) : Machine (ConnectionSystem n) (Action n) where
  enabled := ConnectionSystem.Enabled
  next := ConnectionSystem.next

instance {n : ℕ} (s : ConnectionSystem n) (a : Action n) :
    Decidable ((connectionSystem n).enabled s a) :=
  inferInstanceAs (Decidable (s.Enabled a))

/-- What `TcpServer::newConnection` leaves: `connectEstablished` is queued, or run at once when
the loop is the server's own. -/
def newConnection (n address fd : ℕ) (cbs : Callbacks) (cells : ℕ → Option (List UInt8))
    (sameLoop : Bool) : ConnectionSystem n where
  conn := if sameLoop then TcpConnection.new address fd cbs
    else (TcpConnection.new address fd cbs).queueInLoop .connectEstablished
  todo := if sameLoop then [.functor .connectEstablished] else []
  cells := cells
  sameLoop := sameLoop

end CkServer
