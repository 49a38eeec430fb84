import CkServer.Model.Buffer
import CkServer.Model.EventLoop

/-! # TCP connections

The member functions of a connection that run in its loop's thread. A function that another
thread can get between, because it looks at `state_` or at a caller's string twice, is built
from the parts in between. What a call returns from the kernel is an argument. -/

namespace CkServer

/-- `TcpConnection::State`. -/
inductive ConnState where
  | kDisconnected
  | kconnecting
  | kConnected
  | kDisconnecting
  deriving DecidableEq, Repr

/-- The functors of a connection. `sendInLoop` binds the address of a string's bytes and their
number. `call` tells the calls of `send` apart; the program does not look at it. -/
inductive Functor where
  | connectEstablished
  | connectDestroyed
  | sendInLoop (data len call : ℕ)
  | shutdownInLoop
  | writeCompleteCallback_
  | highWaterMarkCallback_ (bytes : ℕ)
  deriving DecidableEq, Repr

/-- A call on the connection's socket. -/
inductive SocketCall where
  | write (data : List UInt8) (result : Except Errno ℕ)
  | shutdownWrite
  deriving DecidableEq

/-- The user's and the server's callbacks. What `connected()` is when `connectioncallback_` is
invoked is kept. -/
inductive Upcall where
  | connectioncallback_ (connected : Bool)
  | messagecallback_
  | closeCallback_
  deriving DecidableEq, Repr

/-- Of `writeCompleteCallback_` and `highWaterMarkCallback_` it matters whether they are set,
and of `messagecallback_` what it leaves in the input buffer. `socket_` and `upcalls` list
the calls made. -/
structure TcpConnection where
  channel_ : Channel
  loop_ : EventLoop Functor := {}
  state_ : ConnState := .kconnecting
  inputBuffer_ : Buffer := Buffer.new kInitialSize kInitialSize_le
  outputBuffer_ : Buffer := Buffer.new kInitialSize kInitialSize_le
  highWaterMark_ : ℕ := 64 * 1024 * 1024
  messagecallback_ : Buffer → Buffer := id
  writeCompleteCallback_ : Bool := false
  highWaterMarkCallback_ : Bool := false
  socket_ : List SocketCall := []
  upcalls : List Upcall := []

/-- What the user sets on a connection. -/
structure Callbacks where
  messagecallback_ : Buffer → Buffer := id
  writeCompleteCallback_ : Bool := false
  highWaterMarkCallback_ : Bool := false
  highWaterMark_ : ℕ := 64 * 1024 * 1024

namespace TcpConnection

/-- A connection as its constructor and its setters leave it. -/
def new (address fd : ℕ) (cbs : Callbacks) : TcpConnection where
  channel_ := {
    address := address
    fd_ := fd
    readCallback_ := true
    writeCallback_ := true
    closeCallback_ := true
    errorCallback_ := true }
  messagecallback_ := cbs.messagecallback_
  writeCompleteCallback_ := cbs.writeCompleteCallback_
  highWaterMarkCallback_ := cbs.highWaterMarkCallback_
  highWaterMark_ := cbs.highWaterMark_

def connected (c : TcpConnection) : Bool := c.state_ = .kConnected

def setState (c : TcpConnection) (state : ConnState) : TcpConnection := { c with state_ := state }

def queueInLoop (c : TcpConnection) (cb : Functor) : TcpConnection :=
  { c with loop_ := c.loop_.queueInLoop cb }

/-- `channel_->update()` after the interests have become `events`. -/
def setEvents (c : TcpConnection) (events : Events) : TcpConnection :=
  let (loop, ch) := c.loop_.updateChannel { c.channel_ with events_ := events }
  { c with loop_ := loop, channel_ := ch }

def enableReading (c : TcpConnection) : TcpConnection :=
  c.setEvents (c.channel_.events_ ||| kReadEvent)

def enableWriting (c : TcpConnection) : TcpConnection :=
  c.setEvents (c.channel_.events_ ||| kWriteEvent)

def disableWriting (c : TcpConnection) : TcpConnection :=
  c.setEvents (c.channel_.events_ &&& ~~~kWriteEvent)

def disableAll (c : TcpConnection) : TcpConnection := c.setEvents kNoneEvent

/-- `channel_->remove()`. -/
def remove (c : TcpConnection) : TcpConnection :=
  let (loop, ch) := c.loop_.removeChannel c.channel_
  { c with loop_ := loop, channel_ := ch }

def invoke (c : TcpConnection) (call : Upcall) : TcpConnection :=
  { c with upcalls := c.upcalls ++ [call] }

def onSocket (c : TcpConnection) (call : SocketCall) : TcpConnection :=
  { c with socket_ := c.socket_ ++ [call] }

/-! ## Sending -/

/-- The first part of `sendInLoop`: the direct write, if nothing waits to be written. The
results are `nwrote` and `faultError`. -/
def writeDirect (c : TcpConnection) (data : List UInt8) (r : Except Errno ℕ) :
    TcpConnection × ℕ × Bool :=
  if ¬ c.channel_.isWriting ∧ c.outputBuffer_.readableBytes = 0 then
    let c := c.onSocket (.write data r)
    match r with
    | .ok n =>
        (if data.length - n = 0 ∧ c.writeCompleteCallback_ then
          c.queueInLoop .writeCompleteCallback_ else c, n, false)
    | .error e => (c, 0, e = .EPIPE ∨ e = .ECONNRESET)
  else
    (c, 0, false)

/-- The second part of `sendInLoop`: what is left goes to the output buffer. -/
def bufferRest (c : TcpConnection) (rest : List UInt8) (faultError : Bool) : TcpConnection :=
  if ¬ faultError ∧ rest.length > 0 then
    let oldLen := c.outputBuffer_.readableBytes
    let c :=
      if oldLen + rest.length ≥ c.highWaterMark_ ∧ oldLen < c.highWaterMark_ ∧
          c.highWaterMarkCallback_ then
        c.queueInLoop (.highWaterMarkCallback_ (oldLen + rest.length))
      else c
    let c := { c with outputBuffer_ := c.outputBuffer_.append rest }
    if ¬ c.channel_.isWriting then c.enableWriting else c
  else
    c

/-- In the state `kDisconnected` the function logs an error and goes on. -/
def sendInLoop (c : TcpConnection) (data : List UInt8) (r : Except Errno ℕ) : TcpConnection :=
  let (c, nwrote, faultError) := c.writeDirect data r
  c.bufferRest (data.drop nwrote) faultError

/-- `send` in the thread of the loop. -/
def send (c : TcpConnection) (data : List UInt8) (r : Except Errno ℕ) : TcpConnection :=
  if c.state_ = .kConnected then c.sendInLoop data r else c

def shutdownInLoop (c : TcpConnection) : TcpConnection :=
  if ¬ c.channel_.isWriting then c.onSocket .shutdownWrite else c

/-- `shutdown` in the thread of the loop. -/
def shutdown (c : TcpConnection) : TcpConnection :=
  if c.state_ = .kConnected then (c.setState .kDisconnecting).shutdownInLoop else c

/-! ## Beginning and end -/

def connectEstablished (c : TcpConnection) : TcpConnection :=
  let c := c.setState .kConnected
  let c := { c with channel_ := c.channel_.tie }
  let c := c.enableReading
  c.invoke (.connectioncallback_ c.connected)

/-- What `connectDestroyed` and `handleClose` do first. -/
def setDisconnected (c : TcpConnection) : TcpConnection :=
  let c := c.setState .kDisconnected
  let c := c.disableAll
  c.invoke (.connectioncallback_ c.connected)

def connectDestroyed (c : TcpConnection) : TcpConnection :=
  let c := if c.state_ = .kConnected then c.setDisconnected else c
  c.remove

/-! ## Events -/

def handleClose (c : TcpConnection) : TcpConnection :=
  let c := c.setDisconnected
  c.invoke .closeCallback_

/-- `handleRead` up to the call of `handleClose`, and whether it is called. `handleError` only
logs. -/
def readInput (c : TcpConnection) (r : Except Errno (List UInt8)) : TcpConnection × Bool :=
  match c.inputBuffer_.readFd r with
  | (buf, .ok n) =>
      if n > 0 then
        (({ c with inputBuffer_ := c.messagecallback_ buf } : TcpConnection).invoke
          .messagecallback_, false)
      else
        ({ c with inputBuffer_ := buf }, true)
  | (buf, .error _) => ({ c with inputBuffer_ := buf }, false)

def handleRead (c : TcpConnection) (r : Except Errno (List UInt8)) : TcpConnection :=
  let (c, closed) := c.readInput r
  if closed then c.handleClose else c

/-- `handleWrite` up to its look at `state_`, and whether it looks. -/
def writeOutput (c : TcpConnection) (r : Except Errno ℕ) : TcpConnection × Bool :=
  if c.channel_.isWriting then
    let c := c.onSocket (.write c.outputBuffer_.readable r)
    match r with
    | .ok n =>
        if n > 0 then
          let c := { c with outputBuffer_ := c.outputBuffer_.retrieve n }
          if c.outputBuffer_.readableBytes = 0 then
            let c := c.disableWriting
            (if c.writeCompleteCallback_ then c.queueInLoop .writeCompleteCallback_ else c, true)
          else
            (c, false)
        else
          (c, false)
    | .error _ => (c, false)
  else
    (c, false)

def handleWrite (c : TcpConnection) (r : Except Errno ℕ) : TcpConnection :=
  let (c, drained) := c.writeOutput r
  if drained ∧ c.state_ = .kDisconnecting then c.shutdownInLoop else c

end TcpConnection

end CkServer
