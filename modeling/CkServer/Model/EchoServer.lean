import CkServer.Model.TcpConnection

/-! # A connection of the echo server -/

namespace CkServer

/-- `received` is history: what `readv` has read at the events, before and after the end. -/
structure EchoConnection where
  conn : TcpConnection
  received : List (List UInt8) := []

/-- `written` is what `write` returns for the message. -/
inductive EchoEvent where
  | handleRead (received : Except Errno (List UInt8)) (written : Except Errno ℕ)
  | handleWrite (r : Except Errno ℕ)
  | handleClose

namespace EchoConnection

/-- The connection after `connectEstablished`; `onConnection` only logs. -/
def new (address fd : ℕ) : EchoConnection where
  conn := (TcpConnection.new address fd {}).connectEstablished

/-- `EchoServer::onMessage`. -/
def onMessage (conn : TcpConnection) (buf : Buffer) (written : Except Errno ℕ) : TcpConnection :=
  let (msg, buf) := buf.retrieveAllAsString
  (({ conn with inputBuffer_ := buf } : TcpConnection).send msg written).shutdown

/-- `handleRead` with `onMessage` as its message callback. -/
def handleRead (h : EchoConnection) (received : Except Errno (List UInt8))
    (written : Except Errno ℕ) : EchoConnection :=
  match h.conn.inputBuffer_.readFd received with
  | (buf, .ok n) =>
      let conn := { h.conn with inputBuffer_ := buf }
      if n > 0 then
        { conn := onMessage (conn.invoke .messagecallback_) buf written
          received := h.received ++ received.toOption.toList }
      else { h with conn := conn.handleClose }
  | (buf, .error _) => { h with conn := { h.conn with inputBuffer_ := buf } }

def next (h : EchoConnection) : EchoEvent → EchoConnection
  | .handleRead received written => h.handleRead received written
  | .handleWrite r => { h with conn := h.conn.handleWrite r }
  | .handleClose => { h with conn := h.conn.handleClose }

end EchoConnection

end CkServer
