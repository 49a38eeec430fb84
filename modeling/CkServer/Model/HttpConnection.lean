import CkServer.Model.HttpServer
import CkServer.Model.TcpConnection

/-! # A connection of the HTTP server

`onMessage` is the message callback of the connection, and what it calls are `send` and
`shutdown` of the same connection. All of it runs in the thread of the connection's loop. -/

namespace CkServer

open Text

/-- The response that `onRequest` prepares, as the user's callback leaves it. -/
def HttpServer.response (server : HttpServer) (req : HttpRequest) : HttpResponse :=
  let connection := req.getHeader (ascii "Connection")
  let close : Bool := connection = ascii "close" ∨
    (req.version_ = .kHttp10 ∧ connection ≠ ascii "Keep-Alive")
  server.httpCallback_ req { closeConnection_ := close }

/-- The text of a response, as `onRequest` sends it. -/
def HttpResponse.serialised (resp : HttpResponse) : List UInt8 :=
  (resp.appendToBuffer (Buffer.new 2024 HttpServer.responseSize_le)).retrieveAllAsString.1

/-- An invocation of `httpCallback_`: the server, the request, and whether the connection was
connected. -/
structure Dispatch where
  server : HttpServer
  request : HttpRequest
  connected : Bool

def Dispatch.response (d : Dispatch) : HttpResponse := d.server.response d.request

/-- `context_` is what `onConnection` has stored in the connection. The last two fields are
history: the invocations of `httpCallback_`, and the strings for which `send` found the
connection connected. -/
structure HttpConnection where
  conn : TcpConnection
  context_ : HttpContext := {}
  dispatched : List Dispatch := []
  accepted : List (List UInt8) := []

/-- What a read event gets from outside: what `readv` returns, the time, the server (a callback
that keeps a state of its own is another function at every event), and what `write` returns
for a string. -/
structure ReadEvent where
  received : Except Errno (List UInt8)
  receiveTime : Timestamp := {}
  server : HttpServer := {}
  written : List UInt8 → Except Errno ℕ := fun msg => .ok msg.length

inductive HttpEvent where
  | handleRead (o : ReadEvent)
  | handleWrite (r : Except Errno ℕ)
  | handleClose
  | connectDestroyed

namespace HttpConnection

/-- The connection after `connectEstablished`. -/
def new (address fd : ℕ) : HttpConnection where
  conn := (TcpConnection.new address fd {}).connectEstablished

/-- One of the calls of `onMessage`. -/
def perform (o : ReadEvent) (h : HttpConnection) : ServerCall → HttpConnection
  | .httpCallback req =>
      { h with dispatched := h.dispatched ++ [⟨o.server, req, h.conn.connected⟩] }
  | .send msg =>
      { h with
        conn := h.conn.send msg (o.written msg)
        accepted := if h.conn.connected then h.accepted ++ [msg] else h.accepted }
  | .shutdown => { h with conn := h.conn.shutdown }

/-- `messagecallback_` on the input buffer. -/
def onMessage (h : HttpConnection) (o : ReadEvent) (buf : Buffer) : Option HttpConnection :=
  (o.server.onMessage h.context_ buf o.receiveTime).map fun (context, buf, calls) =>
    calls.foldl (perform o)
      { h with
        conn := ({ h.conn with inputBuffer_ := buf } : TcpConnection).invoke .messagecallback_
        context_ := context }

def handleRead (h : HttpConnection) (o : ReadEvent) : Option HttpConnection :=
  match h.conn.inputBuffer_.readFd o.received with
  | (buf, .ok n) =>
      let conn := { h.conn with inputBuffer_ := buf }
      if n > 0 then ({ h with conn := conn } : HttpConnection).onMessage o buf
      else some { h with conn := conn.handleClose }
  | (buf, .error _) => some { h with conn := { h.conn with inputBuffer_ := buf } }

/-- The events come in any order. `none` where the parser's loop never ends. -/
def step (h : HttpConnection) : HttpEvent → Option HttpConnection
  | .handleRead o => h.handleRead o
  | .handleWrite r => some { h with conn := h.conn.handleWrite r }
  | .handleClose => some { h with conn := h.conn.handleClose }
  | .connectDestroyed => some { h with conn := h.conn.connectDestroyed }

def run (address fd : ℕ) (es : List HttpEvent) : Option HttpConnection :=
  es.foldlM step (new address fd)

end HttpConnection

end CkServer
