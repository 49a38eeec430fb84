import CkServer.Model.HttpContext
import CkServer.Model.HttpResponse

/-! # The HTTP server

`onMessage` runs the parser on a connection's input buffer and answers the request that it
completes. What it does to the outside, the user's callback and the connection, is returned
as a list of calls in their order. -/

namespace CkServer

open Text

/-- The user's callback: what it makes of the response prepared for a request. -/
abbrev HttpCallback := HttpRequest → HttpResponse → HttpResponse

def defaultHttpCallback : HttpCallback := fun _ resp =>
  ((resp.setStatusCode .k404NotFound).setStatusMessage (ascii "Not Found")).setCloseConnection true

/-- The calls `onMessage` makes: the user's callback, `conn->send` and `conn->shutdown`. -/
inductive ServerCall where
  | httpCallback (req : HttpRequest)
  | send (msg : List UInt8)
  | shutdown
  deriving DecidableEq

/-- The request of a call of the user's callback. -/
def ServerCall.request? : ServerCall → Option HttpRequest
  | .httpCallback req => some req
  | _ => none

structure HttpServer where
  httpCallback_ : HttpCallback := defaultHttpCallback

namespace HttpServer

/-- The buffer for a response has a size that a vector can have. -/
theorem responseSize_le : kCheapPrepend + 2024 ≤ max_size := by decide

def badRequest : List UInt8 := ascii "HTTP/1.1 400 Bad Request\r\n\r\n"

def onRequest (server : HttpServer) (req : HttpRequest) : List ServerCall :=
  let connection := req.getHeader (ascii "Connection")
  let close : Bool := connection = ascii "close" ∨
    (req.version_ = .kHttp10 ∧ connection ≠ ascii "Keep-Alive")
  let response := server.httpCallback_ req { closeConnection_ := close }
  let buf := response.appendToBuffer (Buffer.new 2024 responseSize_le)
  let msg := buf.retrieveAllAsString.1
  [.httpCallback req, .send msg] ++ if response.closeConnection_ then [.shutdown] else []

/-- The calls for a request that the parser has refused. -/
def refusal : List ServerCall := [.send badRequest, .shutdown]

/-- `none` where the parser's loop never ends. -/
def onMessage (server : HttpServer) (context : HttpContext) (buf : Buffer)
    (receiveTime : Timestamp) : Option (HttpContext × Buffer × List ServerCall) :=
  (context.parseRequest buf receiveTime).map fun (ok, context, buf) =>
    let refused := if ok then [] else refusal
    if context.gotAll then
      (context.reset, buf, refused ++ server.onRequest context.request_)
    else
      (context, buf, refused)

end HttpServer

/-! ## One connection -/

/-- One call of `onMessage`: the bytes that have arrived since the last call, the time, and
the server. A callback that keeps a state of its own is another function at every call. -/
structure Delivery where
  data : List UInt8
  receiveTime : Timestamp := {}
  server : HttpServer := {}

/-- What a connection keeps between two calls, and the calls made so far. -/
structure HttpSession where
  context_ : HttpContext := {}
  inputBuffer_ : Buffer := Buffer.new kInitialSize kInitialSize_le
  calls : List ServerCall := []

namespace HttpSession

/-- `handleRead` appends what it has read and calls `onMessage`. -/
def deliver (s : HttpSession) (d : Delivery) : Option HttpSession :=
  (d.server.onMessage s.context_ (s.inputBuffer_.append d.data) d.receiveTime).map
    fun (context, buf, calls) => ⟨context, buf, s.calls ++ calls⟩

/-- The connection after the given calls of `onMessage`. -/
def run (ds : List Delivery) : Option HttpSession := ds.foldlM deliver {}

/-- The requests passed to the user's callback. -/
def dispatched (s : HttpSession) : List HttpRequest :=
  s.calls.filterMap ServerCall.request?

end HttpSession

/-- The bytes of a run. -/
def received (ds : List Delivery) : List UInt8 := ds.flatMap Delivery.data

end CkServer
