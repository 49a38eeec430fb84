import CkServer.Model.Buffer
import CkServer.Model.HttpRequest

/-! # The request parser

`parseRequest` is a loop over the lines of a buffer. One turn of it is a function here, and
the loop runs it until `hasMore` is cleared. `processRequestLine` also prints its line to
standard output, which is left out. -/

namespace CkServer

open Text

inductive HttpRequestParseState where
  | kExpectRequestLine
  | kExpectHeaders
  | kExpectBody
  | kGotAll
  deriving DecidableEq, Repr

structure HttpContext where
  state_ : HttpRequestParseState := .kExpectRequestLine
  request_ : HttpRequest := {}
  deriving DecidableEq

namespace HttpContext

def gotAll (ctx : HttpContext) : Bool := ctx.state_ = .kGotAll

def reset (ctx : HttpContext) : HttpContext where
  state_ := .kExpectRequestLine
  request_ := ctx.request_.swapFresh

/-- The last part of a request line, `HTTP/1.` and one digit. -/
def processVersion (req : HttpRequest) (version : List UInt8) : Bool × HttpRequest :=
  if version.length = 8 ∧ version.take 7 = ascii "HTTP/1." then
    if version.drop 7 = ascii "1" then (true, req.setVersion .kHttp11)
    else if version.drop 7 = ascii "0" then (true, req.setVersion .kHttp10)
    else (false, req)
  else
    (false, req)

/-- The target of a request line, cut at its first question mark. -/
def processTarget (req : HttpRequest) (target : List UInt8) : HttpRequest :=
  let question := target.idxOf 63
  if question ≠ target.length then
    (req.setPath (target.take question)).setQuery (target.drop question)
  else
    req.setPath target

/-- `processRequestLine(begin, end)` on the line between its arguments. What an unsuccessful
call has stored in the request stays there. -/
def processRequestLine (req : HttpRequest) (line : List UInt8) : Bool × HttpRequest :=
  let space := line.idxOf 32
  if space ≠ line.length then
    let (known, req) := req.setMethod (line.take space)
    if known then
      let rest := line.drop (space + 1)
      let space := rest.idxOf 32
      if space ≠ rest.length then
        processVersion (processTarget req (rest.take space)) (rest.drop (space + 1))
      else
        (false, req)
    else
      (false, req)
  else
    (false, req)

/-- The variables of the loop of `parseRequest`. -/
structure ParseLoop where
  ok : Bool
  hasMore : Bool
  context : HttpContext
  buf : Buffer

/-- One turn of the loop. The branch of `kExpectBody` is empty and `kGotAll` has none, so
in these states a turn changes nothing. -/
def parseTurn (receiveTime : Timestamp) (s : ParseLoop) : ParseLoop :=
  match s.context.state_ with
  | .kExpectRequestLine =>
      match s.buf.findCRLF with
      | some crlf =>
          let (ok, req) := processRequestLine s.context.request_ (s.buf.peek crlf)
          if ok then
            { s with
              ok := ok
              context := ⟨.kExpectHeaders, req.setReceiveTime receiveTime⟩
              buf := s.buf.retrieveUntil (crlf + 2) }
          else
            { s with ok := ok, hasMore := false, context := { s.context with request_ := req } }
      | none => { s with hasMore := false }
  | .kExpectHeaders =>
      match s.buf.findCRLF with
      | some crlf =>
          let line := s.buf.peek crlf
          let colon := line.idxOf 58
          if colon ≠ line.length then
            { s with
              context := { s.context with request_ := s.context.request_.addHeader line colon }
              buf := s.buf.retrieveUntil (crlf + 2) }
          else
            { s with
              hasMore := false
              context := { s.context with state_ := .kGotAll }
              buf := s.buf.retrieveUntil (crlf + 2) }
      | none => { s with hasMore := false }
  | .kExpectBody => s
  | .kGotAll => s

/-- At most `fuel` turns of the loop; `none` when `hasMore` is still set after them. -/
def parseLoop (receiveTime : Timestamp) : ℕ → ParseLoop → Option ParseLoop
  | 0, s => if s.hasMore then none else some s
  | fuel + 1, s =>
      if s.hasMore then parseLoop receiveTime fuel (parseTurn receiveTime s) else some s

/-- `parseRequest`: the returned flag, the context and the buffer, or `none` where the loop
never ends. A turn that does not end the loop takes a CRLF from the buffer or changes
nothing at all, so a turn for every readable byte and one more decides which. -/
def parseRequest (ctx : HttpContext) (buf : Buffer) (receiveTime : Timestamp) :
    Option (Bool × HttpContext × Buffer) :=
  (parseLoop receiveTime (buf.readableBytes + 1) ⟨true, true, ctx, buf⟩).map
    fun s => (s.ok, s.context, s.buf)

end HttpContext

end CkServer
