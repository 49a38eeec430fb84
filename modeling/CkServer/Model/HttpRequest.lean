import Mathlib.Data.List.DropRight
import CkServer.Library.Text

/-! # Requests -/

namespace CkServer

open Text

/-- `std::map<string, string>`, ordered by the bytes of its keys. -/
abbrev Headers := Std.ExtTreeMap (List UInt8) (List UInt8)

structure Timestamp where
  microSecondsSinceEpoch_ : ℤ := 0
  deriving DecidableEq

/-- `isspace` in the C locale: space, tab, newline, vertical tab, form feed, return. -/
def isspace (c : UInt8) : Bool := c == 32 || (9 ≤ c.toNat && c.toNat ≤ 13)

inductive Method where
  | kInvalid
  | kGet
  | kPost
  | kHead
  | kPut
  | kDelete
  deriving DecidableEq, Repr

def Method.methodString : Method → List UInt8
  | .kInvalid => ascii "UNKNOWN"
  | .kGet => ascii "GET"
  | .kPost => ascii "POST"
  | .kHead => ascii "HEAD"
  | .kPut => ascii "PUT"
  | .kDelete => ascii "DELETE"

inductive Version where
  | kUnknown
  | kHttp10
  | kHttp11
  deriving DecidableEq, Repr

structure HttpRequest where
  method_ : Method := .kInvalid
  version_ : Version := .kUnknown
  path_ : List UInt8 := []
  query_ : List UInt8 := []
  receiveTime_ : Timestamp := {}
  headers_ : Headers := ∅
  deriving DecidableEq

namespace HttpRequest

def setVersion (req : HttpRequest) (v : Version) : HttpRequest := { req with version_ := v }

/-- The method named by `m`, stored also when it is not one of the five. -/
def setMethod (req : HttpRequest) (m : List UInt8) : Bool × HttpRequest :=
  let method :=
    if m = ascii "GET" then Method.kGet
    else if m = ascii "POST" then .kPost
    else if m = ascii "HEAD" then .kHead
    else if m = ascii "PUT" then .kPut
    else if m = ascii "DELETE" then .kDelete
    else .kInvalid
  (method ≠ .kInvalid, { req with method_ := method })

def setPath (req : HttpRequest) (path : List UInt8) : HttpRequest := { req with path_ := path }

def setQuery (req : HttpRequest) (query : List UInt8) : HttpRequest :=
  { req with query_ := query }

def setReceiveTime (req : HttpRequest) (t : Timestamp) : HttpRequest :=
  { req with receiveTime_ := t }

/-- What `addHeader` stores for the text after the colon: without white space around it. -/
def fieldValue (value : List UInt8) : List UInt8 :=
  (value.dropWhile isspace).rdropWhile isspace

/-- `addHeader(start, colon, end)` for the line between `start` and `end`. -/
def addHeader (req : HttpRequest) (line : List UInt8) (colon : ℕ) : HttpRequest :=
  { req with
    headers_ := req.headers_.insert (line.take colon) (fieldValue (line.drop (colon + 1))) }

/-- The value of a field, the empty string where there is none. -/
def getHeader (req : HttpRequest) (field : List UInt8) : List UInt8 :=
  (req.headers_[field]?).getD []

/-- `request_.swap(dummy)` with a new request: every field but `receiveTime_`, which
`swap` leaves out. -/
def swapFresh (req : HttpRequest) : HttpRequest := { receiveTime_ := req.receiveTime_ }

end HttpRequest

end CkServer
