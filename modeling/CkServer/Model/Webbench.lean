import CkServer.Library.Search
import CkServer.Model.HttpRequest

/-! # The benchmark

`build_request` makes the request that every client of the benchmark writes, from the options and
a URL. Strings are lists of bytes without their zero byte. A write or a read beyond an array ends
the function: what the program does then is not defined. -/

namespace CkServer.Webbench

open Text Search

def MAXHOSTNAMELEN : ℕ := 64

def REQUEST_SIZE : ℕ := 2048

/-- The values of `method`. -/
inductive BenchMethod where
  | METHOD_GET
  | METHOD_HEAD
  | METHOD_OPTIONS
  | METHOD_TRACE
  deriving DecidableEq, Repr

/-- The values of `http10`, by the comment on it: 0, 1 and 2. -/
inductive Protocol where
  | v09
  | v10
  | v11
  deriving DecidableEq, Repr

def Protocol.number : Protocol → ℕ
  | .v09 => 0
  | .v10 => 1
  | .v11 => 2

@[simp] theorem Protocol.number_v09 : Protocol.v09.number = 0 := rfl

@[simp] theorem Protocol.number_v10 : Protocol.v10.number = 1 := rfl

@[simp] theorem Protocol.number_v11 : Protocol.v11.number = 2 := rfl

/-- The arrays of `build_request`. -/
inductive CharArray where
  | host
  | request
  | tmp
  deriving DecidableEq, Repr

inductive Failure where
  | exit (status : ℕ)
  | overrun (array : CharArray)
  deriving DecidableEq, Repr

/-- The variables that the options set and `build_request` reads or writes. -/
structure Globals where
  http10 : Protocol := .v10
  method : BenchMethod := .METHOD_GET
  force_reload : Bool := false
  proxyport : ℤ := 80
  proxyhost : Option (List UInt8) := none
  host : List UInt8 := []
  request : List UInt8 := []
  deriving DecidableEq

/-! ## Strings -/

def tolower (b : UInt8) : UInt8 := if 65 ≤ b.toNat ∧ b.toNat ≤ 90 then b + 32 else b

/-- `strncasecmp(s, t, n) == 0` for a string `s` of length `n` in lower case. -/
def beginsWith (s t : List UInt8) : Bool := (t.take s.length).map tolower = s

/-- White space, a sign and digits. -/
def atoi (s : List UInt8) : ℤ :=
  let value (digits : List UInt8) : ℤ :=
    ((digits.takeWhile isDigit).foldl (fun n b => 10 * n + (b.toNat - 48)) 0 : ℕ)
  match s.dropWhile isspace with
  | [] => 0
  | b :: rest =>
      if b = byte '-' then -value rest else if b = byte '+' then value rest else value (b :: rest)

/-- What is left of a string where `atoi` stops. -/
def afterNumber (s : List UInt8) : List UInt8 :=
  match s.dropWhile isspace with
  | [] => []
  | b :: rest =>
      if b = byte '-' ∨ b = byte '+' then rest.dropWhile isDigit else (b :: rest).dropWhile isDigit

/-- `strncpy` of a whole string into an array of zeros. A string that fills the array has no zero
byte there. -/
def strncpy (array : CharArray) (size : ℕ) (s : List UInt8) : Except Failure (List UInt8) :=
  if s.length ≤ size then .ok s else .error (.overrun array)

/-- What an array of zeros holds, read as a string: as far as a zero byte. -/
def readString (array : CharArray) (size : ℕ) (s : List UInt8) : Except Failure (List UInt8) :=
  if s.length < size then .ok s else .error (.overrun array)

/-- `atoi` of what an array of zeros holds. It reads as far as the first character that is no part
of the number, which may be a zero byte. -/
def atoiOf (array : CharArray) (size : ℕ) (s : List UInt8) : Except Failure ℤ :=
  if s.length < size ∨ afterNumber s ≠ [] then .ok (atoi s) else .error (.overrun array)

/-- `strcat(request, s)`. -/
def strcat (request s : List UInt8) : Except Failure (List UInt8) :=
  if request.length + s.length < REQUEST_SIZE then .ok (request ++ s)
  else .error (.overrun .request)

/-- `strcat` behind an `if` without `else`. -/
def strcatIf (condition : Bool) (request s : List UInt8) : Except Failure (List UInt8) :=
  if condition then strcat request s else .ok request

/-- `strcat(request, host)` behind its `if`. -/
def strcatHost (condition : Bool) (request host : List UInt8) : Except Failure (List UInt8) :=
  if condition then do
    let host ← readString .host MAXHOSTNAMELEN host
    strcat request host
  else .ok request

/-! ## `build_request` -/

def BenchMethod.text : BenchMethod → List UInt8
  | .METHOD_GET => ascii "GET"
  | .METHOD_HEAD => ascii "HEAD"
  | .METHOD_OPTIONS => ascii "OPTIONS"
  | .METHOD_TRACE => ascii "TRACE"

/-- `http10` after the options that ask for a later version of the protocol. -/
def raisedHttp10 (g : Globals) : Protocol :=
  let http10 :=
    if g.force_reload ∧ g.proxyhost ≠ none ∧ g.http10.number < 1 then .v10 else g.http10
  let http10 := if g.method = .METHOD_HEAD ∧ http10.number < 1 then .v10 else http10
  let http10 := if g.method = .METHOD_OPTIONS ∧ http10.number < 2 then .v11 else http10
  if g.method = .METHOD_TRACE ∧ http10.number < 2 then .v11 else http10

/-- The checks of the URL. The result is `i`, where the name of the host begins. -/
def checkUrl (g : Globals) (url : List UInt8) : Except Failure ℕ :=
  match search? (ascii "://") url with
  | none => .error (.exit 2)
  | some delimiter =>
      if url.length > 1500 then .error (.exit 2)
      else if g.proxyhost = none ∧ ¬ beginsWith (ascii "http://") url then .error (.exit 2)
      else if 47 ∉ url.drop (delimiter + 3) then .error (.exit 2)
      else .ok (delimiter + 3)

/-- Host and port from the URL behind its delimiter, which has a slash. -/
def getHost (proxyport : ℤ) (rest : List UInt8) : Except Failure (List UInt8 × ℤ) :=
  let colon := rest.idxOf 58
  let slash := rest.idxOf 47
  if 58 ∈ rest ∧ colon < slash then do
    let host ← strncpy .host MAXHOSTNAMELEN (rest.take colon)
    let tmp ← strncpy .tmp 10 ((rest.drop (colon + 1)).take (slash - colon - 1))
    let port ← atoiOf .tmp 10 tmp
    pure (host, if port = 0 then 80 else port)
  else do
    let host ← strncpy .host MAXHOSTNAMELEN (rest.take slash)
    pure (host, proxyport)

/-- Host and port, and the request with its target. -/
def putTarget (g : Globals) (url : List UInt8) (i : ℕ) (request : List UInt8) :
    Except Failure (List UInt8 × ℤ × List UInt8) :=
  match g.proxyhost with
  | none => do
      let rest := url.drop i
      let (host, proxyport) ← getHost g.proxyport rest
      let request ← strcat request (rest.drop (rest.idxOf 47))
      pure (host, proxyport, request)
  | some _ => do
      let request ← strcat request url
      pure ([], g.proxyport, request)

/-- What follows the target. -/
def putHeaders (g : Globals) (http10 : Protocol) (host request : List UInt8) :
    Except Failure (List UInt8) := do
  let request ← strcatIf (http10.number = 1) request (ascii " HTTP/1.0")
  let request ← strcatIf (http10.number = 2) request (ascii " HTTP/1.1")
  let request ← strcat request (ascii "\r\n")
  let request ← strcatIf (http10.number > 0) request (ascii "User-Agent: WebBench 1.5\r\n")
  let request ← strcatIf (g.proxyhost = none ∧ http10.number > 0) request (ascii "Host: ")
  let request ← strcatHost (g.proxyhost = none ∧ http10.number > 0) request host
  let request ← strcatIf (g.proxyhost = none ∧ http10.number > 0) request (ascii "\r\n")
  let request ← strcatIf (g.force_reload ∧ g.proxyhost ≠ none) request
    (ascii "Pragma: no-cache\r\n")
  let request ← strcatIf (http10.number > 1) request (ascii "Connection: close\r\n")
  strcatIf (http10.number > 0) request (ascii "\r\n")

def build_request (g : Globals) (url : List UInt8) : Except Failure Globals := do
  let http10 := raisedHttp10 g
  let request ← strcat g.method.text (ascii " ")
  let i ← checkUrl g url
  let (host, proxyport, request) ← putTarget g url i request
  let request ← putHeaders g http10 host request
  pure { g with http10, host, proxyport, request }

example :
    (build_request {} (ascii "http://localhost:8080/a?b")).map (fun g => (g.request, g.proxyport)) =
      .ok (ascii "GET /a?b HTTP/1.0\r\nUser-Agent: WebBench 1.5\r\nHost: localhost\r\n\r\n",
        8080) := by
  decide +kernel

end CkServer.Webbench
