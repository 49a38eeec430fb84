import CkServer.Model.Buffer
import CkServer.Model.HttpRequest

/-! # Responses -/

namespace CkServer

open Text

/-- `std::ostringstream`: its text and whether its error flags are clear. -/
structure OStringStream where
  str : List UInt8 := []
  good : Bool := true

namespace OStringStream

def put (oss : OStringStream) (s : List UInt8) : OStringStream :=
  if oss.good then { oss with str := oss.str ++ s } else oss

/-- `std::ios::clear` resets the error flags and leaves the text. -/
def clear (oss : OStringStream) : OStringStream := { oss with good := true }

end OStringStream

/-- A status code is the number it is printed as. The enumerators are named below; an enum
whose largest enumerator is 404 holds every number of nine bits. -/
abbrev HttpStatusCode := Fin 512

namespace HttpStatusCode

def kUnknown : HttpStatusCode := 0
def k200Ok : HttpStatusCode := 200
def k301MovedPermanently : HttpStatusCode := 301
def k400BadRequest : HttpStatusCode := 400
def k404NotFound : HttpStatusCode := 404

end HttpStatusCode

structure HttpResponse where
  headers_ : Headers := ∅
  statusCode_ : HttpStatusCode := .kUnknown
  statusMessage_ : List UInt8 := []
  closeConnection_ : Bool
  body_ : List UInt8 := []

namespace HttpResponse

def setStatusCode (resp : HttpResponse) (code : HttpStatusCode) : HttpResponse :=
  { resp with statusCode_ := code }

def setStatusMessage (resp : HttpResponse) (message : List UInt8) : HttpResponse :=
  { resp with statusMessage_ := message }

def setCloseConnection (resp : HttpResponse) (on : Bool) : HttpResponse :=
  { resp with closeConnection_ := on }

def addHeader (resp : HttpResponse) (key value : List UInt8) : HttpResponse :=
  { resp with headers_ := resp.headers_.insert key value }

def setContentType (resp : HttpResponse) (contentType : List UInt8) : HttpResponse :=
  resp.addHeader (ascii "Content-Type") contentType

def setBody (resp : HttpResponse) (body : List UInt8) : HttpResponse := { resp with body_ := body }

/-- The body of the loop over `headers_`. -/
def appendHeader (output : Buffer) (header : List UInt8 × List UInt8) : Buffer :=
  (((output.append header.1).append (ascii ": ")).append header.2).append (ascii "\r\n")

/-- One string stream serves the status line and the content length. -/
def appendToBuffer (resp : HttpResponse) (output : Buffer) : Buffer :=
  let oss : OStringStream := {}
  let oss := ((oss.put (ascii "HTTP/1.1 ")).put (decimal resp.statusCode_)).put (ascii " ")
  let output := ((output.append oss.str).append resp.statusMessage_).append (ascii "\r\n")
  let oss := oss.clear
  let output :=
    if resp.closeConnection_ then
      output.append (ascii "Connection: close\r\n")
    else
      let oss := ((oss.put (ascii "Content-Length: ")).put (decimal resp.body_.length)).put
        (ascii "\r\n")
      (output.append oss.str).append (ascii "Connection: Keep-Alive\r\n")
  let output := resp.headers_.toList.foldl appendHeader output
  (output.append (ascii "\r\n")).append resp.body_

end HttpResponse

end CkServer
