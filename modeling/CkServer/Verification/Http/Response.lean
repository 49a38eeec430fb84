import CkServer.Model.HttpResponse
import CkServer.Verification.Buffer.Readable
import Mathlib.Algebra.BigOperators.Group.List.Basic

/-! # Reading responses back

A response is written as a status line, a block of fields and the body. The reader below is
a client's: it takes the bytes apart again. -/

namespace CkServer.HttpResponse

open Text Lines

/-! ## What is written -/

def statusLine (resp : HttpResponse) : List UInt8 :=
  ascii "HTTP/1.1 " ++ decimal resp.statusCode_ ++ ascii " " ++ resp.statusMessage_

/-- A response message with the given fields. -/
def message (resp : HttpResponse) (fields : List Field) : List UInt8 :=
  resp.statusLine ++ crlf ++ (fieldBlock fields ++ resp.body_)

/-- The name under which the content length is written: the string stream still holds the
beginning of the status line. -/
def lengthName (resp : HttpResponse) : List UInt8 :=
  ascii "HTTP/1.1 " ++ decimal resp.statusCode_ ++ ascii " " ++ ascii "Content-Length"

/-- The fields `appendToBuffer` writes. -/
def writtenFields (resp : HttpResponse) : List Field :=
  (if resp.closeConnection_ then
    [(ascii "Connection", ascii "close")]
  else
    [(resp.lengthName, decimal resp.body_.length), (ascii "Connection", ascii "Keep-Alive")]) ++
  resp.headers_.toList

theorem readable_foldl_appendHeader (headers : List Field) (output : Buffer) :
    (headers.foldl appendHeader output).readable =
      output.readable ++ headers.flatMap (fun header => fieldLine header ++ crlf) := by
  induction headers generalizing output with
  | nil => simp
  | cons header headers ih =>
      rw [List.foldl_cons, ih]
      simp only [appendHeader, Buffer.readable_append, List.flatMap_cons, fieldLine,
        List.append_assoc]
      rfl

/-- The bytes appended to the buffer, in both connection modes. -/
theorem readable_appendToBuffer (resp : HttpResponse) (output : Buffer) :
    (resp.appendToBuffer output).readable =
      output.readable ++ resp.message resp.writtenFields := by
  have hclose : ascii "Connection: close\r\n" =
      fieldLine (ascii "Connection", ascii "close") ++ crlf := by decide
  have hkeep : ascii "Connection: Keep-Alive\r\n" =
      fieldLine (ascii "Connection", ascii "Keep-Alive") ++ crlf := by decide
  have hlength : ascii "Content-Length: " = ascii "Content-Length" ++ [58, 32] := by decide
  have hbreak : ascii "\r\n" = crlf := by decide
  cases hc : resp.closeConnection_ with
  | true =>
      simp [appendToBuffer, hc, OStringStream.put, readable_foldl_appendHeader, message,
        statusLine, writtenFields, fieldBlock, hclose, hbreak]
  | false =>
      simp [appendToBuffer, hc, OStringStream.put, OStringStream.clear,
        readable_foldl_appendHeader, message, statusLine, writtenFields, fieldBlock, lengthName,
        fieldLine, hkeep, hlength, hbreak]

/-! ## The client -/

/-- The parts of a response message. -/
structure Parts where
  code : ℕ
  message : List UInt8
  fields : List Field
  body : List UInt8
  deriving DecidableEq

/-- Code and message of a status line `HTTP/1.1 <code> <message>`. -/
def readStatusLine? (line : List UInt8) : Option (ℕ × List UInt8) :=
  let rest := line.drop 9
  let space := rest.idxOf 32
  if line.take 9 = ascii "HTTP/1.1 " ∧ space ≠ rest.length then
    (decimal? (rest.take space)).map fun code => (code, rest.drop (space + 1))
  else
    none

def read? (bs : List UInt8) : Option Parts := do
  let (line, rest) ← splitLine? bs
  let (code, message) ← readStatusLine? line
  let (fields, body) ← readFields? bs.length rest
  some ⟨code, message, fields, body⟩

/-- A status message or header text that no CR or LF breaks. -/
def NoLineBreak (text : List UInt8) : Prop := 13 ∉ text ∧ 10 ∉ text

instance (text : List UInt8) : Decidable (NoLineBreak text) :=
  inferInstanceAs (Decidable (13 ∉ text ∧ 10 ∉ text))

/-- The responses whose parts can be told apart at all. -/
structure WellFormed (resp : HttpResponse) : Prop where
  message_unbroken : NoLineBreak resp.statusMessage_
  name_unbroken : ∀ header ∈ resp.headers_.toList, NoLineBreak header.1
  value_unbroken : ∀ header ∈ resp.headers_.toList, NoLineBreak header.2
  name_no_colon : ∀ header ∈ resp.headers_.toList, 58 ∉ header.1
  name_ne_connection : ∀ header ∈ resp.headers_.toList, header.1 ≠ ascii "Connection"
  name_ne_length : ∀ header ∈ resp.headers_.toList, header.1 ≠ ascii "Content-Length"

/-- The fields a client has to find: those of the response, and what says how the
connection goes on. -/
def expectedFields (resp : HttpResponse) : List Field :=
  (if resp.closeConnection_ then
    [(ascii "Connection", ascii "close")]
  else
    [(ascii "Connection", ascii "Keep-Alive"),
      (ascii "Content-Length", decimal resp.body_.length)]) ++
  resp.headers_.toList

/-- What is appended is one status line, field lines, an empty line and the body, and
reading it gives the response back, with the expected fields in some order. -/
def Decodable (resp : HttpResponse) : Prop :=
  ∃ fields, fields.Perm resp.expectedFields ∧
    (∀ output, (resp.appendToBuffer output).readable =
      output.readable ++ resp.message fields) ∧
    read? (resp.message fields) = some ⟨resp.statusCode_, resp.statusMessage_, fields, resp.body_⟩

theorem not_mem_decimal {n : ℕ} {b : UInt8} (hb : isDigit b = false) : b ∉ decimal n := by
  intro hmem
  simp [isDigit_of_mem_decimal hmem] at hb

theorem readStatusLine?_statusLine (resp : HttpResponse) :
    readStatusLine? resp.statusLine = some ((resp.statusCode_ : ℕ), resp.statusMessage_) := by
  have hdrop : resp.statusLine.drop 9 =
      decimal resp.statusCode_ ++ (ascii " " ++ resp.statusMessage_) := by
    rw [statusLine, List.append_assoc, List.append_assoc]
    exact List.drop_left' (by decide)
  have htake : resp.statusLine.take 9 = ascii "HTTP/1.1 " := by
    rw [statusLine, List.append_assoc, List.append_assoc]
    exact List.take_left' (by decide)
  have hspace : (resp.statusLine.drop 9).idxOf 32 = (decimal resp.statusCode_).length := by
    rw [hdrop, List.idxOf_append_of_notMem (not_mem_decimal (by decide)),
      show ascii " " = [32] by decide]
    simp
  have hmessage : (resp.statusLine.drop 9).drop ((decimal resp.statusCode_).length + 1) =
      resp.statusMessage_ := by
    rw [hdrop, ← List.drop_drop, List.drop_left]
    rfl
  simp only [readStatusLine?, htake, hspace, hmessage]
  rw [hdrop, List.take_left, decimal?_decimal, if_pos]
  · rfl
  · refine ⟨trivial, ?_⟩
    rw [show ascii " " = [32] by decide]
    simp

theorem unbroken_statusLine {resp : HttpResponse} (h : resp.WellFormed) :
    Unbroken resp.statusLine := by
  apply unbroken_of_not_mem
  have hdigits : 13 ∉ decimal (resp.statusCode_ : ℕ) := not_mem_decimal (by decide)
  simp only [statusLine, List.mem_append, not_or]
  exact ⟨⟨⟨by decide, hdigits⟩, by decide⟩, h.message_unbroken.1⟩

/-- A client reads back every list of distinguishable fields. -/
theorem read?_message {resp : HttpResponse} (h : resp.WellFormed) {fields : List Field}
    (hfields : ∀ field ∈ fields, field.Valid) :
    read? (resp.message fields) =
      some ⟨resp.statusCode_, resp.statusMessage_, fields, resp.body_⟩ := by
  have hsplit := splitLine?_append (unbroken_statusLine h) (fieldBlock fields ++ resp.body_)
  have hfuel : fields.length < (resp.message fields).length := by
    have hblock : fields.length ≤ (fields.flatMap fun field => fieldLine field ++ crlf).length := by
      rw [List.length_flatMap,
        ← List.length_map (f := fun field : Field => (fieldLine field ++ crlf).length)]
      apply List.length_le_sum_of_one_le _
      intro n hn
      obtain ⟨field, -, rfl⟩ := List.mem_map.mp hn
      simp [crlf]
    simp only [message, fieldBlock, List.length_append, crlf, List.length_cons, List.length_nil]
      at hblock ⊢
    omega
  have hblock := readFields?_fieldBlock resp.body_ hfields hfuel
  rw [message] at hblock ⊢
  simp only [read?, hsplit, readStatusLine?_statusLine, hblock, Option.bind_eq_bind,
    Option.bind_some]

theorem valid_of_mem_writtenFields {resp : HttpResponse} (h : resp.WellFormed) {field : Field}
    (hfield : field ∈ resp.writtenFields) : field.Valid := by
  have hcode (b : UInt8) (hb : isDigit b = false) : b ∉ decimal (resp.statusCode_ : ℕ) :=
    not_mem_decimal hb
  rcases List.mem_append.mp hfield with hfield | hfield
  · cases hc : resp.closeConnection_ with
    | true =>
        obtain rfl : field = (ascii "Connection", ascii "close") := by simpa [hc] using hfield
        exact ⟨by decide, by decide, by decide⟩
    | false =>
        simp only [hc, Bool.false_eq_true, if_false, List.mem_cons, List.not_mem_nil,
          or_false] at hfield
        rcases hfield with rfl | rfl
        · refine ⟨?_, ?_, not_mem_decimal (by decide)⟩
          · simp only [lengthName, List.mem_append, not_or]
            exact ⟨⟨⟨by decide, hcode 58 (by decide)⟩, by decide⟩, by decide⟩
          · simp only [lengthName, List.mem_append, not_or]
            exact ⟨⟨⟨by decide, hcode 13 (by decide)⟩, by decide⟩, by decide⟩
        · exact ⟨by decide, by decide, by decide⟩
  · exact ⟨h.name_no_colon field hfield, (h.name_unbroken field hfield).1,
      (h.value_unbroken field hfield).1⟩

/-- No field of a keep-alive response is named `Content-Length`. -/
theorem name_ne_length_of_keepAlive {resp : HttpResponse} (h : resp.WellFormed)
    (hkeep : resp.closeConnection_ = false) {field : Field}
    (hfield : field ∈ resp.writtenFields) : field.1 ≠ ascii "Content-Length" := by
  rcases List.mem_append.mp hfield with hfield | hfield
  · simp only [hkeep, Bool.false_eq_true, if_false, List.mem_cons, List.not_mem_nil,
      or_false] at hfield
    rcases hfield with rfl | rfl
    · intro heq
      have hhead := congrArg (List.take 1) heq
      rw [show (resp.lengthName).take 1 = ascii "H" by
        rw [lengthName, List.append_assoc, List.append_assoc]; rfl] at hhead
      exact absurd hhead (by decide)
    · decide
  · exact h.name_ne_length field hfield

theorem not_decodable_of_keepAlive {resp : HttpResponse} (h : resp.WellFormed)
    (hkeep : resp.closeConnection_ = false) : ¬ resp.Decodable := by
  rintro ⟨fields, hperm, hbytes, hread⟩
  have hwritten : read? (resp.message resp.writtenFields) = _ :=
    read?_message h fun field hfield => valid_of_mem_writtenFields h hfield
  have hsame : resp.message fields = resp.message resp.writtenFields := by
    have hboth := (hbytes (Buffer.new 0)).symm.trans (resp.readable_appendToBuffer (Buffer.new 0))
    simpa using hboth
  rw [hsame, hwritten] at hread
  have hfields : fields = resp.writtenFields := by
    simpa [eq_comm] using hread
  have hmem : (ascii "Content-Length", decimal resp.body_.length) ∈ fields := by
    apply hperm.mem_iff.mpr
    simp [expectedFields, hkeep]
  rw [hfields] at hmem
  exact name_ne_length_of_keepAlive h hkeep hmem rfl

theorem decodable_of_close {resp : HttpResponse} (h : resp.WellFormed)
    (hclose : resp.closeConnection_ = true) : resp.Decodable := by
  have hsame : resp.writtenFields = resp.expectedFields := by
    simp [writtenFields, expectedFields, hclose]
  exact ⟨resp.writtenFields, by rw [hsame], resp.readable_appendToBuffer,
    read?_message h fun field hfield => valid_of_mem_writtenFields h hfield⟩

/-- A well-formed response can be read back exactly when it closes the connection. -/
theorem decodable_iff_close (resp : HttpResponse) (h : resp.WellFormed) :
    resp.Decodable ↔ resp.closeConnection_ = true := by
  constructor
  · intro hdec
    by_contra hopen
    exact not_decodable_of_keepAlive h (by simpa using hopen) hdec
  · exact decodable_of_close h

/-- A keep-alive answer of `200 OK` with one header and a body. -/
def keepAliveExample : HttpResponse where
  headers_ := (∅ : Headers).insert (ascii "Content-Type") (ascii "text/html")
  statusCode_ := .k200Ok
  statusMessage_ := ascii "OK"
  closeConnection_ := false
  body_ := ascii "hello"

theorem toList_keepAliveExample :
    keepAliveExample.headers_.toList = [(ascii "Content-Type", ascii "text/html")] := by decide

theorem wellFormed_keepAliveExample : keepAliveExample.WellFormed where
  message_unbroken := by decide
  name_unbroken := by rw [toList_keepAliveExample]; decide
  value_unbroken := by rw [toList_keepAliveExample]; decide
  name_no_colon := by rw [toList_keepAliveExample]; decide
  name_ne_connection := by rw [toList_keepAliveExample]; decide
  name_ne_length := by rw [toList_keepAliveExample]; decide

/-- The same answer on a connection that closes. -/
def closeExample : HttpResponse := { keepAliveExample with closeConnection_ := true }

theorem wellFormed_closeExample : closeExample.WellFormed := by
  obtain ⟨hmessage, hname, hvalue, hcolon, hconnection, hlength⟩ := wellFormed_keepAliveExample
  exact ⟨hmessage, hname, hvalue, hcolon, hconnection, hlength⟩

theorem decodable_closeExample : closeExample.Decodable :=
  (decodable_iff_close closeExample wellFormed_closeExample).mpr rfl

/-- The beginning of the status line leaks into the line of the content length. -/
example : (keepAliveExample.appendToBuffer (Buffer.new 0)).readable =
    ascii "HTTP/1.1 200 OK\r\nHTTP/1.1 200 Content-Length: 5\r\nConnection: Keep-Alive\r\n" ++
      ascii "Content-Type: text/html\r\n\r\nhello" := by
  rw [readable_appendToBuffer]
  decide +kernel

theorem not_decodable_keepAliveExample :
    keepAliveExample.WellFormed ∧ ¬ keepAliveExample.Decodable :=
  ⟨wellFormed_keepAliveExample, not_decodable_of_keepAlive wellFormed_keepAliveExample rfl⟩

end CkServer.HttpResponse
