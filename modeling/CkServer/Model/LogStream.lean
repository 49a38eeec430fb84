import CkServer.Library.Region
import CkServer.Library.Text
import CkServer.Model.FixedBuffer
import CkServer.Model.Integers

/-! # Log streams

Values are printed into a buffer of a fixed size. A function is `none` where the program writes
outside of the buffer, or reads outside of its table of digits. -/

namespace CkServer

open Text

/-- `FixedBuffer<kSmallBufferSize>` with its memory. The pointer `cur_` is its distance from
`data_`, and an `int` is an integer. -/
structure LogStream.Buffer where
  data_ : List UInt8
  cur_ : ℕ := 0
  size_ : ℤ := 0

namespace LogStream.Buffer

def avail (b : Buffer) : ℕ := toSize_t (kSmallBufferSize - b.size_)

def add (b : Buffer) (len : ℕ) : Buffer :=
  { b with cur_ := b.cur_ + len, size_ := b.size_ + len }

def append (b : Buffer) (buf : List UInt8) : Option Buffer :=
  if b.avail > buf.length then do
    let data_ ← Region.writeAll b.data_ b.cur_ buf
    return { b with data_ := data_ }.add buf.length
  else
    some b

end LogStream.Buffer

/-- `len_` bytes from `data_` on. -/
structure GeneralTemplate where
  data_ : List UInt8
  len_ : ℕ

def GeneralTemplate.text (g : GeneralTemplate) : List UInt8 := g.data_.take g.len_

structure LogStream where
  buffer_ : LogStream.Buffer

namespace LogStream

/-- The memory of a buffer. -/
abbrev Memory := { memory : List UInt8 // memory.length = kSmallBufferSize }

/-- The constructor finds any bytes in the memory of the buffer. -/
def new (memory : Memory) : LogStream := ⟨{ data_ := memory }⟩

def append (s : LogStream) (buffer : List UInt8) : Option LogStream :=
  (s.buffer_.append buffer).map LogStream.mk

/-! ## Integers -/

def kMaxNumberSize : ℕ := 32

def digits : List UInt8 := ascii "9876543210123456789"

/-- `zero[remainder]`, where `zero` points to the middle of `digits`. -/
def zero (remainder : ℤ) : Option UInt8 :=
  if 0 ≤ 9 + remainder then digits[(9 + remainder).toNat]? else none

theorem natAbs_tdiv_ten (num : ℤ) : (num.tdiv 10).natAbs = num.natAbs / 10 :=
  Int.natAbs_tdiv num 10

/-- The loop of `formatInteger`, which prints the last digit first. Division is towards zero. -/
def formatDigits (data_ : List UInt8) (cur : ℕ) (num : ℤ) : Option (List UInt8 × ℕ) := do
  let remainder := num.tmod 10
  let digit ← zero remainder
  let data_ ← Region.write data_ cur digit
  if num.tdiv 10 ≠ 0 then formatDigits data_ (cur + 1) (num.tdiv 10)
  else return (data_, cur + 1)
termination_by num.natAbs
decreasing_by
  have hlast := natAbs_tdiv_ten num
  omega

/-- The minus sign behind the digits. -/
def formatSign (data_ : List UInt8) (cur : ℕ) (negative : Bool) : Option (List UInt8 × ℕ) :=
  if negative then (Region.write data_ cur (byte '-')).map fun data_ => (data_, cur + 1)
  else some (data_, cur)

def formatInteger (s : LogStream) (num : ℤ) : Option LogStream :=
  let b := s.buffer_
  if b.avail ≥ kMaxNumberSize then do
    let start := b.cur_
    let negative : Bool := num < 0
    let (data_, cur) ← formatDigits b.data_ start num
    let (data_, cur) ← formatSign data_ cur negative
    let data_ ← Region.write data_ cur 0
    let data_ := Region.reverse data_ start cur
    let length := cur - start
    return ⟨{ b with data_ := data_ }.add length⟩
  else
    some s

end LogStream

/-! ## Values -/

/-- What a call of `append` or of an `operator<<` gets. The bytes behind a pointer with a length
are a list, and a string that ends with a zero is read up to its first zero. -/
inductive LogValue where
  | append (buffer : List UInt8)
  | bool (express : Bool)
  | short (number : Int16)
  | unsignedShort (number : UInt16)
  | int (number : Int32)
  | unsignedInt (number : UInt32)
  | long (number : Int64)
  | unsignedLong (number : UInt64)
  | longLong (number : Int64)
  | unsignedLongLong (number : UInt64)
  | char (str : UInt8)
  | cString (str : List UInt8)
  | unsignedCString (str : List UInt8)
  | string (str : List UInt8)
  | generalTemplate (g : GeneralTemplate)

/-- The bytes before the zero at the end of a string. -/
def cStr (str : List UInt8) : List UInt8 := str.takeWhile (· ≠ 0)

namespace LogStream

/-- `append`, or an `operator<<`. -/
def put (s : LogStream) : LogValue → Option LogStream
  | .append buffer => s.append buffer
  | .bool express => s.append (if express then ascii "true" else ascii "false")
  | .short number => s.formatInteger number.toInt
  | .unsignedShort number => s.formatInteger number.toNat
  | .int number => s.formatInteger number.toInt
  | .unsignedInt number => s.formatInteger number.toNat
  | .long number => s.formatInteger number.toInt
  | .unsignedLong number => s.formatInteger number.toNat
  | .longLong number => s.formatInteger number.toInt
  | .unsignedLongLong number => s.formatInteger number.toNat
  | .char str => s.append [str]
  | .cString str => s.append (cStr str)
  | .unsignedCString str => s.append (cStr str)
  | .string str => s.append str
  | .generalTemplate g => s.append g.text

/-- The stream after a sequence of calls. -/
def puts (s : LogStream) (values : List LogValue) : Option LogStream := values.foldlM put s

/-- `buffer().toString()`. -/
def toString (s : LogStream) : List UInt8 := s.buffer_.data_.take s.buffer_.size_.toNat

end LogStream

end CkServer
