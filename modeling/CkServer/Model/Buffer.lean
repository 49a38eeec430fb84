import CkServer.Library.Lines
import Mathlib.Algebra.Group.Nat.Defs

/-! # The byte buffer

`Buffer` keeps its bytes in one vector, split by two indices into a prependable, a
readable and a writable part. The order of the indices is carried by the type, so every
operation shows that it keeps it. A `size_t` is a natural number, and a sum with a length that
the caller is free to choose wraps. -/

namespace CkServer

/-- The error codes the program tells apart. `EAGAIN` is `EWOULDBLOCK`. -/
inductive Errno where
  | EWOULDBLOCK
  | EPIPE
  | ECONNRESET
  | other (code : ℕ)
  deriving DecidableEq, Repr

def kCheapPrepend : ℕ := 8

def kInitialSize : ℕ := 1024

/-- `sizeof(extrabuf)` in `readFd`. -/
def kExtraBuf : ℕ := 65536

/-- `std::vector<char>::max_size()`. -/
def max_size : ℕ := 2 ^ 63 - 1

theorem kInitialSize_le : kCheapPrepend + kInitialSize ≤ max_size := by decide

abbrev kCRLF : List UInt8 := Lines.crlf

structure Buffer where
  buffer_ : List UInt8
  readerIndex_ : ℕ
  writerIndex_ : ℕ
  prepend_le_reader : kCheapPrepend ≤ readerIndex_
  reader_le_writer : readerIndex_ ≤ writerIndex_
  writer_le_size : writerIndex_ ≤ buffer_.length

/-- `std::copy` of `data` to position `pos` of a vector that has room for it. -/
def copyTo (pos : ℕ) (data buf : List UInt8) : List UInt8 :=
  buf.take pos ++ data ++ buf.drop (pos + data.length)

/-- `std::vector::resize`, which fills what it adds with zeros. -/
def resize (n : ℕ) (buf : List UInt8) : List UInt8 :=
  buf.take n ++ List.replicate (n - buf.length) 0

theorem length_copyTo {pos : ℕ} {data buf : List UInt8} (h : pos + data.length ≤ buf.length) :
    (copyTo pos data buf).length = buf.length := by
  simp only [copyTo, List.length_append, List.length_take, List.length_drop]
  omega

@[simp] theorem length_resize (n : ℕ) (buf : List UInt8) : (resize n buf).length = n := by
  simp only [resize, List.length_append, List.length_take, List.length_replicate]
  omega

namespace Buffer

/-- The constructor. No vector is made for a longer `kCheapPrepend + initialSize`. -/
def new (initialSize : ℕ) (_ : kCheapPrepend + initialSize ≤ max_size := by decide) : Buffer where
  buffer_ := List.replicate (kCheapPrepend + initialSize) 0
  readerIndex_ := kCheapPrepend
  writerIndex_ := kCheapPrepend
  prepend_le_reader := le_rfl
  reader_le_writer := le_rfl
  writer_le_size := by simp

def readableBytes (b : Buffer) : ℕ := b.writerIndex_ - b.readerIndex_

def writableBytes (b : Buffer) : ℕ := b.buffer_.length - b.writerIndex_

def prependableBytes (b : Buffer) : ℕ := b.readerIndex_

/-- The `len` bytes from `peek()` on. -/
def peek (b : Buffer) (len : ℕ) : List UInt8 := (b.buffer_.drop b.readerIndex_).take len

/-- The bytes between `peek()` and `beginWrite()`: the content of the buffer. -/
def readable (b : Buffer) : List UInt8 := b.peek b.readableBytes

def retrieveAll (b : Buffer) : Buffer where
  buffer_ := b.buffer_
  readerIndex_ := kCheapPrepend
  writerIndex_ := kCheapPrepend
  prepend_le_reader := le_rfl
  reader_le_writer := le_rfl
  writer_le_size := b.prepend_le_reader.trans (b.reader_le_writer.trans b.writer_le_size)

def retrieve (b : Buffer) (len : ℕ) : Buffer :=
  if h : len < b.readableBytes then
    { b with
      readerIndex_ := b.readerIndex_ + len
      prepend_le_reader := b.prepend_le_reader.trans (Nat.le_add_right _ _)
      reader_le_writer := by
        simp only [readableBytes] at h
        omega }
  else
    b.retrieveAll

def retrieveAsString (b : Buffer) (len : ℕ) : List UInt8 × Buffer :=
  (b.peek len, b.retrieve len)

def retrieveAllAsString (b : Buffer) : List UInt8 × Buffer :=
  b.retrieveAsString b.readableBytes

/-- The vector with another length, which does not cut off what has been written. -/
def resized (b : Buffer) (n : ℕ) (h : b.writerIndex_ ≤ n) : Buffer :=
  { b with
    buffer_ := resize n b.buffer_
    writer_le_size := by simpa using h }

/-- The readable bytes are copied to the front. -/
def compacted (b : Buffer) : Buffer where
  buffer_ := copyTo kCheapPrepend b.readable b.buffer_
  readerIndex_ := kCheapPrepend
  writerIndex_ := kCheapPrepend + b.readableBytes
  prepend_le_reader := le_rfl
  reader_le_writer := Nat.le_add_right _ _
  writer_le_size := by
    have hp := b.prepend_le_reader
    have hr := b.reader_le_writer
    have hw := b.writer_le_size
    have hlen : b.readable.length = b.readableBytes := by
      simp only [readable, peek, readableBytes, List.length_take, List.length_drop]
      omega
    rw [length_copyTo (by rw [hlen, readableBytes]; omega), readableBytes]
    omega

/-- `none` stands for the exception that `resize` throws, and for a vector that would end before
`writerIndex_` because the sum has wrapped. -/
def makeSpace (b : Buffer) (len : ℕ) : Option Buffer :=
  if b.writableBytes + b.prependableBytes < (len + kCheapPrepend) % 2 ^ 64 then
    if h : b.writerIndex_ ≤ (b.writerIndex_ + len) % 2 ^ 64 then
      if (b.writerIndex_ + len) % 2 ^ 64 ≤ max_size then some (b.resized _ h) else none
    else
      none
  else
    some b.compacted

def ensureWritableBytes (b : Buffer) (len : ℕ) : Option Buffer :=
  if b.writableBytes < len then b.makeSpace len else some b

/-- The buffer into which `append` copies `len` bytes. A list can be longer than any vector: then
the program throws an exception, and the model goes on with a vector that is long enough. -/
def spaceFor (b : Buffer) (len : ℕ) : Buffer :=
  match b.ensureWritableBytes len with
  | some d => if len ≤ d.writableBytes then d else b.resized (b.writerIndex_ + len) (by simp)
  | none => b.resized (b.writerIndex_ + len) (by simp)

theorem le_writableBytes_spaceFor (b : Buffer) (len : ℕ) :
    len ≤ (b.spaceFor len).writableBytes := by
  have hresized : len ≤ (b.resized (b.writerIndex_ + len) (by simp)).writableBytes := by
    simp [resized, writableBytes]
  unfold spaceFor
  split
  · split
    · assumption
    · exact hresized
  · exact hresized

/-- Copying into the writable part and moving `writerIndex_` past it. -/
def fill (b : Buffer) (data : List UInt8) (h : data.length ≤ b.writableBytes) : Buffer where
  buffer_ := copyTo b.writerIndex_ data b.buffer_
  readerIndex_ := b.readerIndex_
  writerIndex_ := b.writerIndex_ + data.length
  prepend_le_reader := b.prepend_le_reader
  reader_le_writer := b.reader_le_writer.trans (Nat.le_add_right _ _)
  writer_le_size := by
    have hw := b.writer_le_size
    simp only [writableBytes] at h
    rw [length_copyTo (by omega)]
    omega

def append (b : Buffer) (data : List UInt8) : Buffer :=
  (b.spaceFor data.length).fill data (b.le_writableBytes_spaceFor data.length)

/-- The space the two `iovec`s of `readFd` offer to `readv`. -/
def readSpace (b : Buffer) : ℕ :=
  if b.writableBytes < kExtraBuf then b.writableBytes + kExtraBuf else b.writableBytes

/-- `readFd` for the outcome `r` of `readv`: an error, or the bytes that were read, which
fill the writable part first and `extrabuf` after it. -/
def readFd (b : Buffer) (r : Except Errno (List UInt8)) : Buffer × Except Errno ℕ :=
  match r with
  | .error e => (b, .error e)
  | .ok data =>
      if h : data.length ≤ b.writableBytes then
        (b.fill data h, .ok data.length)
      else
        ((b.fill (data.take b.writableBytes) (List.length_take_le _ _)).append
          (data.drop b.writableBytes),
          .ok data.length)

/-- The offset of the first CRLF from `peek()`, `none` for the null pointer. -/
def findCRLF (b : Buffer) : Option ℕ := Search.search? kCRLF b.readable

/-- `retrieveUntil(end)` with `end` given by its offset from `peek()`. -/
def retrieveUntil (b : Buffer) (offset : ℕ) : Buffer := b.retrieve offset

end Buffer

end CkServer
