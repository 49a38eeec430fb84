import CkServer.Library.Machine
import CkServer.Model.Buffer

/-! # A program that uses a buffer -/

namespace CkServer

/-- The operations on a buffer. `readFd` has the outcome of `readv`. -/
inductive BufferOp where
  | append (data : List UInt8)
  | retrieve (len : ℕ)
  | retrieveAll
  | retrieveAllAsString
  | retrieveAsString (len : ℕ)
  /-- The pointer `end` is given by its offset from `peek()`. -/
  | retrieveUntil (offset : ℕ)
  | ensureWritableBytes (len : ℕ)
  | readFd (r : Except Errno (List UInt8))

/-- The number of bytes for which an operation needs room. -/
def BufferOp.space : BufferOp → ℕ
  | .append data => data.length
  | .ensureWritableBytes len => len
  | .readFd (.ok data) => data.length
  | _ => 0

/-- There is room for `len` bytes behind the written ones, or with those that can be had in front,
or a vector with room for them can be made. -/
def Buffer.HasRoom (b : Buffer) (len : ℕ) : Prop :=
  len ≤ b.writableBytes ∨ len + kCheapPrepend ≤ b.writableBytes + b.prependableBytes ∨
    b.writerIndex_ + len ≤ max_size

instance (b : Buffer) (len : ℕ) : Decidable (b.HasRoom len) :=
  inferInstanceAs (Decidable (len ≤ b.writableBytes ∨
    len + kCheapPrepend ≤ b.writableBytes + b.prependableBytes ∨ b.writerIndex_ + len ≤ max_size))

/-- A buffer, and the strings that have been returned. -/
structure BufferUser where
  buffer : Buffer
  strings : List (List UInt8) := []

namespace BufferUser

def next (u : BufferUser) : BufferOp → BufferUser
  | .append data => { u with buffer := u.buffer.append data }
  | .retrieve len => { u with buffer := u.buffer.retrieve len }
  | .retrieveAll => { u with buffer := u.buffer.retrieveAll }
  | .retrieveAllAsString =>
      let (string, buffer) := u.buffer.retrieveAllAsString
      { buffer := buffer, strings := u.strings ++ [string] }
  | .retrieveAsString len =>
      let (string, buffer) := u.buffer.retrieveAsString len
      { buffer := buffer, strings := u.strings ++ [string] }
  | .retrieveUntil offset => { u with buffer := u.buffer.retrieveUntil offset }
  | .ensureWritableBytes len =>
      { u with buffer := (u.buffer.ensureWritableBytes len).getD u.buffer }
  | .readFd r => { u with buffer := (u.buffer.readFd r).1 }

/-- No more than the readable bytes are made a string. `retrieveUntil` asserts that `end` is among
them, and `readv` does not read more than there is space for. -/
def Guarded (u : BufferUser) : BufferOp → Prop
  | .retrieveAsString len => len ≤ u.buffer.readableBytes
  | .retrieveUntil offset => offset ≤ u.buffer.readableBytes
  | .readFd (.ok data) => data.length ≤ u.buffer.readSpace
  | _ => True

instance (u : BufferUser) : ∀ op, Decidable (u.Guarded op)
  | .retrieveAsString len => inferInstanceAs (Decidable (len ≤ u.buffer.readableBytes))
  | .retrieveUntil offset => inferInstanceAs (Decidable (offset ≤ u.buffer.readableBytes))
  | .readFd (.ok data) => inferInstanceAs (Decidable (data.length ≤ u.buffer.readSpace))
  | .readFd (.error _) => .isTrue trivial
  | .append _ | .retrieve _ | .retrieveAll | .retrieveAllAsString | .ensureWritableBytes _ =>
      .isTrue trivial

/-- `resize` does not throw an exception. -/
def Enabled (u : BufferUser) (op : BufferOp) : Prop := u.Guarded op ∧ u.buffer.HasRoom op.space

instance (u : BufferUser) (op : BufferOp) : Decidable (u.Enabled op) :=
  inferInstanceAs (Decidable (u.Guarded op ∧ u.buffer.HasRoom op.space))

end BufferUser

def bufferUser : Machine BufferUser BufferOp where
  enabled := BufferUser.Enabled
  next := BufferUser.next

instance (u : BufferUser) (op : BufferOp) : Decidable (bufferUser.enabled u op) :=
  inferInstanceAs (Decidable (u.Enabled op))

end CkServer
