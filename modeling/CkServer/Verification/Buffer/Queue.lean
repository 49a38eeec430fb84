import CkServer.Library.Fifo
import CkServer.Model.BufferUser
import CkServer.Verification.Buffer.Readable

/-! # The buffer is a byte queue

A program cannot tell a buffer from a queue of bytes: after any operations the readable bytes are
the content of the queue, and the strings that were returned are those the queue returns. -/

namespace CkServer

/-- A queue of bytes, and the strings that have been returned. -/
structure ByteQueue where
  bytes : Fifo UInt8 := {}
  strings : List (List UInt8) := []

namespace ByteQueue

/-- Bytes are consumed and returned as a string. -/
def takeString (q : ByteQueue) (len : ℕ) : ByteQueue where
  bytes := q.bytes.take len
  strings := q.strings ++ [q.bytes.content.take len]

/-- What an operation means for the queue. A failed `readFd` means nothing. -/
def next (q : ByteQueue) : BufferOp → ByteQueue
  | .append data => { q with bytes := q.bytes.put data }
  | .retrieve len => { q with bytes := q.bytes.take len }
  | .retrieveAll => { q with bytes := q.bytes.take q.bytes.content.length }
  | .retrieveAllAsString => q.takeString q.bytes.content.length
  | .retrieveAsString len => q.takeString len
  | .retrieveUntil offset => { q with bytes := q.bytes.take offset }
  | .ensureWritableBytes _ => q
  | .readFd (.ok data) => { q with bytes := q.bytes.put data }
  | .readFd (.error _) => q

def run (q : ByteQueue) (ops : List BufferOp) : ByteQueue := ops.foldl next q

end ByteQueue

/-- The bytes that an operation brings. -/
def BufferOp.data : BufferOp → List UInt8
  | .append data => data
  | .readFd (.ok data) => data
  | _ => []

theorem ByteQueue.received_next (q : ByteQueue) (op : BufferOp) :
    (q.next op).bytes.received = q.bytes.received ++ op.data := by
  cases op with
  | append data => rfl
  | readFd r =>
      cases r with
      | ok data => rfl
      | error e => exact (List.append_nil _).symm
  | _ => exact (List.append_nil _).symm

/-- The queue receives what is appended and read, in order. -/
theorem ByteQueue.received_run (ops : List BufferOp) (q : ByteQueue) :
    (q.run ops).bytes.received = q.bytes.received ++ ops.flatMap BufferOp.data := by
  induction ops generalizing q with
  | nil => exact (List.append_nil _).symm
  | cons op ops ih =>
      rw [run, List.foldl_cons, List.flatMap_cons, ← List.append_assoc, ← q.received_next]
      exact ih (q.next op)

/-- The bytes that have been consumed. -/
def ByteQueue.consumed (q : ByteQueue) : List UInt8 := q.bytes.received.take q.bytes.consumed

/-- A string that is returned is what is consumed. -/
theorem ByteQueue.consumed_next {q : ByteQueue} {op : BufferOp} {string : List UInt8}
    (h : (q.next op).strings = q.strings ++ [string]) :
    (q.next op).consumed = q.consumed ++ string := by
  have htake (len : ℕ) (hlen : q.strings ++ [q.bytes.content.take len] = q.strings ++ [string]) :
      (q.takeString len).consumed = q.consumed ++ string := by
    have heq := List.append_cancel_left hlen
    rw [List.cons.injEq] at heq
    rw [← heq.1]
    exact q.bytes.consumed_take len
  cases op with
  | retrieveAllAsString => exact htake _ h
  | retrieveAsString len => exact htake len h
  | readFd r =>
      cases r with
      | ok data => exact absurd h (by simp [next])
      | error e => exact absurd h (by simp [next])
  | _ => exact absurd h (by simp [next])

namespace BufferUser

/-- The buffer holds what the queue holds. -/
structure Refines (u : BufferUser) (q : ByteQueue) : Prop where
  readable : u.buffer.readable = q.bytes.content
  strings : u.strings = q.strings

theorem refines_new (initialSize : ℕ) (hsize : kCheapPrepend + initialSize ≤ max_size) :
    Refines { buffer := Buffer.new initialSize hsize } {} :=
  ⟨Buffer.readable_new initialSize hsize, rfl⟩

theorem peek_eq_take {b : Buffer} {len : ℕ} (hlen : len ≤ b.readableBytes) :
    b.peek len = b.readable.take len := by
  rw [Buffer.readable, Buffer.peek, Buffer.peek, List.take_take, Nat.min_eq_left hlen]

variable {u : BufferUser} {q : ByteQueue}

theorem Refines.takeString (h : u.Refines q) {len : ℕ} (hlen : len ≤ u.buffer.readableBytes) :
    (u.next (.retrieveAsString len)).Refines (q.takeString len) := by
  constructor
  · simp only [next, Buffer.retrieveAsString, ByteQueue.takeString, Buffer.readable_retrieve,
      Fifo.content_take, h.readable]
  · simp only [next, Buffer.retrieveAsString, ByteQueue.takeString, peek_eq_take hlen, h.readable,
      h.strings]

/-- An operation does to the buffer what it means for the queue. -/
theorem Refines.next (h : u.Refines q) {op : BufferOp} (hen : u.Guarded op) :
    (u.next op).Refines (q.next op) := by
  have hlength : q.bytes.content.length = u.buffer.readableBytes := by
    rw [← h.readable, Buffer.length_readable]
  cases op with
  | append data =>
      refine ⟨?_, h.strings⟩
      simp only [BufferUser.next, ByteQueue.next, Buffer.readable_append, Fifo.content_put,
        h.readable]
  | retrieve len =>
      refine ⟨?_, h.strings⟩
      simp only [BufferUser.next, ByteQueue.next, Buffer.readable_retrieve, Fifo.content_take,
        h.readable]
  | retrieveAll =>
      refine ⟨?_, h.strings⟩
      simp only [BufferUser.next, ByteQueue.next, Buffer.readable_retrieveAll, Fifo.content_take,
        List.drop_length]
  | retrieveAllAsString =>
      have hall : q.next .retrieveAllAsString = q.takeString u.buffer.readableBytes := by
        rw [← hlength]
        rfl
      rw [hall]
      exact h.takeString le_rfl
  | retrieveAsString len => exact h.takeString hen
  | retrieveUntil offset =>
      refine ⟨?_, h.strings⟩
      simp only [BufferUser.next, ByteQueue.next, Buffer.readable_retrieveUntil, Fifo.content_take,
        h.readable]
  | ensureWritableBytes len =>
      refine ⟨?_, h.strings⟩
      simp only [BufferUser.next, ByteQueue.next]
      cases hspace : u.buffer.ensureWritableBytes len with
      | none => exact h.readable
      | some d =>
          rw [Option.getD_some, Buffer.readable_of_ensureWritableBytes hspace]
          exact h.readable
  | readFd r =>
      cases r with
      | ok data =>
          refine ⟨?_, h.strings⟩
          simp only [BufferUser.next, ByteQueue.next, Buffer.readable_readFd_ok, Fifo.content_put,
            h.readable]
      | error e => exact ⟨h.readable, h.strings⟩

theorem Refines.run (ops : List BufferOp) (h : u.Refines q) (hruns : bufferUser.Runs u ops) :
    (bufferUser.run u ops).Refines (q.run ops) := by
  induction ops generalizing u q with
  | nil => exact h
  | cons op ops ih => exact ih (h.next hruns.1.1) hruns.2

end BufferUser

namespace Buffer

/-! ## Space that is asked for -/

variable {b : Buffer} {len : ℕ}

theorem writableBytes_compacted (b : Buffer) :
    b.compacted.writableBytes + kCheapPrepend = b.writableBytes + b.prependableBytes := by
  have hp := b.prepend_le_reader
  have hr := b.reader_le_writer
  have hw := b.writer_le_size
  have hlen := b.length_readable
  simp only [writableBytes, compacted, prependableBytes, readableBytes] at hlen ⊢
  rw [length_copyTo (by omega)]
  omega

theorem isSome_ensureWritableBytes (h : b.HasRoom len) :
    ∃ d, b.ensureWritableBytes len = some d ∧ len ≤ d.writableBytes := by
  have hp := b.prepend_le_reader
  have hcompacted := b.writableBytes_compacted
  have hmax : max_size = 2 ^ 63 - 1 := rfl
  have hprepend : kCheapPrepend = 8 := rfl
  unfold ensureWritableBytes makeSpace
  by_cases hless : b.writableBytes < len
  · rw [if_pos hless]
    by_cases hfull : b.writableBytes + b.prependableBytes < (len + kCheapPrepend) % 2 ^ 64
    · -- the wrapped sum is not above the true one
      have hle := Nat.mod_le (len + kCheapPrepend) (2 ^ 64)
      have hsize : b.writerIndex_ + len ≤ max_size := by
        rcases h with h | h | h
        · omega
        · omega
        · exact h
      have hmod : (b.writerIndex_ + len) % 2 ^ 64 = b.writerIndex_ + len :=
        Nat.mod_eq_of_lt (by omega)
      rw [if_pos hfull, dif_pos (by omega), if_pos (by omega)]
      refine ⟨_, rfl, ?_⟩
      simp only [writableBytes, resized, length_resize]
      omega
    · rw [if_neg hfull]
      refine ⟨_, rfl, ?_⟩
      simp only [prependableBytes] at hfull hcompacted
      rcases h with h | h | h
      · omega
      · simp only [prependableBytes] at h
        omega
      · have hmod : (len + kCheapPrepend) % 2 ^ 64 = len + kCheapPrepend :=
          Nat.mod_eq_of_lt (by omega)
        omega
  · rw [if_neg hless]
    exact ⟨b, rfl, Nat.le_of_not_lt hless⟩

/-- Where there is room `append` copies into the buffer that the program has. -/
theorem spaceFor_of_hasRoom (h : b.HasRoom len) :
    b.ensureWritableBytes len = some (b.spaceFor len) := by
  obtain ⟨d, hd, hle⟩ := isSome_ensureWritableBytes h
  rw [spaceFor, hd]
  simp only [if_pos hle]

/-- For a `size_t`, `ensureWritableBytes` does what it is for exactly if there is room. -/
theorem ensureWritableBytes_iff (hlen : len < 2 ^ 64) :
    (∃ d, b.ensureWritableBytes len = some d ∧ len ≤ d.writableBytes ∧ d.readable = b.readable) ↔
      b.HasRoom len := by
  constructor
  · rintro ⟨d, hd, hle, -⟩
    have hp := b.prepend_le_reader
    have hcompacted := b.writableBytes_compacted
    obtain ⟨hfits, -⟩ | ⟨-, -, hmost, hn, rfl⟩ | ⟨-, -, rfl⟩ := ensureWritableBytes_cases hd
    · exact .inl hfits
    · refine .inr (.inr ?_)
      simp only [writableBytes, resized, length_resize] at hle
      have hmod := Nat.mod_le (b.writerIndex_ + len) (2 ^ 64)
      omega
    · exact .inr (.inl (by omega))
  · intro hroom
    exact ⟨b.spaceFor len, spaceFor_of_hasRoom hroom, b.le_writableBytes_spaceFor len,
      b.readable_spaceFor len⟩

end Buffer

namespace BufferUser

/-- After any operations on a new buffer that find room for what they write: what has been appended
and read is what has been consumed followed by the readable bytes; the strings are those of the
queue, and a string is what its operation consumes; the indices are in order; where there is room
for the space that is asked for it is there afterwards, and only there, and the readable bytes stay
as they are; and a failed `readFd` changes nothing. -/
theorem queue_of_runs (initialSize : ℕ) (hsize : kCheapPrepend + initialSize ≤ max_size)
    {ops : List BufferOp}
    (hruns : bufferUser.Runs { buffer := Buffer.new initialSize hsize } ops) :
    let b := (bufferUser.run { buffer := Buffer.new initialSize hsize } ops).buffer
    let q := ByteQueue.run {} ops
    ops.flatMap BufferOp.data = q.consumed ++ b.readable ∧
      (bufferUser.run { buffer := Buffer.new initialSize hsize } ops).strings = q.strings ∧
      (∀ op string, (q.next op).strings = q.strings ++ [string] →
        (q.next op).consumed = q.consumed ++ string) ∧
      (kCheapPrepend ≤ b.readerIndex_ ∧ b.readerIndex_ ≤ b.writerIndex_ ∧
        b.writerIndex_ ≤ b.buffer_.length) ∧
      (∀ len < 2 ^ 64, (∃ d, b.ensureWritableBytes len = some d ∧ len ≤ d.writableBytes ∧
        d.readable = b.readable) ↔ b.HasRoom len) ∧
      ∀ e, (b.readFd (.error e)).1 = b := by
  intro b q
  have h : Refines (bufferUser.run { buffer := Buffer.new initialSize hsize } ops) q :=
    (refines_new initialSize hsize).run ops hruns
  have hreceived : q.bytes.received = ops.flatMap BufferOp.data := ByteQueue.received_run ops {}
  refine ⟨?_, h.strings, fun _ _ => ByteQueue.consumed_next, ?_, fun len hlen => ?_, fun _ => rfl⟩
  · rw [h.readable, ← hreceived]
    exact q.bytes.consumed_append_content.symm
  · exact ⟨b.prepend_le_reader, b.reader_le_writer, b.writer_le_size⟩
  · exact Buffer.ensureWritableBytes_iff hlen

/-- The length is so large that the test of `makeSpace` wraps, and no space is made. -/
theorem not_ensured_wrapped : ∃ d,
    (Buffer.new kInitialSize kInitialSize_le).ensureWritableBytes (2 ^ 64 - 1) = some d ∧
      d.writableBytes = kInitialSize ∧ ¬ 2 ^ 64 - 1 ≤ d.writableBytes := by
  have hnew : (Buffer.new kInitialSize kInitialSize_le).writableBytes = kInitialSize := by
    simp [Buffer.new, Buffer.writableBytes]
  have hspace := (Buffer.new kInitialSize kInitialSize_le).writableBytes_compacted
  have hfront : (Buffer.new kInitialSize kInitialSize_le).prependableBytes = kCheapPrepend := rfl
  refine ⟨(Buffer.new kInitialSize kInitialSize_le).compacted, ?_, ?_, ?_⟩
  · rw [Buffer.ensureWritableBytes, hnew, if_pos (by decide), Buffer.makeSpace, hnew, hfront,
      if_neg (by decide)]
  · omega
  · have hsize : kInitialSize = 1024 := rfl
    omega

/-- A buffer with space for four bytes at first is filled by `readv`, consumed in part and made
longer, and is emptied. -/
def filledAndEmptied : List BufferOp :=
  [.readFd (.ok [1, 2, 3, 4, 5, 6]), .retrieve 2, .readFd (.error .EWOULDBLOCK), .append [7, 8],
    .retrieveAsString 3, .retrieveUntil 1, .retrieveAllAsString]

theorem queue_filledAndEmptied :
    let b := (bufferUser.run { buffer := Buffer.new 4 } filledAndEmptied).buffer
    let q := ByteQueue.run {} filledAndEmptied
    filledAndEmptied.flatMap BufferOp.data = q.consumed ++ b.readable ∧
      (bufferUser.run { buffer := Buffer.new 4 } filledAndEmptied).strings = q.strings ∧
      q.strings = [[3, 4, 5], [7, 8]] := by
  intro b q
  have hruns : bufferUser.Runs { buffer := Buffer.new 4 } filledAndEmptied := by decide
  have h := queue_of_runs 4 (by decide) hruns
  exact ⟨h.1, h.2.1, by decide⟩

end BufferUser

end CkServer
