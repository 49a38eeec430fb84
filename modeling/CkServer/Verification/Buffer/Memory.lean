import CkServer.Verification.Buffer.Queue
import Mathlib.Algebra.Group.Nat.Defs

/-! # The memory of a buffer

The vector of a buffer grows when the readable bytes and what is asked for do not fit, even after
the readable bytes have been moved to the front. It never shrinks, and it is never much longer than
twice what had to be held at once. -/

namespace CkServer

namespace Buffer

/-- The vector is as long as before, or has grown because `len` more bytes did not fit. -/
def Grows (b d : Buffer) (len : ℕ) : Prop :=
  d.buffer_.length = b.buffer_.length ∨
    b.buffer_.length < b.readableBytes + len + kCheapPrepend ∧
      b.buffer_.length ≤ d.buffer_.length ∧
      d.buffer_.length < b.readableBytes + 2 * len + kCheapPrepend

variable (b : Buffer)

/-- There is more before the readable bytes only if there is less after them. -/
theorem grows_resized {len : ℕ} (h : b.writableBytes < len)
    (hfull : b.writableBytes + b.prependableBytes < len + kCheapPrepend) :
    b.Grows (b.resized (b.writerIndex_ + len) (Nat.le_add_right _ _)) len := by
  have hreader := b.reader_le_writer
  have hwriter := b.writer_le_size
  simp only [writableBytes, prependableBytes] at h hfull
  refine .inr ⟨?_, ?_, ?_⟩
  · simp only [readableBytes]
    omega
  · simp only [resized, length_resize]
    omega
  · simp only [resized, length_resize, readableBytes]
    omega

theorem length_compacted : b.compacted.buffer_.length = b.buffer_.length := by
  have hreader := b.reader_le_writer
  have hwriter := b.writer_le_size
  have hprepend := b.prepend_le_reader
  have hlength := b.length_readable
  simp only [readableBytes] at hlength
  exact length_copyTo (by omega)

theorem grows_spaceFor {len : ℕ} (hroom : b.HasRoom len) : b.Grows (b.spaceFor len) len := by
  have hmax : max_size = 2 ^ 63 - 1 := rfl
  obtain ⟨-, heq⟩ | ⟨hless, hfull, -, hn, heq⟩ | ⟨-, -, heq⟩ :=
    ensureWritableBytes_cases (spaceFor_of_hasRoom hroom)
  · rw [heq]
    exact .inl rfl
  · -- only a vector that can be made is asked for
    have hle := Nat.mod_le (len + kCheapPrepend) (2 ^ 64)
    have hmost : b.writerIndex_ + len ≤ max_size := by
      rcases hroom with h | h | h
      · omega
      · omega
      · exact h
    have hmod : (b.writerIndex_ + len) % 2 ^ 64 = b.writerIndex_ + len :=
      Nat.mod_eq_of_lt (by omega)
    have hgrows := b.grows_resized hless (by omega)
    rw [heq]
    simpa only [hmod] using hgrows
  · rw [heq]
    exact .inl b.length_compacted

/-- Where there is not much to hold at once there is room. -/
theorem hasRoom_of_peak {len peak : ℕ} (hlen : b.readableBytes + len ≤ peak)
    (hmost : kCheapPrepend + 2 * peak ≤ max_size) : b.HasRoom len := by
  have hreader := b.reader_le_writer
  simp only [HasRoom, writableBytes, prependableBytes, readableBytes] at hlen ⊢
  omega

@[simp] theorem length_fill (data : List UInt8) (h : data.length ≤ b.writableBytes) :
    (b.fill data h).buffer_.length = b.buffer_.length := by
  have hwriter := b.writer_le_size
  simp only [writableBytes] at h
  exact length_copyTo (by omega)

theorem grows_append {data : List UInt8} (hroom : b.HasRoom data.length) :
    b.Grows (b.append data) data.length := by
  have hgrows := b.grows_spaceFor hroom
  simp only [Grows, append, length_fill] at hgrows ⊢
  exact hgrows

@[simp] theorem length_retrieve (len : ℕ) : (b.retrieve len).buffer_.length = b.buffer_.length := by
  unfold retrieve
  split
  · rfl
  · rfl

/-- The bytes that do not fit in the writable part are appended when it is full. -/
theorem grows_readFd {data : List UInt8} (hroom : b.HasRoom data.length) :
    b.Grows (b.readFd (.ok data)).1 data.length := by
  simp only [readFd]
  split
  · rename_i hfits
    exact .inl (b.length_fill data hfits)
  · rename_i hmore
    have hreader := b.reader_le_writer
    have hwriter := b.writer_le_size
    have hfill : (data.take b.writableBytes).length ≤ b.writableBytes := List.length_take_le _ _
    have hlength := length_readable (b.fill (data.take b.writableBytes) hfill)
    have hfull : (data.take b.writableBytes).length = b.writableBytes := by
      rw [List.length_take]
      omega
    have hrest : (b.fill (data.take b.writableBytes) hfill).HasRoom
        (data.drop b.writableBytes).length := by
      rw [List.length_drop]
      simp only [HasRoom, writableBytes, prependableBytes, length_fill] at hroom hfull ⊢
      simp only [fill] at hfull ⊢
      omega
    have hgrows := (b.fill (data.take b.writableBytes) hfill).grows_append hrest
    rw [readable_fill, List.length_append, b.length_readable, List.length_take] at hlength
    simp only [Grows, length_fill, List.length_drop, ← hlength] at hgrows ⊢
    omega

end Buffer

namespace BufferUser

variable {u : BufferUser}

/-- What is held at once during an operation. -/
def demand (u : BufferUser) (op : BufferOp) : ℕ := u.buffer.readableBytes + op.space

theorem grows_next {op : BufferOp} (hroom : u.buffer.HasRoom op.space) :
    u.buffer.Grows (u.next op).buffer op.space := by
  cases op with
  | append data => exact u.buffer.grows_append hroom
  | retrieve len => exact .inl (u.buffer.length_retrieve len)
  | retrieveAll => exact .inl rfl
  | retrieveAllAsString => exact .inl (u.buffer.length_retrieve _)
  | retrieveAsString len => exact .inl (u.buffer.length_retrieve len)
  | retrieveUntil offset => exact .inl (u.buffer.length_retrieve offset)
  | ensureWritableBytes len =>
      have hspace : u.buffer.ensureWritableBytes len = some (u.buffer.spaceFor len) :=
        Buffer.spaceFor_of_hasRoom hroom
      simp only [next, hspace, Option.getD_some]
      exact u.buffer.grows_spaceFor hroom
  | readFd r =>
      cases r with
      | ok data => exact u.buffer.grows_readFd hroom
      | error e => exact .inl rfl

/-- The vector of a buffer that began with room for `initialSize` bytes, and has held no more than
`peak` at once. -/
structure Moderate (b : Buffer) (initialSize peak : ℕ) : Prop where
  at_least : kCheapPrepend + initialSize ≤ b.buffer_.length
  first : peak ≤ initialSize → b.buffer_.length = kCheapPrepend + initialSize
  at_most : b.buffer_.length = kCheapPrepend + initialSize ∨
    b.buffer_.length < kCheapPrepend + 2 * peak

variable {initialSize peak : ℕ}

theorem moderate_new (hsize : kCheapPrepend + initialSize ≤ max_size) :
    Moderate (Buffer.new initialSize hsize) initialSize peak := by
  have hlength : (Buffer.new initialSize hsize).buffer_.length = kCheapPrepend + initialSize :=
    List.length_replicate
  exact ⟨hlength.ge, fun _ => hlength, .inl hlength⟩

theorem Moderate.grows {b d : Buffer} {len : ℕ} (h : Moderate b initialSize peak)
    (hgrows : b.Grows d len) (hpeak : b.readableBytes + len ≤ peak) :
    Moderate d initialSize peak := by
  rcases hgrows with hsame | ⟨hfull, hlonger, hshort⟩
  · exact ⟨hsame ▸ h.at_least, hsame ▸ h.first, hsame ▸ h.at_most⟩
  · have hfirst := h.at_least
    refine ⟨hfirst.trans hlonger, fun hpeak' => ?_, .inr ?_⟩
    · omega
    · omega

/-- After any operations on a new buffer, none of which needs more than `peak` bytes at once, there
has been room for all of them. The vector is not shorter than it was, it is the first one if there
was room for `peak` bytes in it, and otherwise it has fewer than `2 * peak` bytes besides
`kCheapPrepend`. -/
theorem memory_of_runs (hsize : kCheapPrepend + initialSize ≤ max_size)
    (hmost : kCheapPrepend + 2 * peak ≤ max_size) {ops : List BufferOp}
    (hops : bufferUser.Always (fun u op => u.Guarded op ∧ u.demand op ≤ peak)
      { buffer := Buffer.new initialSize hsize } ops) :
    bufferUser.Runs { buffer := Buffer.new initialSize hsize } ops ∧
      Moderate (bufferUser.run { buffer := Buffer.new initialSize hsize } ops).buffer
        initialSize peak := by
  have hroom (u : BufferUser) (op : BufferOp) (h : u.demand op ≤ peak) :
      u.buffer.HasRoom op.space := u.buffer.hasRoom_of_peak h hmost
  have hruns : bufferUser.Runs { buffer := Buffer.new initialSize hsize } ops :=
    bufferUser.always_mono (fun u op h => ⟨h.1, hroom u op h.2⟩) hops
  have hstep (u : BufferUser) (op : BufferOp) (h : Moderate u.buffer initialSize peak)
      (_ : bufferUser.enabled u op) (hdemand : u.Guarded op ∧ u.demand op ≤ peak) :
      Moderate (bufferUser.next u op).buffer initialSize peak :=
    h.grows (grows_next (hroom u op hdemand.2)) hdemand.2
  exact ⟨hruns, bufferUser.invariant (I := fun u => Moderate u.buffer initialSize peak) hstep
    (moderate_new hsize) hruns hops⟩

/-- Six bytes at once are too many for a buffer made for four. -/
theorem memory_filledAndEmptied :
    Moderate (bufferUser.run { buffer := Buffer.new 4 } filledAndEmptied).buffer 4 6 :=
  (memory_of_runs (by decide) (by decide) (by decide)).2

end BufferUser

end CkServer
