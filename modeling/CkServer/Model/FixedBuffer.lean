import Mathlib.Data.Nat.Notation

/-! # Buffers of a fixed size -/

namespace CkServer

def kSmallBufferSize : ℕ := 4096

def kLargeBufferSize : ℕ := 4096 * 1000

/-- Of `data_` the bytes before `cur_` are kept. -/
structure FixedBuffer (buffer_size : ℕ) where
  data_ : List UInt8 := []
  size_le : data_.length ≤ buffer_size := by exact Nat.zero_le _

namespace FixedBuffer

variable {buffer_size : ℕ}

def length (b : FixedBuffer buffer_size) : ℕ := b.data_.length

def avail (b : FixedBuffer buffer_size) : ℕ := buffer_size - b.length

/-- What does not fit is dropped. -/
def append (b : FixedBuffer buffer_size) (buf : List UInt8) : FixedBuffer buffer_size :=
  if h : b.avail > buf.length then
    { data_ := b.data_ ++ buf
      size_le := by
        simp only [avail, length] at h
        rw [List.length_append]
        omega }
  else b

theorem data_append {b : FixedBuffer buffer_size} {buf : List UInt8}
    (h : buf.length < b.avail) : (b.append buf).data_ = b.data_ ++ buf := by
  rw [append, dif_pos h]

/-- The bytes stay in `data_`, behind `cur_`. -/
def reset (_b : FixedBuffer buffer_size) : FixedBuffer buffer_size := {}

end FixedBuffer

end CkServer
