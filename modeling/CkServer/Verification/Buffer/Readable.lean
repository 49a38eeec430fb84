import CkServer.Model.Buffer

/-! # The readable bytes of a buffer

Each operation changes the readable bytes as it would a byte queue. Later proofs see a
buffer only through these equations. -/

namespace CkServer.Buffer

theorem length_readable (b : Buffer) : b.readable.length = b.readableBytes := by
  have hr := b.reader_le_writer
  have hw := b.writer_le_size
  simp only [readable, peek, readableBytes, List.length_take, List.length_drop]
  omega

@[simp] theorem readable_new (n : ℕ) (h : kCheapPrepend + n ≤ max_size) :
    (new n h).readable = [] := by
  simp [readable, peek, readableBytes, new]

@[simp] theorem readable_retrieveAll (b : Buffer) : b.retrieveAll.readable = [] := by
  simp [readable, peek, readableBytes, retrieveAll]

@[simp] theorem readable_retrieve (b : Buffer) (len : ℕ) :
    (b.retrieve len).readable = b.readable.drop len := by
  unfold retrieve
  split
  · simp [readable, peek, readableBytes, List.drop_take, List.drop_drop, Nat.sub_sub]
  · rename_i hle
    rw [readable_retrieveAll, List.drop_of_length_le]
    rw [length_readable]
    omega

@[simp] theorem readable_retrieveUntil (b : Buffer) (offset : ℕ) :
    (b.retrieveUntil offset).readable = b.readable.drop offset :=
  b.readable_retrieve offset

theorem retrieveAllAsString_fst (b : Buffer) : b.retrieveAllAsString.1 = b.readable := rfl

/-! ## Growth -/

@[simp] theorem readable_resized (b : Buffer) (n : ℕ) (h : b.writerIndex_ ≤ n) :
    (b.resized n h).readable = b.readable := by
  have hr := b.reader_le_writer
  have hw := b.writer_le_size
  simp only [resized, readable, peek, readableBytes, resize]
  rw [List.drop_append_of_le_length (by rw [List.length_take]; omega),
    List.take_append_of_le_length (by rw [List.length_drop, List.length_take]; omega),
    List.drop_take, List.take_take]
  congr 1
  omega

@[simp] theorem readable_compacted (b : Buffer) : b.compacted.readable = b.readable := by
  have hr := b.reader_le_writer
  have hw := b.writer_le_size
  have hlen := b.length_readable
  have hcopy : (copyTo kCheapPrepend b.readable b.buffer_).drop kCheapPrepend =
      b.readable ++ b.buffer_.drop (kCheapPrepend + b.readable.length) := by
    have hprepend : (b.buffer_.take kCheapPrepend).length = kCheapPrepend := by
      have hp := b.prepend_le_reader
      rw [List.length_take]
      omega
    rw [copyTo, List.append_assoc, List.drop_append_of_le_length hprepend.ge,
      List.drop_of_length_le hprepend.le, List.nil_append]
  simp only [compacted, readable, peek, readableBytes, Nat.add_sub_cancel_left] at hcopy hlen ⊢
  rw [hcopy, List.take_append_of_le_length hlen.ge, List.take_of_length_le hlen.le]

/-- What `ensureWritableBytes` does where it returns. -/
theorem ensureWritableBytes_cases {b d : Buffer} {len : ℕ}
    (h : b.ensureWritableBytes len = some d) :
    len ≤ b.writableBytes ∧ d = b ∨
    (b.writableBytes < len ∧
      b.writableBytes + b.prependableBytes < (len + kCheapPrepend) % 2 ^ 64 ∧
      (b.writerIndex_ + len) % 2 ^ 64 ≤ max_size ∧
      ∃ hn, d = b.resized ((b.writerIndex_ + len) % 2 ^ 64) hn) ∨
    b.writableBytes < len ∧
      (len + kCheapPrepend) % 2 ^ 64 ≤ b.writableBytes + b.prependableBytes ∧ d = b.compacted := by
  unfold ensureWritableBytes makeSpace at h
  split at h
  · rename_i hless
    split at h
    · rename_i hfull
      split at h
      · rename_i hwritten
        split at h
        · rename_i hmost
          exact .inr (.inl ⟨hless, hfull, hmost, hwritten, (Option.some_inj.mp h).symm⟩)
        · cases h
      · cases h
    · rename_i hroom
      exact .inr (.inr ⟨hless, Nat.le_of_not_lt hroom, (Option.some_inj.mp h).symm⟩)
  · rename_i hfits
    exact .inl ⟨Nat.le_of_not_lt hfits, (Option.some_inj.mp h).symm⟩

theorem readable_of_ensureWritableBytes {b d : Buffer} {len : ℕ}
    (h : b.ensureWritableBytes len = some d) : d.readable = b.readable := by
  obtain ⟨-, rfl⟩ | ⟨-, -, -, _, rfl⟩ | ⟨-, -, rfl⟩ := ensureWritableBytes_cases h
  · rfl
  · exact b.readable_resized _ _
  · exact b.readable_compacted

@[simp] theorem readable_spaceFor (b : Buffer) (len : ℕ) :
    (b.spaceFor len).readable = b.readable := by
  unfold spaceFor
  split
  · rename_i d hd
    split
    · exact readable_of_ensureWritableBytes hd
    · exact b.readable_resized _ _
  · exact b.readable_resized _ _

@[simp] theorem readable_fill (b : Buffer) (data : List UInt8)
    (h : data.length ≤ b.writableBytes) : (b.fill data h).readable = b.readable ++ data := by
  have hr := b.reader_le_writer
  have hw := b.writer_le_size
  have htake : (b.buffer_.take b.writerIndex_).length = b.writerIndex_ := by
    rw [List.length_take]
    omega
  have hold : (b.buffer_.take b.writerIndex_).drop b.readerIndex_ = b.readable := by
    rw [List.drop_take, readable, peek, readableBytes]
  have hlen : (b.readable ++ data).length = b.writerIndex_ + data.length - b.readerIndex_ := by
    rw [List.length_append, b.length_readable, readableBytes]
    omega
  simp only [fill, readable, peek, readableBytes, copyTo] at hold hlen ⊢
  rw [List.append_assoc, List.drop_append_of_le_length (by omega), hold, ← List.append_assoc,
    List.take_append_of_le_length hlen.ge, List.take_of_length_le hlen.le]

@[simp] theorem readable_append (b : Buffer) (data : List UInt8) :
    (b.append data).readable = b.readable ++ data := by
  simp [append]

/-! ## Reading from the socket -/

theorem readable_readFd_ok (b : Buffer) (data : List UInt8) :
    (b.readFd (.ok data)).1.readable = b.readable ++ data := by
  simp only [readFd]
  split
  · simp
  · simp [List.append_assoc]

theorem readFd_snd_ok (b : Buffer) (data : List UInt8) :
    (b.readFd (.ok data)).2 = .ok data.length := by
  simp only [readFd]
  split <;> rfl

theorem readFd_error (b : Buffer) (e : Errno) : b.readFd (.error e) = (b, .error e) := rfl

theorem readable_eq_nil_iff (b : Buffer) : b.readable = [] ↔ b.readableBytes = 0 := by
  rw [← List.length_eq_zero_iff, length_readable]

end CkServer.Buffer
