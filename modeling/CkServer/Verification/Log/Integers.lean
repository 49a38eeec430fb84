import CkServer.Model.Format
import CkServer.Model.LogStream

/-! # Integers in a log stream

The digits come from the last to the first, with the sign behind them, and are then reversed.
Of a negative number all remainders are negative, and the table of digits is a mirror. -/

namespace CkServer

open Text

namespace LogStream

/-! ## The buffer and its contents -/

/-- The buffer has its memory and keeps the text of `f`. -/
structure Buffer.Holds (b : Buffer) (f : FixedBuffer kSmallBufferSize) : Prop where
  length : b.data_.length = kSmallBufferSize
  size_ : b.size_ = f.length
  cur_ : b.cur_ = f.length
  text : b.data_.take f.length = f.data_

/-- The buffer has its memory, and `cur_` and `size_` agree. -/
def WellFormed (s : LogStream) : Prop := ∃ f, s.buffer_.Holds f

namespace Buffer.Holds

variable {b : Buffer} {f : FixedBuffer kSmallBufferSize} {text rest : List UInt8}

theorem length_le (_ : b.Holds f) : f.length ≤ kSmallBufferSize := f.size_le

theorem avail (h : b.Holds f) : b.avail = f.avail := by
  have hle := h.length_le
  rw [Buffer.avail, FixedBuffer.avail, h.size_, toSize_t, if_pos (by omega)]
  omega

theorem toString (h : b.Holds f) : LogStream.toString ⟨b⟩ = f.data_ := by
  rw [LogStream.toString, h.size_, Int.toNat_natCast, h.text]

theorem new (memory : Memory) : (LogStream.new memory).buffer_.Holds {} where
  length := memory.property
  size_ := rfl
  cur_ := rfl
  text := rfl

/-- Writes behind the text, of which the first ones are added to it. -/
theorem overlay (h : b.Holds f) (hfits : text.length < f.avail)
    (hroom : f.length + (text ++ rest).length ≤ kSmallBufferSize) :
    ({ b with data_ := Region.overlay b.data_ b.cur_ (text ++ rest) }.add text.length).Holds
      (f.append text) := by
  have hle := h.length_le
  have happend : (f.append text).data_ = f.data_ ++ text := by
    rw [FixedBuffer.append, dif_pos hfits]
  have hlength : (f.append text).length = f.length + text.length := by
    rw [FixedBuffer.length, happend, List.length_append, FixedBuffer.length]
  have hin : b.cur_ + (text ++ rest).length ≤ b.data_.length := by
    rw [h.cur_, h.length]
    exact hroom
  refine ⟨?_, ?_, ?_, ?_⟩
  · exact (Region.length_overlay hin).trans h.length
  · rw [hlength, Buffer.add, h.size_]
    exact (Int.natCast_add _ _).symm
  · rw [hlength, Buffer.add, h.cur_]
  · have htake : (Region.overlay b.data_ b.cur_ (text ++ rest)).take
        (b.cur_ + (text ++ rest).length) = b.data_.take b.cur_ ++ (text ++ rest) :=
      Region.take_overlay_length (by omega)
    have hsub := congrArg (List.take (b.cur_ + text.length)) htake
    rw [List.take_take, Nat.min_eq_left (by rw [List.length_append]; omega)] at hsub
    rw [hlength, ← h.cur_, happend]
    apply hsub.trans
    rw [h.cur_, h.text, ← List.append_assoc]
    exact List.take_left' (by rw [List.length_append, FixedBuffer.length])

theorem append (h : b.Holds f) (buf : List UInt8) :
    ∃ b', b.append buf = some b' ∧ b'.Holds (f.append buf) := by
  by_cases hfits : buf.length < f.avail
  · have hle := h.length_le
    have hroom : f.length + (buf ++ []).length ≤ kSmallBufferSize := by
      rw [FixedBuffer.avail] at hfits
      rw [List.append_nil]
      omega
    have hwrite : Region.writeAll b.data_ b.cur_ buf =
        some (Region.overlay b.data_ b.cur_ buf) := by
      apply Region.writeAll_eq
      rw [h.cur_, h.length]
      simpa using hroom
    refine ⟨_, ?_, h.overlay hfits hroom⟩
    rw [Buffer.append, if_pos (by rw [h.avail]; exact hfits), hwrite, List.append_nil]
    rfl
  · refine ⟨b, ?_, ?_⟩
    · rw [Buffer.append, if_neg (by rw [h.avail]; exact hfits)]
    · rw [FixedBuffer.append, dif_neg hfits]
      exact h

end Buffer.Holds

/-! ## The digits -/

theorem zero_natCast {d : ℕ} (h : d < 10) :
    zero d = some (digit d) ∧ zero (-d) = some (digit d) := by
  have hall : ∀ d < 10, zero (d : ℕ) = some (digit d) ∧ zero (-(d : ℕ)) = some (digit d) := by
    decide
  exact hall d h

/-- The remainder has the sign of the number, and both signs lead to the same digit. -/
theorem zero_tmod (num : ℤ) : zero (num.tmod 10) = some (digit (num.natAbs % 10)) := by
  have hlt : num.natAbs % 10 < 10 := Nat.mod_lt _ (by decide)
  have habs : (num.tmod 10).natAbs = num.natAbs % 10 := Int.natAbs_tmod num 10
  obtain ⟨hpos, hneg⟩ := zero_natCast hlt
  rcases Int.natAbs_eq (num.tmod 10) with h | h
  · rw [h, habs, hpos]
  · rw [h, habs, hneg]

/-- Induction on the number without its last digit. -/
theorem formatDigits_eq (num : ℤ) {data_ : List UInt8} {cur : ℕ}
    (h : cur + (decimal num.natAbs).length ≤ data_.length) :
    formatDigits data_ cur num =
      some (Region.overlay data_ cur (decimal num.natAbs).reverse,
        cur + (decimal num.natAbs).length) := by
  induction hn : num.natAbs using Nat.strongRecOn generalizing num data_ cur with
  | ind n ih =>
      subst hn
      have hpos : 0 < (decimal num.natAbs).length :=
        List.length_pos_iff.mpr (decimal_ne_nil num.natAbs)
      have hwrite : Region.write data_ cur (digit (num.natAbs % 10)) =
          some (data_.set cur (digit (num.natAbs % 10))) := Region.write_eq (by omega)
      have hrest := natAbs_tdiv_ten num
      rw [formatDigits]
      simp only [zero_tmod, hwrite, Option.bind_eq_bind, Option.bind_some]
      by_cases hlast : num.natAbs < 10
      · have hzero : num.tdiv 10 = 0 := by omega
        have hmod : num.natAbs % 10 = num.natAbs := Nat.mod_eq_of_lt hlast
        rw [if_neg (by omega), decimal_of_lt hlast, hmod, List.reverse_singleton,
          Region.overlay_cons (by omega), Region.overlay_nil]
        rfl
      · have hdigits := decimal_of_le (Nat.not_lt.mp hlast)
        have hlength : (decimal num.natAbs).length = (decimal (num.tdiv 10).natAbs).length + 1 := by
          rw [hdigits, List.length_append, List.length_singleton, hrest]
        have hroom : cur + 1 + (decimal (num.tdiv 10).natAbs).length ≤
            (data_.set cur (digit (num.natAbs % 10))).length := by
          rw [List.length_set]
          omega
        have hstep := ih (num.tdiv 10).natAbs (by omega) (num.tdiv 10) hroom rfl
        rw [if_pos (by omega), hstep, hrest, hlength, hrest, hdigits, List.reverse_append,
          List.reverse_singleton, List.singleton_append, Region.overlay_cons (by omega)]
        congr 2
        omega

/-! ## The sign -/

theorem printInt_eq (num : ℤ) :
    printInt num = (if num < 0 then [byte '-'] else []) ++ decimal num.natAbs := by
  cases num with
  | ofNat n =>
      have hnot : ¬ Int.ofNat n < 0 := Int.not_lt.mpr (Int.natCast_nonneg n)
      rw [if_neg hnot]
      rfl
  | negSucc n =>
      rw [if_pos (Int.negSucc_lt_zero n)]
      rfl

theorem canonical_printInt (num : ℤ) : Canonical (printInt num) num := by
  cases num with
  | ofNat n => exact canonical_decimal n
  | negSucc n => exact canonical_minus (Nat.succ_ne_zero n)

theorem length_printInt_le {num : ℤ} (h : num.natAbs < 2 ^ 64) : (printInt num).length ≤ 21 := by
  have hdigits : (decimal num.natAbs).length ≤ 20 :=
    length_decimal_le (by decide) (Nat.lt_trans h (by decide))
  rw [printInt_eq, List.length_append]
  split
  · rw [List.length_singleton]
    omega
  · rw [List.length_nil]
    omega

/-- What the loop and the sign have written, in the order of the memory. -/
def backwards (num : ℤ) : List UInt8 :=
  (decimal num.natAbs).reverse ++ if num < 0 then [byte '-'] else []

theorem reverse_backwards (num : ℤ) : (backwards num).reverse = printInt num := by
  rw [backwards, List.reverse_append, List.reverse_reverse, printInt_eq]
  split
  · rfl
  · rfl

variable {s : LogStream} {f : FixedBuffer kSmallBufferSize}

/-- With room for the longest number, its sign and a zero, all writes are in the buffer. -/
theorem formatInteger_of_room (h : s.buffer_.Holds f) {num : ℤ} (hnum : num.natAbs < 2 ^ 64)
    (hroom : kMaxNumberSize ≤ f.avail) :
    ∃ t, s.formatInteger num = some t ∧ t.buffer_.Holds (f.append (printInt num)) := by
  have hmax : kMaxNumberSize = 32 := rfl
  have hlength := length_printInt_le hnum
  have hbackwards : (backwards num).length = (printInt num).length := by
    rw [← reverse_backwards, List.length_reverse]
  have hmemory := h.length
  have hcur := h.cur_
  have havail : f.length + 32 ≤ kSmallBufferSize := by
    rw [FixedBuffer.avail] at hroom
    omega
  have hsplit : (backwards num).length =
      (decimal num.natAbs).length + (if num < 0 then [byte '-'] else []).length := by
    rw [backwards, List.length_append, List.length_reverse]
  have hdigitsRoom : s.buffer_.cur_ + (decimal num.natAbs).length ≤ s.buffer_.data_.length := by
    omega
  have hdigits := formatDigits_eq num hdigitsRoom
  have hsign : formatSign
      (Region.overlay s.buffer_.data_ s.buffer_.cur_ (decimal num.natAbs).reverse)
      (s.buffer_.cur_ + (decimal num.natAbs).length) (num < 0) =
        some (Region.overlay s.buffer_.data_ s.buffer_.cur_ (backwards num),
          s.buffer_.cur_ + (backwards num).length) := by
    by_cases hneg : num < 0
    · have hsignRoom : s.buffer_.cur_ + (decimal num.natAbs).reverse.length <
          s.buffer_.data_.length := by
        rw [List.length_reverse]
        omega
      have hwrite := Region.write_overlay (x := byte '-') hsignRoom
      rw [List.length_reverse] at hwrite
      simp [formatSign, hneg, hwrite, backwards, Nat.add_assoc]
    · simp [formatSign, hneg, backwards]
  have hend : Region.write (Region.overlay s.buffer_.data_ s.buffer_.cur_ (backwards num))
      (s.buffer_.cur_ + (backwards num).length) 0 =
        some (Region.overlay s.buffer_.data_ s.buffer_.cur_ (backwards num ++ [0])) :=
    Region.write_overlay (by omega)
  have hreverse : Region.reverse
      (Region.overlay s.buffer_.data_ s.buffer_.cur_ (backwards num ++ [0])) s.buffer_.cur_
      (s.buffer_.cur_ + (backwards num).length) =
        Region.overlay s.buffer_.data_ s.buffer_.cur_ ((backwards num).reverse ++ [0]) :=
    Region.reverse_overlay (by omega)
  rw [reverse_backwards, hbackwards] at hreverse
  rw [hbackwards] at hend
  have hfits : (printInt num).length < f.avail := by omega
  have hin : f.length + (printInt num ++ [0]).length ≤ kSmallBufferSize := by
    rw [List.length_append, List.length_singleton]
    omega
  refine ⟨_, ?_, h.overlay hfits hin⟩
  rw [formatInteger]
  simp only [h.avail, if_pos hroom, hdigits, Option.bind_eq_bind, Option.bind_some, hsign, hend,
    hreverse, Nat.add_sub_cancel_left, hbackwards]
  rfl

theorem formatInteger_of_full (h : s.buffer_.Holds f) (num : ℤ) (hfull : f.avail < kMaxNumberSize) :
    s.formatInteger num = some s := by
  rw [formatInteger]
  exact if_neg (by rw [h.avail]; omega)

end LogStream

/-! ## Values -/

/-- The number that is printed, for the integer types. -/
def LogValue.number? : LogValue → Option ℤ
  | .short number => some number.toInt
  | .unsignedShort number => some number.toNat
  | .int number => some number.toInt
  | .unsignedInt number => some number.toNat
  | .long number => some number.toInt
  | .unsignedLong number => some number.toNat
  | .longLong number => some number.toInt
  | .unsignedLongLong number => some number.toNat
  | _ => none

/-- The widest types have 64 bits. -/
theorem LogValue.natAbs_lt {v : LogValue} {num : ℤ} (h : v.number? = some num) :
    num.natAbs < 2 ^ 64 := by
  cases v <;> simp only [number?, Option.some_inj, reduceCtorEq] at h
  all_goals subst h
  case short number =>
    have hge := number.le_toInt
    have hlt := number.toInt_lt
    omega
  case unsignedShort number =>
    have hlt := number.toNat_lt
    omega
  case int number =>
    have hge := number.le_toInt
    have hlt := number.toInt_lt
    omega
  case unsignedInt number =>
    have hlt := number.toNat_lt
    omega
  case long number =>
    have hge := number.le_toInt
    have hlt := number.toInt_lt
    omega
  case unsignedLong number =>
    have hlt := number.toNat_lt
    omega
  case longLong number =>
    have hge := number.le_toInt
    have hlt := number.toInt_lt
    omega
  case unsignedLongLong number =>
    have hlt := number.toNat_lt
    omega

theorem LogStream.put_number (s : LogStream) {v : LogValue} {num : ℤ} (h : v.number? = some num) :
    s.put v = s.formatInteger num := by
  cases v <;> simp only [LogValue.number?, Option.some_inj, reduceCtorEq] at h
  all_goals
    subst h
    rfl

namespace LogStream

variable {s : LogStream}

/-- With 32 free bytes exactly the decimal notation is appended, and with fewer nothing happens. -/
theorem put_integer_exact (h : s.WellFormed) {v : LogValue} {num : ℤ} (hv : v.number? = some num) :
    (32 ≤ s.buffer_.avail → ∃ t, s.put v = some t ∧ t.WellFormed ∧
      ∃ text, t.toString = s.toString ++ text ∧ Canonical text num) ∧
    (s.buffer_.avail < 32 → s.put v = some s) := by
  obtain ⟨f, hf⟩ := h
  have hnum := LogValue.natAbs_lt hv
  rw [hf.avail, s.put_number hv]
  constructor
  · intro hroom
    obtain ⟨t, ht, hholds⟩ := formatInteger_of_room hf hnum hroom
    have hlength := length_printInt_le hnum
    have happend : (f.append (printInt num)).data_ = f.data_ ++ printInt num := by
      rw [FixedBuffer.append, dif_pos (by omega)]
    refine ⟨t, ht, ⟨_, hholds⟩, printInt num, ?_, canonical_printInt num⟩
    have hs : s.toString = f.data_ := hf.toString
    have ht : t.toString = f.data_ ++ printInt num := hholds.toString.trans happend
    rw [hs, ht]
  · exact formatInteger_of_full hf num

/-- A buffer full of zeros. -/
def zeros : Memory := ⟨List.replicate kSmallBufferSize 0, List.length_replicate⟩

/-- The smallest number of 64 bits, in an empty buffer. -/
theorem put_integer_exact_smallest : ∃ t, (new zeros).put (.long Int64.minValue) = some t ∧
    t.WellFormed ∧ ∃ text, t.toString = (new zeros).toString ++ text ∧
      Canonical text (-2 ^ 63) :=
  (put_integer_exact ⟨_, Buffer.Holds.new zeros⟩ rfl).1 (by decide)

end LogStream

end CkServer
