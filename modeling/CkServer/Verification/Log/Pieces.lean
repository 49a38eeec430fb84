import CkServer.Verification.Log.Integers
import Mathlib.Data.List.Induction

/-! # The contents of a log stream

A stream refines a buffer of a fixed size that is seen as a text: a value that does not fit is
left out, and the others stand in it one after another. -/

namespace CkServer

open Text

/-! ## Values in a text -/

/-- What a value prints. -/
def LogValue.rendering (v : LogValue) : List UInt8 :=
  match v with
  | .append buffer => buffer
  | .bool express => if express then ascii "true" else ascii "false"
  | .char str => [str]
  | .cString str => cStr str
  | .unsignedCString str => cStr str
  | .string str => str
  | .generalTemplate g => g.text
  | v => (v.number?.map printInt).getD []

namespace FixedBuffer

variable {buffer_size : ℕ}

/-- The test of the room depends on the kind of the value. -/
def put (f : FixedBuffer buffer_size) (v : LogValue) : FixedBuffer buffer_size :=
  if v.number? = none ∨ LogStream.kMaxNumberSize ≤ f.avail then f.append v.rendering else f

def puts (f : FixedBuffer buffer_size) (values : List LogValue) : FixedBuffer buffer_size :=
  values.foldl put f

@[simp] theorem puts_nil (f : FixedBuffer buffer_size) : f.puts [] = f := rfl

theorem puts_cons (f : FixedBuffer buffer_size) (v : LogValue) (values : List LogValue) :
    f.puts (v :: values) = (f.put v).puts values := rfl

theorem puts_append (f : FixedBuffer buffer_size) (xs ys : List LogValue) :
    f.puts (xs ++ ys) = (f.puts xs).puts ys := List.foldl_append

theorem append_of_le {f : FixedBuffer buffer_size} {buf : List UInt8} (h : f.avail ≤ buf.length) :
    f.append buf = f := dif_neg (Nat.not_lt.mpr h)

/-- A value is wholly present, or it is left out, a string only if it would not leave a byte. -/
theorem put_data (f : FixedBuffer buffer_size) (v : LogValue) :
    (f.put v).data_ = f.data_ ++ v.rendering ∨
      f.put v = f ∧ (v.number? = none → f.avail ≤ v.rendering.length) := by
  by_cases hroom : v.number? = none ∨ LogStream.kMaxNumberSize ≤ f.avail
  · rw [put, if_pos hroom]
    by_cases hfits : v.rendering.length < f.avail
    · exact .inl (data_append hfits)
    · exact .inr ⟨append_of_le (Nat.not_lt.mp hfits), fun _ => Nat.not_lt.mp hfits⟩
  · rw [put, if_neg hroom]
    exact .inr ⟨rfl, fun hv => absurd (.inl hv) hroom⟩

/-- At least one byte stays free. -/
theorem length_put_lt {f : FixedBuffer buffer_size} (h : f.length < buffer_size) (v : LogValue) :
    (f.put v).length < buffer_size := by
  by_cases hroom : v.number? = none ∨ LogStream.kMaxNumberSize ≤ f.avail
  · rw [put, if_pos hroom]
    by_cases hfits : v.rendering.length < f.avail
    · rw [length, data_append hfits, List.length_append]
      rw [avail, length] at hfits
      omega
    · rwa [append_of_le (Nat.not_lt.mp hfits)]
  · rwa [put, if_neg hroom]

theorem length_puts_lt {f : FixedBuffer buffer_size} (h : f.length < buffer_size)
    (values : List LogValue) : (f.puts values).length < buffer_size := by
  induction values generalizing f with
  | nil => exact h
  | cons v values ih => exact ih (length_put_lt h v)

/-- Induction on the values from the last one. -/
theorem puts_data (values : List LogValue) :
    ∃ kept : List LogValue, kept.Sublist values ∧
      (({} : FixedBuffer buffer_size).puts values).data_ = kept.flatMap LogValue.rendering := by
  induction values using List.reverseRecOn with
  | nil => exact ⟨[], List.Sublist.refl _, rfl⟩
  | append_singleton values v ih =>
      obtain ⟨kept, hkept, hdata⟩ := ih
      rw [puts_append]
      rcases put_data (({} : FixedBuffer buffer_size).puts values) v with hnew | ⟨hsame, -⟩
      · refine ⟨kept ++ [v], hkept.append (List.Sublist.refl _), ?_⟩
        rw [puts_cons, puts_nil, hnew, hdata, List.flatMap_append, List.flatMap_singleton]
      · refine ⟨kept, hkept.trans (List.sublist_append_left _ _), ?_⟩
        rw [puts_cons, puts_nil, hsame, hdata]

end FixedBuffer

/-! ## The stream -/

namespace LogStream

variable {s : LogStream} {f : FixedBuffer kSmallBufferSize}

theorem append_refines (h : s.buffer_.Holds f) (buf : List UInt8) :
    ∃ t, s.append buf = some t ∧ t.buffer_.Holds (f.append buf) := by
  obtain ⟨b, hb, hholds⟩ := h.append buf
  exact ⟨⟨b⟩, by rw [append, hb, Option.map_some], hholds⟩

theorem formatInteger_refines (h : s.buffer_.Holds f) {v : LogValue} {num : ℤ}
    (hv : v.number? = some num) :
    ∃ t, s.formatInteger num = some t ∧
      t.buffer_.Holds (if kMaxNumberSize ≤ f.avail then f.append (printInt num) else f) := by
  by_cases hroom : kMaxNumberSize ≤ f.avail
  · rw [if_pos hroom]
    exact formatInteger_of_room h (LogValue.natAbs_lt hv) hroom
  · rw [if_neg hroom]
    exact ⟨s, formatInteger_of_full h num (Nat.not_le.mp hroom), h⟩

/-- The step lemma: all the writes of a value are in the buffer. -/
theorem put_refines (h : s.buffer_.Holds f) (v : LogValue) :
    ∃ t, s.put v = some t ∧ t.buffer_.Holds (f.put v) := by
  cases hv : v.number? with
  | some num =>
      have hrendering : v.rendering = printInt num := by
        cases v <;> simp only [LogValue.number?, Option.some_inj, reduceCtorEq] at hv
        all_goals
          subst hv
          rfl
      obtain ⟨t, ht, hholds⟩ := formatInteger_refines h hv
      refine ⟨t, by rw [s.put_number hv, ht], ?_⟩
      rw [FixedBuffer.put, hv, hrendering]
      simpa only [reduceCtorEq, false_or] using hholds
  | none =>
      have hput : f.put v = f.append v.rendering := by
        rw [FixedBuffer.put, if_pos (.inl hv)]
      have happend : s.put v = s.append v.rendering := by
        cases v <;> simp only [LogValue.number?, reduceCtorEq] at hv
        all_goals rfl
      rw [hput, happend]
      exact append_refines h v.rendering

theorem puts_refines (h : s.buffer_.Holds f) (values : List LogValue) :
    ∃ t, s.puts values = some t ∧ t.buffer_.Holds (f.puts values) := by
  induction values generalizing s f with
  | nil => exact ⟨s, rfl, h⟩
  | cons v values ih =>
      obtain ⟨t, ht, hholds⟩ := put_refines h v
      obtain ⟨u, hu, hholds'⟩ := ih hholds
      refine ⟨u, ?_, hholds'⟩
      rw [puts, List.foldlM_cons, ht]
      exact hu

/-- In every sequence of values each one is wholly present or absent, and all writes are in the
buffer. -/
theorem puts_complete (memory : Memory) (values : List LogValue) :
    ∃ s, (new memory).puts values = some s ∧ s.toString.length ≤ kSmallBufferSize - 1 ∧
      (∃ kept : List LogValue, kept.Sublist values ∧ s.toString = kept.flatMap LogValue.rendering) ∧
      ∀ before v after, values = before ++ v :: after →
        ∃ b t, (new memory).puts before = some b ∧ b.put v = some t ∧
          (t.toString = b.toString ++ v.rendering ∨ t.toString = b.toString ∧
            (v.number? = none →
              kSmallBufferSize ≤ b.toString.length + v.rendering.length)) := by
  have hnew := Buffer.Holds.new memory
  have hempty : ({} : FixedBuffer kSmallBufferSize).length < kSmallBufferSize := by decide
  obtain ⟨s, hs, hholds⟩ := puts_refines hnew values
  have hpieces : ∃ kept : List LogValue, kept.Sublist values ∧
      (({} : FixedBuffer kSmallBufferSize).puts values).data_ = kept.flatMap LogValue.rendering :=
    FixedBuffer.puts_data values
  obtain ⟨kept, hkept, hdata⟩ := hpieces
  refine ⟨s, hs, ?_, ⟨kept, hkept, hholds.toString.trans hdata⟩, ?_⟩
  · have hlt := FixedBuffer.length_puts_lt hempty values
    have htext : s.toString = _ := hholds.toString
    rw [htext]
    exact Nat.le_sub_one_of_lt hlt
  · intro before v after _
    obtain ⟨b, hb, hbholds⟩ := puts_refines hnew before
    obtain ⟨t, ht, htholds⟩ := put_refines hbholds v
    have hbtext : b.toString = _ := hbholds.toString
    have httext : t.toString = _ := htholds.toString
    refine ⟨b, t, hb, ht, ?_⟩
    rw [hbtext, httext]
    rcases FixedBuffer.put_data (({} : FixedBuffer kSmallBufferSize).puts before) v with
      hpresent | ⟨hsame, habsent⟩
    · exact .inl hpresent
    · refine .inr ⟨by rw [hsame], fun hv => ?_⟩
      have hfull := habsent hv
      rw [FixedBuffer.avail, FixedBuffer.length] at hfull
      omega

end LogStream

end CkServer
