import CkServer.Model.Logger
import CkServer.Verification.Log.Pieces

/-! # The ends of the log records

Whether the newline of a record fits depends on the bytes that are free before its suffix. -/

namespace CkServer

open Text

/-- The free bytes after a string of `len` bytes. -/
def freeAfter (avail len : ℕ) : ℕ := if len < avail then avail - len else avail

namespace FixedBuffer

variable {buffer_size : ℕ} {f : FixedBuffer buffer_size} {v : LogValue}

theorem avail_append (f : FixedBuffer buffer_size) (buf : List UInt8) :
    (f.append buf).avail = freeAfter f.avail buf.length := by
  by_cases hfits : buf.length < f.avail
  · rw [freeAfter, if_pos hfits, avail, length, data_append hfits, List.length_append, avail,
      length]
    omega
  · rw [freeAfter, if_neg hfits, append_of_le (Nat.not_lt.mp hfits)]

theorem put_string (f : FixedBuffer buffer_size) (h : v.number? = none) :
    f.put v = f.append v.rendering := by
  rw [put, if_pos (.inl h)]

/-- Strings that fit together are all present. -/
theorem puts_of_room {values : List LogValue} (hstrings : ∀ v ∈ values, v.number? = none)
    (h : (values.flatMap LogValue.rendering).length < f.avail) :
    (f.puts values).data_ = f.data_ ++ values.flatMap LogValue.rendering := by
  induction values generalizing f with
  | nil => rw [puts_nil, List.flatMap_nil, List.append_nil]
  | cons v values ih =>
      rw [List.flatMap_cons, List.length_append] at h
      have hput := put_string f (hstrings v List.mem_cons_self)
      have hfits : v.rendering.length < f.avail := by omega
      have hrest : (values.flatMap LogValue.rendering).length < (f.put v).avail := by
        rw [hput, avail_append, freeAfter, if_pos hfits]
        omega
      rw [puts_cons, ih (fun w hw => hstrings w (List.mem_cons_of_mem _ hw)) hrest, hput,
        data_append hfits, List.append_assoc, List.flatMap_cons]

/-- A number leaves more than one byte where there has been more than one. -/
theorem one_lt_avail_put_number {num : ℤ} (h : v.number? = some num)
    (hrendering : v.rendering = printInt num) : 1 < (f.put v).avail ↔ 1 < f.avail := by
  have hlength := LogStream.length_printInt_le (LogValue.natAbs_lt h)
  have hmax : LogStream.kMaxNumberSize = 32 := rfl
  by_cases hroom : LogStream.kMaxNumberSize ≤ f.avail
  · rw [put, if_pos (.inr hroom), avail_append, hrendering, freeAfter, if_pos (by omega)]
    omega
  · rw [put, h, if_neg (by simp [hroom])]

theorem one_lt_freeAfter_one (avail : ℕ) : 1 < freeAfter avail 1 ↔ 2 < avail := by
  rw [freeAfter]
  split <;> omega

end FixedBuffer

namespace Logger

variable {system : LogSystem} {memory : LogStream.Memory} {now : Int64} {filename : List UInt8}
  {line : Int32} {level : LogLevel} {l : Logger} {f : FixedBuffer kSmallBufferSize}

/-! ## The text of a record -/

theorem puts_refines (h : l.stream_.buffer_.Holds f) (values : List LogValue) :
    ∃ t, l.puts values = some { l with stream_ := t } ∧ t.buffer_.Holds (f.puts values) := by
  obtain ⟨t, ht, hholds⟩ := LogStream.puts_refines h values
  exact ⟨t, by rw [puts, ht, Option.map_some], hholds⟩

/-- What the constructor prints. -/
def opening (system : LogSystem) (now : Int64) (level : LogLevel) (savedErrno : Int32) :
    List LogValue :=
  [.generalTemplate ⟨timerText (system.localtime (now.toInt.tdiv kMicroSecondsPerSecond)), 17⟩,
    .generalTemplate ⟨microsecondsText (now.toInt.tmod kMicroSecondsPerSecond), 7⟩,
    .generalTemplate ⟨getLevelName level, 6⟩] ++ errorValues system savedErrno

theorem newImpl_refines (system : LogSystem) (memory : LogStream.Memory) (now : Int64)
    (level : LogLevel) (savedErrno : Int32) (filename : List UInt8) (line : Int32) :
    ∃ l, newImpl system memory now level savedErrno filename line = some l ∧
      l.stream_.buffer_.Holds (({} : FixedBuffer kSmallBufferSize).puts
        (opening system now level savedErrno)) ∧
      l.level_ = level ∧ l.line_ = line ∧ l.basename_ = .new filename := by
  obtain ⟨s, hs, hholds⟩ := LogStream.puts_refines (LogStream.Buffer.Holds.new memory)
    [.generalTemplate ⟨timerText (system.localtime (now.toInt.tdiv kMicroSecondsPerSecond)), 17⟩,
      .generalTemplate ⟨microsecondsText (now.toInt.tmod kMicroSecondsPerSecond), 7⟩]
  obtain ⟨t, ht, hholds⟩ := LogStream.put_refines hholds (.generalTemplate ⟨getLevelName level, 6⟩)
  obtain ⟨u, hu, hholds⟩ := LogStream.puts_refines hholds (errorValues system savedErrno)
  refine ⟨⟨u, level, line, .new filename⟩, ?_, ?_, rfl, rfl, rfl⟩
  · rw [newImpl, formatTime]
    simp only [hs, ht, hu, Option.bind_eq_bind, Option.bind_some]
    rfl
  · simp only [opening, FixedBuffer.puts_append, FixedBuffer.puts_cons, FixedBuffer.puts_nil]
    simpa only [FixedBuffer.puts_cons, FixedBuffer.puts_nil] using hholds

/-! ## The newline -/

/-- The newline of `finish` stands behind what has been printed before it. -/
def Terminated (l : Logger) : Prop :=
  ∃ m e, l.puts l.place = some m ∧ l.destroy = some e ∧
    e.output = m.stream_.toString ++ [byte '\n']

theorem destroy_refines (h : l.stream_.buffer_.Holds f) :
    ∃ e, l.destroy = some e ∧ e.output = ((f.puts l.place).put (.char (byte '\n'))).data_ ∧
      (e.aborted = true ↔ l.level_ = .FATAL) := by
  obtain ⟨t, ht, hholds⟩ := puts_refines h (l.place ++ [.char (byte '\n')])
  rw [FixedBuffer.puts_append, FixedBuffer.puts_cons, FixedBuffer.puts_nil] at hholds
  refine ⟨⟨t.toString, l.level_ = .FATAL⟩, ?_, hholds.toString, by simp⟩
  rw [destroy, finish, ht]
  rfl

theorem terminated_iff_avail (h : l.stream_.buffer_.Holds f) :
    l.Terminated ↔ 1 < (f.puts l.place).avail := by
  obtain ⟨t, ht, hholds⟩ := puts_refines h l.place
  obtain ⟨e, he, houtput, -⟩ := destroy_refines h
  have htext : t.toString = _ := hholds.toString
  have hnewline : (LogValue.char (byte '\n')).rendering = [byte '\n'] := rfl
  rw [FixedBuffer.put_string _ rfl, hnewline] at houtput
  have hiff : l.Terminated ↔ e.output = t.toString ++ [byte '\n'] := by
    constructor
    · rintro ⟨m, e', hm, he', heq⟩
      obtain rfl := Option.some_inj.mp (hm.symm.trans ht)
      obtain rfl := Option.some_inj.mp (he'.symm.trans he)
      exact heq
    · intro heq
      exact ⟨_, e, ht, he, heq⟩
  rw [hiff, houtput, htext]
  constructor
  · intro heq
    by_contra hfull
    have hle : _ ≤ [byte '\n'].length := Nat.not_lt.mp hfull
    rw [FixedBuffer.append_of_le hle] at heq
    have hlength := congrArg List.length heq
    rw [List.length_append] at hlength
    exact absurd hlength (by simp)
  · intro hfits
    have hlt : [byte '\n'].length < _ := hfits
    exact FixedBuffer.data_append hlt

/-- The suffix is three bytes, the file name, a colon and the line number. -/
theorem avail_place (f : FixedBuffer kSmallBufferSize) (hname : l.basename_ = .new filename) :
    1 < (f.puts l.place).avail ↔ 2 < freeAfter (freeAfter f.avail 3) l.basename_.size_ := by
  have hsize : (l.basename_.data_.take l.basename_.size_).length = l.basename_.size_ := by
    rw [hname]
    exact List.length_take_of_le (Nat.le_refl _)
  have hdash : (f.put (.cString (ascii " - "))).avail = freeAfter f.avail 3 := by
    rw [FixedBuffer.put_string _ rfl, FixedBuffer.avail_append]
    rfl
  have hline : (LogValue.int l.line_).number? = some l.line_.toInt := rfl
  rw [place, FixedBuffer.puts_cons, FixedBuffer.puts_cons, FixedBuffer.puts_cons,
    FixedBuffer.puts_cons, FixedBuffer.puts_nil,
    FixedBuffer.one_lt_avail_put_number hline rfl,
    FixedBuffer.put_string _ rfl, FixedBuffer.avail_append]
  change 1 < freeAfter _ 1 ↔ _
  rw [FixedBuffer.one_lt_freeAfter_one, FixedBuffer.put_string _ rfl, FixedBuffer.avail_append,
    hdash]
  change 2 < freeAfter _ (l.basename_.data_.take l.basename_.size_).length ↔ _
  rw [hsize]

theorem terminated_iff (h : l.stream_.buffer_.Holds f) (hname : l.basename_ = .new filename) :
    l.Terminated ↔ 2 < freeAfter (freeAfter f.avail 3) l.basename_.size_ :=
  (terminated_iff_avail h).trans (avail_place f hname)

theorem record_refines (system : LogSystem) (memory : LogStream.Memory) (now : Int64)
    (filename : List UInt8) (line : Int32) (level : LogLevel) (values : List LogValue) :
    ∃ l, ((new system memory now filename line level).bind fun l => l.puts values) = some l ∧
      l.stream_.buffer_.Holds (({} : FixedBuffer kSmallBufferSize).puts
        (opening system now level 0 ++ values)) ∧ l.basename_ = .new filename := by
  obtain ⟨l, hl, hholds, -, -, hname⟩ := newImpl_refines system memory now level 0 filename line
  obtain ⟨t, ht, hholds⟩ := puts_refines hholds values
  rw [← FixedBuffer.puts_append] at hholds
  exact ⟨{ l with stream_ := t }, by rw [new, hl, Option.bind_some, ht], hholds, hname⟩

/-- A record ends with its newline exactly if more than two bytes are free after the dash, if it
fits, and the file name, if it fits. -/
theorem terminated_iff_room (system : LogSystem) (memory : LogStream.Memory) (now : Int64)
    (filename : List UInt8) (line : Int32) (level : LogLevel) (values : List LogValue) :
    ∃ l, ((new system memory now filename line level).bind fun l => l.puts values) = some l ∧
      (l.Terminated ↔
        2 < freeAfter (freeAfter l.stream_.buffer_.avail 3) l.basename_.size_) := by
  obtain ⟨l, hl, hholds, hname⟩ := record_refines system memory now filename line level values
  refine ⟨l, hl, ?_⟩
  rw [hholds.avail]
  exact terminated_iff hholds hname

/-- The calendar of the first day, in a time zone without an offset. -/
def firstDay : LogSystem where
  localtime seconds :=
    { tm_year := 70, tm_mon := 0, tm_mday := 1, tm_hour := seconds / 3600,
      tm_min := seconds / 60 % 60, tm_sec := seconds % 60 }
  strerror_r _ := []

/-- A message that leaves one byte: nothing of the suffix is printed. -/
def longMessage : List UInt8 := List.replicate 4065 (byte 'x')

theorem not_terminated_longMessage : ∃ l,
    ((new firstDay LogStream.zeros 0 (ascii "test.cpp") 1 .INFO).bind fun l =>
      l.puts [.string longMessage]) = some l ∧ ¬ l.Terminated := by
  obtain ⟨l, hl, hholds, hname⟩ := record_refines firstDay LogStream.zeros 0 (ascii "test.cpp") 1
    .INFO [.string longMessage]
  refine ⟨l, hl, ?_⟩
  have hopening : (({} : FixedBuffer kSmallBufferSize).puts (opening firstDay 0 .INFO 0)).avail =
      4066 := by
    decide +kernel
  have hmessage : (LogValue.string longMessage).rendering.length = 4065 := List.length_replicate
  have hsize : l.basename_.size_ = 8 := by
    rw [hname]
    decide
  rw [terminated_iff hholds hname, hsize, FixedBuffer.puts_append, FixedBuffer.puts_cons,
    FixedBuffer.puts_nil, FixedBuffer.put_string _ rfl, FixedBuffer.avail_append, hopening,
    hmessage]
  decide

end Logger

end CkServer
