import CkServer.Verification.Log.Records
import Mathlib.Data.List.Count

/-! # The time in front of the log records

Of the nineteen bytes of the calendar time only seventeen are printed, so that the seconds are
missing. -/

namespace CkServer

open Text

/-! ## Numbers of a fixed width -/

theorem printZeros_natCast (width n : ℕ) :
    printZeros width n =
      List.replicate (width - (decimal n).length) (byte '0') ++ decimal n := rfl

theorem length_printZeros {width n : ℕ} (hwidth : 0 < width) (h : n < 10 ^ width) :
    (printZeros width n).length = width := by
  have hlength := length_decimal_le hwidth h
  rw [printZeros_natCast, List.length_append, List.length_replicate]
  omega

theorem isDigit_of_mem_printZeros {width n : ℕ} {b : UInt8} (hb : b ∈ printZeros width n) :
    isDigit b := by
  rw [printZeros_natCast, List.mem_append] at hb
  rcases hb with hzero | hdigit
  · rw [List.eq_of_mem_replicate hzero]
    decide
  · exact isDigit_of_mem_decimal hdigit

/-- Zeros in front of a number do not change it. -/
theorem decimal?_printZeros (width n : ℕ) : decimal? (printZeros width n) = some n := by
  have hne : printZeros width n ≠ [] := by
    rw [printZeros_natCast]
    exact List.append_ne_nil_of_right_ne_nil _ (decimal_ne_nil n)
  have hall : (printZeros width n).all isDigit := by
    rw [List.all_eq_true]
    exact fun b hb => isDigit_of_mem_printZeros hb
  have hzeros : ∀ k, (List.replicate k (byte '0')).foldl
      (fun n b => 10 * n + (b.toNat - 48)) 0 = 0 := by
    intro k
    induction k with
    | zero => rfl
    | succ k ih =>
        rw [List.replicate_succ, List.foldl_cons]
        exact ih
  have hdecimal := decimal?_decimal n
  rw [decimal?, if_pos ⟨decimal_ne_nil n, by
    rw [List.all_eq_true]
    exact fun b hb => isDigit_of_mem_decimal hb⟩] at hdecimal
  rw [decimal?, if_pos ⟨hne, hall⟩, printZeros_natCast, List.foldl_append, hzeros]
  exact hdecimal

theorem printZeros_injective {width m n : ℕ} (h : printZeros width m = printZeros width n) :
    m = n := by
  have hread := decimal?_printZeros width m
  rw [h, decimal?_printZeros] at hread
  exact (Option.some.inj hread).symm

/-! ## The calendar -/

/-- A calendar time with a year of four digits. A minute may have a leap second. -/
structure Tm.Valid (tm : Tm) : Prop where
  tm_year : 1000 ≤ tm.tm_year + 1900 ∧ tm.tm_year + 1900 ≤ 9999
  tm_mon : 0 ≤ tm.tm_mon ∧ tm.tm_mon ≤ 11
  tm_mday : 1 ≤ tm.tm_mday ∧ tm.tm_mday ≤ 31
  tm_hour : 0 ≤ tm.tm_hour ∧ tm.tm_hour ≤ 23
  tm_min : 0 ≤ tm.tm_min ∧ tm.tm_min ≤ 59
  tm_sec : 0 ≤ tm.tm_sec ∧ tm.tm_sec ≤ 60

/-- The fields of a time as they are printed, with the microseconds. -/
def Tm.fields (tm : Tm) (microseconds : ℤ) : List (List UInt8) :=
  [printWidth 4 (tm.tm_year + 1900), printZeros 2 (tm.tm_mon + 1), printZeros 2 tm.tm_mday,
    printZeros 2 tm.tm_hour, printZeros 2 tm.tm_min, printZeros 2 tm.tm_sec,
    printZeros 6 microseconds]

/-- The fields stand in the text in their order, with anything between them. -/
def Shows (text : List UInt8) (fields : List (List UInt8)) : Prop := fields.flatten.Sublist text

/-- The part of the calendar time up to the minutes. -/
def minuteText (tm : Tm) : List UInt8 :=
  printWidth 4 (tm.tm_year + 1900) ++ ascii "/" ++ printZeros 2 (tm.tm_mon + 1) ++ ascii "/" ++
    printZeros 2 tm.tm_mday ++ ascii " " ++ printZeros 2 tm.tm_hour ++ ascii ":" ++
    printZeros 2 tm.tm_min ++ ascii ":"

/-- A field of `width` digits. -/
structure Digits (width : ℕ) (text : List UInt8) : Prop where
  length : text.length = width
  digits : ∀ b ∈ text, isDigit b

theorem Digits.countP {width : ℕ} {text : List UInt8} (h : Digits width text) :
    text.countP isDigit = width := by
  rw [List.countP_eq_length.mpr h.digits, h.length]

theorem digits_printZeros {width : ℕ} {n : ℤ} (hwidth : 0 < width) (h : 0 ≤ n)
    (h' : n < 10 ^ width) : Digits width (printZeros width n) := by
  obtain ⟨k, rfl⟩ := Int.eq_ofNat_of_zero_le h
  have hk : k < 10 ^ width := by exact_mod_cast h'
  exact ⟨length_printZeros hwidth hk, fun b hb => isDigit_of_mem_printZeros hb⟩

/-- A year of four digits is printed without blanks. -/
theorem printWidth_year {y : ℤ} (h : 1000 ≤ y) (h' : y ≤ 9999) :
    printWidth 4 y = decimal y.toNat ∧ Digits 4 (printWidth 4 y) := by
  obtain ⟨n, rfl⟩ := Int.eq_ofNat_of_zero_le (Int.le_trans (by decide) h)
  have hle : (decimal n).length ≤ 4 := length_decimal_le (by decide) (by omega)
  have hgt : ¬ (decimal n).length ≤ 3 := by
    rw [decimal, List.length_map, Nat.length_toDigits_le_iff (by decide) (by decide)]
    omega
  have hprint : printWidth 4 (n : ℤ) = decimal n := by
    change List.replicate (4 - (decimal n).length) (byte ' ') ++ decimal n = decimal n
    rw [Nat.sub_eq_zero_of_le (by omega), List.replicate_zero, List.nil_append]
  refine ⟨hprint, ?_, ?_⟩
  · rw [hprint]
    omega
  · rw [hprint]
    exact fun b hb => isDigit_of_mem_decimal hb

theorem Tm.Valid.digits {tm : Tm} (h : tm.Valid) :
    Digits 4 (printWidth 4 (tm.tm_year + 1900)) ∧ Digits 2 (printZeros 2 (tm.tm_mon + 1)) ∧
      Digits 2 (printZeros 2 tm.tm_mday) ∧ Digits 2 (printZeros 2 tm.tm_hour) ∧
      Digits 2 (printZeros 2 tm.tm_min) ∧ Digits 2 (printZeros 2 tm.tm_sec) := by
  obtain ⟨hyear, hmon, hmday, hhour, hmin, hsec⟩ := h
  have htwo {n : ℤ} (hn : 0 ≤ n) (hn' : n ≤ 99) : Digits 2 (printZeros 2 n) :=
    digits_printZeros (by decide) hn (by omega)
  exact ⟨(printWidth_year hyear.1 hyear.2).2, htwo (by omega) (by omega),
    htwo (by omega) (by omega), htwo (by omega) (by omega), htwo (by omega) (by omega),
    htwo (by omega) (by omega)⟩

/-! ## The printed time -/

theorem countP_minuteText {tm : Tm} (h : tm.Valid) : (minuteText tm).countP isDigit = 12 := by
  obtain ⟨hyear, hmon, hmday, hhour, hmin, -⟩ := h.digits
  have hslash : (ascii "/").countP isDigit = 0 := by decide
  have hblank : (ascii " ").countP isDigit = 0 := by decide
  have hcolon : (ascii ":").countP isDigit = 0 := by decide
  simp only [minuteText, List.countP_append, hyear.countP, hmon.countP, hmday.countP, hhour.countP,
    hmin.countP, hslash, hblank, hcolon]

theorem length_minuteText {tm : Tm} (h : tm.Valid) : (minuteText tm).length = 17 := by
  obtain ⟨hyear, hmon, hmday, hhour, hmin, -⟩ := h.digits
  have hslash : (ascii "/").length = 1 := rfl
  have hblank : (ascii " ").length = 1 := rfl
  have hcolon : (ascii ":").length = 1 := rfl
  simp only [minuteText, List.length_append, hyear.length, hmon.length, hmday.length, hhour.length,
    hmin.length, hslash, hblank, hcolon]

theorem timerText_eq {tm : Tm} (h : tm.Valid) :
    timerText tm = minuteText tm ++ printZeros 2 tm.tm_sec := by
  obtain ⟨-, -, -, -, -, hsec⟩ := h.digits
  have hlength := length_minuteText h
  have htext : (minuteText tm ++ printZeros 2 tm.tm_sec).length ≤ 63 := by
    rw [List.length_append, hlength, hsec.length]
    decide
  rw [← List.take_of_length_le htext]
  rfl

/-- The seconds are cut off. -/
theorem take_timerText {tm : Tm} (h : tm.Valid) : (timerText tm).take 17 = minuteText tm := by
  rw [timerText_eq h]
  exact List.take_left' (length_minuteText h)

/-- `formatTime` prints this. -/
def timePrefix (tm : Tm) (microseconds : ℤ) : List UInt8 :=
  (timerText tm).take 17 ++ (microsecondsText microseconds).take 7

theorem not_shows_timePrefix {tm : Tm} (h : tm.Valid) (microseconds : ℤ) :
    ¬ Shows (timePrefix tm microseconds) (tm.fields microseconds) := by
  intro hshows
  obtain ⟨hyear, hmon, hmday, hhour, hmin, hsec⟩ := h.digits
  have hblank : (ascii " ").countP isDigit = 0 := by decide
  have hmicro : ((microsecondsText microseconds).take 7).countP isDigit ≤
      (printZeros 6 microseconds).countP isDigit := by
    have hsub : ((microsecondsText microseconds).take 7).Sublist
        (printZeros 6 microseconds ++ ascii " ") :=
      (List.take_sublist _ _).trans (List.take_sublist _ _)
    refine Nat.le_trans (hsub.countP_le (p := isDigit)) ?_
    rw [List.countP_append, hblank]
    exact Nat.le_refl _
  have hcount := hshows.countP_le (p := isDigit)
  rw [timePrefix, take_timerText h, List.countP_append, countP_minuteText h] at hcount
  simp only [Tm.fields, List.flatten_cons, List.flatten_nil, List.countP_append, List.countP_nil,
    hyear.countP, hmon.countP, hmday.countP, hhour.countP, hmin.countP, hsec.countP] at hcount
  omega

/-! ## What the printed time tells -/

/-- The same minute. -/
structure SameMinute (a b : Tm) : Prop where
  tm_year : a.tm_year = b.tm_year
  tm_mon : a.tm_mon = b.tm_mon
  tm_mday : a.tm_mday = b.tm_mday
  tm_hour : a.tm_hour = b.tm_hour
  tm_min : a.tm_min = b.tm_min

theorem printZeros_inj {width : ℕ} {m n : ℤ} (hm : 0 ≤ m) (hn : 0 ≤ n)
    (h : printZeros width m = printZeros width n) : m = n := by
  obtain ⟨i, rfl⟩ := Int.eq_ofNat_of_zero_le hm
  obtain ⟨j, rfl⟩ := Int.eq_ofNat_of_zero_le hn
  exact congrArg Int.ofNat (printZeros_injective h)

theorem minuteText_inj {a b : Tm} (ha : a.Valid) (hb : b.Valid) :
    minuteText a = minuteText b ↔ SameMinute a b := by
  constructor
  · intro h
    obtain ⟨hyear, hmon, hmday, hhour, hmin, -⟩ := ha.digits
    obtain ⟨hyear', hmon', hmday', hhour', hmin', -⟩ := hb.digits
    -- the fields have fixed widths, so they are split off from the end
    obtain ⟨h, heqmin⟩ := List.append_inj' (List.append_cancel_right h)
      (hmin.length.trans hmin'.length.symm)
    obtain ⟨h, heqhour⟩ := List.append_inj' (List.append_cancel_right h)
      (hhour.length.trans hhour'.length.symm)
    obtain ⟨h, heqmday⟩ := List.append_inj' (List.append_cancel_right h)
      (hmday.length.trans hmday'.length.symm)
    obtain ⟨h, heqmon⟩ := List.append_inj' (List.append_cancel_right h)
      (hmon.length.trans hmon'.length.symm)
    rw [List.append_cancel_right_eq, (printWidth_year ha.tm_year.1 ha.tm_year.2).1,
      (printWidth_year hb.tm_year.1 hb.tm_year.2).1] at h
    obtain ⟨hayear, hamon, hamday, hahour, hamin, -⟩ := ha
    obtain ⟨hbyear, hbmon, hbmday, hbhour, hbmin, -⟩ := hb
    have hy := decimal_injective h
    have hm := printZeros_inj (by omega) (by omega) heqmon
    exact ⟨by omega, by omega, printZeros_inj (by omega) (by omega) heqmday,
      printZeros_inj (by omega) (by omega) heqhour, printZeros_inj (by omega) (by omega) heqmin⟩
  · rintro ⟨hyear, hmon, hmday, hhour, hmin⟩
    rw [minuteText, minuteText, hyear, hmon, hmday, hhour, hmin]

theorem take_microsecondsText {n : ℤ} (h : 0 ≤ n) (h' : n < 10 ^ 6) :
    (microsecondsText n).take 7 = printZeros 6 n ++ ascii " " := by
  have hlength : (printZeros 6 n).length = 6 := (digits_printZeros (by decide) h h').length
  have hblank : (ascii " ").length = 1 := rfl
  have htotal : (printZeros 6 n ++ ascii " ").length = 7 := by
    rw [List.length_append, hlength, hblank]
  rw [microsecondsText, snprintf, List.take_of_length_le (i := 31) (by omega),
    List.take_of_length_le (by omega)]

theorem timePrefix_inj {a b : Tm} (ha : a.Valid) (hb : b.Valid) {m n : ℤ} (hm : 0 ≤ m)
    (hm' : m < 10 ^ 6) (hn : 0 ≤ n) (hn' : n < 10 ^ 6) :
    timePrefix a m = timePrefix b n ↔ SameMinute a b ∧ m = n := by
  rw [timePrefix, timePrefix, take_timerText ha, take_timerText hb, take_microsecondsText hm hm',
    take_microsecondsText hn hn', ← minuteText_inj ha hb]
  constructor
  · intro h
    obtain ⟨hminute, hmicro⟩ := List.append_inj h
      ((length_minuteText ha).trans (length_minuteText hb).symm)
    exact ⟨hminute, printZeros_inj hm hn (List.append_cancel_right hmicro)⟩
  · rintro ⟨hminute, rfl⟩
    rw [hminute]

namespace Logger

/-- The calendar time and the microseconds of a time stamp. -/
def calendar (system : LogSystem) (now : Int64) : Tm :=
  system.localtime (now.toInt.tdiv kMicroSecondsPerSecond)

def microseconds (now : Int64) : ℤ := now.toInt.tmod kMicroSecondsPerSecond

theorem microseconds_range {now : Int64} (h : 0 ≤ now.toInt) :
    0 ≤ microseconds now ∧ microseconds now < 10 ^ 6 :=
  ⟨Int.tmod_nonneg _ h, Int.tmod_lt_of_pos _ (by decide)⟩

/-- A time always fits into the empty buffer. -/
theorem formatTime_text (system : LogSystem) (memory : LogStream.Memory) (now : Int64) :
    ∃ s, formatTime system now (LogStream.new memory) = some s ∧
      s.toString = timePrefix (calendar system now) (microseconds now) := by
  have hcalendar := List.length_take_le 17 (timerText (calendar system now))
  have hmicro := List.length_take_le 7 (microsecondsText (microseconds now))
  generalize htm : calendar system now = tm at hcalendar ⊢
  generalize hus : microseconds now = us at hmicro ⊢
  have htime : formatTime system now (LogStream.new memory) =
      (LogStream.new memory).puts
        [.generalTemplate ⟨timerText tm, 17⟩, .generalTemplate ⟨microsecondsText us, 7⟩] := by
    rw [← htm, ← hus]
    rfl
  obtain ⟨s, hs, hholds⟩ := LogStream.puts_refines (LogStream.Buffer.Holds.new memory)
    [.generalTemplate ⟨timerText tm, 17⟩, .generalTemplate ⟨microsecondsText us, 7⟩]
  refine ⟨s, htime.trans hs, hholds.toString.trans ?_⟩
  have hempty : ({} : FixedBuffer kSmallBufferSize).avail = 4096 := rfl
  rw [FixedBuffer.puts_of_room]
  · simp [LogValue.rendering, GeneralTemplate.text, timePrefix]
  · simp [LogValue.number?]
  · simp only [hempty, List.flatMap_cons, List.flatMap_nil, List.length_append, List.length_nil,
      LogValue.rendering, GeneralTemplate.text]
    omega

/-- No time with a year of four digits is shown in full: the seconds are missing. Two records
begin with the same text exactly if they are from the same minute and have the same
microseconds. -/
theorem formatTime_omits_seconds (system : LogSystem) (memory : LogStream.Memory) (now : Int64)
    (h : (calendar system now).Valid) :
    ∃ s, formatTime system now (LogStream.new memory) = some s ∧
      ¬ Shows s.toString ((calendar system now).fields (microseconds now)) ∧
      ∀ memory' now' s', 0 ≤ now.toInt → 0 ≤ now'.toInt → (calendar system now').Valid →
        formatTime system now' (LogStream.new memory') = some s' →
          (s.toString = s'.toString ↔
            SameMinute (calendar system now) (calendar system now') ∧
              microseconds now = microseconds now') := by
  obtain ⟨s, hs, htext⟩ := formatTime_text system memory now
  refine ⟨s, hs, ?_, ?_⟩
  · rw [htext]
    exact not_shows_timePrefix h _
  · intro memory' now' s' hnow hnow' h' hs'
    obtain ⟨t, ht, htext'⟩ := formatTime_text system memory' now'
    obtain rfl := Option.some_inj.mp (ht.symm.trans hs')
    rw [htext, htext']
    exact timePrefix_inj h h' (microseconds_range hnow).1 (microseconds_range hnow).2
      (microseconds_range hnow').1 (microseconds_range hnow').2

theorem valid_firstDay : (calendar firstDay 0).Valid ∧ (calendar firstDay 1000000).Valid := by
  constructor
  · exact ⟨by decide, by decide, by decide, by decide, by decide, by decide⟩
  · exact ⟨by decide, by decide, by decide, by decide, by decide, by decide⟩

/-- Midnight. -/
theorem formatTime_omits_seconds_midnight : ∃ s,
    formatTime firstDay 0 (LogStream.new LogStream.zeros) = some s ∧
      ¬ Shows s.toString ((calendar firstDay 0).fields (microseconds 0)) := by
  obtain ⟨s, hs, hshows, -⟩ :=
    formatTime_omits_seconds firstDay LogStream.zeros 0 valid_firstDay.1
  exact ⟨s, hs, hshows⟩

/-- Two times that are a second apart. -/
theorem formatTime_same_text : (calendar firstDay 0).Valid ∧ (calendar firstDay 1000000).Valid ∧
    (calendar firstDay 0).tm_sec ≠ (calendar firstDay 1000000).tm_sec ∧
    ∃ s s', formatTime firstDay 0 (LogStream.new LogStream.zeros) = some s ∧
      formatTime firstDay 1000000 (LogStream.new LogStream.zeros) = some s' ∧
      s.toString = s'.toString ∧
      ¬ Shows s'.toString ((calendar firstDay 1000000).fields (microseconds 1000000)) := by
  obtain ⟨s, hs, htext⟩ := formatTime_text firstDay LogStream.zeros 0
  obtain ⟨s', hs', htext'⟩ := formatTime_text firstDay LogStream.zeros 1000000
  refine ⟨valid_firstDay.1, valid_firstDay.2, by decide, s, s', hs, hs', ?_, ?_⟩
  · rw [htext, htext']
    decide +kernel
  · rw [htext']
    exact not_shows_timePrefix valid_firstDay.2 _

end Logger

end CkServer
