import CkServer.Library.Machine
import CkServer.Model.FileUtil
import CkServer.Model.Format
import CkServer.Model.Integers
import Mathlib.Algebra.Group.Int.Defs

/-! # Log files

A record goes to the current file. Then the file may be rolled: for its size, and after every
`checkEveryN_` records for the day. The files are named by the local date. -/

namespace CkServer

open Text

def kRollPerSeconds_ : ℤ := 60 * 60 * 24

/-! ## Time zones -/

/-- The members of `struct tm` for a day. -/
structure Date where
  tm_year : ℤ
  tm_mon : ℤ
  tm_mday : ℤ

/-- The seconds by which the local clock is ahead, and the calendar, with 1970-01-01 as its day
0. -/
structure TimeZone where
  offset : ℤ
  calendar : ℤ → Date

namespace TimeZone

/-- The day on the local clock. -/
def day (zone : TimeZone) (now : ℤ) : ℤ := (now + zone.offset) / kRollPerSeconds_

def localtime_r (zone : TimeZone) (now : ℤ) : Tm :=
  let date := zone.calendar (zone.day now)
  let seconds := (now + zone.offset) % kRollPerSeconds_
  { tm_year := date.tm_year
    tm_mon := date.tm_mon
    tm_mday := date.tm_mday
    tm_hour := seconds / 3600
    tm_min := seconds / 60 % 60
    tm_sec := seconds % 60 }

end TimeZone

/-! ## Files -/

/-- `file_` is null before the first roll. Times are in seconds. -/
structure LogFile where
  basename_ : List UInt8
  rollsize_ : ℤ
  flushInterval_ : ℤ
  checkEveryN_ : ℤ
  count_ : ℤ
  startOfPeriod_ : ℤ := 0
  lastRoll_ : ℤ := 0
  lastFlush_ : ℤ := 0
  file_ : Option FileUtil := none

/-- A call of `append`: the record, the calls of `fwrite_unlocked`, the clock in `appendInlock`, and
the clock in `rollFile`, if it is called. -/
structure LogAppend where
  data : List UInt8
  writes : List Fwrite
  now : ℤ
  rollNow : ℤ

namespace LogFile

variable (localtime : ℤ → Tm)

def getLogFileName (basename : List UInt8) (now : ℤ) : FileName :=
  basename ++ strftime (localtime now) ++ ascii ".log"

/-- The start of the day of a time, in the time zone without an offset. -/
def period (now : ℤ) : ℤ := now.tdiv kRollPerSeconds_ * kRollPerSeconds_

def rollFile (l : LogFile) (disk : Disk) (now : ℤ) : LogFile × Disk :=
  let filename := getLogFileName localtime l.basename_ now
  let start := period now
  if now > l.lastRoll_ then
    let (file, disk) := FileUtil.new filename disk
    ({ l with
      lastFlush_ := now
      lastRoll_ := now
      startOfPeriod_ := start
      file_ := some file }, disk)
  else
    (l, disk)

/-- The constructor leaves `count_` as it finds it. -/
def new (basename : List UInt8) (rollsize flushInterval checkEveryN count now : ℤ) :
    LogFile × Disk :=
  rollFile localtime
    { basename_ := basename
      rollsize_ := rollsize
      flushInterval_ := flushInterval
      checkEveryN_ := checkEveryN
      count_ := count } (fun _ => none) now

/-- The second part of `appendInlock`. A flush leaves the contents as they are. -/
def checkFlush (l : LogFile) (now : ℤ) : LogFile :=
  if now - l.lastFlush_ > l.flushInterval_ then { l with lastFlush_ := now } else l

/-- The first part of `appendInlock` after the write to the file. -/
def checkRoll (l : LogFile) (disk : Disk) (file : FileUtil) (now rollNow : ℤ) : LogFile × Disk :=
  let l := { l with file_ := some file, count_ := increment l.count_ }
  if file.writtenBytes_ > l.rollsize_ then l.rollFile localtime disk rollNow
  else if l.count_ ≥ l.checkEveryN_ then
    let l := { l with count_ := 0 }
    if period now ≠ l.startOfPeriod_ then l.rollFile localtime disk rollNow else (l, disk)
  else
    (l, disk)

/-- It is `none` where `file_` is null, or the write does not end. -/
def appendInlock (l : LogFile) (disk : Disk) (a : LogAppend) : Option (LogFile × Disk) := do
  let file ← l.file_
  let (file, disk) ← file.append disk a.data a.writes
  let (l, disk) := l.checkRoll localtime disk file a.now a.rollNow
  return (l.checkFlush a.now, disk)

end LogFile

/-! ## Runs -/

/-- A record with the time of its call and the file that it has gone to. -/
structure LoggedRecord where
  data : List UInt8
  now : ℤ
  file : FileName

/-- A log file with the disk, the last time that it has read, and the records so far. The last
field tells that a null pointer has been dereferenced. -/
structure LogFileState where
  log : LogFile
  disk : Disk
  clock : ℤ
  records : List LoggedRecord := []
  faulted : Bool := false

namespace LogFileState

def start (localtime : ℤ → Tm) (basename : List UInt8)
    (rollsize flushInterval checkEveryN count now : ℤ) : LogFileState :=
  let (log, disk) := LogFile.new localtime basename rollsize flushInterval checkEveryN count now
  { log := log, disk := disk, clock := now }

def next (localtime : ℤ → Tm) (s : LogFileState) (a : LogAppend) : LogFileState :=
  match s.log.file_, s.log.appendInlock localtime s.disk a with
  | some file, some (log, disk) =>
      { s with
        log := log
        disk := disk
        clock := a.rollNow
        records := s.records ++ [⟨a.data, a.now, file.file_⟩] }
  | _, _ => { s with clock := a.rollNow, faulted := true }

/-- The clock does not go back, and the write ends. -/
def Enabled (s : LogFileState) (a : LogAppend) : Prop :=
  s.clock ≤ a.now ∧ a.now ≤ a.rollNow ∧ (FileUtil.write a.data a.writes 0).isSome

instance (s : LogFileState) (a : LogAppend) : Decidable (s.Enabled a) :=
  inferInstanceAs (Decidable (s.clock ≤ a.now ∧ a.now ≤ a.rollNow ∧
    (FileUtil.write a.data a.writes 0).isSome))

end LogFileState

/-- The machine of a log file. -/
def logFile (localtime : ℤ → Tm) : Machine LogFileState LogAppend where
  enabled := LogFileState.Enabled
  next := LogFileState.next localtime

instance (localtime : ℤ → Tm) (s : LogFileState) (a : LogAppend) :
    Decidable ((logFile localtime).enabled s a) :=
  inferInstanceAs (Decidable (s.Enabled a))

end CkServer
