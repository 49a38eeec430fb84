import CkServer.Model.Format
import CkServer.Model.LogStream

/-! # Loggers

A logger prints the time and its level when it is constructed, then the values that it gets, and
at its end the place in the source. -/

namespace CkServer

open Text

/-- What a logger gets from the system: the calendar of its time zone, and texts for errors. -/
structure LogSystem where
  localtime : ℤ → Tm
  strerror_r : Int32 → List UInt8

def kMicroSecondsPerSecond : ℤ := 1000 * 1000

/-- The file name without its directories. -/
structure SourceFile where
  data_ : List UInt8
  size_ : ℕ

def SourceFile.new (filename : List UInt8) : SourceFile :=
  let data_ := ((cStr filename).reverse.takeWhile (· ≠ byte '/')).reverse
  { data_ := data_, size_ := data_.length }

inductive LogLevel where
  | TRACE
  | DEBUG
  | INFO
  | WARN
  | ERROR
  | FATAL
  deriving DecidableEq

def getLevelName : LogLevel → List UInt8
  | .TRACE => ascii "TRACE "
  | .DEBUG => ascii "DEBUG "
  | .INFO => ascii "INFO  "
  | .WARN => ascii "WARN  "
  | .ERROR => ascii "ERROR "
  | .FATAL => ascii "FATAL "

/-- The text in `t_timer`. -/
def timerText (tm_timer : Tm) : List UInt8 :=
  snprintf 64 (printWidth 4 (tm_timer.tm_year + 1900) ++ ascii "/" ++
    printZeros 2 (tm_timer.tm_mon + 1) ++ ascii "/" ++ printZeros 2 tm_timer.tm_mday ++ ascii " " ++
    printZeros 2 tm_timer.tm_hour ++ ascii ":" ++ printZeros 2 tm_timer.tm_min ++ ascii ":" ++
    printZeros 2 tm_timer.tm_sec)

def microsecondsText (microseconds : ℤ) : List UInt8 :=
  snprintf 32 (printZeros 6 microseconds ++ ascii " ")

/-- `Logger::Impl`. -/
structure Logger where
  stream_ : LogStream
  level_ : LogLevel
  line_ : Int32
  basename_ : SourceFile

namespace Logger

/-- The time `now` is in microseconds. -/
def formatTime (system : LogSystem) (now : Int64) (stream_ : LogStream) : Option LogStream :=
  let seconds := now.toInt.tdiv kMicroSecondsPerSecond
  let microseconds := now.toInt.tmod kMicroSecondsPerSecond
  let t_timer := timerText (system.localtime seconds)
  let buf := microsecondsText microseconds
  stream_.puts [.generalTemplate ⟨t_timer, 17⟩, .generalTemplate ⟨buf, 7⟩]

/-- What is printed about an error. -/
def errorValues (system : LogSystem) (savedErrno : Int32) : List LogValue :=
  if savedErrno ≠ 0 then
    [.cString (system.strerror_r savedErrno), .cString (ascii " (errno="), .int savedErrno,
      .cString (ascii ") ")]
  else []

/-- The constructor of `Logger::Impl`. -/
def newImpl (system : LogSystem) (memory : LogStream.Memory) (now : Int64) (level : LogLevel)
    (savedErrno : Int32) (filename : List UInt8) (line : Int32) : Option Logger := do
  let stream_ ← formatTime system now (LogStream.new memory)
  let stream_ ← stream_.put (.generalTemplate ⟨getLevelName level, 6⟩)
  let stream_ ← stream_.puts (errorValues system savedErrno)
  return { stream_ := stream_, level_ := level, line_ := line, basename_ := .new filename }

def new (system : LogSystem) (memory : LogStream.Memory) (now : Int64) (filename : List UInt8)
    (line : Int32) (level : LogLevel) : Option Logger :=
  newImpl system memory now level 0 filename line

/-- The values are put into `stream()`. -/
def puts (l : Logger) (values : List LogValue) : Option Logger :=
  (l.stream_.puts values).map fun stream_ => { l with stream_ := stream_ }

/-- The place in the source, as `finish` prints it. -/
def place (l : Logger) : List LogValue :=
  [.cString (ascii " - "), .generalTemplate ⟨l.basename_.data_, l.basename_.size_⟩,
    .char (byte ':'), .int l.line_]

def finish (l : Logger) : Option Logger := l.puts (l.place ++ [.char (byte '\n')])

/-- What the destructor does: `g_output` gets the text, and a fatal logger ends the program after a
call of `g_flush`. -/
structure Ended where
  output : List UInt8
  aborted : Bool

/-- The destructor. -/
def destroy (l : Logger) : Option Ended := do
  let l ← l.finish
  return { output := l.stream_.toString, aborted := l.level_ = .FATAL }

end Logger

end CkServer
