import CkServer.Library.Machine
import CkServer.Model.FixedBuffer
import Mathlib.Logic.Function.Basic

/-! # Asynchronous logging

The front-end threads `ι` call `append`, any thread calls `start` and `stop`, and the back-end
thread runs `threadFunc`. A step is a section under `mutex_`, an access to `running_`, or a call of
`LogFile::append`. -/

namespace CkServer

universe u

abbrev LargeBuffer := FixedBuffer kLargeBufferSize

/-- `std::unique_ptr<LargeBuffer>`. -/
abbrev BufferPtr := Option LargeBuffer

/-- Where the back-end thread is. -/
inductive BackEndPc where
  | notStarted
  /-- `start` has stored `running_`, and the thread does not run yet. -/
  | starting
  /-- Before the test of `running_`. -/
  | testing
  | locking
  /-- In `wait_for`, which has given up the mutex. -/
  | waiting
  /-- In the loop over `buffersToWrite`, or behind it. -/
  | writing
  | returned
  deriving DecidableEq

/-- The state. `output` has the bytes that have been passed to `LogFile::append`, `position` is the
iterator of the loop over `buffersToWrite`, and `faulted` tells that a null pointer has been
dereferenced, or the last element of an empty vector. The last fields are history: the records in
the order in which the calls of `append` took the mutex, the calls that are about to return, the
numbers of the records whose calls have returned, and the ones of these at the calls of `stop`. -/
structure AsyncLogging (ι : Type u) where
  running_ : Bool := false
  currentBuffer_ : BufferPtr := some {}
  nextBuffer_ : BufferPtr := some {}
  buffers_ : List BufferPtr := []
  newbuffer1 : BufferPtr := some {}
  newbuffer2 : BufferPtr := some {}
  buffersToWrite : List BufferPtr := []
  position : ℕ := 0
  pc : BackEndPc := .notStarted
  output : List UInt8 := []
  faulted : Bool := false
  records : List (List UInt8) := []
  callers : ι → Option ℕ := fun _ => none
  returned : List ℕ := []
  promised : List ℕ := []

inductive LogAction (ι : Type u) where
  /-- The section of `append`. -/
  | append (i : ι) (logline : List UInt8)
  | appendReturns (i : ι)
  /-- The store of `start`. -/
  | start
  /-- The thread runs. -/
  | spawn
  | stop
  /-- The test of `running_`. -/
  | test
  /-- The section under the mutex up to the wait, or up to its end. -/
  | lock
  /-- The end of the wait, and the rest of the section. -/
  | wake
  /-- The next buffer is passed to `LogFile::append`. -/
  | write
  /-- What comes after the loop over `buffersToWrite`. -/
  | recycle

namespace AsyncLogging

variable {ι : Type u}

/-- The text of a buffer. -/
def text : BufferPtr → List UInt8
  | some b => b.data_
  | none => []

/-! ## The front end -/

/-- The section of `append`. -/
def appendInSection (s : AsyncLogging ι) (logline : List UInt8) : AsyncLogging ι :=
  match s.currentBuffer_ with
  | some current =>
      if current.avail > logline.length then
        { s with currentBuffer_ := some (current.append logline) }
      else
        let fresh : LargeBuffer := s.nextBuffer_.getD {}
        { s with
          buffers_ := s.buffers_ ++ [s.currentBuffer_]
          currentBuffer_ := some (fresh.append logline)
          nextBuffer_ := none }
  | none => { s with faulted := true }

/-! ## The back end -/

/-- The section of `threadFunc` after the wait. -/
def swap (s : AsyncLogging ι) : AsyncLogging ι :=
  { s with
    currentBuffer_ := s.newbuffer1
    newbuffer1 := none
    nextBuffer_ := if s.nextBuffer_.isNone then s.newbuffer2 else s.nextBuffer_
    newbuffer2 := if s.nextBuffer_.isNone then none else s.newbuffer2
    buffersToWrite := s.buffers_ ++ [s.currentBuffer_]
    buffers_ := s.buffersToWrite
    position := 0
    pc := .writing }

/-- A missing new buffer is taken from the end of `buffersToWrite`. -/
def refill (newbuffer : BufferPtr) (buffersToWrite : List BufferPtr) :
    Option (BufferPtr × List BufferPtr) :=
  match newbuffer with
  | some b => some (some b, buffersToWrite)
  | none =>
      match buffersToWrite.getLast? with
      | some (some b) => some (some b.reset, buffersToWrite.dropLast)
      | _ => none

def recycle (s : AsyncLogging ι) : AsyncLogging ι :=
  let buffersToWrite := s.buffersToWrite.take 2
  match refill s.newbuffer1 buffersToWrite with
  | some (newbuffer1, buffersToWrite) =>
      match refill s.newbuffer2 buffersToWrite with
      | some (newbuffer2, _) =>
          { s with
            newbuffer1 := newbuffer1
            newbuffer2 := newbuffer2
            buffersToWrite := []
            position := 0
            pc := .testing }
      | none => { s with faulted := true }
  | none => { s with faulted := true }

def next [DecidableEq ι] (s : AsyncLogging ι) : LogAction ι → AsyncLogging ι
  | .append i logline =>
      { s.appendInSection logline with
        records := s.records ++ [logline]
        callers := Function.update s.callers i (some s.records.length) }
  | .appendReturns i =>
      { s with
        callers := Function.update s.callers i none
        returned := s.returned ++ (s.callers i).toList }
  | .start => { s with running_ := true, pc := .starting }
  | .spawn => { s with pc := .testing }
  | .stop => { s with running_ := false, promised := s.promised ++ s.returned }
  | .test => { s with pc := if s.running_ then .locking else .returned }
  | .lock => if s.buffers_.isEmpty then { s with pc := .waiting } else s.swap
  | .wake => s.swap
  | .write =>
      match s.buffersToWrite[s.position]? with
      | some (some b) => { s with output := s.output ++ b.data_, position := s.position + 1 }
      | _ => { s with faulted := true }
  | .recycle => s.recycle

/-- A record is shorter than a buffer. The wait may end without a notification. -/
def Enabled (s : AsyncLogging ι) : LogAction ι → Prop
  | .append i logline => s.callers i = none ∧ logline.length < kLargeBufferSize
  | .appendReturns i => s.callers i ≠ none
  | .start => s.pc = .notStarted
  | .spawn => s.pc = .starting
  | .stop => True
  | .test => s.pc = .testing
  | .lock => s.pc = .locking
  | .wake => s.pc = .waiting
  | .write => s.pc = .writing ∧ s.position < s.buffersToWrite.length
  | .recycle => s.pc = .writing ∧ s.position = s.buffersToWrite.length

instance (s : AsyncLogging ι) : ∀ a, Decidable (s.Enabled a)
  | .append i logline =>
      inferInstanceAs (Decidable (s.callers i = none ∧ logline.length < kLargeBufferSize))
  | .appendReturns i => inferInstanceAs (Decidable (s.callers i ≠ none))
  | .start => inferInstanceAs (Decidable (s.pc = .notStarted))
  | .spawn => inferInstanceAs (Decidable (s.pc = .starting))
  | .stop => .isTrue trivial
  | .test => inferInstanceAs (Decidable (s.pc = .testing))
  | .lock => inferInstanceAs (Decidable (s.pc = .locking))
  | .wake => inferInstanceAs (Decidable (s.pc = .waiting))
  | .write =>
      inferInstanceAs (Decidable (s.pc = .writing ∧ s.position < s.buffersToWrite.length))
  | .recycle =>
      inferInstanceAs (Decidable (s.pc = .writing ∧ s.position = s.buffersToWrite.length))

/-- As `Enabled`, with records of any length. -/
def Ready (s : AsyncLogging ι) : LogAction ι → Prop
  | .append i _ => s.callers i = none
  | a => s.Enabled a

instance (s : AsyncLogging ι) : ∀ a, Decidable (s.Ready a)
  | .append i _ => inferInstanceAs (Decidable (s.callers i = none))
  | .appendReturns i => inferInstanceAs (Decidable (s.Enabled (.appendReturns i)))
  | .start => inferInstanceAs (Decidable (s.Enabled .start))
  | .spawn => inferInstanceAs (Decidable (s.Enabled .spawn))
  | .stop => inferInstanceAs (Decidable (s.Enabled .stop))
  | .test => inferInstanceAs (Decidable (s.Enabled .test))
  | .lock => inferInstanceAs (Decidable (s.Enabled .lock))
  | .wake => inferInstanceAs (Decidable (s.Enabled .wake))
  | .write => inferInstanceAs (Decidable (s.Enabled .write))
  | .recycle => inferInstanceAs (Decidable (s.Enabled .recycle))

end AsyncLogging

/-- The machine of a logger among the threads `ι`. -/
def asyncLogging (ι : Type u) [DecidableEq ι] : Machine (AsyncLogging ι) (LogAction ι) where
  enabled := AsyncLogging.Enabled
  next := AsyncLogging.next

instance {ι : Type u} [DecidableEq ι] (s : AsyncLogging ι) (a : LogAction ι) :
    Decidable ((asyncLogging ι).enabled s a) :=
  inferInstanceAs (Decidable (s.Enabled a))

/-- The machine of a logger whose records may be longer than its buffers. -/
def anyLengthLogging (ι : Type u) [DecidableEq ι] : Machine (AsyncLogging ι) (LogAction ι) where
  enabled := AsyncLogging.Ready
  next := AsyncLogging.next

instance {ι : Type u} [DecidableEq ι] (s : AsyncLogging ι) (a : LogAction ι) :
    Decidable ((anyLengthLogging ι).enabled s a) :=
  inferInstanceAs (Decidable (s.Ready a))

end CkServer
