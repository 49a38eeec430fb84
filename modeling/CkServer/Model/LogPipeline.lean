import CkServer.Model.AsyncLogging
import CkServer.Model.LogFile

/-! # The logger with its log file

`threadFunc` constructs the log file when it begins, and passes the buffers to it one after
another. The front end goes on in between. -/

namespace CkServer

universe u

/-- `output` is the local variable of `threadFunc`. -/
structure LogPipeline (ι : Type u) where
  logger : AsyncLogging ι := {}
  output : Option LogFileState := none

inductive PipelineAction (ι : Type u) where
  /-- A step in which the log file has no part. -/
  | step (a : LogAction ι)
  /-- `threadFunc` begins. The log file finds some value in `count_`. -/
  | spawn (count now : ℤ)
  /-- The next buffer is passed to the log file. -/
  | write (writes : List Fwrite) (now rollNow : ℤ)

/-- The log file has no part in the step. -/
def LogAction.isApart {ι : Type u} : LogAction ι → Bool
  | .spawn => false
  | .write => false
  | _ => true

namespace LogPipeline

variable {ι : Type u} (localtime : ℤ → Tm) (basename_ : List UInt8) (rollSize_ : ℤ)

/-- The buffer that is passed next. -/
def nextBuffer (s : LogPipeline ι) : Option LargeBuffer :=
  s.logger.buffersToWrite[s.logger.position]?.join

/-- What `output.append` gets. -/
def nextAppend (b : LargeBuffer) (writes : List Fwrite) (now rollNow : ℤ) : LogAppend where
  data := b.data_
  writes := writes
  now := now
  rollNow := rollNow

def next [DecidableEq ι] (s : LogPipeline ι) : PipelineAction ι → LogPipeline ι
  | .step a => { s with logger := s.logger.next a }
  | .spawn count now =>
      { logger := s.logger.next .spawn
        output := some (.start localtime basename_ rollSize_ 3 1024 count now) }
  | .write writes now rollNow =>
      { logger := s.logger.next .write
        output :=
          match s.output, s.nextBuffer with
          | some output, some b => some (output.next localtime (nextAppend b writes now rollNow))
          | output, _ => output }

def Enabled (s : LogPipeline ι) : PipelineAction ι → Prop
  | .step a => a.isApart = true ∧ s.logger.Enabled a
  | .spawn _ now => s.logger.Enabled .spawn ∧ 0 < now
  | .write writes now rollNow => s.logger.Enabled .write ∧
      ∀ output ∈ s.output, ∀ b ∈ s.nextBuffer, output.Enabled (nextAppend b writes now rollNow)

instance (s : LogPipeline ι) : ∀ a, Decidable (s.Enabled a)
  | .step a => inferInstanceAs (Decidable (a.isApart = true ∧ s.logger.Enabled a))
  | .spawn _ now => inferInstanceAs (Decidable (s.logger.Enabled .spawn ∧ 0 < now))
  | .write writes now rollNow => inferInstanceAs (Decidable (s.logger.Enabled .write ∧
      ∀ output ∈ s.output, ∀ b ∈ s.nextBuffer, output.Enabled (nextAppend b writes now rollNow)))

end LogPipeline

def logPipeline (ι : Type u) [DecidableEq ι] (localtime : ℤ → Tm) (basename_ : List UInt8)
    (rollSize_ : ℤ) : Machine (LogPipeline ι) (PipelineAction ι) where
  enabled := LogPipeline.Enabled
  next := LogPipeline.next localtime basename_ rollSize_

instance {ι : Type u} [DecidableEq ι] (localtime : ℤ → Tm) (basename_ : List UInt8) (rollSize_ : ℤ)
    (s : LogPipeline ι) (a : PipelineAction ι) :
    Decidable ((logPipeline ι localtime basename_ rollSize_).enabled s a) :=
  inferInstanceAs (Decidable (s.Enabled a))

end CkServer
