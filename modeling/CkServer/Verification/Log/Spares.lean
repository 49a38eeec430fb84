import CkServer.Verification.Log.Stream

/-! # Spare buffers

The back end has two new buffers when a cycle starts. It gives one or two of them to the front end,
and takes as many back from what it has written. -/

namespace CkServer.AsyncLogging

universe u

variable {ι : Type u} {s : AsyncLogging ι}

/-- What `newbuffer2` is taken from, after `newbuffer1`. -/
def keptForSecond (s : AsyncLogging ι) : List BufferPtr :=
  if s.newbuffer1 = none then (s.buffersToWrite.take 2).dropLast else s.buffersToWrite.take 2

theorem BackEnd.newbuffers_ne_none (h : s.BackEnd) (hpc : s.pc ≠ .writing) :
    s.newbuffer1 ≠ none ∧ s.newbuffer2 ≠ none := by
  obtain ⟨hnew1, hnew2, -⟩ := h.resting hpc
  rw [hnew1, hnew2]
  exact ⟨Option.some_ne_none _, Option.some_ne_none _⟩

/-- The swap leaves a spare buffer. -/
theorem Stocked.nextBuffer_swap (h : s.Stocked) (hpc : s.pc ≠ .writing) :
    s.swap.nextBuffer_ ≠ none := by
  obtain ⟨-, hnew2, -⟩ := h.backEnd.resting hpc
  rcases h.frontEnd.nextBuffer_ with hnext | hnext
  · simp [AsyncLogging.swap, hnext, hnew2]
  · simp [AsyncLogging.swap, hnext]

variable [DecidableEq ι]

/-- The buffers that a step uses are there: the current one, the new ones of a cycle, the spare one
when the mutex is given up, and the ones that are taken back. -/
def Supplied (s : AsyncLogging ι) : LogAction ι → Prop
  | .append _ _ => s.currentBuffer_ ≠ none
  | .test => s.newbuffer1 ≠ none ∧ s.newbuffer2 ≠ none
  | .lock =>
      s.newbuffer1 ≠ none ∧ s.newbuffer2 ≠ none ∧ (s.next .lock).nextBuffer_ ≠ none
  | .wake =>
      s.newbuffer1 ≠ none ∧ s.newbuffer2 ≠ none ∧ (s.next .wake).nextBuffer_ ≠ none
  | .recycle =>
      (s.newbuffer1 = none → s.buffersToWrite.take 2 ≠ []) ∧
        (s.newbuffer2 = none → s.keptForSecond ≠ [])
  | _ => True

theorem Stocked.supplied (h : s.Stocked) {a : LogAction ι} (hready : s.Ready a) :
    s.Supplied a := by
  cases a with
  | append i logline =>
      obtain ⟨b, hb⟩ := h.frontEnd.currentBuffer_
      exact fun hnone => Option.some_ne_none b (hb.symm.trans hnone)
  | appendReturns | start | spawn | stop | write => trivial
  | test =>
      have hpc : s.pc = .testing := hready
      exact h.backEnd.newbuffers_ne_none (by simp [hpc])
  | lock =>
      have hpc : s.pc = .locking := hready
      have hresting : s.pc ≠ .writing := by simp [hpc]
      obtain ⟨hnew1, hnew2⟩ := h.backEnd.newbuffers_ne_none hresting
      refine ⟨hnew1, hnew2, ?_⟩
      by_cases hempty : s.buffers_.isEmpty = true
      · -- nothing has been filled since the last swap, so that the spare buffer is still there
        have hs : s.next .lock = { s with pc := .waiting } := if_pos hempty
        rw [hs]
        exact fun hnone => h.frontEnd.spare hnone (List.isEmpty_iff.mp hempty)
      · have hs : s.next .lock = s.swap := if_neg hempty
        rw [hs]
        exact h.nextBuffer_swap hresting
  | wake =>
      have hpc : s.pc = .waiting := hready
      have hresting : s.pc ≠ .writing := by simp [hpc]
      obtain ⟨hnew1, hnew2⟩ := h.backEnd.newbuffers_ne_none hresting
      exact ⟨hnew1, hnew2, h.nextBuffer_swap hresting⟩
  | recycle =>
      obtain ⟨hnew1, -⟩ := h.backEnd.writing hready.1
      obtain ⟨hkept, hkept'⟩ := h.backEnd.kept_ne_nil hready.1
      refine ⟨fun _ => hkept, ?_⟩
      rw [keptForSecond, if_pos hnew1]
      exact hkept'

/-- In every run of the logger, with records of any length, a step finds the buffers that it
uses. -/
theorem supplied_of_runs {as : List (LogAction ι)} (hruns : (anyLengthLogging ι).Runs {} as) :
    (anyLengthLogging ι).Always Supplied {} as ∧
      ((anyLengthLogging ι).run {} as).faulted = false := by
  constructor
  · exact (anyLengthLogging ι).always_of_invariant (I := Stocked)
      (fun _ _ h hready _ => h.next hready) (fun _ _ h hready _ => h.supplied hready)
      stocked_initial hruns hruns
  · have hstocked := (anyLengthLogging ι).invariant_of_runs (I := Stocked)
      (fun _ _ h hready => h.next hready) stocked_initial hruns
    exact hstocked.faulted

/-- A record that does not fit fills the current buffer, and both new ones are taken back. -/
def filledBy (logline : List UInt8) : List (LogAction ℕ) :=
  [.append 0 logline, .start, .spawn, .test, .lock, .write, .write, .recycle, .test]

theorem runs_filledBy {logline : List UInt8} (hlong : kLargeBufferSize ≤ logline.length) :
    (anyLengthLogging ℕ).Runs {} (filledBy logline) := by
  have hfull : ¬({} : LargeBuffer).avail > logline.length := Nat.not_lt.mpr hlong
  have hfirst : ({} : AsyncLogging ℕ).appendInSection logline =
      { ({} : AsyncLogging ℕ) with
        buffers_ := [some {}]
        currentBuffer_ := some (FixedBuffer.append {} logline)
        nextBuffer_ := none } := if_neg hfull
  refine ⟨rfl, ?_⟩
  change (anyLengthLogging ℕ).Runs (AsyncLogging.next {} (.append 0 logline)) _
  rw [next, hfirst]
  exact ⟨rfl, rfl, rfl, rfl, ⟨rfl, (by decide : 0 < 2)⟩, ⟨rfl, (by decide : 1 < 2)⟩, ⟨rfl, rfl⟩,
    rfl, trivial⟩

theorem supplied_filledBy :
    (anyLengthLogging ℕ).Runs {} (filledBy (List.replicate kLargeBufferSize 97)) ∧
      (anyLengthLogging ℕ).Always Supplied {} (filledBy (List.replicate kLargeBufferSize 97)) ∧
      ((anyLengthLogging ℕ).run {} (filledBy (List.replicate kLargeBufferSize 97))).faulted =
        false := by
  have hlong : kLargeBufferSize ≤ (List.replicate kLargeBufferSize (97 : UInt8)).length :=
    Nat.le_of_eq List.length_replicate.symm
  have hruns := runs_filledBy hlong
  exact ⟨hruns, supplied_of_runs hruns⟩

end CkServer.AsyncLogging
