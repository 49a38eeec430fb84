import CkServer.Model.AsyncLogging
import Mathlib.Tactic.Basic

/-! # The stream of log records

What has been passed to the log file, what is still to be written and what the front end holds
are together the records in the order in which they were appended. The four buffers go round: the
back end always has a new one for the front end. -/

namespace CkServer

universe u

namespace AsyncLogging

variable {ι : Type u} {s : AsyncLogging ι}

def contents (buffers : List BufferPtr) : List UInt8 := buffers.flatMap text

/-- What the back end has taken: what it has written, and the buffers that it has still to
write. -/
def taken (s : AsyncLogging ι) : List UInt8 :=
  s.output ++ contents (s.buffersToWrite.drop s.position)

/-- What the front end holds. -/
def front (s : AsyncLogging ι) : List UInt8 := contents s.buffers_ ++ text s.currentBuffer_

@[simp] theorem contents_nil : contents [] = [] := rfl

@[simp] theorem contents_append (xs ys : List BufferPtr) :
    contents (xs ++ ys) = contents xs ++ contents ys := by
  simp [contents]

@[simp] theorem contents_singleton (p : BufferPtr) : contents [p] = text p := by
  simp [contents]

theorem front_swap (s : AsyncLogging ι) :
    s.swap.front = contents s.buffersToWrite ++ text s.newbuffer1 := rfl

theorem taken_swap (s : AsyncLogging ι) : s.swap.taken = s.output ++ s.front := by
  rw [taken, front, swap, List.drop_zero, contents_append, contents_singleton]

/-! ## The invariant -/

/-- The buffers of the front end: the spare one is empty, and is missing only after a buffer has
been filled. -/
structure FrontEnd (s : AsyncLogging ι) : Prop where
  currentBuffer_ : ∃ b, s.currentBuffer_ = some b
  nextBuffer_ : s.nextBuffer_ = none ∨ s.nextBuffer_ = some {}
  spare : s.nextBuffer_ = none → s.buffers_ ≠ []
  buffers_ : none ∉ s.buffers_

/-- The buffers of the back end. It has two new ones, but while it writes it has one at most, and
can take the others from what it has written. -/
structure BackEnd (s : AsyncLogging ι) : Prop where
  position : s.position ≤ s.buffersToWrite.length
  buffersToWrite : none ∉ s.buffersToWrite
  resting : s.pc ≠ .writing →
    s.newbuffer1 = some {} ∧ s.newbuffer2 = some {} ∧ s.buffersToWrite = []
  writing : s.pc = .writing →
    s.newbuffer1 = none ∧
      (s.newbuffer2 = some {} ∧ 1 ≤ s.buffersToWrite.length ∨
        s.newbuffer2 = none ∧ 2 ≤ s.buffersToWrite.length)

/-- No null pointer has been dereferenced, and the buffers are where they are needed. -/
structure Stocked (s : AsyncLogging ι) : Prop where
  faulted : s.faulted = false
  frontEnd : s.FrontEnd
  backEnd : s.BackEnd

structure Flowing (s : AsyncLogging ι) : Prop where
  faulted : s.faulted = false
  frontEnd : s.FrontEnd
  backEnd : s.BackEnd
  stream : s.taken ++ s.front = s.records.flatten

theorem Flowing.stocked (h : s.Flowing) : s.Stocked := ⟨h.faulted, h.frontEnd, h.backEnd⟩

theorem Stocked.flowing (h : s.Stocked) (hstream : s.taken ++ s.front = s.records.flatten) :
    s.Flowing :=
  ⟨h.faulted, h.frontEnd, h.backEnd, hstream⟩

theorem stocked_initial : ({} : AsyncLogging ι).Stocked where
  faulted := rfl
  frontEnd := ⟨⟨{}, rfl⟩, .inr rfl, by simp, by simp⟩
  backEnd := ⟨Nat.le_refl 0, by simp, fun _ => ⟨rfl, rfl, rfl⟩, by simp⟩

theorem flowing_initial : ({} : AsyncLogging ι).Flowing := stocked_initial.flowing rfl

/-! ## The front end -/

/-- A record goes to the current buffer, or to a new one. -/
theorem FrontEnd.appendInSection_cases (h : s.FrontEnd) (logline : List UInt8) :
    ∃ current, s.currentBuffer_ = some current ∧
      (current.avail > logline.length ∧
          s.appendInSection logline =
            { s with currentBuffer_ := some (current.append logline) } ∨
        s.appendInSection logline =
          { s with
            buffers_ := s.buffers_ ++ [s.currentBuffer_]
            currentBuffer_ := some (FixedBuffer.append {} logline)
            nextBuffer_ := none }) := by
  obtain ⟨current, hcurrent⟩ := h.currentBuffer_
  refine ⟨current, hcurrent, ?_⟩
  by_cases hroom : current.avail > logline.length
  · exact .inl ⟨hroom, by simp only [appendInSection, hcurrent, if_pos hroom]⟩
  · have hfresh : s.nextBuffer_.getD {} = {} := by
      rcases h.nextBuffer_ with hnext | hnext
      · rw [hnext, Option.getD_none]
      · rw [hnext, Option.getD_some]
    exact .inr (by simp only [appendInSection, hcurrent, if_neg hroom, hfresh])

theorem FrontEnd.appendInSection (h : s.FrontEnd) (logline : List UInt8) :
    (s.appendInSection logline).FrontEnd ∧
      (s.appendInSection logline).faulted = s.faulted := by
  obtain ⟨current, hcurrent, ⟨-, hs⟩ | hs⟩ := h.appendInSection_cases logline
  · rw [hs]
    exact ⟨⟨⟨_, rfl⟩, h.nextBuffer_, h.spare, h.buffers_⟩, rfl⟩
  · rw [hs]
    refine ⟨⟨⟨_, rfl⟩, .inl rfl, fun _ => by simp, ?_⟩, rfl⟩
    have hbuffers := h.buffers_
    simp [hcurrent, hbuffers]

theorem FrontEnd.front_appendInSection (h : s.FrontEnd) {logline : List UInt8}
    (hshort : logline.length < kLargeBufferSize) :
    (s.appendInSection logline).front = s.front ++ logline := by
  obtain ⟨current, hcurrent, ⟨hroom, hs⟩ | hs⟩ := h.appendInSection_cases logline
  · rw [hs, front, front, hcurrent, text, text, FixedBuffer.data_append hroom, List.append_assoc]
  · have hempty : ({} : LargeBuffer).avail > logline.length := hshort
    rw [hs, front, front, text, FixedBuffer.data_append hempty, contents_append,
      contents_singleton]
    rfl

theorem appendInSection_backEnd (s : AsyncLogging ι) (logline : List UInt8) :
    (s.appendInSection logline).taken = s.taken ∧
      (s.BackEnd → (s.appendInSection logline).BackEnd) := by
  simp only [appendInSection]
  cases s.currentBuffer_ with
  | none => exact ⟨rfl, fun h => ⟨h.position, h.buffersToWrite, h.resting, h.writing⟩⟩
  | some current =>
      by_cases hroom : current.avail > logline.length
      · simp only [if_pos hroom]
        exact ⟨rfl, fun h => ⟨h.position, h.buffersToWrite, h.resting, h.writing⟩⟩
      · simp only [if_neg hroom]
        exact ⟨rfl, fun h => ⟨h.position, h.buffersToWrite, h.resting, h.writing⟩⟩

/-! ## The back end -/

/-- The front end gets a new buffer, and a spare one if it has none. -/
theorem Stocked.swap (h : s.Stocked) (hpc : s.pc ≠ .writing) : s.swap.Stocked := by
  obtain ⟨hnew1, hnew2, hnil⟩ := h.backEnd.resting hpc
  obtain ⟨current, hcurrent⟩ := h.frontEnd.currentBuffer_
  have hbuffers := h.frontEnd.buffers_
  refine ⟨h.faulted, ⟨⟨{}, hnew1⟩, ?_, ?_, ?_⟩, ⟨Nat.zero_le _, ?_, ?_, fun _ => ⟨rfl, ?_⟩⟩⟩
  · simp only [AsyncLogging.swap]
    rcases h.frontEnd.nextBuffer_ with hnext | hnext
    · rw [hnext, hnew2]
      exact .inr rfl
    · rw [hnext]
      exact .inr rfl
  · simp only [AsyncLogging.swap]
    rcases h.frontEnd.nextBuffer_ with hnext | hnext
    · simp [hnext, hnew2]
    · simp [hnext]
  · simp only [AsyncLogging.swap, hnil]
    exact List.not_mem_nil
  · simp only [AsyncLogging.swap, hcurrent]
    simpa using hbuffers
  · exact fun hne => absurd rfl hne
  · simp only [AsyncLogging.swap]
    rcases h.frontEnd.nextBuffer_ with hnext | hnext
    · -- the spare buffer is gone, so that a filled one is there
      have hpos := List.length_pos_iff.mpr (h.frontEnd.spare hnext)
      refine .inr ⟨by simp [hnext], ?_⟩
      rw [List.length_append, List.length_singleton]
      omega
    · refine .inl ⟨by simp [hnext, hnew2], ?_⟩
      rw [List.length_append, List.length_singleton]
      omega

/-- Before the swap all that has been taken is written. -/
theorem BackEnd.taken_eq (h : s.BackEnd) (hpc : s.pc ≠ .writing) : s.taken = s.output := by
  rw [taken, (h.resting hpc).2.2, List.drop_nil, contents_nil, List.append_nil]

theorem Flowing.swap (h : s.Flowing) (hpc : s.pc ≠ .writing) : s.swap.Flowing := by
  refine (h.stocked.swap hpc).flowing ?_
  obtain ⟨hnew1, -, hnil⟩ := h.backEnd.resting hpc
  have hstream := h.stream
  rw [h.backEnd.taken_eq hpc] at hstream
  rw [taken_swap, front_swap, hnil, hnew1, contents_nil, List.nil_append]
  rw [show text (some {}) = [] from rfl, List.append_nil]
  exact hstream

theorem taken_write [DecidableEq ι] (s : AsyncLogging ι) : (s.next .write).taken = s.taken := by
  cases hget : s.buffersToWrite[s.position]? with
  | none =>
      simp only [next, hget]
      rfl
  | some buffer =>
      cases buffer with
      | none =>
          simp only [next, hget]
          rfl
      | some b =>
          obtain ⟨hlt, hbuffer⟩ := List.getElem?_eq_some_iff.mp hget
          simp only [next, hget, taken]
          rw [List.drop_eq_getElem_cons hlt, hbuffer, List.append_assoc]
          rfl

theorem Stocked.write [DecidableEq ι] (h : s.Stocked)
    (hlt : s.position < s.buffersToWrite.length) :
    (s.next .write).Stocked ∧ (s.next .write).front = s.front ∧
      (s.next .write).records = s.records := by
  cases hbuffer : s.buffersToWrite[s.position] with
  | none =>
      have hmem := List.getElem_mem hlt
      rw [hbuffer] at hmem
      exact absurd hmem h.backEnd.buffersToWrite
  | some b =>
      have hget : s.buffersToWrite[s.position]? = some (some b) := by
        rw [List.getElem?_eq_getElem hlt, hbuffer]
      have hs : s.next .write =
          { s with output := s.output ++ b.data_, position := s.position + 1 } := by
        simp only [next, hget]
      rw [hs]
      exact ⟨⟨h.faulted, ⟨h.frontEnd.currentBuffer_, h.frontEnd.nextBuffer_, h.frontEnd.spare,
        h.frontEnd.buffers_⟩, ⟨hlt, h.backEnd.buffersToWrite, h.backEnd.resting,
        h.backEnd.writing⟩⟩, rfl, rfl⟩

/-- A new buffer comes from the end of a list of buffers. -/
theorem refill_none {buffers : List BufferPtr} (hne : buffers ≠ []) (hnone : none ∉ buffers) :
    refill none buffers = some (some {}, buffers.dropLast) := by
  cases hlast : buffers.getLast hne with
  | none =>
      have hmem := List.getLast_mem hne
      rw [hlast] at hmem
      exact absurd hmem hnone
  | some b =>
      have hget : buffers.getLast? = some (some b) := by
        rw [List.getLast?_eq_some_getLast hne, hlast]
      simp only [refill, hget]
      rfl

/-- Of the buffers that are kept there is one for each new buffer that is missing. -/
theorem BackEnd.kept_ne_nil (h : s.BackEnd) (hpc : s.pc = .writing) :
    s.buffersToWrite.take 2 ≠ [] ∧
      (s.newbuffer2 = none → (s.buffersToWrite.take 2).dropLast ≠ []) := by
  obtain ⟨-, hnew2⟩ := h.writing hpc
  constructor
  · apply List.ne_nil_of_length_pos
    rw [List.length_take]
    rcases hnew2 with hnew2 | hnew2
    · omega
    · omega
  · intro hmissing
    apply List.ne_nil_of_length_pos
    rw [List.length_dropLast, List.length_take]
    rcases hnew2 with ⟨hnew2, -⟩ | ⟨-, htwo⟩
    · rw [hnew2] at hmissing
      cases hmissing
    · omega

theorem BackEnd.recycle_eq (h : s.BackEnd) (hpc : s.pc = .writing) :
    s.recycle =
      { s with
        newbuffer1 := some {}, newbuffer2 := some {}, buffersToWrite := [], position := 0
        pc := .testing } := by
  obtain ⟨hnew1, hnew2⟩ := h.writing hpc
  obtain ⟨hne, hne'⟩ := h.kept_ne_nil hpc
  have hnone : none ∉ s.buffersToWrite.take 2 := fun hmem =>
    h.buffersToWrite (List.mem_of_mem_take hmem)
  have hfirst := refill_none hne hnone
  simp only [recycle, hnew1, hfirst]
  rcases hnew2 with ⟨hnew2, -⟩ | ⟨hnew2, -⟩
  · rw [hnew2]
    rfl
  · have hnone' : none ∉ (s.buffersToWrite.take 2).dropLast := fun hmem =>
      hnone (List.dropLast_subset _ hmem)
    rw [hnew2, refill_none (hne' hnew2) hnone']

theorem taken_recycle (s : AsyncLogging ι) (hend : s.position = s.buffersToWrite.length) :
    s.recycle.taken = s.taken := by
  have htaken : s.taken = s.output := by
    rw [taken, hend, List.drop_length, contents_nil, List.append_nil]
  simp only [recycle]
  cases refill s.newbuffer1 (s.buffersToWrite.take 2) with
  | none => rfl
  | some first =>
      simp only
      cases refill s.newbuffer2 first.2 with
      | none => rfl
      | some second =>
          rw [htaken]
          exact List.append_nil s.output

theorem Stocked.recycle (h : s.Stocked) (hpc : s.pc = .writing) :
    s.recycle.Stocked ∧ s.recycle.front = s.front ∧ s.recycle.records = s.records := by
  rw [h.backEnd.recycle_eq hpc]
  exact ⟨⟨h.faulted, ⟨h.frontEnd.currentBuffer_, h.frontEnd.nextBuffer_, h.frontEnd.spare,
    h.frontEnd.buffers_⟩, ⟨Nat.zero_le _, by simp, fun _ => ⟨rfl, rfl, rfl⟩,
    fun hpc => by cases hpc⟩⟩, rfl, rfl⟩

/-! ## Steps and runs -/

/-- A step that touches no buffer. -/
theorem Stocked.of_eq {t : AsyncLogging ι} (h : s.Stocked) (hfaulted : t.faulted = s.faulted)
    (hcurrent : t.currentBuffer_ = s.currentBuffer_) (hnext : t.nextBuffer_ = s.nextBuffer_)
    (hbuffers : t.buffers_ = s.buffers_) (hnew1 : t.newbuffer1 = s.newbuffer1)
    (hnew2 : t.newbuffer2 = s.newbuffer2) (hwrite : t.buffersToWrite = s.buffersToWrite)
    (hposition : t.position = s.position) (hpc : t.pc = .writing ↔ s.pc = .writing) :
    t.Stocked := by
  refine ⟨hfaulted.trans h.faulted, ⟨?_, ?_, ?_, ?_⟩, ⟨?_, ?_, ?_, ?_⟩⟩
  · rw [hcurrent]
    exact h.frontEnd.currentBuffer_
  · rw [hnext]
    exact h.frontEnd.nextBuffer_
  · rw [hnext, hbuffers]
    exact h.frontEnd.spare
  · rw [hbuffers]
    exact h.frontEnd.buffers_
  · rw [hposition, hwrite]
    exact h.backEnd.position
  · rw [hwrite]
    exact h.backEnd.buffersToWrite
  · rw [Ne, hpc, hnew1, hnew2, hwrite]
    exact h.backEnd.resting
  · rw [hpc, hnew1, hnew2, hwrite]
    exact h.backEnd.writing

theorem Enabled.ready {a : LogAction ι} (hen : s.Enabled a) : s.Ready a := by
  cases a with
  | append i logline => exact hen.1
  | appendReturns | start | spawn | stop | test | lock | wake | write | recycle => exact hen

variable [DecidableEq ι]

theorem Stocked.append (h : s.Stocked) (i : ι) (logline : List UInt8) :
    (s.next (.append i logline)).Stocked := by
  obtain ⟨hfront, hfaulted⟩ := h.frontEnd.appendInSection logline
  have hback := (s.appendInSection_backEnd logline).2 h.backEnd
  refine ⟨hfaulted.trans h.faulted, ?_, ?_⟩
  · exact ⟨hfront.currentBuffer_, hfront.nextBuffer_, hfront.spare, hfront.buffers_⟩
  · exact ⟨hback.position, hback.buffersToWrite, hback.resting, hback.writing⟩

/-- The buffers go round whatever the records are. -/
theorem Stocked.next (h : s.Stocked) {a : LogAction ι} (hready : s.Ready a) :
    (s.next a).Stocked := by
  cases a with
  | append i logline => exact h.append i logline
  | appendReturns i => exact h.of_eq rfl rfl rfl rfl rfl rfl rfl rfl Iff.rfl
  | start =>
      have hpc : s.pc = .notStarted := hready
      exact h.of_eq rfl rfl rfl rfl rfl rfl rfl rfl (by simp [AsyncLogging.next, hpc])
  | spawn =>
      have hpc : s.pc = .starting := hready
      exact h.of_eq rfl rfl rfl rfl rfl rfl rfl rfl (by simp [AsyncLogging.next, hpc])
  | stop => exact h.of_eq rfl rfl rfl rfl rfl rfl rfl rfl Iff.rfl
  | test =>
      have hpc : s.pc = .testing := hready
      refine h.of_eq rfl rfl rfl rfl rfl rfl rfl rfl ?_
      simp only [AsyncLogging.next, hpc]
      split <;> simp
  | lock =>
      have hpc : s.pc = .locking := hready
      by_cases hempty : s.buffers_.isEmpty = true
      · have hs : s.next .lock = { s with pc := .waiting } := if_pos hempty
        rw [hs]
        exact h.of_eq rfl rfl rfl rfl rfl rfl rfl rfl (by simp [hpc])
      · have hs : s.next .lock = s.swap := if_neg hempty
        rw [hs]
        exact h.swap (by simp [hpc])
  | wake =>
      have hpc : s.pc = .waiting := hready
      exact h.swap (by simp [hpc])
  | write => exact (h.write hready.2).1
  | recycle => exact (h.recycle hready.1).1

theorem Flowing.append (h : s.Flowing) (i : ι) {logline : List UInt8}
    (hshort : logline.length < kLargeBufferSize) : (s.next (.append i logline)).Flowing := by
  refine (h.stocked.append i logline).flowing ?_
  have htaken : (s.next (.append i logline)).taken = s.taken :=
    (s.appendInSection_backEnd logline).1
  have hfront : (s.next (.append i logline)).front = s.front ++ logline :=
    h.frontEnd.front_appendInSection hshort
  rw [htaken, hfront, ← List.append_assoc, h.stream]
  simp [next]

theorem Flowing.next (h : s.Flowing) {a : LogAction ι} (hen : s.Enabled a) :
    (s.next a).Flowing := by
  have hstocked := h.stocked.next hen.ready
  cases a with
  | append i logline => exact h.append i hen.2
  | appendReturns | start | spawn | stop | test => exact hstocked.flowing h.stream
  | lock =>
      have hpc : s.pc = .locking := hen
      by_cases hempty : s.buffers_.isEmpty = true
      · have hs : s.next .lock = { s with pc := .waiting } := if_pos hempty
        rw [hs] at hstocked ⊢
        exact hstocked.flowing h.stream
      · have hs : s.next .lock = s.swap := if_neg hempty
        rw [hs]
        exact h.swap (by simp [hpc])
  | wake =>
      have hpc : s.pc = .waiting := hen
      exact h.swap (by simp [hpc])
  | write =>
      obtain ⟨-, hfront, hrecords⟩ := h.stocked.write hen.2
      refine hstocked.flowing ?_
      rw [s.taken_write, hfront, hrecords]
      exact h.stream
  | recycle =>
      obtain ⟨-, hfront, hrecords⟩ := h.stocked.recycle hen.1
      have htaken : (s.next .recycle).taken = s.taken := s.taken_recycle hen.2
      refine hstocked.flowing ?_
      rw [htaken, show (s.next .recycle).front = s.front from hfront,
        show (s.next .recycle).records = s.records from hrecords]
      exact h.stream

theorem flowing_of_runs {as : List (LogAction ι)} (hruns : (asyncLogging ι).Runs {} as) :
    ((asyncLogging ι).run {} as).Flowing :=
  (asyncLogging ι).invariant_of_runs (fun _ _ h hen => h.next hen) flowing_initial hruns

/-- In every run of the logger no null pointer is dereferenced, and the bytes passed to the log
file, the buffers still to be written, those that are full and the current one are together the
records in the order in which they were appended. -/
theorem stream_of_runs {as : List (LogAction ι)} (hruns : (asyncLogging ι).Runs {} as) :
    let s := (asyncLogging ι).run {} as
    s.faulted = false ∧
      s.output ++ contents (s.buffersToWrite.drop s.position) ++ contents s.buffers_ ++
        text s.currentBuffer_ = s.records.flatten := by
  intro s
  have h : s.Flowing := flowing_of_runs hruns
  refine ⟨h.faulted, ?_⟩
  rw [← h.stream, taken, front, List.append_assoc]

/-- Two threads append before the back end starts, while it waits and while it writes. -/
def appendedByTwo : List (LogAction ℕ) :=
  [.append 0 [65, 10], .start, .spawn, .test, .append 1 [66, 10], .lock, .appendReturns 0,
    .append 0 [67, 10], .wake, .appendReturns 1, .append 1 [68, 10], .write, .recycle]

theorem stream_appendedByTwo :
    let s := (asyncLogging ℕ).run {} appendedByTwo
    s.output = [65, 10, 66, 10, 67, 10] ∧ s.faulted = false ∧
      s.output ++ contents (s.buffersToWrite.drop s.position) ++ contents s.buffers_ ++
        text s.currentBuffer_ = s.records.flatten := by
  intro s
  have hruns : (asyncLogging ℕ).Runs {} appendedByTwo := by decide
  exact ⟨by decide, stream_of_runs hruns⟩

end AsyncLogging

end CkServer
