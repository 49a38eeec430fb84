import CkServer.Model.LogPipeline
import CkServer.Verification.Log.Drain
import CkServer.Verification.Log.Rolling

/-! # From the front end to the files

A buffer holds whole lines and goes to one file, so that no line is cut by a roll. The lines that
have left the front end are in the files, in their order, and the buffers hold the others. -/

namespace CkServer

universe u

/-! ## Files -/

namespace FileUtil

/-- A loop that meets no error accepts the whole record, if it ends. -/
theorem write_of_no_error {data : List UInt8} {writes : List Fwrite} {writen : ℕ}
    (hnone : ∀ w ∈ writes, w.error = false) (hends : (write data writes writen).isSome) :
    write data writes writen = some (data.drop writen, data.length) := by
  induction writes generalizing writen with
  | nil =>
      by_cases h : writen = data.length
      · simp [write, h]
      · simp [write, h] at hends
  | cons w writes ih =>
      by_cases h : writen = data.length
      · simp [write, h]
      · have hw : w.error = false := hnone w (by simp)
        simp only [write, h, hw, if_false, Bool.false_eq_true, and_false] at hends ⊢
        rw [Option.isSome_map] at hends
        rw [ih (fun v hv => hnone v (by simp [hv])) hends, Option.map_some, ← List.drop_drop,
          List.take_append_drop]

@[simp] theorem getD_new (name file : FileName) (disk : Disk) :
    ((FileUtil.new name disk).2 file).getD [] = (disk file).getD [] := by
  by_cases h : file = name
  · simp [FileUtil.new, h]
  · simp [FileUtil.new, h]

end FileUtil

namespace LogFileState

open LogFile

/-- What the records of a file are together. -/
def contentOf (records : List LoggedRecord) (file : FileName) : List UInt8 :=
  (records.filter fun r => r.file = file).flatMap LoggedRecord.data

theorem contentOf_snoc (records : List LoggedRecord) (r : LoggedRecord) (file : FileName) :
    contentOf (records ++ [r]) file =
      contentOf records file ++ if r.file = file then r.data else [] := by
  by_cases h : r.file = file
  · simp [contentOf, List.filter_append, h]
  · simp [contentOf, List.filter_append, h]

theorem getD_written {disk : Disk} {f : FileUtil} (hf : disk f.file_ ≠ none) (data : List UInt8)
    (file : FileName) :
    (written disk f data file).getD [] =
      (disk file).getD [] ++ if f.file_ = file then data else [] := by
  by_cases h : file = f.file_
  · obtain ⟨content, hcontent⟩ := Option.ne_none_iff_exists'.mp hf
    simp [written, h, hcontent]
  · simp [written, h, Ne.symm h]

theorem written_ne_none {disk : Disk} {f : FileUtil} (hf : disk f.file_ ≠ none)
    (data : List UInt8) : written disk f data f.file_ ≠ none := by
  obtain ⟨content, hcontent⟩ := Option.ne_none_iff_exists'.mp hf
  simp [written, hcontent]

/-- Every file has the records that have gone to it, and the current file is there. -/
structure Filed (s : LogFileState) : Prop where
  faulted : s.faulted = false
  files : ∀ file, (s.disk file).getD [] = contentOf s.records file
  current : ∃ f, s.log.file_ = some f ∧ s.disk f.file_ ≠ none

theorem filed_start (localtime : ℤ → Tm) (basename : List UInt8)
    (rollsize flushInterval checkEveryN count : ℤ) {now : ℤ} (hnow : 0 < now) :
    (start localtime basename rollsize flushInterval checkEveryN count now).Filed := by
  rw [start_of_pos _ _ _ _ _ _ hnow]
  refine ⟨rfl, ?_, ⟨_, rfl, by simp⟩⟩
  intro file
  by_cases h : file = getLogFileName localtime basename now
  · simp [h, contentOf]
  · simp [h, contentOf]

/-- The step lemma: a record goes to the current file, whole. -/
theorem Filed.next {s : LogFileState} {localtime : ℤ → Tm} {a : LogAppend} (h : s.Filed)
    (hen : s.Enabled a) (hnone : ∀ w ∈ a.writes, w.error = false) :
    (s.next localtime a).Filed ∧
      (s.next localtime a).records.map LoggedRecord.data =
        s.records.map LoggedRecord.data ++ [a.data] := by
  obtain ⟨f, hfile, hf⟩ := h.current
  rcases next_cases localtime hen with
    ⟨hnofile, -⟩ | ⟨f', accepted, writen, l, disk, hfile', hwrite, hnext, -, hout⟩
  · rw [hfile] at hnofile
    cases hnofile
  · obtain rfl := Option.some.inj (hfile.symm.trans hfile')
    rw [FileUtil.write_of_no_error hnone hen.2.2] at hwrite
    obtain ⟨rfl, -⟩ := Prod.mk.inj (Option.some.inj hwrite)
    rw [List.drop_zero] at hout
    rw [hnext]
    refine ⟨⟨h.faulted, ?_, ?_⟩, by simp [appended]⟩
    · intro file
      have hcontent : (written s.disk f a.data file).getD [] =
          contentOf (s.records ++ [⟨a.data, a.now, f.file_⟩]) file := by
        rw [getD_written hf, h.files, contentOf_snoc]
      cases hout with
      | rolls _ _ _ _ _ hdisk =>
          simp only [appended, hdisk, FileUtil.getD_new]
          exact hcontent
      | stays _ _ _ _ hdisk =>
          simp only [appended, hdisk]
          exact hcontent
    · cases hout with
      | rolls _ _ _ _ hfile hdisk =>
          refine ⟨_, hfile, ?_⟩
          simp [appended, hdisk, FileUtil.new]
      | stays _ _ _ hfile hdisk =>
          refine ⟨_, hfile, ?_⟩
          simp only [appended, hdisk]
          exact written_ne_none hf a.data

end LogFileState

/-! ## Lines -/

namespace LogPipeline

open AsyncLogging LogFileState

variable {ι : Type u} {s : LogPipeline ι} {localtime : ℤ → Tm} {basename_ : List UInt8}
  {rollSize_ : ℤ}

/-- The buffers that have been passed to the log file. -/
def chunks (s : LogPipeline ι) : List LoggedRecord := (s.output.map LogFileState.records).getD []

/-- The lines of the buffers: those that have been passed on, those that the back end has still to
write, those that are full and the current one. -/
structure Grouping (s : LogPipeline ι) (written todo full : List (List (List UInt8)))
    (current : List (List UInt8)) : Prop where
  records : s.logger.records = (written ++ todo ++ full).flatten ++ current
  written : s.chunks.map LoggedRecord.data = written.map List.flatten
  todo : (s.logger.buffersToWrite.drop s.logger.position).map text = todo.map List.flatten
  full : s.logger.buffers_.map text = full.map List.flatten
  current : text s.logger.currentBuffer_ = current.flatten

/-- The log file is there from the moment at which the back end begins, and the buffers hold whole
lines. -/
structure Ordered (s : LogPipeline ι) : Prop where
  stocked : s.logger.Stocked
  constructed : s.output = none ↔ s.logger.pc = .notStarted ∨ s.logger.pc = .starting
  filed : ∀ output ∈ s.output, output.Filed
  grouped : ∃ written todo full current, s.Grouping written todo full current

theorem ordered_initial : ({} : LogPipeline ι).Ordered where
  stocked := stocked_initial
  constructed := by simp
  filed := by simp
  grouped := ⟨[], [], [], [], rfl, rfl, rfl, rfl, rfl⟩

/-! ## The logger's steps -/

/-- A line goes whole to the current buffer, or to a new one. -/
theorem Grouping.append {written todo full : List (List (List UInt8))}
    {current : List (List UInt8)} (h : s.Grouping written todo full current)
    (hfront : s.logger.FrontEnd) {i : ι} {logline : List UInt8} [DecidableEq ι]
    (hshort : logline.length < kLargeBufferSize) :
    ∃ full' current', ({ s with logger := s.logger.next (.append i logline) } :
      LogPipeline ι).Grouping written todo full' current' := by
  obtain ⟨b, hb, ⟨hroom, hs⟩ | hs⟩ := hfront.appendInSection_cases logline
  · refine ⟨full, current ++ [logline], ?_, h.written, ?_, ?_, ?_⟩
    · simp [AsyncLogging.next, h.records]
    · simpa only [AsyncLogging.next, hs] using h.todo
    · simpa only [AsyncLogging.next, hs] using h.full
    · have hcurrent := h.current
      rw [hb] at hcurrent
      simp only [AsyncLogging.next, hs, text, FixedBuffer.data_append hroom, List.flatten_append,
        List.flatten_singleton, ← hcurrent]
  · have hempty : ({} : LargeBuffer).avail > logline.length := hshort
    refine ⟨full ++ [current], [logline], ?_, h.written, ?_, ?_, ?_⟩
    · simp [AsyncLogging.next, h.records]
    · simpa only [AsyncLogging.next, hs] using h.todo
    · simp only [AsyncLogging.next, hs, List.map_append, h.full, List.map_singleton, h.current]
    · simp [AsyncLogging.next, hs, text, FixedBuffer.data_append hempty]

/-- Before the swap the back end has nothing to write, and after it the front end has no line. -/
theorem Grouping.swap {written todo full : List (List (List UInt8))}
    {current : List (List UInt8)} (h : s.Grouping written todo full current)
    (hback : s.logger.BackEnd) (hpc : s.logger.pc ≠ .writing) :
    ({ s with logger := s.logger.swap } : LogPipeline ι).Grouping written (full ++ [current]) []
      [] := by
  obtain ⟨hnew1, -, hnil⟩ := hback.resting hpc
  have htodo := h.todo
  rw [hnil, List.drop_nil, List.map_nil] at htodo
  obtain rfl := List.map_eq_nil_iff.mp htodo.symm
  refine ⟨?_, h.written, ?_, ?_, ?_⟩
  · simp [AsyncLogging.swap, h.records]
  · simp [AsyncLogging.swap, h.full, h.current]
  · simp [AsyncLogging.swap, hnil]
  · simp only [AsyncLogging.swap, hnew1]
    rfl

/-- A step that leaves the lines where they are. -/
theorem Grouping.of_eq {t : LogPipeline ι} {written todo full : List (List (List UInt8))}
    {current : List (List UInt8)} (h : s.Grouping written todo full current)
    (houtput : t.output = s.output) (hrecords : t.logger.records = s.logger.records)
    (hwrite : t.logger.buffersToWrite = s.logger.buffersToWrite)
    (hposition : t.logger.position = s.logger.position)
    (hbuffers : t.logger.buffers_ = s.logger.buffers_)
    (hcurrent : t.logger.currentBuffer_ = s.logger.currentBuffer_) :
    t.Grouping written todo full current := by
  refine ⟨hrecords.trans h.records, ?_, ?_, ?_, ?_⟩
  · rw [chunks, houtput]
    exact h.written
  · rw [hwrite, hposition]
    exact h.todo
  · rw [hbuffers]
    exact h.full
  · rw [hcurrent]
    exact h.current

variable [DecidableEq ι]

theorem Grouping.step {written todo full : List (List (List UInt8))}
    {current : List (List UInt8)} (h : s.Grouping written todo full current)
    (hstocked : s.logger.Stocked) {a : LogAction ι} (hapart : a.isApart = true)
    (hen : s.logger.Enabled a) :
    ∃ todo' full' current', ({ s with logger := s.logger.next a } : LogPipeline ι).Grouping written
      todo' full' current' := by
  cases a with
  | append i logline =>
      obtain ⟨full', current', h'⟩ := h.append hstocked.frontEnd (i := i) hen.2
      exact ⟨todo, full', current', h'⟩
  | spawn => cases hapart
  | write => cases hapart
  | lock =>
      by_cases hempty : s.logger.buffers_.isEmpty = true
      · have hs : s.logger.next .lock = { s.logger with pc := .waiting } := if_pos hempty
        rw [hs]
        exact ⟨todo, full, current, h.of_eq rfl rfl rfl rfl rfl rfl⟩
      · have hs : s.logger.next .lock = s.logger.swap := if_neg hempty
        have hpc : s.logger.pc = .locking := hen
        rw [hs]
        exact ⟨_, _, _, h.swap hstocked.backEnd (by simp [hpc])⟩
  | wake =>
      have hpc : s.logger.pc = .waiting := hen
      exact ⟨_, _, _, h.swap hstocked.backEnd (by simp [hpc])⟩
  | recycle =>
      have hs : s.logger.next .recycle = _ := hstocked.backEnd.recycle_eq hen.1
      have htodo := h.todo
      rw [hen.2, List.drop_length, List.map_nil] at htodo
      obtain rfl := List.map_eq_nil_iff.mp htodo.symm
      rw [hs]
      exact ⟨[], full, current, h.records, h.written, rfl, h.full, h.current⟩
  | appendReturns | start | stop | test =>
      exact ⟨todo, full, current, h.of_eq rfl rfl rfl rfl rfl rfl⟩

/-- The back end begins by `spawn` alone. -/
theorem begun_next {l : AsyncLogging ι} (hstocked : l.Stocked) {a : LogAction ι}
    (hapart : a.isApart = true) (hen : l.Enabled a) :
    ((l.next a).pc = .notStarted ∨ (l.next a).pc = .starting) ↔
      (l.pc = .notStarted ∨ l.pc = .starting) := by
  cases a with
  | spawn => cases hapart
  | append i logline =>
      have hpc : (l.next (.append i logline)).pc = l.pc := (l.sameCalls_appendInSection logline).2.1
      rw [hpc]
  | write => cases hapart
  | appendReturns i => exact Iff.rfl
  | stop => exact Iff.rfl
  | start =>
      have hpc : l.pc = .notStarted := hen
      simp [AsyncLogging.next, hpc]
  | test =>
      have hpc : l.pc = .testing := hen
      simp only [AsyncLogging.next, hpc]
      split <;> simp
  | lock =>
      have hpc : l.pc = .locking := hen
      simp only [AsyncLogging.next, hpc]
      split <;> simp [AsyncLogging.swap]
  | wake =>
      have hpc : l.pc = .waiting := hen
      simp [AsyncLogging.next, hpc, AsyncLogging.swap]
  | recycle =>
      have hs : l.next .recycle = _ := hstocked.backEnd.recycle_eq hen.1
      rw [hs, hen.1]
      simp

theorem Ordered.step (h : s.Ordered) {a : LogAction ι} (hapart : a.isApart = true)
    (hen : s.logger.Enabled a) :
    ({ s with logger := s.logger.next a } : LogPipeline ι).Ordered := by
  obtain ⟨written, todo, full, current, hgroup⟩ := h.grouped
  refine ⟨h.stocked.next hen.ready, ?_, h.filed, ⟨written, hgroup.step h.stocked hapart hen⟩⟩
  rw [begun_next h.stocked hapart hen]
  exact h.constructed

theorem Ordered.spawn (h : s.Ordered) (hen : s.logger.Enabled .spawn) {count now : ℤ}
    (hnow : 0 < now) : (s.next localtime basename_ rollSize_ (.spawn count now)).Ordered := by
  obtain ⟨written, todo, full, current, hgroup⟩ := h.grouped
  have hnone : s.output = none := h.constructed.mpr (.inr hen)
  refine ⟨h.stocked.next (Enabled.ready hen), by simp [LogPipeline.next, AsyncLogging.next], ?_,
    ⟨written, todo, full, current, hgroup.records, ?_, hgroup.todo, hgroup.full,
      hgroup.current⟩⟩
  · intro output houtput
    obtain rfl := Option.some.inj houtput
    exact LogFileState.filed_start _ _ _ _ _ _ hnow
  · have hwritten := hgroup.written
    rw [chunks, hnone] at hwritten
    rw [← hwritten]
    simp [LogPipeline.next, chunks, LogFileState.start_of_pos _ _ _ _ _ _ hnow]

/-- The buffer that is passed to the log file goes to one file. -/
theorem Ordered.write (h : s.Ordered) {writes : List Fwrite} {now rollNow : ℤ}
    (hen : s.Enabled (.write writes now rollNow)) (hnone : ∀ w ∈ writes, w.error = false) :
    (s.next localtime basename_ rollSize_ (.write writes now rollNow)).Ordered := by
  obtain ⟨written, todo, full, current, hgroup⟩ := h.grouped
  obtain ⟨⟨hpc, hlt⟩, hlog⟩ := hen
  obtain ⟨output, houtput⟩ : ∃ output, s.output = some output := by
    rw [← Option.ne_none_iff_exists', Ne, h.constructed, hpc]
    simp
  obtain ⟨b, hb⟩ : ∃ b, s.logger.buffersToWrite[s.logger.position] = some b := by
    rw [← Option.ne_none_iff_exists']
    intro hnull
    exact h.stocked.backEnd.buffersToWrite (hnull ▸ List.getElem_mem hlt)
  have hnext : s.nextBuffer = some b := by
    rw [nextBuffer, List.getElem?_eq_getElem hlt, hb]
    rfl
  obtain ⟨hfiled, hdata⟩ := Filed.next (h.filed output houtput) (hlog output houtput b hnext) hnone
  have hlogger : s.logger.next .write =
      { s.logger with
        output := s.logger.output ++ b.data_, position := s.logger.position + 1 } := by
    simp only [AsyncLogging.next, List.getElem?_eq_getElem hlt, hb]
  refine ⟨(h.stocked.write hlt).1, ?_, ?_, ?_⟩
  · rw [show (s.next localtime basename_ rollSize_ (.write writes now rollNow)).logger.pc =
        s.logger.pc
      from s.logger.sameCalls_write.2.1, hpc]
    simp [LogPipeline.next, houtput, hnext]
  · intro output' houtput'
    simp only [LogPipeline.next, houtput, hnext, Option.mem_some_iff] at houtput'
    rw [← houtput']
    exact hfiled
  · -- the first of the groups that are to be written is written
    have htodo := hgroup.todo
    rw [List.drop_eq_getElem_cons hlt, hb, List.map_cons] at htodo
    obtain ⟨group, todo, rfl, hgrouptext, htodo⟩ := List.map_eq_cons_iff.mp htodo.symm
    refine ⟨written ++ [group], todo, full, current, ?_, ?_, ?_, ?_, ?_⟩
    · simp only [LogPipeline.next, hlogger, hgroup.records]
      simp
    · have hwritten := hgroup.written
      rw [chunks, houtput] at hwritten
      simp only [LogPipeline.next, chunks, houtput, hnext, Option.map_some, Option.getD_some, hdata]
        at hwritten ⊢
      rw [hwritten, List.map_append, List.map_singleton, hgrouptext]
      rfl
    · simp only [LogPipeline.next, hlogger]
      exact htodo.symm
    · simp only [LogPipeline.next, hlogger]
      exact hgroup.full
    · simp only [LogPipeline.next, hlogger]
      exact hgroup.current

/-- No call of `fwrite_unlocked` of the step reports an error. -/
def NoError (_s : LogPipeline ι) : PipelineAction ι → Prop
  | .write writes _ _ => ∀ w ∈ writes, w.error = false
  | _ => True

theorem Ordered.next (h : s.Ordered) {a : PipelineAction ι} (hen : s.Enabled a)
    (hok : s.NoError a) : (s.next localtime basename_ rollSize_ a).Ordered := by
  cases a with
  | step a => exact h.step hen.1 hen.2
  | spawn count now => exact h.spawn hen.1 hen.2
  | write writes now rollNow => exact h.write hen hok

/-- In every run without a write error, the lines that the threads have appended are, in their
order, those of the buffers that have been passed to the log file and those that the buffers still
hold. Each of these buffers is whole lines and has gone to one file, whole, and a file is what has
gone to it. -/
theorem lines_of_runs (localtime : ℤ → Tm) (basename_ : List UInt8) (rollSize_ : ℤ)
    {as : List (PipelineAction ι)}
    (hruns : (logPipeline ι localtime basename_ rollSize_).Runs {} as)
    (hok : (logPipeline ι localtime basename_ rollSize_).Always NoError {} as) :
    let s := (logPipeline ι localtime basename_ rollSize_).run {} as
    ∃ (groups : List (List (List UInt8))) (left : List (List UInt8)),
      s.logger.records = groups.flatten ++ left ∧
      s.chunks.map LoggedRecord.data = groups.map List.flatten ∧
      left.flatten = contents (s.logger.buffersToWrite.drop s.logger.position) ++
        contents s.logger.buffers_ ++ text s.logger.currentBuffer_ ∧
      ∀ output ∈ s.output, output.faulted = false ∧
        ∀ file, (output.disk file).getD [] = LogFileState.contentOf s.chunks file := by
  intro s
  have h : s.Ordered := (logPipeline ι localtime basename_ rollSize_).invariant
    (fun _ _ h hen hok => h.next hen hok) ordered_initial hruns hok
  obtain ⟨written, todo, full, current, hgroup⟩ := h.grouped
  refine ⟨written, (todo ++ full).flatten ++ current, ?_, hgroup.written, ?_, ?_⟩
  · rw [hgroup.records]
    simp
  · have htext (buffers : List BufferPtr) (groups : List (List (List UInt8)))
        (heq : buffers.map text = groups.map List.flatten) :
        contents buffers = groups.flatten.flatten := by
      rw [contents, List.flatMap_def, heq, List.flatten_flatten]
    rw [htext _ _ hgroup.todo, htext _ _ hgroup.full, hgroup.current]
    simp
  · intro output houtput
    have hfiled := h.filed output houtput
    refine ⟨hfiled.faulted, ?_⟩
    rw [chunks, Option.mem_def.mp houtput]
    exact hfiled.files

/-- Two lines, and a roll between their buffers. -/
def rolledBetween : List (PipelineAction ℕ) :=
  [.step (.append 0 [65, 10]), .step .start, .spawn 0 86399, .step .test, .step .lock, .step .wake,
    .step (.appendReturns 0), .step (.append 0 [66, 10]),
    .write [⟨1, false⟩, ⟨1, false⟩] 86400 86400,
    .step .recycle, .step .test, .step .lock, .step .wake, .write [⟨2, false⟩] 86401 86401]

instance (s : LogPipeline ι) : ∀ a, Decidable (s.NoError a)
  | .write writes _ _ => inferInstanceAs (Decidable (∀ w ∈ writes, w.error = false))
  | .step _ => .isTrue trivial
  | .spawn _ _ => .isTrue trivial

theorem lines_rolledBetween :
    let s := (logPipeline ℕ firstMonth.localtime_r (Text.ascii "log") 1).run {} rolledBetween
    s.chunks.map LoggedRecord.file =
      [Text.ascii "log1970-01-01.log", Text.ascii "log1970-01-02.log"] ∧
    ∃ (groups : List (List (List UInt8))) (left : List (List UInt8)),
      s.logger.records = groups.flatten ++ left ∧
      s.chunks.map LoggedRecord.data = groups.map List.flatten := by
  intro s
  have hruns :
      (logPipeline ℕ firstMonth.localtime_r (Text.ascii "log") 1).Runs {} rolledBetween := by
    decide +kernel
  obtain ⟨groups, left, hrecords, hchunks, -⟩ :=
    lines_of_runs firstMonth.localtime_r (Text.ascii "log") 1 hruns (by decide)
  exact ⟨by decide +kernel, groups, left, hrecords, hchunks⟩

end LogPipeline

end CkServer
