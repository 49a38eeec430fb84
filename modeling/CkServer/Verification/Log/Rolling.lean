import CkServer.Model.LogFile
import CkServer.Verification.Log.ShortWrites

/-! # Rolling log files

What a call of `append` does to a log file, and the sizes of its files. Every roll of one day opens
the same file again, with a new count of its bytes. -/

namespace CkServer

open Text

/-! ## Writing -/

/-- The loop accepts no more than the record, and counts no more than it accepts. -/
theorem FileUtil.write_le {data : List UInt8} {writes : List Fwrite} {writen last : ℕ}
    {accepted : List UInt8} (h : write data writes writen = some (accepted, last))
    (hle : writen ≤ data.length) :
    writen + accepted.length ≤ data.length ∧ last ≤ writen + accepted.length := by
  obtain ⟨htaken, hin⟩ := taken_calls writes hle
  have hcounted := Call.counted_le_total (calls data writes writen)
  have hlength : ((data.drop writen).take (Call.total (calls data writes writen))).length =
      Call.total (calls data writes writen) := by
    rw [List.length_take, List.length_drop]
    omega
  rw [write_eq writes hle] at h
  simp only at h
  split at h
  · obtain ⟨rfl, rfl⟩ := Prod.mk.inj (Option.some.inj h)
    rw [htaken, hlength]
    omega
  · cases h

namespace LogFile

variable {localtime : ℤ → Tm} {l l' : LogFile} {disk disk' : Disk} {f : FileUtil} {a : LogAppend}
  {accepted : List UInt8} {writen : ℕ}

/-! ## A call of `append` -/

/-- The file is rolled after the write of a record, if the clock allows it. -/
def RollDue (l : LogFile) (f : FileUtil) (writen : ℕ) (now : ℤ) : Prop :=
  l.rollsize_ < f.writtenBytes_ + writen ∨
    l.checkEveryN_ ≤ increment l.count_ ∧ period now ≠ l.startOfPeriod_

instance (l : LogFile) (f : FileUtil) (writen : ℕ) (now : ℤ) :
    Decidable (l.RollDue f writen now) :=
  inferInstanceAs (Decidable (l.rollsize_ < f.writtenBytes_ + writen ∨
    l.checkEveryN_ ≤ increment l.count_ ∧ period now ≠ l.startOfPeriod_))

/-- The disk with the accepted bytes of a record. -/
def written (disk : Disk) (f : FileUtil) (accepted : List UInt8) : Disk :=
  Function.update disk f.file_ ((disk f.file_).map (· ++ accepted))

/-- What `append` leaves as it is, and the count of the records. -/
structure Counted (l l' : LogFile) (f : FileUtil) (writen : ℕ) : Prop where
  basename_ : l'.basename_ = l.basename_
  rollsize_ : l'.rollsize_ = l.rollsize_
  checkEveryN_ : l'.checkEveryN_ = l.checkEveryN_
  count_ : l'.count_ = if l.rollsize_ < f.writtenBytes_ + writen then increment l.count_
    else if l.checkEveryN_ ≤ increment l.count_ then 0 else increment l.count_

/-- A new file is opened, or the file stays, because no roll is due or the clock refuses it. -/
inductive Outcome (localtime : ℤ → Tm) (l l' : LogFile) (disk disk' : Disk) (f : FileUtil)
    (a : LogAppend) (accepted : List UInt8) (writen : ℕ) : Prop
  | rolls (hdue : l.RollDue f writen a.now) (hlater : l.lastRoll_ < a.rollNow)
      (hlast : l'.lastRoll_ = a.rollNow) (hstart : l'.startOfPeriod_ = period a.rollNow)
      (hfile : l'.file_ = some { file_ := getLogFileName localtime l.basename_ a.rollNow })
      (hdisk : disk' = (FileUtil.new (getLogFileName localtime l.basename_ a.rollNow)
        (written disk f accepted)).2)
  | stays (hdue : l.RollDue f writen a.now → a.rollNow ≤ l.lastRoll_)
      (hlast : l'.lastRoll_ = l.lastRoll_) (hstart : l'.startOfPeriod_ = l.startOfPeriod_)
      (hfile : l'.file_ = some { f with writtenBytes_ := f.writtenBytes_ + writen })
      (hdisk : disk' = written disk f accepted)

theorem rollFile_of_lt {now : ℤ} (h : l.lastRoll_ < now) :
    l.rollFile localtime disk now =
      ({ l with
        lastFlush_ := now
        lastRoll_ := now
        startOfPeriod_ := period now
        file_ := some { file_ := getLogFileName localtime l.basename_ now } },
        (FileUtil.new (getLogFileName localtime l.basename_ now) disk).2) :=
  if_pos h

theorem rollFile_of_le {now : ℤ} (h : now ≤ l.lastRoll_) :
    l.rollFile localtime disk now = (l, disk) :=
  if_neg (Int.not_lt.mpr h)

/-- A call of `rollFile`, where the count may have been reset before it. -/
theorem rollFile_outcome (localtime : ℤ → Tm) (disk : Disk) {f : FileUtil} (accepted : List UInt8)
    (hdue : l.RollDue f writen a.now) (count : ℤ) :
    ∃ l' disk', rollFile localtime
        { l with
          file_ := some { f with writtenBytes_ := f.writtenBytes_ + writen }
          count_ := count } (written disk f accepted) a.rollNow = (l', disk') ∧
      l'.basename_ = l.basename_ ∧ l'.rollsize_ = l.rollsize_ ∧
      l'.checkEveryN_ = l.checkEveryN_ ∧ l'.count_ = count ∧
      Outcome localtime l l' disk disk' f a accepted writen := by
  by_cases hlater : l.lastRoll_ < a.rollNow
  · exact ⟨_, _, rollFile_of_lt hlater, rfl, rfl, rfl, rfl, .rolls hdue hlater rfl rfl rfl rfl⟩
  · have hle := Int.not_lt.mp hlater
    exact ⟨_, _, rollFile_of_le hle, rfl, rfl, rfl, rfl, .stays (fun _ => hle) rfl rfl rfl rfl⟩

theorem checkRoll_outcome (l : LogFile) (localtime : ℤ → Tm) (disk : Disk) (f : FileUtil)
    (a : LogAppend) (accepted : List UInt8) (writen : ℕ) :
    ∃ l' disk', l.checkRoll localtime (written disk f accepted)
        { f with writtenBytes_ := f.writtenBytes_ + writen } a.now a.rollNow = (l', disk') ∧
      Counted l l' f writen ∧ Outcome localtime l l' disk disk' f a accepted writen := by
  by_cases hfull : l.rollsize_ < f.writtenBytes_ + writen
  · have hdue : l.RollDue f writen a.now := .inl hfull
    obtain ⟨l', disk', hroll, hbase, hsize, hevery, hcount, hout⟩ :=
      rollFile_outcome localtime disk accepted hdue (increment l.count_)
    refine ⟨l', disk', ?_, ⟨hbase, hsize, hevery, by rw [if_pos hfull, hcount]⟩, hout⟩
    rw [← hroll]
    exact if_pos hfull
  · by_cases hcheck : l.checkEveryN_ ≤ increment l.count_
    · by_cases hperiod : period a.now = l.startOfPeriod_
      · refine ⟨{ l with
            file_ := some { f with writtenBytes_ := f.writtenBytes_ + writen }
            count_ := 0 }, _, ?_, ⟨rfl, rfl, rfl, by rw [if_neg hfull, if_pos hcheck]⟩,
          .stays (fun hdue => ?_) rfl rfl rfl rfl⟩
        · refine (if_neg hfull).trans ((if_pos hcheck).trans ?_)
          exact if_neg (not_not_intro hperiod)
        · rcases hdue with h | ⟨-, h⟩
          · exact absurd h hfull
          · exact absurd hperiod h
      · have hdue : l.RollDue f writen a.now := .inr ⟨hcheck, hperiod⟩
        obtain ⟨l', disk', hroll, hbase, hsize, hevery, hcount, hout⟩ :=
          rollFile_outcome localtime disk accepted hdue 0
        refine ⟨l', disk', ?_,
          ⟨hbase, hsize, hevery, by rw [if_neg hfull, if_pos hcheck, hcount]⟩, hout⟩
        rw [← hroll]
        exact (if_neg hfull).trans ((if_pos hcheck).trans (if_pos hperiod))
    · refine ⟨{ l with
          file_ := some { f with writtenBytes_ := f.writtenBytes_ + writen }
          count_ := increment l.count_ }, _, ?_,
        ⟨rfl, rfl, rfl, by rw [if_neg hfull, if_neg hcheck]⟩,
        .stays (fun hdue => ?_) rfl rfl rfl rfl⟩
      · exact (if_neg hfull).trans (if_neg hcheck)
      · rcases hdue with h | ⟨h, -⟩
        · exact absurd h hfull
        · exact absurd h hcheck

theorem checkFlush_eq (l : LogFile) (now : ℤ) :
    ∃ lastFlush, l.checkFlush now = { l with lastFlush_ := lastFlush } := by
  rw [checkFlush]
  split
  · exact ⟨now, rfl⟩
  · exact ⟨l.lastFlush_, rfl⟩

/-- The step lemma. -/
theorem appendInlock_outcome (localtime : ℤ → Tm) (disk : Disk) (hfile : l.file_ = some f)
    (hwrite : FileUtil.write a.data a.writes 0 = some (accepted, writen)) :
    ∃ l' disk', l.appendInlock localtime disk a = some (l', disk') ∧ Counted l l' f writen ∧
      Outcome localtime l l' disk disk' f a accepted writen := by
  have happend : f.append disk a.data a.writes =
      some ({ f with writtenBytes_ := f.writtenBytes_ + writen }, written disk f accepted) := by
    rw [FileUtil.append, hwrite]
    rfl
  obtain ⟨l₁, disk₁, hroll, hcounted, hout⟩ :=
    l.checkRoll_outcome localtime disk f a accepted writen
  obtain ⟨lastFlush, hflush⟩ := l₁.checkFlush_eq a.now
  refine ⟨{ l₁ with lastFlush_ := lastFlush }, disk₁, ?_, ?_, ?_⟩
  · rw [appendInlock, hfile, Option.bind_eq_bind, Option.bind_some, happend, Option.bind_eq_bind,
      Option.bind_some]
    simp only [hroll, hflush]
    rfl
  · exact ⟨hcounted.basename_, hcounted.rollsize_, hcounted.checkEveryN_, hcounted.count_⟩
  · cases hout with
    | rolls hdue hlater hlast hstart hfile hdisk =>
        exact .rolls hdue hlater hlast hstart hfile hdisk
    | stays hdue hlast hstart hfile hdisk => exact .stays hdue hlast hstart hfile hdisk

end LogFile

namespace LogFileState

open LogFile

variable {localtime : ℤ → Tm} {s : LogFileState} {a : LogAppend} {f : FileUtil} {file : FileName}
  {content accepted : List UInt8} {writen : ℕ}

/-- A record that has gone to `file`, with what the call has left. -/
def appended (s : LogFileState) (a : LogAppend) (file : FileName) (l : LogFile) (disk : Disk) :
    LogFileState :=
  { s with
    log := l
    disk := disk
    clock := a.rollNow
    records := s.records ++ [⟨a.data, a.now, file⟩] }

/-- What a call does: without a file it dereferences a null pointer, and else the record goes to
the current file, and then that file may be rolled. -/
theorem next_cases (localtime : ℤ → Tm) (hen : s.Enabled a) :
    (s.log.file_ = none ∧ s.next localtime a = { s with clock := a.rollNow, faulted := true }) ∨
    ∃ f accepted writen l disk, s.log.file_ = some f ∧
      FileUtil.write a.data a.writes 0 = some (accepted, writen) ∧
      s.next localtime a = s.appended a f.file_ l disk ∧ Counted s.log l f writen ∧
      LogFile.Outcome localtime s.log l s.disk disk f a accepted writen := by
  cases hfile : s.log.file_ with
  | none =>
      refine .inl ⟨rfl, ?_⟩
      simp only [next, hfile]
  | some f =>
      obtain ⟨⟨accepted, writen⟩, hwrite⟩ := Option.isSome_iff_exists.mp hen.2.2
      obtain ⟨l, disk, happend, hcounted, hout⟩ :=
        appendInlock_outcome localtime s.disk hfile hwrite
      refine .inr ⟨f, accepted, writen, l, disk, rfl, hwrite, ?_, hcounted, hout⟩
      simp only [next, hfile, happend]
      rfl

/-- A call finds one file, and its write has one result. -/
theorem forall_write {P : FileUtil → List UInt8 → ℕ → Prop} (hfile : s.log.file_ = some f)
    (hwrite : FileUtil.write a.data a.writes 0 = some (accepted, writen))
    (h : P f accepted writen) :
    ∀ f accepted writen, s.log.file_ = some f →
      FileUtil.write a.data a.writes 0 = some (accepted, writen) → P f accepted writen := by
  intro f' accepted' writen' hfile' hwrite'
  obtain rfl := Option.some.inj (hfile.symm.trans hfile')
  obtain ⟨rfl, rfl⟩ := Prod.mk.inj (Option.some.inj (hwrite.symm.trans hwrite'))
  exact h

/-! ## The sizes of the files -/

/-- The length of the last record that has gone to a file. -/
def lastLength (s : LogFileState) (file : FileName) : ℕ :=
  ((s.records.filter fun r => r.file = file).getLast?.map fun r => r.data.length).getD 0

/-- No file is longer than `rollsize_` and its last record. -/
def Bounded (s : LogFileState) : Prop :=
  ∀ file content, s.disk file = some content →
    (content.length : ℤ) ≤ s.log.rollsize_ + s.lastLength file

/-- A write error has not accepted a part of the record, a roll for the size is not refused, and
every roll opens a file that is not present. -/
def RollsAfresh (localtime : ℤ → Tm) (s : LogFileState) (a : LogAppend) : Prop :=
  ∀ f accepted writen, s.log.file_ = some f →
    FileUtil.write a.data a.writes 0 = some (accepted, writen) →
      accepted.length = writen ∧
      (s.log.rollsize_ < f.writtenBytes_ + writen → s.log.lastRoll_ < a.rollNow) ∧
      (s.log.RollDue f writen a.now → s.log.lastRoll_ < a.rollNow →
        s.disk (getLogFileName localtime s.log.basename_ a.rollNow) = none)

/-- The current file is counted from its first byte on. -/
structure Sized (s : LogFileState) : Prop where
  nonneg : 0 ≤ s.log.rollsize_
  bounded : s.Bounded
  current : ∀ f, s.log.file_ = some f → ∃ content, s.disk f.file_ = some content ∧
    (content.length : ℤ) = f.writtenBytes_ ∧ f.writtenBytes_ ≤ s.log.rollsize_

theorem lastLength_appended (s : LogFileState) (a : LogAppend) (file : FileName) (l : LogFile)
    (disk : Disk) : (s.appended a file l disk).lastLength file = a.data.length := by
  rw [lastLength, appended, List.filter_append]
  simp

theorem lastLength_appended_of_ne {other : FileName} (hne : other ≠ file) (l : LogFile)
    (disk : Disk) : (s.appended a other l disk).lastLength file = s.lastLength file := by
  rw [lastLength, appended, List.filter_append]
  simp [lastLength, hne]

section Step

variable {l : LogFile} {disk : Disk}

/-- After the write, and before a roll. -/
theorem Sized.bounded_written (h : s.Sized) (hfile : s.log.file_ = some f)
    (hwrite : FileUtil.write a.data a.writes 0 = some (accepted, writen))
    (hcount : accepted.length = writen) (hsize : l.rollsize_ = s.log.rollsize_)
    (hcontent : written s.disk f accepted file = some content) :
    (content.length : ℤ) ≤ l.rollsize_ + (s.appended a f.file_ l disk).lastLength file := by
  rw [hsize]
  by_cases hself : file = f.file_
  · subst hself
    obtain ⟨old, hold, hlength, hle⟩ := h.current f hfile
    obtain ⟨hin, -⟩ := FileUtil.write_le hwrite (Nat.zero_le _)
    rw [written, Function.update_self, hold, Option.map_some, Option.some_inj] at hcontent
    rw [lastLength_appended, ← hcontent, List.length_append]
    omega
  · rw [written, Function.update_of_ne hself] at hcontent
    rw [lastLength_appended_of_ne (Ne.symm hself)]
    exact h.bounded file content hcontent

/-- A file that has not been present is opened. -/
theorem Sized.rolled (h : s.Sized) (hfile : s.log.file_ = some f)
    (hwrite : FileUtil.write a.data a.writes 0 = some (accepted, writen))
    (hcount : accepted.length = writen) (hsize : l.rollsize_ = s.log.rollsize_) {name : FileName}
    (hname : s.disk name = none) (hnew : l.file_ = some { file_ := name }) :
    (s.appended a f.file_ l (FileUtil.new name (written s.disk f accepted)).2).Sized := by
  obtain ⟨old, hold, -, -⟩ := h.current f hfile
  have hnonneg : 0 ≤ l.rollsize_ := hsize ▸ h.nonneg
  have hne : name ≠ f.file_ := by
    rintro rfl
    exact absurd (hname.symm.trans hold) (by simp)
  have hempty : (FileUtil.new name (written s.disk f accepted)).2 name = some [] := by
    simp only [FileUtil.new, Function.update_self, written, Function.update_of_ne hne, hname,
      Option.getD_none]
  refine ⟨hnonneg, ?_, ?_⟩
  · intro file content hcontent
    by_cases hself : file = name
    · subst hself
      obtain rfl := Option.some.inj (hempty.symm.trans hcontent)
      simp only [List.length_nil, appended]
      omega
    · simp only [appended, FileUtil.new, Function.update_of_ne hself] at hcontent
      exact h.bounded_written hfile hwrite hcount hsize hcontent
  · intro g hg
    obtain rfl := Option.some.inj (hnew.symm.trans hg)
    exact ⟨[], hempty, rfl, hnonneg⟩

/-- The file stays, and is not full. -/
theorem Sized.stayed (h : s.Sized) (hfile : s.log.file_ = some f)
    (hwrite : FileUtil.write a.data a.writes 0 = some (accepted, writen))
    (hcount : accepted.length = writen) (hsize : l.rollsize_ = s.log.rollsize_)
    (hroom : f.writtenBytes_ + writen ≤ s.log.rollsize_)
    (hsame : l.file_ = some { f with writtenBytes_ := f.writtenBytes_ + writen }) :
    (s.appended a f.file_ l (written s.disk f accepted)).Sized := by
  obtain ⟨old, hold, hlength, -⟩ := h.current f hfile
  refine ⟨hsize ▸ h.nonneg, ?_, ?_⟩
  · intro file content hcontent
    exact h.bounded_written hfile hwrite hcount hsize hcontent
  · intro g hg
    obtain rfl := Option.some.inj (hsame.symm.trans hg)
    refine ⟨old ++ accepted, ?_, ?_, hsize ▸ hroom⟩
    · simp only [appended, written, Function.update_self, hold, Option.map_some]
    · rw [List.length_append]
      simp only
      omega

theorem Sized.next (h : s.Sized) (hen : s.Enabled a) (hok : s.RollsAfresh localtime a) :
    (s.next localtime a).Sized := by
  rcases next_cases localtime hen with
    ⟨-, hnext⟩ | ⟨f, accepted, writen, l, disk, hfile, hwrite, hnext, hcounted, hout⟩
  · rw [hnext]
    exact ⟨h.nonneg, h.bounded, h.current⟩
  · obtain ⟨hcount, hsize, hfresh⟩ := hok f accepted writen hfile hwrite
    rw [hnext]
    cases hout with
    | rolls hdue hlater _ _ hnew hdisk =>
        rw [hdisk]
        exact h.rolled hfile hwrite hcount hcounted.rollsize_ (hfresh hdue hlater) hnew
    | stays hrefused _ _ hsame hdisk =>
        -- a roll for the size would be due, and is not refused
        have hroom : f.writtenBytes_ + writen ≤ s.log.rollsize_ := by
          by_contra hfull
          have hdue := Int.not_le.mp hfull
          have hlater := hsize hdue
          have hle := hrefused (.inl hdue)
          omega
        rw [hdisk]
        exact h.stayed hfile hwrite hcount hcounted.rollsize_ hroom hsame

end Step

/-! ## Runs -/

section Start

variable (localtime : ℤ → Tm) (basename : List UInt8)
  (rollsize flushInterval checkEveryN count : ℤ) {now : ℤ}

/-- The first file is created by the constructor. -/
theorem start_of_pos (hnow : 0 < now) :
    start localtime basename rollsize flushInterval checkEveryN count now =
      { log :=
          { basename_ := basename
            rollsize_ := rollsize
            flushInterval_ := flushInterval
            checkEveryN_ := checkEveryN
            count_ := count
            startOfPeriod_ := period now
            lastRoll_ := now
            lastFlush_ := now
            file_ := some { file_ := getLogFileName localtime basename now } }
        disk := Function.update (fun _ => none) (getLogFileName localtime basename now) (some [])
        clock := now } := by
  rw [start, LogFile.new, rollFile_of_lt hnow]
  rfl

theorem start_of_nonpos (hnow : now ≤ 0) :
    start localtime basename rollsize flushInterval checkEveryN count now =
      { log :=
          { basename_ := basename
            rollsize_ := rollsize
            flushInterval_ := flushInterval
            checkEveryN_ := checkEveryN
            count_ := count }
        disk := fun _ => none
        clock := now } := by
  rw [start, LogFile.new, rollFile_of_le hnow]

variable (now) in
theorem sized_start (hsize : 0 ≤ rollsize) :
    (start localtime basename rollsize flushInterval checkEveryN count now).Sized := by
  by_cases hnow : 0 < now
  · rw [start_of_pos _ _ _ _ _ _ hnow]
    refine ⟨hsize, ?_, ?_⟩
    · intro file content hcontent
      simp only at hcontent ⊢
      by_cases hself : file = getLogFileName localtime basename now
      · subst hself
        rw [Function.update_self] at hcontent
        obtain rfl := Option.some_inj.mp hcontent
        simp only [List.length_nil]
        omega
      · rw [Function.update_of_ne hself] at hcontent
        exact absurd hcontent (by simp)
    · intro f hf
      obtain rfl := Option.some_inj.mp hf
      refine ⟨[], ?_, rfl, hsize⟩
      simp only [Function.update_self]
  · rw [start_of_nonpos _ _ _ _ _ _ (Int.not_lt.mp hnow)]
    exact ⟨hsize, fun _ _ hcontent => absurd hcontent (by simp),
      fun _ hf => absurd hf (by simp)⟩

end Start

/-- In a run whose rolls open new files, no file outgrows `rollsize_` and its last record. -/
theorem bounded_of_rollsAfresh (localtime : ℤ → Tm) (basename : List UInt8)
    (rollsize flushInterval checkEveryN count now : ℤ) (hsize : 0 ≤ rollsize)
    (as : List LogAppend)
    (hruns : (logFile localtime).Runs
      (start localtime basename rollsize flushInterval checkEveryN count now) as)
    (hok : (logFile localtime).Always (RollsAfresh localtime)
      (start localtime basename rollsize flushInterval checkEveryN count now) as) :
    ((logFile localtime).run
      (start localtime basename rollsize flushInterval checkEveryN count now) as).Bounded :=
  ((logFile localtime).invariant (fun _ _ h hen hok => h.next hen hok)
    (sized_start localtime basename rollsize flushInterval checkEveryN count now hsize)
    hruns hok).bounded

/-- The calendar of the first month, in UTC. -/
def firstMonth : TimeZone where
  offset := 0
  calendar day := { tm_year := 70, tm_mon := 0, tm_mday := day + 1 }

/-- A record that is written at once. -/
def appendAt (length : ℕ) (now : ℤ) : LogAppend where
  data := List.replicate length (byte 'x')
  writes := [⟨length, false⟩]
  now := now
  rollNow := now

theorem bounded_one_roll :
    ((logFile firstMonth.localtime_r).run
      (start firstMonth.localtime_r (ascii "log") 10 3 1024 0 86399)
      [appendAt 11 86400, appendAt 4 86401]).Bounded :=
  bounded_of_rollsAfresh _ _ 10 3 1024 0 86399 (by decide) _ (by decide)
    ⟨forall_write rfl rfl ⟨by decide, by decide, fun _ _ => by decide⟩,
      forall_write rfl rfl ⟨by decide, by decide, fun hdue => absurd hdue (by decide)⟩, trivial⟩

/-- Two rolls on one day. -/
theorem not_bounded_two_rolls :
    (logFile firstMonth.localtime_r).Runs
      (start firstMonth.localtime_r (ascii "log") 10 3 1024 0 1) [appendAt 11 2, appendAt 11 3] ∧
    ¬ ((logFile firstMonth.localtime_r).run
      (start firstMonth.localtime_r (ascii "log") 10 3 1024 0 1)
      [appendAt 11 2, appendAt 11 3]).Bounded := by
  refine ⟨by decide, fun h => ?_⟩
  have hfile := h (ascii "log1970-01-01.log") (List.replicate 22 (byte 'x')) (by decide)
  exact absurd hfile (by decide)

end LogFileState

end CkServer
