import CkServer.Verification.Log.Rolling
import Mathlib.Algebra.Order.Group.Int

/-! # The days of the log files

The name of a file is of the local clock, and the period of a file is of the clock in UTC. After
`checkEveryN_` records of a day its file is current when every check tells the local days
apart. -/

namespace CkServer

open Text

/-! ## Local days -/

namespace TimeZone

variable {zone : TimeZone} {now later : ℤ}

theorem day_mono (h : now ≤ later) : zone.day now ≤ zone.day later :=
  Int.ediv_le_ediv (by decide) (Int.add_le_add_right h zone.offset)

/-- The name has the date, and nothing else of the time. -/
theorem getLogFileName_eq (basename : List UInt8) (h : zone.day now = zone.day later) :
    LogFile.getLogFileName zone.localtime_r basename now =
      LogFile.getLogFileName zone.localtime_r basename later := by
  simp only [LogFile.getLogFileName, strftime, localtime_r, h]

/-- How many of the records are of a local day. -/
def dayCount (zone : TimeZone) (records : List LoggedRecord) (day : ℤ) : ℕ :=
  records.countP fun r => zone.day r.now = day

variable {records : List LoggedRecord} {day : ℤ}

theorem dayCount_concat_le (r : LoggedRecord) :
    zone.dayCount (records ++ [r]) day ≤ zone.dayCount records day + 1 := by
  rw [dayCount, List.countP_append]
  exact Nat.add_le_add_left List.countP_le_length _

theorem dayCount_eq_zero (hpast : ∀ r ∈ records, r.now ≤ now) (hday : zone.day now < day) :
    zone.dayCount records day = 0 := by
  apply List.countP_eq_zero.mpr
  intro r hr heq
  have hle := zone.day_mono (hpast r hr)
  have hsame : zone.day r.now = day := of_decide_eq_true heq
  omega

end TimeZone

namespace LogFileState

open LogFile

variable {zone : TimeZone} {s : LogFileState} {a : LogAppend} {f : FileUtil}
  {accepted : List UInt8} {writen : ℕ}

/-- After `checkEveryN_` records of a local day, its records go to the file with its date. -/
def FollowsDays (zone : TimeZone) (s : LogFileState) : Prop :=
  ∀ early r late, s.records = early ++ r :: late →
    s.log.checkEveryN_ ≤ zone.dayCount early (zone.day r.now) →
    r.file = getLogFileName zone.localtime_r s.log.basename_ r.now

/-- The count does not overflow, and a check on another day than the one of the last roll finds
another period. -/
def ChecksDay (zone : TimeZone) (s : LogFileState) (a : LogAppend) : Prop :=
  ∀ f accepted writen, s.log.file_ = some f →
    FileUtil.write a.data a.writes 0 = some (accepted, writen) →
      s.log.count_ < 2 ^ 31 - 1 ∧
      (f.writtenBytes_ + writen ≤ s.log.rollsize_ →
        s.log.checkEveryN_ ≤ increment s.log.count_ →
        zone.day a.now ≠ zone.day s.log.lastRoll_ → period a.now ≠ s.log.startOfPeriod_)

/-- The current file has the date of the last roll, and the records of a later day are counted. -/
structure Current (zone : TimeZone) (s : LogFileState) (f : FileUtil) : Prop where
  name : f.file_ = getLogFileName zone.localtime_r s.log.basename_ s.log.lastRoll_
  rolled : s.log.lastRoll_ ≤ s.clock
  counted : ∀ day, zone.day s.log.lastRoll_ < day →
    zone.dayCount s.records day ≤ s.log.count_ ∧
      zone.dayCount s.records day < s.log.checkEveryN_

structure Dated (zone : TimeZone) (s : LogFileState) : Prop where
  every : 0 < s.log.checkEveryN_
  past : ∀ r ∈ s.records, r.now ≤ s.clock
  current : ∀ f, s.log.file_ = some f → s.Current zone f
  follows : s.FollowsDays zone

theorem Current.count_nonneg (h : s.Current zone f) : 0 ≤ s.log.count_ := by
  have hday := (h.counted (zone.day s.log.lastRoll_ + 1) (by omega)).1
  omega

/-- A record that finds `checkEveryN_` records of its day finds the file of its day. -/
theorem Current.file_eq (h : s.Current zone f) (hclock : s.clock ≤ a.now)
    (hevery : s.log.checkEveryN_ ≤ zone.dayCount s.records (zone.day a.now)) :
    f.file_ = getLogFileName zone.localtime_r s.log.basename_ a.now := by
  have hle := zone.day_mono (h.rolled.trans hclock)
  have hday : zone.day s.log.lastRoll_ = zone.day a.now := by
    by_contra hne
    have hlt := (h.counted (zone.day a.now) (by omega)).2
    omega
  rw [h.name, TimeZone.getLogFileName_eq _ hday]

theorem FollowsDays.concat (h : s.FollowsDays zone) {t : LogFileState} {r : LoggedRecord}
    (hrecords : t.records = s.records ++ [r])
    (hbase : t.log.basename_ = s.log.basename_) (hevery : t.log.checkEveryN_ = s.log.checkEveryN_)
    (hr : s.log.checkEveryN_ ≤ zone.dayCount s.records (zone.day r.now) →
      r.file = getLogFileName zone.localtime_r s.log.basename_ r.now) : t.FollowsDays zone := by
  intro early q late heq hcount
  rw [hbase]
  rw [hevery] at hcount
  rw [hrecords] at heq
  rcases List.eq_nil_or_concat late with rfl | ⟨late, last, rfl⟩
  · obtain ⟨rfl, rfl⟩ := List.append_inj' heq rfl |>.imp id List.singleton_inj.mp
    exact hr hcount
  · rw [List.concat_eq_append, ← List.cons_append, ← List.append_assoc] at heq
    exact h early q late (List.append_inj' heq rfl).1 hcount

/-! ## A call of `append` -/

section Step

variable {l : LogFile} {disk : Disk}

theorem Current.next_count_nonneg (h : s.Current zone f) (hcount : s.log.count_ < 2 ^ 31 - 1)
    (hcounted : Counted s.log l f writen) : 0 ≤ l.count_ := by
  have hnonneg := h.count_nonneg
  rw [hcounted.count_, increment_of_lt hcount]
  split
  · omega
  · split <;> omega

/-- A record of a later day than the file's has not been checked, so that it is only counted. -/
theorem ChecksDay.counts (hok : s.ChecksDay zone a) (hfile : s.log.file_ = some f)
    (hwrite : FileUtil.write a.data a.writes 0 = some (accepted, writen))
    (hlater : a.now ≤ a.rollNow) (hcounted : Counted s.log l f writen)
    (hout : LogFile.Outcome zone.localtime_r s.log l s.disk disk f a accepted writen)
    (hday : zone.day l.lastRoll_ < zone.day a.now) :
    l.lastRoll_ = s.log.lastRoll_ ∧ l.count_ = s.log.count_ + 1 ∧ l.count_ < l.checkEveryN_ := by
  obtain ⟨hcount, hcheck⟩ := hok f accepted writen hfile hwrite
  have hmono := zone.day_mono hlater
  cases hout with
  | rolls _ _ hlast _ _ _ =>
      rw [hlast] at hday
      omega
  | stays hrefused hlast _ _ _ =>
      have hnotdue : ¬ s.log.RollDue f writen a.now := by
        intro hdue
        have hle := zone.day_mono (hrefused hdue)
        rw [hlast] at hday
        omega
      obtain ⟨hfull, hperiod⟩ := not_or.mp hnotdue
      have hless : increment s.log.count_ < s.log.checkEveryN_ := by
        by_contra hchecked
        have hchecked := Int.not_lt.mp hchecked
        refine hperiod ⟨hchecked, hcheck (Int.not_lt.mp hfull) hchecked ?_⟩
        rw [← hlast]
        omega
      refine ⟨hlast, ?_, ?_⟩
      · rw [hcounted.count_, if_neg hfull, if_neg (Int.not_le.mpr hless), increment_of_lt hcount]
      · rw [hcounted.count_, if_neg hfull, if_neg (Int.not_le.mpr hless), hcounted.checkEveryN_]
        exact hless

theorem Dated.counted_next (h : s.Dated zone) (hen : s.Enabled a) (hok : s.ChecksDay zone a)
    (hfile : s.log.file_ = some f)
    (hwrite : FileUtil.write a.data a.writes 0 = some (accepted, writen))
    (hcounted : Counted s.log l f writen)
    (hout : LogFile.Outcome zone.localtime_r s.log l s.disk disk f a accepted writen) (day : ℤ)
    (hday : zone.day l.lastRoll_ < day) :
    zone.dayCount (s.records ++ [⟨a.data, a.now, f.file_⟩]) day ≤ l.count_ ∧
      zone.dayCount (s.records ++ [⟨a.data, a.now, f.file_⟩]) day < l.checkEveryN_ := by
  have hcur := h.current f hfile
  by_cases hlate : zone.day l.lastRoll_ < zone.day a.now
  · obtain ⟨hlast, hcount, hless⟩ := hok.counts hfile hwrite hen.2.1 hcounted hout hlate
    have hadd : zone.dayCount (s.records ++ [⟨a.data, a.now, f.file_⟩]) day ≤
        zone.dayCount s.records day + 1 := TimeZone.dayCount_concat_le _
    have hle := (hcur.counted day (hlast ▸ hday)).1
    omega
  · -- no record is of a later day than the one of the last roll
    have hpast : ∀ r ∈ s.records ++ [⟨a.data, a.now, f.file_⟩], r.now ≤ a.now := by
      intro r hr
      rcases List.mem_append.mp hr with hr | hr
      · exact (h.past r hr).trans hen.1
      · exact List.mem_singleton.mp hr ▸ Int.le_refl _
    rw [TimeZone.dayCount_eq_zero hpast (by omega)]
    have hnonneg := hcur.next_count_nonneg (hok f accepted writen hfile hwrite).1 hcounted
    exact ⟨hnonneg, hcounted.checkEveryN_ ▸ h.every⟩

/-- The name of the file changes only together with the last roll. -/
theorem Current.appended (h : s.Current zone f) (hclock : s.clock ≤ a.rollNow)
    (hcounted : Counted s.log l f writen)
    (hout : LogFile.Outcome zone.localtime_r s.log l s.disk disk f a accepted writen)
    (hcount : ∀ day, zone.day l.lastRoll_ < day →
      zone.dayCount (s.records ++ [⟨a.data, a.now, f.file_⟩]) day ≤ l.count_ ∧
        zone.dayCount (s.records ++ [⟨a.data, a.now, f.file_⟩]) day < l.checkEveryN_)
    {g : FileUtil} (hg : l.file_ = some g) : (s.appended a f.file_ l disk).Current zone g := by
  cases hout with
  | rolls _ _ hlast _ hnew _ =>
      obtain rfl := Option.some.inj (hnew.symm.trans hg)
      refine ⟨?_, Int.le_of_eq hlast, hcount⟩
      simp only [LogFileState.appended, hlast, hcounted.basename_]
  | stays _ hlast _ hsame _ =>
      obtain rfl := Option.some.inj (hsame.symm.trans hg)
      refine ⟨?_, (Int.le_of_eq hlast).trans (h.rolled.trans hclock), hcount⟩
      simp only [LogFileState.appended, hlast, hcounted.basename_, h.name]

theorem Dated.next (h : s.Dated zone) (hen : s.Enabled a) (hok : s.ChecksDay zone a) :
    (s.next zone.localtime_r a).Dated zone := by
  have hclock : s.clock ≤ a.rollNow := hen.1.trans hen.2.1
  rcases next_cases zone.localtime_r hen with
    ⟨hfile, hnext⟩ | ⟨f, accepted, writen, l, disk, hfile, hwrite, hnext, hcounted, hout⟩
  · rw [hnext]
    exact ⟨h.every, fun r hr => (h.past r hr).trans hclock,
      fun f hf => absurd (hfile.symm.trans hf) (by simp), h.follows⟩
  · have hcur := h.current f hfile
    have hcount := h.counted_next hen hok hfile hwrite hcounted hout
    rw [hnext]
    refine ⟨hcounted.checkEveryN_ ▸ h.every, ?_,
      fun g hg => hcur.appended hclock hcounted hout hcount hg,
      h.follows.concat rfl hcounted.basename_ hcounted.checkEveryN_
        (fun hevery => hcur.file_eq hen.1 hevery)⟩
    intro r hr
    rcases List.mem_append.mp hr with hr | hr
    · exact (h.past r hr).trans hclock
    · obtain rfl := List.mem_singleton.mp hr
      exact hen.2.1

end Step

/-! ## Runs -/

/-- Before the first record, there is no other day than the one of the constructor. -/
theorem dated_start (zone : TimeZone) (basename : List UInt8)
    (rollsize flushInterval : ℤ) {checkEveryN count : ℤ} (now : ℤ) (hevery : 1 ≤ checkEveryN)
    (hcount : 0 ≤ count) :
    (start zone.localtime_r basename rollsize flushInterval checkEveryN count now).Dated zone := by
  by_cases hnow : 0 < now
  · rw [start_of_pos _ _ _ _ _ _ hnow]
    refine ⟨hevery, fun _ hr => absurd hr List.not_mem_nil, ?_, ?_⟩
    · intro f hf
      obtain rfl := Option.some.inj hf
      exact ⟨rfl, Int.le_refl _, fun _ _ => ⟨hcount, hevery⟩⟩
    · exact fun _ _ _ heq => absurd heq (by simp)
  · rw [start_of_nonpos _ _ _ _ _ _ (Int.not_lt.mp hnow)]
    exact ⟨hevery, fun _ hr => absurd hr List.not_mem_nil, fun _ hf => absurd hf (by simp),
      fun _ _ _ heq => absurd heq (by simp)⟩

/-- In a run whose checks tell the local days apart, the files follow the local days. -/
theorem followsDays_of_checksDay (zone : TimeZone) (basename : List UInt8)
    (rollsize flushInterval checkEveryN count now : ℤ) (hevery : 1 ≤ checkEveryN)
    (hcount : 0 ≤ count) (as : List LogAppend)
    (hruns : (logFile zone.localtime_r).Runs
      (start zone.localtime_r basename rollsize flushInterval checkEveryN count now) as)
    (hok : (logFile zone.localtime_r).Always (ChecksDay zone)
      (start zone.localtime_r basename rollsize flushInterval checkEveryN count now) as) :
    ((logFile zone.localtime_r).run
      (start zone.localtime_r basename rollsize flushInterval checkEveryN count now)
      as).FollowsDays zone :=
  ((logFile zone.localtime_r).invariant (fun _ _ h hen hok => h.next hen hok)
    (dated_start zone basename rollsize flushInterval now hevery hcount) hruns hok).follows

theorem followsDays_midnight :
    ((logFile firstMonth.localtime_r).run
      (start firstMonth.localtime_r (ascii "log") 100 3 1 0 86399)
      [appendAt 5 86400, appendAt 5 86401]).FollowsDays firstMonth :=
  followsDays_of_checksDay firstMonth _ 100 3 1 0 86399 (by decide) (by decide) _ (by decide)
    ⟨forall_write rfl rfl ⟨by decide, by decide⟩, forall_write rfl rfl ⟨by decide, by decide⟩,
      trivial⟩

/-- The calendar of the first month, eight hours ahead of UTC. -/
def eightHoursAhead : TimeZone := { firstMonth with offset := 28800 }

/-- A day of the local clock begins within a period, and a count that begins below zero comes to
its check late. -/
theorem not_followsDays :
    ((logFile eightHoursAhead.localtime_r).Runs
        (start eightHoursAhead.localtime_r (ascii "log") 100 3 1 0 57599)
        [appendAt 5 57600, appendAt 5 57601] ∧
      ¬ ((logFile eightHoursAhead.localtime_r).run
        (start eightHoursAhead.localtime_r (ascii "log") 100 3 1 0 57599)
        [appendAt 5 57600, appendAt 5 57601]).FollowsDays eightHoursAhead) ∧
    (logFile firstMonth.localtime_r).Runs
        (start firstMonth.localtime_r (ascii "log") 100 3 1 (-5) 86399)
        [appendAt 5 86400, appendAt 5 86401] ∧
      ¬ ((logFile firstMonth.localtime_r).run
        (start firstMonth.localtime_r (ascii "log") 100 3 1 (-5) 86399)
        [appendAt 5 86400, appendAt 5 86401]).FollowsDays firstMonth := by
  refine ⟨⟨by decide, fun h => ?_⟩, by decide, fun h => ?_⟩
  · exact absurd (h [⟨_, 57600, _⟩] ⟨_, 57601, _⟩ [] rfl (by decide)) (by decide)
  · exact absurd (h [⟨_, 86400, _⟩] ⟨_, 86401, _⟩ [] rfl (by decide)) (by decide)

end LogFileState

end CkServer
