import CkServer.Verification.Log.Stream

/-! # Stopping the logger

The back end writes what it has taken before it returns, and takes nothing after a test that has
found `running_` false. So a record is written if `stop` is called between the test and the swap
of a cycle, or if its buffer has been taken before. -/

namespace CkServer

universe u

/-- The back end takes the buffers of the front end before it tests `running_` again. -/
def BackEndPc.swapAhead : BackEndPc → Bool
  | .notStarted => true
  | .locking => true
  | .waiting => true
  | _ => false

namespace AsyncLogging

variable {ι : Type u} {s : AsyncLogging ι} {k : ℕ}

/-- The records up to number `k` have been passed to the log file. -/
def Passed (s : AsyncLogging ι) (k : ℕ) : Prop := (s.records.take (k + 1)).flatten <+: s.output

/-- The back end has taken the records up to number `k`. -/
def Taken (s : AsyncLogging ι) (k : ℕ) : Prop := (s.records.take (k + 1)).flatten <+: s.taken

instance (s : AsyncLogging ι) (k : ℕ) : Decidable (s.Passed k) :=
  inferInstanceAs (Decidable ((s.records.take (k + 1)).flatten <+: s.output))

instance (s : AsyncLogging ι) (k : ℕ) : Decidable (s.Taken k) :=
  inferInstanceAs (Decidable ((s.records.take (k + 1)).flatten <+: s.taken))

/-- A call of `stop` comes before the swap of a cycle, or when the records whose calls have
returned have been taken. -/
def StopKeeps (s : AsyncLogging ι) : LogAction ι → Prop
  | .stop => s.pc.swapAhead = true ∨ ∀ k ∈ s.returned, s.Taken k
  | _ => True

instance (s : AsyncLogging ι) : ∀ a, Decidable (s.StopKeeps a)
  | .stop => inferInstanceAs (Decidable (s.pc.swapAhead = true ∨ ∀ k ∈ s.returned, s.Taken k))
  | .append _ _ | .appendReturns _ | .start | .spawn | .test | .lock | .wake | .write | .recycle =>
      .isTrue trivial

/-! ## What the back end has taken -/

/-- Before the swap nothing is left to write. -/
theorem Flowing.taken_of_swapAhead (h : s.Flowing) (hpc : s.pc.swapAhead = true) :
    s.taken = s.output := by
  have hresting : s.pc ≠ .writing := by
    intro hwriting
    rw [hwriting] at hpc
    cases hpc
  exact h.backEnd.taken_eq hresting

/-- The swap takes all records. -/
theorem Flowing.taken_swap_all (h : s.Flowing) (hpc : s.pc.swapAhead = true) (k : ℕ) :
    s.swap.Taken k := by
  rw [Taken, taken_swap, ← h.taken_of_swapAhead hpc, h.stream]
  obtain ⟨more, hmore⟩ := List.take_prefix (k + 1) s.records
  have hflat := congrArg List.flatten hmore
  rw [List.flatten_append] at hflat
  exact ⟨more.flatten, hflat⟩

theorem Taken.of_records {t : AsyncLogging ι} (h : t.Taken k) (htaken : t.taken = s.taken)
    (hrecords : s.records <+: t.records) : s.Taken k := by
  obtain ⟨more, hmore⟩ := hrecords
  rw [Taken, htaken, ← hmore, List.take_append, List.flatten_append] at h
  exact (List.prefix_append _ _).trans h

/-! ## Numbers of records -/

/-- The numbers in the history are those of records. -/
structure Numbered (s : AsyncLogging ι) : Prop where
  callers : ∀ i, ∀ k ∈ s.callers i, k < s.records.length
  returned : ∀ k ∈ s.returned, k < s.records.length
  promised : ∀ k ∈ s.promised, k ∈ s.returned

/-! ## Steps that leave the calls alone -/

structure SameCalls (s t : AsyncLogging ι) : Prop where
  records : t.records = s.records
  callers : t.callers = s.callers
  returned : t.returned = s.returned
  promised : t.promised = s.promised

theorem sameCalls_appendInSection (s : AsyncLogging ι) (logline : List UInt8) :
    SameCalls s (s.appendInSection logline) ∧ (s.appendInSection logline).pc = s.pc ∧
      (s.appendInSection logline).running_ = s.running_ := by
  rw [appendInSection]
  split
  · split
    · exact ⟨⟨rfl, rfl, rfl, rfl⟩, rfl, rfl⟩
    · exact ⟨⟨rfl, rfl, rfl, rfl⟩, rfl, rfl⟩
  · exact ⟨⟨rfl, rfl, rfl, rfl⟩, rfl, rfl⟩

theorem sameCalls_recycle (s : AsyncLogging ι) :
    SameCalls s s.recycle ∧ (s.recycle.pc = .testing ∨ s.recycle.pc = s.pc) ∧
      s.recycle.running_ = s.running_ := by
  simp only [recycle]
  cases refill s.newbuffer1 (s.buffersToWrite.take 2) with
  | none => exact ⟨⟨rfl, rfl, rfl, rfl⟩, .inr rfl, rfl⟩
  | some first =>
      simp only
      cases refill s.newbuffer2 first.2 with
      | none => exact ⟨⟨rfl, rfl, rfl, rfl⟩, .inr rfl, rfl⟩
      | some second => exact ⟨⟨rfl, rfl, rfl, rfl⟩, .inl rfl, rfl⟩

theorem Numbered.of_same {t : AsyncLogging ι} (h : s.Numbered) (hs : SameCalls s t) :
    t.Numbered := by
  constructor
  · rw [hs.callers, hs.records]
    exact h.callers
  · rw [hs.returned, hs.records]
    exact h.returned
  · rw [hs.promised, hs.returned]
    exact h.promised

theorem numbered_initial : ({} : AsyncLogging ι).Numbered :=
  ⟨by simp, by simp, by simp⟩

/-- What `stop` has promised has been taken, unless the swap is ahead. -/
structure Kept (s : AsyncLogging ι) : Prop where
  flowing : s.Flowing
  numbered : s.Numbered
  kept : s.pc.swapAhead = false → s.running_ = false → ∀ k ∈ s.promised, s.Taken k

theorem kept_initial : ({} : AsyncLogging ι).Kept :=
  ⟨flowing_initial, numbered_initial, by simp⟩

variable [DecidableEq ι]

theorem sameCalls_write (s : AsyncLogging ι) :
    SameCalls s (s.next .write) ∧ (s.next .write).pc = s.pc ∧
      (s.next .write).running_ = s.running_ := by
  simp only [next]
  split <;> exact ⟨⟨rfl, rfl, rfl, rfl⟩, rfl, rfl⟩

theorem sameCalls_lock (s : AsyncLogging ι) : SameCalls s (s.next .lock) := by
  simp only [next]
  split <;> exact ⟨rfl, rfl, rfl, rfl⟩

/-! ## Steps -/

theorem records_next (s : AsyncLogging ι) (a : LogAction ι) :
    s.records <+: (s.next a).records := by
  cases a with
  | append i logline => exact List.prefix_append _ _
  | lock => exact s.sameCalls_lock.records ▸ List.prefix_rfl
  | write => exact s.sameCalls_write.1.records ▸ List.prefix_rfl
  | recycle => exact s.sameCalls_recycle.1.records ▸ List.prefix_rfl
  | _ => exact List.prefix_rfl

/-- Only the swap takes something. -/
theorem taken_next {a : LogAction ι} (hen : s.Enabled a) (hpc : s.pc.swapAhead = false) :
    (s.next a).taken = s.taken := by
  cases a with
  | append i logline => exact (s.appendInSection_backEnd logline).1
  | lock =>
      rw [show s.pc = .locking from hen] at hpc
      cases hpc
  | wake =>
      rw [show s.pc = .waiting from hen] at hpc
      cases hpc
  | write => exact s.taken_write
  | recycle => exact s.taken_recycle hen.2
  | _ => rfl

theorem Taken.next (h : s.Taken k) (hk : k < s.records.length) {a : LogAction ι}
    (htaken : (s.next a).taken = s.taken) : (s.next a).Taken k := by
  obtain ⟨more, hmore⟩ := s.records_next a
  rw [Taken, htaken, ← hmore, List.take_append_of_le_length (by omega)]
  exact h

theorem Numbered.append (h : s.Numbered) (i : ι) (logline : List UInt8) :
    (s.next (.append i logline)).Numbered := by
  have hlength : (s.next (.append i logline)).records.length = s.records.length + 1 := by
    simp [AsyncLogging.next]
  have hreturned : (s.next (.append i logline)).returned = s.returned :=
    (s.sameCalls_appendInSection logline).1.returned
  have hpromised : (s.next (.append i logline)).promised = s.promised :=
    (s.sameCalls_appendInSection logline).1.promised
  refine ⟨fun j k hk => ?_, fun k hk => ?_, fun k hk => ?_⟩
  · rw [hlength]
    by_cases hj : j = i
    · simp only [AsyncLogging.next, hj, Function.update_self, Option.mem_some_iff] at hk
      omega
    · simp only [AsyncLogging.next, Function.update_of_ne hj] at hk
      have hlt := h.callers j k hk
      omega
  · rw [hreturned] at hk
    have hlt := h.returned k hk
    omega
  · rw [hpromised] at hk
    rw [hreturned]
    exact h.promised k hk

theorem Numbered.appendReturns (h : s.Numbered) (i : ι) :
    (s.next (.appendReturns i)).Numbered := by
  refine ⟨fun j k hk => ?_, fun k hk => ?_, fun k hk => ?_⟩
  · by_cases hj : j = i
    · simp [AsyncLogging.next, hj] at hk
    · simp only [AsyncLogging.next, Function.update_of_ne hj] at hk
      exact h.callers j k hk
  · rcases List.mem_append.mp hk with hk | hk
    · exact h.returned k hk
    · exact h.callers i k (Option.mem_toList.mp hk)
  · exact List.mem_append_left _ (h.promised k hk)

theorem Numbered.stop (h : s.Numbered) : (s.next .stop).Numbered := by
  refine ⟨h.callers, h.returned, fun k hk => ?_⟩
  rcases List.mem_append.mp hk with hk | hk
  · exact h.promised k hk
  · exact hk

theorem Numbered.next (h : s.Numbered) (a : LogAction ι) : (s.next a).Numbered := by
  cases a with
  | append i logline => exact h.append i logline
  | appendReturns i => exact h.appendReturns i
  | stop => exact h.stop
  | lock => exact h.of_same s.sameCalls_lock
  | write => exact h.of_same s.sameCalls_write.1
  | recycle => exact h.of_same s.sameCalls_recycle.1
  | _ => exact h.of_same ⟨rfl, rfl, rfl, rfl⟩

/-! ## Steps after the store of `stop` -/

theorem promised_next {a : LogAction ι} (ha : a ≠ .stop) : (s.next a).promised = s.promised := by
  cases a with
  | append i logline => exact (s.sameCalls_appendInSection logline).1.promised
  | stop => exact absurd rfl ha
  | lock => exact s.sameCalls_lock.promised
  | write => exact s.sameCalls_write.1.promised
  | recycle => exact s.sameCalls_recycle.1.promised
  | _ => rfl

theorem promised_prefix_next (s : AsyncLogging ι) (a : LogAction ι) :
    s.promised <+: (s.next a).promised := by
  by_cases ha : a = .stop
  · rw [ha]
    exact List.prefix_append _ _
  · exact ⟨[], by rw [List.append_nil, promised_next ha]⟩

/-- Once the last test of `running_` is to come or has been made, there is no swap any more. -/
theorem stopped_next {a : LogAction ι} (hen : s.Enabled a) (hpc : s.pc.swapAhead = false)
    (hstopped : s.running_ = false) :
    (s.next a).pc.swapAhead = false ∧ (s.next a).running_ = false := by
  cases a with
  | append i logline =>
      obtain ⟨-, hsame, hrunning⟩ := s.sameCalls_appendInSection logline
      exact ⟨(congrArg BackEndPc.swapAhead hsame).trans hpc, hrunning.trans hstopped⟩
  | appendReturns i => exact ⟨hpc, hstopped⟩
  | start =>
      rw [show s.pc = .notStarted from hen] at hpc
      cases hpc
  | spawn => exact ⟨rfl, hstopped⟩
  | stop => exact ⟨hpc, rfl⟩
  | test => simp [next, hstopped, BackEndPc.swapAhead]
  | lock =>
      rw [show s.pc = .locking from hen] at hpc
      cases hpc
  | wake =>
      rw [show s.pc = .waiting from hen] at hpc
      cases hpc
  | write =>
      obtain ⟨-, hsame, hrunning⟩ := s.sameCalls_write
      rw [hsame, hrunning]
      exact ⟨hpc, hstopped⟩
  | recycle =>
      obtain ⟨-, hcases, hrunning⟩ := s.sameCalls_recycle
      refine ⟨?_, hrunning.trans hstopped⟩
      rcases hcases with htesting | hsame
      · exact congrArg BackEndPc.swapAhead htesting
      · exact (congrArg BackEndPc.swapAhead hsame).trans hpc

/-- How the back end comes to have no swap ahead, with `running_` false. -/
theorem stopped_cases {a : LogAction ι} (hen : s.Enabled a)
    (hpc : (s.next a).pc.swapAhead = false) (hstopped : (s.next a).running_ = false) :
    a = .stop ∧ s.pc.swapAhead = false ∨ s.pc.swapAhead = true ∧ s.next a = s.swap ∨
      a ≠ .stop ∧ s.pc.swapAhead = false ∧ s.running_ = false := by
  cases a with
  | append i logline =>
      obtain ⟨-, hsame, hrunning⟩ := s.sameCalls_appendInSection logline
      exact .inr (.inr ⟨by simp, (congrArg BackEndPc.swapAhead hsame).symm.trans hpc,
        hrunning.symm.trans hstopped⟩)
  | appendReturns i => exact .inr (.inr ⟨by simp, hpc, hstopped⟩)
  | start => cases hstopped
  | spawn =>
      rw [show s.pc = .starting from hen]
      exact .inr (.inr ⟨by simp, rfl, hstopped⟩)
  | stop => exact .inl ⟨rfl, hpc⟩
  | test =>
      rw [show s.pc = .testing from hen]
      exact .inr (.inr ⟨by simp, rfl, hstopped⟩)
  | lock =>
      have hlocking : s.pc = .locking := hen
      by_cases hempty : s.buffers_.isEmpty = true
      · simp [next, hempty, BackEndPc.swapAhead] at hpc
      · rw [hlocking]
        exact .inr (.inl ⟨rfl, if_neg hempty⟩)
  | wake =>
      rw [show s.pc = .waiting from hen]
      exact .inr (.inl ⟨rfl, rfl⟩)
  | write =>
      rw [s.sameCalls_write.2.2] at hstopped
      rw [hen.1]
      exact .inr (.inr ⟨by simp, rfl, hstopped⟩)
  | recycle =>
      have hwas := s.sameCalls_recycle.2.2.symm.trans hstopped
      rw [hen.1]
      exact .inr (.inr ⟨by simp, rfl, hwas⟩)

/-! ## Promises -/

theorem Kept.next (h : s.Kept) {a : LogAction ι} (hen : s.Enabled a) (hok : s.StopKeeps a) :
    (s.next a).Kept := by
  refine ⟨h.flowing.next hen, h.numbered.next a, fun hpc hstopped k hk => ?_⟩
  rcases stopped_cases hen hpc hstopped with ⟨rfl, hbefore⟩ | ⟨hbefore, hswap⟩ | ⟨ha, hbefore, hwas⟩
  · have hreturned : k ∈ s.returned := by
      rcases List.mem_append.mp hk with hk | hk
      · exact h.numbered.promised k hk
      · exact hk
    rcases hok with hahead | hall
    · rw [hahead] at hbefore
      cases hbefore
    · exact hall k hreturned
  · rw [hswap]
    exact h.flowing.taken_swap_all hbefore k
  · rw [promised_next ha] at hk
    have hlt := h.numbered.returned k (h.numbered.promised k hk)
    exact (h.kept hbefore hwas k hk).next hlt (taken_next hen hbefore)

/-- A record that `stop` has promised is not going to be taken. -/
def Lost (s : AsyncLogging ι) : Prop :=
  s.pc.swapAhead = false ∧ s.running_ = false ∧ ∃ k ∈ s.promised, ¬ s.Taken k

theorem lost_of_not_stopKeeps {a : LogAction ι} (h : ¬ s.StopKeeps a) : (s.next a).Lost := by
  cases a with
  | stop =>
      rw [StopKeeps, not_or] at h
      obtain ⟨hpc, hleft⟩ := h
      simp only [not_forall] at hleft
      obtain ⟨k, hk, hnot⟩ := hleft
      exact ⟨Bool.eq_false_iff.mpr hpc, rfl, k, List.mem_append_right _ hk, hnot⟩
  | _ => exact absurd trivial h

theorem Lost.next (h : s.Lost) {a : LogAction ι} (hen : s.Enabled a) : (s.next a).Lost := by
  obtain ⟨hpc, hstopped, k, hk, hnot⟩ := h
  obtain ⟨hpc', hstopped'⟩ := stopped_next hen hpc hstopped
  refine ⟨hpc', hstopped', k, (s.promised_prefix_next a).subset hk, fun htaken => hnot ?_⟩
  exact htaken.of_records (taken_next hen hpc) (s.records_next a)

/-! ## Runs -/

/-- The thread returns only when it has found `running_` false, and `start` is not called again. -/
theorem stopped_of_returned (h : s.pc = .returned → s.running_ = false) {a : LogAction ι}
    (hen : s.Enabled a) : (s.next a).pc = .returned → (s.next a).running_ = false := by
  intro hpc
  cases a with
  | append i logline =>
      obtain ⟨-, hsame, hrunning⟩ := s.sameCalls_appendInSection logline
      exact hrunning.trans (h (hsame.symm.trans hpc))
  | appendReturns i => exact h hpc
  | start => cases hpc
  | spawn => cases hpc
  | stop => rfl
  | test =>
      by_cases hrunning : s.running_ = true
      · simp [next, hrunning] at hpc
      · simpa [next] using hrunning
  | lock =>
      by_cases hempty : s.buffers_.isEmpty = true
      · simp [next, hempty] at hpc
      · simp [next, hempty, swap] at hpc
  | wake => cases hpc
  | write =>
      rw [s.sameCalls_write.2.1, hen.1] at hpc
      cases hpc
  | recycle =>
      rcases s.sameCalls_recycle.2.1 with htesting | hsame
      · exact absurd (htesting.symm.trans hpc) (by simp)
      · exact absurd (hen.1.symm.trans (hsame.symm.trans hpc)) (by simp)

/-- In every run in which `threadFunc` has returned, the records whose calls of `append` had
returned before a call of `stop` have all been passed to the log file exactly if each of these
calls of `stop` came before the swap of a cycle or left no such record to the front end. -/
theorem promised_passed_iff {as : List (LogAction ι)} (hruns : (asyncLogging ι).Runs {} as)
    (hret : ((asyncLogging ι).run {} as).pc = .returned) :
    (∀ k ∈ ((asyncLogging ι).run {} as).promised, ((asyncLogging ι).run {} as).Passed k) ↔
      (asyncLogging ι).Always StopKeeps {} as := by
  have hstopped : ((asyncLogging ι).run {} as).running_ = false :=
    (asyncLogging ι).invariant_of_runs (I := fun s => s.pc = .returned → s.running_ = false)
      (fun _ _ h hen => stopped_of_returned h hen) (fun h => by cases h) hruns hret
  have hpc : ((asyncLogging ι).run {} as).pc.swapAhead = false := by
    rw [hret]
    rfl
  -- nothing is left in the buffers that have been taken
  have htaken : ((asyncLogging ι).run {} as).taken = ((asyncLogging ι).run {} as).output :=
    (flowing_of_runs hruns).backEnd.taken_eq (by rw [hret]; simp)
  have hpassed (k : ℕ) : ((asyncLogging ι).run {} as).Passed k ↔
      ((asyncLogging ι).run {} as).Taken k := by
    rw [Passed, Taken, htaken]
  constructor
  · intro hall
    rcases (asyncLogging ι).always_or_marked (L := Lost)
      (fun _ _ h => lost_of_not_stopKeeps h) (fun _ _ h hen => h.next hen) hruns with hok | hlost
    · exact hok
    · obtain ⟨-, -, k, hk, hnot⟩ := hlost
      exact absurd ((hpassed k).mp (hall k hk)) hnot
  · intro hok k hk
    have hkept := (asyncLogging ι).invariant (I := Kept)
      (fun _ _ h hen hok => h.next hen hok) kept_initial hruns hok
    rw [hpassed]
    exact hkept.kept hpc hstopped k hk

/-- `stop` is called while the back end waits: the record is written before the next test. -/
def stoppedWhileWaiting : List (LogAction ℕ) :=
  [.start, .spawn, .test, .append 0 [65, 10], .appendReturns 0, .lock, .stop, .wake, .write,
    .recycle, .test]

theorem promised_passed_stoppedWhileWaiting :
    let s := (asyncLogging ℕ).run {} stoppedWhileWaiting
    s.promised = [0] ∧ s.output = [65, 10] ∧ ∀ k ∈ s.promised, s.Passed k := by
  intro s
  have hruns : (asyncLogging ℕ).Runs {} stoppedWhileWaiting := by decide
  have h := (promised_passed_iff hruns (by decide)).mpr (by decide)
  exact ⟨by decide, by decide, h⟩

/-- A record is appended while the back end writes, and `stop` is called before the test:
`threadFunc` returns, and the record stays in the front end's buffer. -/
def stoppedWhileWriting : List (LogAction ℕ) :=
  [.start, .spawn, .test, .lock, .wake, .append 0 [65, 10], .appendReturns 0, .stop, .write,
    .recycle, .test]

theorem not_passed_stoppedWhileWriting :
    let s := (asyncLogging ℕ).run {} stoppedWhileWriting
    (asyncLogging ℕ).Runs {} stoppedWhileWriting ∧ s.pc = .returned ∧ s.promised = [0] ∧
      s.output = [] ∧ text s.currentBuffer_ = [65, 10] ∧ ¬ ∀ k ∈ s.promised, s.Passed k := by
  decide

end AsyncLogging

end CkServer
