import CkServer.Verification.Loop.Queue

/-! # The functors that `quit` leaves in the queue

`loop` looks at `quit_` after the functors, so that what is pushed after the swap and before
this look is never run when `quit` is called in the same interval. -/

namespace CkServer

universe u v

/-- What is in the queue now is swapped out before `loop` looks at `quit_` again, or `loop` has
still to clear `quit_`. -/
def LoopPc.swapAhead : LoopPc → Bool
  | .entering => true
  | .polling => true
  | .handling _ => true
  | .handlerPushed _ _ => true
  | .swapping => true
  | _ => false

/-- The functor that the loop's thread has pushed in a call of `queueInLoop`. -/
def LoopPc.pushed? : LoopPc → Option ℕ
  | .handlerPushed _ k => some k
  | .functorPushed k => some k
  | _ => none

/-- A call of `quit`, up to the store. -/
def LoopAction.isQuit {ι : Type u} {Functor : Type v} : LoopAction ι Functor → Bool
  | .loopQuit => true
  | .quit _ => true
  | _ => false

namespace LoopSystem

variable {ι : Type u} {Functor : Type v}

/-- The number of functors that have been taken out of the queue. -/
def taken (s : LoopSystem ι Functor) : ℕ := s.executed.length + s.functors.length

/-- `quit` is called before the swap, or no functor whose `queueInLoop` has returned is in the
queue. -/
def QuitKeeps (s : LoopSystem ι Functor) (a : LoopAction ι Functor) : Prop :=
  a.isQuit = true → s.pc.swapAhead = true ∨ ∀ k ∈ s.returned, k < s.taken

instance (s : LoopSystem ι Functor) (a : LoopAction ι Functor) : Decidable (s.QuitKeeps a) :=
  inferInstanceAs (Decidable (_ → _))

/-- A request to quit is seen before the next swap, and leaves a functor in the queue. -/
structure Lost (s : LoopSystem ι Functor) : Prop where
  quit : s.quit_ = true
  pc : s.pc.swapAhead = false
  left : ∃ k ∈ s.promised, s.taken ≤ k

/-- The numbers of functors are numbers of pushes. -/
structure Numbered (s : LoopSystem ι Functor) : Prop where
  returned : ∀ k ∈ s.returned, k < s.pushes.length
  promised : ∀ k ∈ s.promised, k ∈ s.returned
  caller : ∀ i k, s.callers i = .pushed k → k < s.pushes.length
  own : ∀ k, s.pc.pushed? = some k → k < s.pushes.length

/-- A request to quit that is seen before the next swap leaves nothing in the queue. -/
structure Kept (s : LoopSystem ι Functor) : Prop where
  queued : s.Queued
  numbered : s.Numbered
  kept : s.quit_ = true → s.pc.swapAhead = false → ∀ k ∈ s.promised, k < s.taken

theorem numbered_initial : Numbered ({} : LoopSystem ι Functor) where
  returned := by simp
  promised := by simp
  caller := by simp
  own := by simp [LoopPc.pushed?]

/-! ## What a step does to a request -/

/-- The request and what has been taken stay. The loop goes on to a further swap if there is no
request, and returns if there is one. -/
structure SameRequest (s t : LoopSystem ι Functor) : Prop where
  quit : t.quit_ = s.quit_
  promised : t.promised = s.promised
  taken : t.taken = s.taken
  pc : s.quit_ = true → t.pc.swapAhead = s.pc.swapAhead
  halts : t.pc = .returned → s.pc = .returned ∨ s.quit_ = true

theorem SameRequest.of_eq {s t : LoopSystem ι Functor} (hquit : t.quit_ = s.quit_)
    (hpromised : t.promised = s.promised) (hexecuted : t.executed = s.executed)
    (hfunctors : t.functors = s.functors) (hpc : t.pc.swapAhead = s.pc.swapAhead)
    (hret : t.pc = .returned → s.pc = .returned ∨ s.quit_ = true) : SameRequest s t where
  quit := hquit
  promised := hpromised
  taken := by rw [LoopSystem.taken, hexecuted, hfunctors, LoopSystem.taken]
  pc _ := hpc
  halts := hret

theorem sameRequest_queued (s : LoopSystem ι Functor) (k : ℕ) (wakes : Bool) (pc : LoopPc)
    (hpc : pc.swapAhead = s.pc.swapAhead) (hret : pc ≠ .returned) :
    SameRequest s { s.queued k wakes with pc := pc } := by
  cases wakes with
  | false => exact .of_eq rfl rfl rfl rfl hpc (fun h => absurd h hret)
  | true => exact .of_eq rfl rfl rfl rfl hpc (fun h => absurd h hret)

/-! ## Numbers -/

theorem Numbered.quit {s : LoopSystem ι Functor} (h : s.Numbered) : s.quit.Numbered where
  returned := h.returned
  promised k hk := by
    rcases List.mem_append.mp hk with hk | hk
    · exact h.promised k hk
    · exact hk
  caller := h.caller
  own := h.own

/-- A push numbers a new functor, and leaves the numbers of the others. -/
theorem Numbered.queueInLoop {s : LoopSystem ι Functor} (h : s.Numbered) (cb : Functor) :
    (s.queueInLoop cb).Numbered := by
  have hle : s.pushes.length ≤ (s.queueInLoop cb).pushes.length := by
    simp [LoopSystem.queueInLoop]
  exact
    { returned := fun k hk => Nat.lt_of_lt_of_le (h.returned k hk) hle
      promised := h.promised
      caller := fun i k hk => Nat.lt_of_lt_of_le (h.caller i k hk) hle
      own := fun k hk => Nat.lt_of_lt_of_le (h.own k hk) hle }

theorem Numbered.queued {s : LoopSystem ι Functor} (h : s.Numbered) {k : ℕ}
    (hk : k < s.pushes.length) (wakes : Bool) : (s.queued k wakes).Numbered := by
  have hreturned : ∀ j ∈ s.returned ++ [k], j < s.pushes.length := by
    intro j hj
    rcases List.mem_append.mp hj with hj | hj
    · exact h.returned j hj
    · rw [List.mem_singleton.mp hj]
      exact hk
  have hpromised : ∀ j ∈ s.promised, j ∈ s.returned ++ [k] :=
    fun j hj => List.mem_append_left [k] (h.promised j hj)
  cases wakes with
  | false => exact ⟨hreturned, hpromised, h.caller, h.own⟩
  | true => exact ⟨hreturned, hpromised, h.caller, h.own⟩

theorem Numbered.setPc {s : LoopSystem ι Functor} (h : s.Numbered) (pc : LoopPc)
    (hpc : ∀ k, pc.pushed? = some k → k < s.pushes.length) : Numbered { s with pc := pc } :=
  ⟨h.returned, h.promised, h.caller, hpc⟩

theorem kept_initial : Kept ({} : LoopSystem ι Functor) where
  queued := queued_initial
  numbered := numbered_initial
  kept h := by cases h

variable [DecidableEq ι]

theorem Numbered.setCaller {s : LoopSystem ι Functor} (h : s.Numbered) (i : ι) (pc : CallerPc)
    (hpc : ∀ k, pc = .pushed k → k < s.pushes.length) :
    Numbered { s with callers := Function.update s.callers i pc } where
  returned := h.returned
  promised := h.promised
  caller j k hj := by
    by_cases hji : j = i
    · exact hpc k (by simpa [hji] using hj)
    · exact h.caller j k (by simpa [hji] using hj)
  own := h.own

theorem Numbered.step {s : LoopSystem ι Functor} (h : s.Numbered) (a : LoopAction ι Functor) :
    (s.next a).Numbered := by
  have hplain (pc : LoopPc) (hpc : pc.pushed? = none) :
      ∀ k, pc.pushed? = some k → k < s.pushes.length := by
    intro k hk
    rw [hpc] at hk
    cases hk
  cases a with
  | clearQuit => exact ⟨h.returned, h.promised, h.caller, hplain .testing rfl⟩
  | test =>
      by_cases hq : s.quit_ = true
      · simp only [next, hq, if_true]
        exact ⟨h.returned, h.promised, h.caller, hplain .returned rfl⟩
      · simp only [next, hq]
        exact ⟨h.returned, h.promised, h.caller, hplain .polling rfl⟩
  | pollReturns woken => exact h.setPc (.handling woken) (hplain (.handling woken) rfl)
  | handleRead => exact ⟨h.returned, h.promised, h.caller, hplain (.handling false) rfl⟩
  | startCalling => exact ⟨h.returned, h.promised, h.caller, hplain .swapping rfl⟩
  | swap => exact ⟨h.returned, h.promised, h.caller, hplain .running rfl⟩
  | run =>
      cases hf : s.functors with
      | nil => simpa [next, hf] using h
      | cons f rest =>
          simp only [next, hf]
          exact ⟨h.returned, h.promised, h.caller, h.own⟩
  | finishCalling => exact ⟨h.returned, h.promised, h.caller, hplain .testing rfl⟩
  | loopPush cb =>
      have hnew : s.pushes.length < (s.queueInLoop cb).pushes.length := by
        simp [LoopSystem.queueInLoop]
      cases hpc : s.pc with
      | handling woken =>
          simp only [next, hpc]
          exact (h.queueInLoop cb).setPc _ (by simpa [LoopPc.pushed?] using hnew)
      | running =>
          simp only [next, hpc]
          exact (h.queueInLoop cb).setPc _ (by simpa [LoopPc.pushed?] using hnew)
      | _ => simpa [next, hpc] using h
  | loopPushed =>
      cases hpc : s.pc with
      | handlerPushed woken k =>
          have hk := h.own k (by simp [hpc, LoopPc.pushed?])
          simp only [next, hpc]
          exact (h.queued hk _).setPc _ (by simp [LoopPc.pushed?])
      | functorPushed k =>
          have hk := h.own k (by simp [hpc, LoopPc.pushed?])
          simp only [next, hpc]
          exact (h.queued hk _).setPc _ (by simp [LoopPc.pushed?])
      | _ => simpa [next, hpc] using h
  | loopQuit => exact h.quit
  | push i cb => exact (h.queueInLoop cb).setCaller i _ (by simp [LoopSystem.queueInLoop])
  | wake i =>
      cases hi : s.callers i with
      | idle => simpa [next, hi] using h
      | pushed k =>
          simp only [next, hi]
          exact (h.queued (h.caller i k hi) true).setCaller i .idle (by simp)
      | quitting =>
          have hwoken : s.wakeup.Numbered := ⟨h.returned, h.promised, h.caller, h.own⟩
          simp only [next, hi]
          exact hwoken.setCaller i .idle (by simp)
  | quit i => exact h.quit.setCaller i .quitting (by simp)

theorem next_of_isQuit (s : LoopSystem ι Functor) {a : LoopAction ι Functor}
    (ha : a.isQuit = true) :
    (s.next a).quit_ = true ∧ (s.next a).promised = s.promised ++ s.returned ∧
      (s.next a).pc = s.pc ∧ (s.next a).taken = s.taken := by
  cases a with
  | loopQuit => exact ⟨rfl, rfl, rfl, rfl⟩
  | quit i => exact ⟨rfl, rfl, rfl, rfl⟩
  | _ => cases ha

theorem next_cases {s : LoopSystem ι Functor} {a : LoopAction ι Functor} (hen : s.Enabled a)
    (ha : a.isQuit = false) :
    a = .clearQuit ∧ s.pc = .entering ∨ a = .swap ∧ s.pc = .swapping ∨
      SameRequest s (s.next a) := by
  cases a with
  | clearQuit => exact .inl ⟨rfl, hen⟩
  | swap => exact .inr (.inl ⟨rfl, hen⟩)
  | test =>
      have hpc : s.pc = .testing := hen
      by_cases hq : s.quit_ = true
      · simp only [next, hq, if_true]
        exact .inr (.inr (.of_eq hq.symm rfl rfl rfl (by simp [hpc, LoopPc.swapAhead])
          (fun _ => .inr hq)))
      · have hno : s.quit_ = false := by simpa using hq
        simp only [next, hno, Bool.false_eq_true, if_false]
        exact .inr (.inr ⟨hno.symm, rfl, rfl, fun h => absurd h hq, by simp⟩)
  | pollReturns woken =>
      exact .inr (.inr (.of_eq rfl rfl rfl rfl (by simp [next, hen.1, LoopPc.swapAhead])
        (by simp [next])))
  | handleRead =>
      have hpc : s.pc = .handling true := hen
      exact .inr (.inr (.of_eq rfl rfl rfl rfl (by simp [next, hpc, LoopPc.swapAhead])
        (by simp [next])))
  | startCalling =>
      have hpc : s.pc = .handling false := hen
      exact .inr (.inr (.of_eq rfl rfl rfl rfl (by simp [next, hpc, LoopPc.swapAhead])
        (by simp [next])))
  | run =>
      cases hf : s.functors with
      | nil => simp [Enabled, hf] at hen
      | cons f rest =>
          simp only [next, hf]
          refine .inr (.inr ⟨rfl, rfl, ?_, fun _ => rfl, .inl⟩)
          simp only [taken, hf, List.length_append, List.length_cons, List.length_nil]
          omega
  | finishCalling =>
      exact .inr (.inr (.of_eq rfl rfl rfl rfl (by simp [next, hen.1, LoopPc.swapAhead])
        (by simp [next])))
  | loopPush cb =>
      cases hpc : s.pc with
      | handling woken =>
          simp only [next, hpc]
          exact .inr (.inr (.of_eq rfl rfl rfl rfl (by simp [hpc, LoopPc.swapAhead]) (by simp)))
      | running =>
          simp only [next, hpc]
          exact .inr (.inr (.of_eq rfl rfl rfl rfl (by simp [hpc, LoopPc.swapAhead]) (by simp)))
      | _ => simp [Enabled, hpc, LoopPc.inUserCode] at hen
  | loopPushed =>
      cases hpc : s.pc with
      | handlerPushed woken k =>
          simp only [next, hpc]
          exact .inr (.inr (s.sameRequest_queued k _ _ (by simp [hpc, LoopPc.swapAhead]) (by simp)))
      | functorPushed k =>
          simp only [next, hpc]
          exact .inr (.inr (s.sameRequest_queued k _ _ (by simp [hpc, LoopPc.swapAhead]) (by simp)))
      | _ => simp [Enabled, hpc, LoopPc.isPushed] at hen
  | push i cb => exact .inr (.inr (.of_eq rfl rfl rfl rfl rfl .inl))
  | wake i =>
      cases hi : s.callers i with
      | idle => exact absurd hi hen
      | pushed k =>
          simp only [next, hi]
          exact .inr (.inr (.of_eq rfl rfl rfl rfl rfl .inl))
      | quitting =>
          simp only [next, hi]
          exact .inr (.inr (.of_eq rfl rfl rfl rfl rfl .inl))
  | loopQuit => cases ha
  | quit i => cases ha

theorem Lost.step {s : LoopSystem ι Functor} (h : s.Lost) (a : LoopAction ι Functor)
    (hen : s.Enabled a) : (s.next a).Lost := by
  obtain ⟨k, hk, hle⟩ := h.left
  have hpc := h.pc
  by_cases ha : a.isQuit = true
  · obtain ⟨hquit, hpromised, hpc', htaken⟩ := s.next_of_isQuit ha
    refine ⟨hquit, by rw [hpc', hpc], k, ?_, by rw [htaken]; exact hle⟩
    rw [hpromised]
    exact List.mem_append_left _ hk
  · rcases next_cases hen (by simpa using ha) with ⟨-, hs⟩ | ⟨-, hs⟩ | hsame
    · simp [hs, LoopPc.swapAhead] at hpc
    · simp [hs, LoopPc.swapAhead] at hpc
    · refine ⟨by rw [hsame.quit, h.quit], by rw [hsame.pc h.quit, hpc], k, ?_, ?_⟩
      · rw [hsame.promised]
        exact hk
      · rw [hsame.taken]
        exact hle

/-- A call of `quit` that does not keep the queue marks the rest of the run. -/
theorem lost_of_not_quitKeeps {s : LoopSystem ι Functor} {a : LoopAction ι Functor}
    (h : ¬ s.QuitKeeps a) : (s.next a).Lost := by
  simp only [QuitKeeps, Classical.not_imp, not_or, not_forall, Nat.not_lt] at h
  obtain ⟨ha, hpc, k, hk, hle⟩ := h
  obtain ⟨hquit, hpromised, hpc', htaken⟩ := s.next_of_isQuit ha
  refine ⟨hquit, by rw [hpc']; simpa using hpc, k, ?_, by rw [htaken]; exact hle⟩
  rw [hpromised]
  exact List.mem_append_right _ hk

theorem Kept.step {s : LoopSystem ι Functor} (h : s.Kept) (a : LoopAction ι Functor)
    (hen : s.Enabled a) (hok : s.QuitKeeps a) : (s.next a).Kept := by
  have hqueued := h.queued.step a hen
  have hnumbered := h.numbered.step a
  refine ⟨hqueued, hnumbered, fun hquit hpc k hk => ?_⟩
  by_cases ha : a.isQuit = true
  · obtain ⟨-, hpromised, hpc', htaken⟩ := s.next_of_isQuit ha
    have hreturned : k ∈ s.returned := by
      rw [hpromised, List.mem_append] at hk
      exact hk.elim (h.numbered.promised k) id
    rw [hpc'] at hpc
    rcases hok ha with hahead | hall
    · rw [hpc] at hahead
      cases hahead
    · rw [htaken]
      exact hall k hreturned
  · rcases next_cases hen (by simpa using ha) with ⟨rfl, -⟩ | ⟨rfl, -⟩ | hsame
    · cases hquit
    · -- the swap has taken all that was pushed
      have hlt := hnumbered.returned k (hnumbered.promised k hk)
      have hempty : (s.next .swap).pendingFuntors_ = [] := rfl
      rw [hqueued.fifo, hempty, List.append_nil, List.length_append] at hlt
      exact hlt
    · rw [hsame.quit] at hquit
      rw [hsame.pc hquit] at hpc
      rw [hsame.promised] at hk
      rw [hsame.taken]
      exact h.kept hquit hpc k hk

/-- `loop` returns for a request only. -/
theorem quit_of_returned {s : LoopSystem ι Functor} (h : s.pc = .returned → s.quit_ = true)
    (a : LoopAction ι Functor) (hen : s.Enabled a) :
    (s.next a).pc = .returned → (s.next a).quit_ = true := by
  intro hpc
  by_cases ha : a.isQuit = true
  · exact (s.next_of_isQuit ha).1
  · rcases next_cases hen (by simpa using ha) with ⟨rfl, -⟩ | ⟨rfl, -⟩ | hsame
    · cases hpc
    · cases hpc
    · rw [hsame.quit]
      exact (hsame.halts hpc).elim h id

/-- In every run in which `loop` has returned, the functors whose `queueInLoop` had returned
before a call of `quit` have all been run exactly if each of these calls came before the swap
or left no such functor in the queue. -/
theorem promised_executed_iff {as : List (LoopAction ι Functor)}
    (hruns : (loopSystem ι Functor).Runs {} as)
    (hret : ((loopSystem ι Functor).run {} as).pc = .returned) :
    (∀ k ∈ ((loopSystem ι Functor).run {} as).promised,
        k < ((loopSystem ι Functor).run {} as).executed.length) ↔
      (loopSystem ι Functor).Always QuitKeeps {} as := by
  have hqueued := queued_of_runs hruns
  have hquit : ((loopSystem ι Functor).run {} as).quit_ = true :=
    (loopSystem ι Functor).invariant_of_runs (I := fun s => s.pc = .returned → s.quit_ = true)
      (fun _ a h hen => quit_of_returned h a hen) (fun h => by cases h) hruns hret
  have hpc : ((loopSystem ι Functor).run {} as).pc.swapAhead = false := by
    rw [hret]
    rfl
  -- nothing is left in the local vector
  have hall : ((loopSystem ι Functor).run {} as).taken =
      ((loopSystem ι Functor).run {} as).executed.length := by
    rw [taken, hqueued.taken (by rw [hret]; rfl), List.length_nil, Nat.add_zero]
  rw [← hall]
  constructor
  · intro hexecuted
    rcases (loopSystem ι Functor).always_or_marked (L := Lost)
      (fun _ _ h => lost_of_not_quitKeeps h) (fun _ a h hen => h.step a hen) hruns with
      hok | hlost
    · exact hok
    · obtain ⟨k, hk, hle⟩ := hlost.left
      exact absurd (hexecuted k hk) (Nat.not_lt.mpr hle)
  · intro hok
    have hkept := (loopSystem ι Functor).invariant (I := Kept)
      (fun _ a h hen hok => h.step a hen hok) kept_initial hruns hok
    exact hkept.kept hquit hpc

/-- A functor pushed before `loop`, and a call of `quit` while `poll` is about to return. -/
theorem promised_executed_polling :
    let as : List (LoopAction (Fin 1) ℕ) :=
      [.push 0 5, .wake 0, .clearQuit, .test, .quit 0, .wake 0, .pollReturns true, .handleRead,
        .startCalling, .swap, .run, .finishCalling, .test]
    let s := (loopSystem (Fin 1) ℕ).run {} as
    s.promised = [0] ∧ s.executed = [5] ∧ ∀ k ∈ s.promised, k < s.executed.length := by
  intro as s
  have hruns : (loopSystem (Fin 1) ℕ).Runs {} as := by decide
  have h := (promised_executed_iff hruns (by decide)).mpr (by decide)
  exact ⟨by decide, by decide, h⟩

/-- A functor is pushed after the swap, and `quit` is called before the test: `loop` returns, and
the functor is still in the queue. -/
theorem quit_leaves_functor :
    let as : List (LoopAction (Fin 1) ℕ) :=
      [.clearQuit, .test, .pollReturns false, .startCalling, .swap, .push 0 5, .wake 0, .quit 0,
        .finishCalling, .test]
    let s := (loopSystem (Fin 1) ℕ).run {} as
    (loopSystem (Fin 1) ℕ).Runs {} as ∧ s.pc = .returned ∧ s.promised = [0] ∧
      s.executed = [] ∧ s.pendingFuntors_ = [5] ∧ ¬ ∀ k ∈ s.promised, k < s.executed.length := by
  decide

end LoopSystem

end CkServer
