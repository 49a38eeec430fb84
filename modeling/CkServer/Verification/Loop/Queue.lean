import CkServer.Model.LoopThread

/-! # The queue of a loop

The functors of a loop are run in the order of the pushes, each of them once, and `poll` never
sleeps on one of them: from the swap on, whoever pushes also wakes the loop. -/

namespace CkServer

universe u v

/-- The loop's thread has taken the functors out of the queue, and runs them. -/
def LoopPc.afterSwap : LoopPc → Bool
  | .running => true
  | .functorPushed _ => true
  | _ => false

/-- No swap comes between now and the next `poll`. -/
def LoopPc.beforePoll : LoopPc → Bool
  | .handling _ => false
  | .handlerPushed _ _ => false
  | .swapping => false
  | _ => true

namespace LoopSystem

variable {ι : Type u} {Functor : Type v}

/-- Nothing is in the queue, or the next `poll` returns at once, or it will when a thread
between its push and its wakeup gets there. -/
def Awake (s : LoopSystem ι Functor) : Prop :=
  s.pendingFuntors_ ≠ [] →
    0 < s.wakeupFd_ ∨ (∃ i k, s.callers i = .pushed k) ∨ ∃ k, s.pc = .functorPushed k

/-- Where the functors are at each place of the loop's thread. -/
structure Queued (s : LoopSystem ι Functor) : Prop where
  fifo : s.pushes = s.executed ++ s.functors ++ s.pendingFuntors_
  taken : s.pc.afterSwap = false → s.functors = []
  calling : s.pc.afterSwap = true ∨ s.pc = .swapping → s.callingPendingFunctors_ = true
  awake : s.pc.beforePoll = true → s.Awake

theorem wakeup_pos (s : LoopSystem ι Functor) : 0 < s.wakeup.wakeupFd_ := by
  simp only [wakeup]
  by_cases h : s.wakeupFd_ < 2 ^ 64 - 2
  · rw [if_pos h]
    omega
  · rw [if_neg h]
    omega

theorem queued_initial : Queued ({} : LoopSystem ι Functor) where
  fifo := by simp
  taken _ := by simp
  calling h := by simp [LoopPc.afterSwap] at h
  awake _ h := absurd (by simp) h

/-- A step of the loop's thread that leaves the queue and the counter alone. -/
theorem Queued.awake_of_pc {s : LoopSystem ι Functor} (h : s.Queued) (pc : LoopPc)
    (hpc : s.pc.beforePoll = true) (hk : ∀ k, s.pc ≠ .functorPushed k) :
    Awake { s with pc := pc } := by
  intro hne
  rcases h.awake hpc hne with hfd | hi | ⟨k, hk'⟩
  · exact .inl hfd
  · exact .inr (.inl hi)
  · exact absurd hk' (hk k)

variable [DecidableEq ι]

theorem Queued.push {s : LoopSystem ι Functor} (h : s.Queued) (i : ι) (cb : Functor) :
    (s.next (.push i cb)).Queued where
  fifo := by simp [next, queueInLoop, h.fifo]
  taken := h.taken
  calling := h.calling
  awake _ _ := .inr (.inl ⟨i, s.pushes.length, by simp [next, queueInLoop]⟩)

theorem Queued.quit {s : LoopSystem ι Functor} (h : s.Queued) {i : ι} (hi : s.callers i = .idle) :
    (s.next (.quit i)).Queued where
  fifo := h.fifo
  taken := h.taken
  calling := h.calling
  awake hpc hne := by
    rcases h.awake hpc hne with hfd | ⟨j, k, hj⟩ | hk
    · exact .inl hfd
    · have hji : j ≠ i := by
        intro heq
        rw [heq, hi] at hj
        cases hj
      exact .inr (.inl ⟨j, k, by simpa [next, LoopSystem.quit, hji] using hj⟩)
    · exact .inr (.inr hk)

theorem Queued.wake {s : LoopSystem ι Functor} (h : s.Queued) (i : ι) :
    (s.next (.wake i)).Queued := by
  cases hi : s.callers i with
  | idle => simpa [next, hi] using h
  | pushed k =>
      simp only [next, hi]
      exact ⟨h.fifo, h.taken, h.calling, fun _ _ => .inl (wakeup_pos _)⟩
  | quitting =>
      simp only [next, hi]
      exact ⟨h.fifo, h.taken, h.calling, fun _ _ => .inl (wakeup_pos _)⟩

theorem Queued.loopPush {s : LoopSystem ι Functor} (h : s.Queued) (cb : Functor)
    (hen : s.Enabled (.loopPush cb)) : (s.next (.loopPush cb)).Queued := by
  have hfifo := h.fifo
  cases hpc : s.pc with
  | handling woken =>
      have hf := h.taken (by simp [hpc, LoopPc.afterSwap])
      simp only [next, hpc]
      refine ⟨by simp [queueInLoop, hfifo], fun _ => hf, ?_, ?_⟩
      · simp [LoopPc.afterSwap]
      · simp [LoopPc.beforePoll]
  | running =>
      have hc := h.calling (by simp [hpc, LoopPc.afterSwap])
      simp only [next, hpc]
      refine ⟨by simp [queueInLoop, hfifo], ?_, fun _ => hc, ?_⟩
      · simp [LoopPc.afterSwap]
      · exact fun _ _ => .inr (.inr ⟨_, rfl⟩)
  | _ => simp [Enabled, hpc, LoopPc.inUserCode] at hen

theorem Queued.loopPushed {s : LoopSystem ι Functor} (h : s.Queued)
    (hen : s.Enabled .loopPushed) : (s.next .loopPushed).Queued := by
  cases hpc : s.pc with
  | handlerPushed woken k =>
      have hf := h.taken (by simp [hpc, LoopPc.afterSwap])
      simp only [next, hpc, queued]
      by_cases hc : s.callingPendingFunctors_ = true
      · rw [if_pos hc]
        exact ⟨h.fifo, fun _ => hf, by simp [LoopPc.afterSwap], by simp [LoopPc.beforePoll]⟩
      · rw [if_neg hc]
        exact ⟨h.fifo, fun _ => hf, by simp [LoopPc.afterSwap], by simp [LoopPc.beforePoll]⟩
  | functorPushed k =>
      have hc := h.calling (by simp [hpc, LoopPc.afterSwap])
      simp only [next, hpc, queued, hc, if_true]
      exact ⟨h.fifo, by simp [LoopPc.afterSwap], fun _ => rfl, fun _ _ => .inl (wakeup_pos _)⟩
  | _ => simp [Enabled, hpc, LoopPc.isPushed] at hen

theorem Queued.run {s : LoopSystem ι Functor} (h : s.Queued) (hen : s.Enabled .run) :
    (s.next .run).Queued := by
  obtain ⟨hpc, hne⟩ := hen
  cases hf : s.functors with
  | nil => simp [hf] at hne
  | cons f rest =>
      have hfifo := h.fifo
      have hbefore : s.pc.beforePoll = true := by simp [hpc, LoopPc.beforePoll]
      simp only [next, hf]
      refine ⟨by simp [hfifo, hf], by simp [hpc, LoopPc.afterSwap], h.calling, fun _ => ?_⟩
      exact h.awake hbefore

theorem Queued.step {s : LoopSystem ι Functor} (h : s.Queued) (a : LoopAction ι Functor)
    (hen : s.Enabled a) : (s.next a).Queued := by
  cases a with
  | clearQuit =>
      have hpc : s.pc = .entering := hen
      have hf := h.taken (by simp [hpc, LoopPc.afterSwap])
      have haw := h.awake_of_pc .testing (by simp [hpc, LoopPc.beforePoll]) (by simp [hpc])
      exact ⟨h.fifo, fun _ => hf, by simp [next, LoopPc.afterSwap], fun _ => haw⟩
  | test =>
      have hpc : s.pc = .testing := hen
      have hf := h.taken (by simp [hpc, LoopPc.afterSwap])
      have haw (pc) := h.awake_of_pc pc (by simp [hpc, LoopPc.beforePoll]) (by simp [hpc])
      by_cases hq : s.quit_ = true
      · simp only [next, hq, if_true]
        exact ⟨h.fifo, fun _ => hf, by simp [LoopPc.afterSwap], fun _ => haw .returned⟩
      · simp only [next, hq]
        exact ⟨h.fifo, fun _ => hf, by simp [LoopPc.afterSwap], fun _ => haw .polling⟩
  | pollReturns woken =>
      have hf := h.taken (by simp [hen.1, LoopPc.afterSwap])
      exact ⟨h.fifo, fun _ => hf, by simp [next, LoopPc.afterSwap],
        by simp [next, LoopPc.beforePoll]⟩
  | handleRead =>
      have hpc : s.pc = .handling true := hen
      have hf := h.taken (by simp [hpc, LoopPc.afterSwap])
      exact ⟨h.fifo, fun _ => hf, by simp [next, LoopPc.afterSwap],
        by simp [next, LoopPc.beforePoll]⟩
  | startCalling =>
      have hpc : s.pc = .handling false := hen
      have hf := h.taken (by simp [hpc, LoopPc.afterSwap])
      exact ⟨h.fifo, fun _ => hf, fun _ => by simp [next], by simp [next, LoopPc.beforePoll]⟩
  | swap =>
      have hpc : s.pc = .swapping := hen
      have hf := h.taken (by simp [hpc, LoopPc.afterSwap])
      have hfifo := h.fifo
      refine ⟨by simp [next, hfifo, hf], by simp [next, LoopPc.afterSwap],
        fun _ => h.calling (.inr hpc), fun _ hne => ?_⟩
      simp [next] at hne
  | run => exact h.run hen
  | finishCalling =>
      obtain ⟨hpc, hempty⟩ := hen
      have hf : s.functors = [] := by simpa using hempty
      have haw := h.awake_of_pc .testing (by simp [hpc, LoopPc.beforePoll]) (by simp [hpc])
      exact ⟨h.fifo, fun _ => hf, by simp [next, LoopPc.afterSwap], fun _ => haw⟩
  | loopPush cb => exact h.loopPush cb hen
  | loopPushed => exact h.loopPushed hen
  | loopQuit => exact ⟨h.fifo, h.taken, h.calling, h.awake⟩
  | push i cb => exact h.push i cb
  | wake i => exact h.wake i
  | quit i => exact h.quit hen

theorem queued_of_runs {as : List (LoopAction ι Functor)}
    (hruns : (loopSystem ι Functor).Runs {} as) : ((loopSystem ι Functor).run {} as).Queued :=
  (loopSystem ι Functor).invariant_of_runs (fun _ a h hen => h.step a hen) queued_initial hruns

/-- In every run, the functors that have been run are the first of those pushed, in the order of
the pushes, and while the loop's thread is in `poll` or about to call it, a functor in the queue
has left a count in the eventfd, or its thread has still to write one. -/
theorem functors_run_in_order {as : List (LoopAction ι Functor)}
    (hruns : (loopSystem ι Functor).Runs {} as) :
    let s := (loopSystem ι Functor).run {} as
    s.executed <+: s.pushes ∧
      (s.pc = .polling → s.pendingFuntors_ ≠ [] →
        0 < s.wakeupFd_ ∨ ∃ i k, s.callers i = .pushed k) := by
  intro s
  have h : s.Queued := queued_of_runs hruns
  constructor
  · exact ⟨s.functors ++ s.pendingFuntors_, by rw [h.fifo, List.append_assoc]⟩
  · intro hpc hne
    rcases h.awake (by simp [hpc, LoopPc.beforePoll]) hne with hfd | hi | ⟨k, hk⟩
    · exact .inl hfd
    · exact .inr hi
    · rw [hpc] at hk
      cases hk

/-- One thread pushes during the functors of another, and a functor pushes too. -/
theorem functors_run_in_order_nested :
    let as : List (LoopAction (Fin 2) ℕ) :=
      [.push 0 5, .clearQuit, .test, .wake 0, .pollReturns true, .handleRead, .startCalling, .swap,
        .run, .loopPush 6, .push 1 7, .loopPushed, .finishCalling, .test]
    let s := (loopSystem (Fin 2) ℕ).run {} as
    s.executed <+: s.pushes ∧ s.executed = [5] ∧ s.pendingFuntors_ = [6, 7] ∧
      (0 < s.wakeupFd_ ∨ ∃ i k, s.callers i = .pushed k) := by
  intro as s
  have hruns : (loopSystem (Fin 2) ℕ).Runs {} as := by decide
  have h := functors_run_in_order hruns
  exact ⟨h.1, by decide, by decide, h.2 (by decide) (by decide)⟩

end LoopSystem

end CkServer
