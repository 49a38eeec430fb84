import CkServer.Model.EventLoopThread
import CkServer.Verification.Loop.Queue

/-! # The request to quit

`quit` sets the flag that `loop` clears at its beginning. A request that comes after this stays
until `loop` returns; one that comes before it, when `startLoop` has already returned, is
forgotten. -/

namespace CkServer

universe u v

namespace LoopSystem

variable {ι : Type u} {Functor : Type v}

/-- A request is in the flag, no poll has been started after it, and one that was under way
returns, now or when the thread in `quit` gets to its wakeup. -/
structure Respected (s : LoopSystem ι Functor) : Prop where
  flag : s.requested = true → s.quit_ = true
  polls : s.latePolls = 0
  woken : s.requested = true → s.pc = .polling → 0 < s.wakeupFd_ ∨ ∃ i, s.callers i = .quitting

theorem respected_initial : Respected ({} : LoopSystem ι Functor) where
  flag h := by simp at h
  polls := by simp
  woken h := by simp at h

/-- A step that leaves the flags, and does not go to `poll`. -/
theorem Respected.of_eq {s t : LoopSystem ι Functor} (h : s.Respected) (hquit : t.quit_ = s.quit_)
    (hrequested : t.requested = s.requested) (hpolls : t.latePolls = s.latePolls)
    (hpc : t.pc ≠ .polling) : t.Respected where
  flag := by
    rw [hquit, hrequested]
    exact h.flag
  polls := by rw [hpolls, h.polls]
  woken _ hpolling := absurd hpolling hpc

theorem Respected.queued {s : LoopSystem ι Functor} (h : s.Respected) (k : ℕ) (wakes : Bool)
    (pc : LoopPc) (hpc : pc ≠ .polling) : Respected { s.queued k wakes with pc := pc } := by
  cases wakes with
  | false => exact h.of_eq rfl rfl rfl hpc
  | true => exact h.of_eq rfl rfl rfl hpc

variable [DecidableEq ι]

theorem Respected.wake {s : LoopSystem ι Functor} (h : s.Respected) (i : ι) :
    (s.next (.wake i)).Respected := by
  cases hi : s.callers i with
  | idle => simpa [next, hi] using h
  | pushed k =>
      simp only [next, hi]
      exact ⟨h.flag, h.polls, fun _ _ => .inl (wakeup_pos _)⟩
  | quitting =>
      simp only [next, hi]
      exact ⟨h.flag, h.polls, fun _ _ => .inl (wakeup_pos _)⟩

theorem Respected.push {s : LoopSystem ι Functor} (h : s.Respected) {i : ι} (cb : Functor)
    (hi : s.callers i = .idle) : (s.next (.push i cb)).Respected where
  flag := h.flag
  polls := h.polls
  woken hreq hpc := by
    rcases h.woken hreq hpc with hfd | ⟨j, hj⟩
    · exact .inl hfd
    · have hji : j ≠ i := by
        intro heq
        rw [heq, hi] at hj
        cases hj
      exact .inr ⟨j, by simpa [next, queueInLoop, hji] using hj⟩

theorem Respected.step {s : LoopSystem ι Functor} (h : s.Respected) (a : LoopAction ι Functor)
    (hen : s.Enabled a) (hok : a = .clearQuit → s.requested = false) : (s.next a).Respected := by
  cases a with
  | clearQuit =>
      have hno := hok rfl
      refine ⟨fun hreq => ?_, h.polls, fun _ hpc => by cases hpc⟩
      rw [show s.requested = true from hreq] at hno
      cases hno
  | test =>
      by_cases hq : s.quit_ = true
      · simp only [next, hq, if_true]
        exact ⟨fun _ => rfl, h.polls, fun _ hpc => by cases hpc⟩
      · have hno : s.requested = false := by
          by_contra hreq
          exact hq (h.flag (by simpa using hreq))
        have hpolls := h.polls
        have hquit : s.quit_ = false := by simpa using hq
        simp only [next, hquit, hno]
        exact ⟨fun hreq => by simp at hreq, by simpa using hpolls, fun hreq => by simp at hreq⟩
  | pollReturns woken => exact h.of_eq rfl rfl rfl (by simp [next])
  | handleRead => exact h.of_eq rfl rfl rfl (by simp [next])
  | startCalling => exact h.of_eq rfl rfl rfl (by simp [next])
  | swap => exact h.of_eq rfl rfl rfl (by simp [next])
  | run =>
      cases hf : s.functors with
      | nil => simpa [next, hf] using h
      | cons f rest =>
          simp only [next, hf]
          exact ⟨h.flag, h.polls, h.woken⟩
  | finishCalling => exact h.of_eq rfl rfl rfl (by simp [next])
  | loopPush cb =>
      cases hpc : s.pc with
      | handling woken =>
          simp only [next, hpc]
          exact h.of_eq rfl rfl rfl (by simp)
      | running =>
          simp only [next, hpc]
          exact h.of_eq rfl rfl rfl (by simp)
      | _ => simpa [next, hpc] using h
  | loopPushed =>
      cases hpc : s.pc with
      | handlerPushed woken k =>
          simp only [next, hpc]
          exact h.queued k _ _ (by simp)
      | functorPushed k =>
          simp only [next, hpc]
          exact h.queued k _ _ (by simp)
      | _ => simpa [next, hpc] using h
  | loopQuit =>
      have hcode : s.pc.inUserCode = true := hen
      refine ⟨fun _ => rfl, h.polls, fun _ hpc => ?_⟩
      rw [show s.pc = .polling from hpc] at hcode
      cases hcode
  | push i cb => exact h.push cb hen
  | wake i => exact h.wake i
  | quit i => exact ⟨fun _ => rfl, h.polls, fun _ _ => .inr ⟨i, by simp [next, LoopSystem.quit]⟩⟩

end LoopSystem

namespace EventLoopThread

variable {ι : Type u} {Functor : Type v} [DecidableEq ι]

/-- When `loop` clears the flag, no request has been made. -/
def ClearsNoRequest (s : EventLoopThread ι Functor) : EventLoopThreadAction ι Functor → Prop
  | .act .clearQuit => s.loop.requested = false
  | _ => True

theorem respected_step {s : EventLoopThread ι Functor} (h : s.loop.Respected)
    (a : EventLoopThreadAction ι Functor) (hen : s.Enabled a) (hok : s.ClearsNoRequest a) :
    (s.next a).loop.Respected := by
  cases a with
  | act a =>
      refine h.step a hen.1 (fun ha => ?_)
      rw [ha] at hok
      exact hok
  | _ => exact h

/-- The flag that `loop` has just cleared is the only place where a request is lost. -/
theorem not_respected_of_not_clearsNoRequest {s : EventLoopThread ι Functor}
    {a : EventLoopThreadAction ι Functor} (h : ¬ s.ClearsNoRequest a) :
    ¬ (s.next a).loop.Respected := by
  intro hresp
  cases a with
  | act a =>
      cases a with
      | clearQuit =>
          have hreq : s.loop.requested = true := by simpa [ClearsNoRequest] using h
          have hflag : false = true := hresp.flag hreq
          cases hflag
      | _ => exact h trivial
  | _ => exact h trivial

/-- In every run, the request to quit stays in the flag, no poll is started after it, and a poll
that was under way is woken, in every state that is passed, exactly if `loop` had cleared the
flag before the first request. -/
theorem respected_iff {as : List (EventLoopThreadAction ι Functor)}
    (hruns : (eventLoopThread ι Functor).Runs {} as) :
    (∀ bs, bs <+: as → ((eventLoopThread ι Functor).run {} bs).loop.Respected) ↔
      (eventLoopThread ι Functor).Always ClearsNoRequest {} as := by
  exact (eventLoopThread ι Functor).forall_prefix_iff_always (I := fun s => s.loop.Respected)
    (fun _ a h hen hok => respected_step h a hen hok) (fun _ h => h)
    (fun _ _ _ _ hbad => not_respected_of_not_clearsNoRequest hbad) LoopSystem.respected_initial
    hruns

/-- `quit` is called while `loop` is in its first poll. -/
theorem respected_polling :
    let as : List (EventLoopThreadAction (Fin 1) ℕ) :=
      [.start, .publish, .startLoopReturns, .act .clearQuit, .act .test, .act (.quit 0),
        .act (.wake 0), .act (.pollReturns true), .act .handleRead, .act .startCalling, .act .swap,
        .act .finishCalling, .act .test, .finish]
    let s := (eventLoopThread (Fin 1) ℕ).run {} as
    s.loop.Respected ∧ s.loop.requested = true ∧ s.loop.pc = .returned := by
  intro as s
  have hok : (eventLoopThread (Fin 1) ℕ).Always ClearsNoRequest {} as :=
    ⟨trivial, trivial, trivial, rfl, trivial, trivial, trivial, trivial, trivial, trivial, trivial,
      trivial, trivial, trivial, trivial⟩
  have hruns : (eventLoopThread (Fin 1) ℕ).Runs {} as := by decide
  have h := (respected_iff hruns).mpr hok as List.prefix_rfl
  exact ⟨h, by decide, by decide⟩

/-- `quit` is called between the return of `startLoop` and the beginning of `loop`: the flag is
cleared, and `loop` goes to `poll` and stays in its iterations. -/
theorem loop_forgets_request :
    let as : List (EventLoopThreadAction (Fin 1) ℕ) :=
      [.start, .publish, .startLoopReturns, .act (.quit 0), .act .clearQuit, .act .test]
    let s := (eventLoopThread (Fin 1) ℕ).run {} as
    (eventLoopThread (Fin 1) ℕ).Runs {} as ∧ s.loop.requested = true ∧ s.loop.quit_ = false ∧
      s.loop.pc = .polling ∧ s.loop.latePolls = 1 := by
  decide

end EventLoopThread

end CkServer
