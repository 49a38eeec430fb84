import CkServer.Library.Machine
import Mathlib.Algebra.Group.Nat.Defs
import Mathlib.Logic.Function.Basic

/-! # The thread of a loop

The loop's thread in `loop()`, and the threads `ι` that call `queueInLoop` and `quit` on the
loop. A step is a critical section of `mutex_`, a read or a write of the eventfd, or the access
to an atomic flag. `runInLoop` is `queueInLoop` for the other threads and a plain call for the
loop's own. -/

namespace CkServer

universe u v

/-- Where the loop's thread is. A functor that was pushed by this thread is known by its number,
and `woken` tells that the event of the wakeup channel has not been handled. -/
inductive LoopPc where
  /-- Before the store `quit_ = false`. -/
  | entering
  /-- Before the test of `quit_`. -/
  | testing
  /-- About to block in `poll`, or blocked there. -/
  | polling
  | handling (woken : Bool)
  /-- In `queueInLoop`, called by an event handler, after the critical section. -/
  | handlerPushed (woken : Bool) (k : ℕ)
  /-- In `doPendingFunctors`, before the swap. -/
  | swapping
  /-- In `doPendingFunctors`, after the swap. -/
  | running
  /-- In `queueInLoop`, called by a functor, after the critical section. -/
  | functorPushed (k : ℕ)
  | returned
  deriving DecidableEq

/-- The loop's thread is in user code: in an event handler or a functor. -/
def LoopPc.inUserCode : LoopPc → Bool
  | .handling _ => true
  | .running => true
  | _ => false

def LoopPc.isPushed : LoopPc → Bool
  | .handlerPushed _ _ => true
  | .functorPushed _ => true
  | _ => false

/-- Where another thread is: outside the loop's functions, in `queueInLoop` after the critical
section, or in `quit` after the store. -/
inductive CallerPc where
  | idle
  | pushed (k : ℕ)
  | quitting
  deriving DecidableEq

/-- The state. `functors` is the local vector of `doPendingFunctors` less the functors that have
been run, and `wakeupFd_` the counter of the eventfd. The last fields are history: all functors
in the order of the pushes, those that have been run, the numbers of those whose `queueInLoop`
has returned, the ones of these at the calls of `quit`, whether there was such a call, and the
number of polls started after it. -/
structure LoopSystem (ι : Type u) (Functor : Type v) where
  quit_ : Bool := false
  callingPendingFunctors_ : Bool := false
  pendingFuntors_ : List Functor := []
  wakeupFd_ : ℕ := 0
  pc : LoopPc := .entering
  functors : List Functor := []
  callers : ι → CallerPc := fun _ => .idle
  pushes : List Functor := []
  executed : List Functor := []
  returned : List ℕ := []
  promised : List ℕ := []
  requested : Bool := false
  latePolls : ℕ := 0

inductive LoopAction (ι : Type u) (Functor : Type v) where
  /-- The store `quit_ = false` at the beginning of `loop`. -/
  | clearQuit
  /-- The test of `quit_`. -/
  | test
  /-- The end of `poll`, by an event or by the timeout. -/
  | pollReturns (woken : Bool)
  | handleRead
  /-- The store `callingPendingFunctors_ = true`. -/
  | startCalling
  | swap
  /-- The next functor of `doPendingFunctors` is called. -/
  | run
  /-- The store `callingPendingFunctors_ = false`. -/
  | finishCalling
  /-- The critical section of `queueInLoop` in the loop's thread. -/
  | loopPush (cb : Functor)
  /-- The end of `queueInLoop` in the loop's thread. -/
  | loopPushed
  | loopQuit
  /-- The critical section of `queueInLoop` in another thread. -/
  | push (i : ι) (cb : Functor)
  /-- The end of `queueInLoop` or of `quit` in another thread. -/
  | wake (i : ι)
  | quit (i : ι)

namespace LoopSystem

variable {ι : Type u} {Functor : Type v}

/-- A write of 1 to an eventfd that does not block: the counter stays below `2 ^ 64 - 1`. -/
def wakeup (s : LoopSystem ι Functor) : LoopSystem ι Functor :=
  { s with wakeupFd_ := if s.wakeupFd_ < 2 ^ 64 - 2 then s.wakeupFd_ + 1 else s.wakeupFd_ }

/-- The critical section of `queueInLoop`. -/
def queueInLoop (s : LoopSystem ι Functor) (cb : Functor) : LoopSystem ι Functor :=
  { s with pendingFuntors_ := s.pendingFuntors_ ++ [cb], pushes := s.pushes ++ [cb] }

/-- The store of `quit`. -/
def quit (s : LoopSystem ι Functor) : LoopSystem ι Functor :=
  { s with quit_ := true, promised := s.promised ++ s.returned, requested := true }

/-- The end of a call of `queueInLoop`. -/
def queued (s : LoopSystem ι Functor) (k : ℕ) (wakes : Bool) : LoopSystem ι Functor :=
  let s := { s with returned := s.returned ++ [k] }
  if wakes then s.wakeup else s

variable [DecidableEq ι]

def next (s : LoopSystem ι Functor) : LoopAction ι Functor → LoopSystem ι Functor
  | .clearQuit => { s with quit_ := false, pc := .testing }
  | .test =>
      if s.quit_ then { s with pc := .returned }
      else { s with pc := .polling, latePolls := s.latePolls + if s.requested then 1 else 0 }
  | .pollReturns woken => { s with pc := .handling woken }
  | .handleRead => { s with wakeupFd_ := 0, pc := .handling false }
  | .startCalling => { s with callingPendingFunctors_ := true, pc := .swapping }
  | .swap => { s with functors := s.pendingFuntors_, pendingFuntors_ := [], pc := .running }
  | .run =>
      match s.functors with
      | f :: rest => { s with functors := rest, executed := s.executed ++ [f] }
      | [] => s
  | .finishCalling => { s with callingPendingFunctors_ := false, pc := .testing }
  | .loopPush cb =>
      match s.pc with
      | .handling woken => { s.queueInLoop cb with pc := .handlerPushed woken s.pushes.length }
      | .running => { s.queueInLoop cb with pc := .functorPushed s.pushes.length }
      | _ => s
  | .loopPushed =>
      match s.pc with
      | .handlerPushed woken k =>
          { s.queued k s.callingPendingFunctors_ with pc := .handling woken }
      | .functorPushed k => { s.queued k s.callingPendingFunctors_ with pc := .running }
      | _ => s
  | .loopQuit => s.quit
  | .push i cb =>
      { s.queueInLoop cb with callers := Function.update s.callers i (.pushed s.pushes.length) }
  | .wake i =>
      match s.callers i with
      | .pushed k => { s.queued k true with callers := Function.update s.callers i .idle }
      | .quitting => { s.wakeup with callers := Function.update s.callers i .idle }
      | .idle => s
  | .quit i => { s.quit with callers := Function.update s.callers i .quitting }

/-- The wakeup channel is reported only when the counter is positive, and all reported events
are handled before the functors. -/
def Enabled (s : LoopSystem ι Functor) : LoopAction ι Functor → Prop
  | .clearQuit => s.pc = .entering
  | .test => s.pc = .testing
  | .pollReturns woken => s.pc = .polling ∧ (woken = true → 0 < s.wakeupFd_)
  | .handleRead => s.pc = .handling true
  | .startCalling => s.pc = .handling false
  | .swap => s.pc = .swapping
  | .run => s.pc = .running ∧ s.functors.isEmpty = false
  | .finishCalling => s.pc = .running ∧ s.functors.isEmpty = true
  | .loopPush _ => s.pc.inUserCode = true
  | .loopPushed => s.pc.isPushed = true
  | .loopQuit => s.pc.inUserCode = true
  | .push i _ => s.callers i = .idle
  | .wake i => s.callers i ≠ .idle
  | .quit i => s.callers i = .idle

instance (s : LoopSystem ι Functor) : ∀ a, Decidable (s.Enabled a)
  | .clearQuit => inferInstanceAs (Decidable (s.pc = .entering))
  | .test => inferInstanceAs (Decidable (s.pc = .testing))
  | .pollReturns woken =>
      inferInstanceAs (Decidable (s.pc = .polling ∧ (woken = true → 0 < s.wakeupFd_)))
  | .handleRead => inferInstanceAs (Decidable (s.pc = .handling true))
  | .startCalling => inferInstanceAs (Decidable (s.pc = .handling false))
  | .swap => inferInstanceAs (Decidable (s.pc = .swapping))
  | .run => inferInstanceAs (Decidable (s.pc = .running ∧ s.functors.isEmpty = false))
  | .finishCalling => inferInstanceAs (Decidable (s.pc = .running ∧ s.functors.isEmpty = true))
  | .loopPush _ => inferInstanceAs (Decidable (s.pc.inUserCode = true))
  | .loopPushed => inferInstanceAs (Decidable (s.pc.isPushed = true))
  | .loopQuit => inferInstanceAs (Decidable (s.pc.inUserCode = true))
  | .push i _ => inferInstanceAs (Decidable (s.callers i = .idle))
  | .wake i => inferInstanceAs (Decidable (s.callers i ≠ .idle))
  | .quit i => inferInstanceAs (Decidable (s.callers i = .idle))

end LoopSystem

/-- The machine of a loop among the threads `ι`. -/
def loopSystem (ι : Type u) (Functor : Type v) [DecidableEq ι] :
    Machine (LoopSystem ι Functor) (LoopAction ι Functor) where
  enabled := LoopSystem.Enabled
  next := LoopSystem.next

instance {ι : Type u} {Functor : Type v} [DecidableEq ι] (s : LoopSystem ι Functor)
    (a : LoopAction ι Functor) : Decidable ((loopSystem ι Functor).enabled s a) :=
  inferInstanceAs (Decidable (s.Enabled a))

end CkServer
