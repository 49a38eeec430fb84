import CkServer.Model.LoopThread

/-! # A thread with a loop

`threadFunc` makes a loop, hands its address to `startLoop` through `loop_`, and runs `loop()`.
The threads `ι` have the loop from `startLoop`; one of them is to call `quit` before it joins
the thread. -/

namespace CkServer

universe u v

/-- The state. `loop_` tells that `loop_` is not null, and `gotLoop` that `startLoop` has
returned. -/
structure EventLoopThread (ι : Type u) (Functor : Type v) where
  started : Bool := false
  loop_ : Bool := false
  gotLoop : Bool := false
  loop : LoopSystem ι Functor := {}

inductive EventLoopThreadAction (ι : Type u) (Functor : Type v) where
  /-- `startLoop` starts the thread. -/
  | start
  /-- The first critical section of `threadFunc`. -/
  | publish
  /-- The critical section of `startLoop`, when the wait is over. -/
  | startLoopReturns
  /-- A step in `loop()`, or of a thread that has the loop. -/
  | act (a : LoopAction ι Functor)
  /-- The last critical section of `threadFunc`. -/
  | finish

/-- The actions of the loop's own thread. -/
def LoopAction.inLoopThread {ι : Type u} {Functor : Type v} : LoopAction ι Functor → Bool
  | .push _ _ => false
  | .wake _ => false
  | .quit _ => false
  | _ => true

namespace EventLoopThread

variable {ι : Type u} {Functor : Type v} [DecidableEq ι]

def next (s : EventLoopThread ι Functor) :
    EventLoopThreadAction ι Functor → EventLoopThread ι Functor
  | .start => { s with started := true }
  | .publish => { s with loop_ := true }
  | .startLoopReturns => { s with gotLoop := true }
  | .act a => { s with loop := s.loop.next a }
  | .finish => { s with loop_ := false }

/-- The loop lives as long as `threadFunc`. What happens when a thread uses it later is
undefined, and left out. -/
def Enabled (s : EventLoopThread ι Functor) : EventLoopThreadAction ι Functor → Prop
  | .start => s.started = false
  | .publish => s.started = true ∧ s.loop_ = false ∧ s.loop.pc = .entering
  | .startLoopReturns => s.started = true ∧ s.loop_ = true ∧ s.gotLoop = false
  | .act a => s.loop.Enabled a ∧ s.loop_ = true ∧ (a.inLoopThread = true ∨ s.gotLoop = true)
  | .finish => s.loop_ = true ∧ s.loop.pc = .returned

instance (s : EventLoopThread ι Functor) : ∀ a, Decidable (s.Enabled a)
  | .start => inferInstanceAs (Decidable (s.started = false))
  | .publish =>
      inferInstanceAs (Decidable (s.started = true ∧ s.loop_ = false ∧ s.loop.pc = .entering))
  | .startLoopReturns =>
      inferInstanceAs (Decidable (s.started = true ∧ s.loop_ = true ∧ s.gotLoop = false))
  | .act a =>
      inferInstanceAs (Decidable
        (s.loop.Enabled a ∧ s.loop_ = true ∧ (a.inLoopThread = true ∨ s.gotLoop = true)))
  | .finish => inferInstanceAs (Decidable (s.loop_ = true ∧ s.loop.pc = .returned))

end EventLoopThread

/-- The machine of `threadFunc`, `startLoop` and the threads that have the loop. -/
def eventLoopThread (ι : Type u) (Functor : Type v) [DecidableEq ι] :
    Machine (EventLoopThread ι Functor) (EventLoopThreadAction ι Functor) where
  enabled := EventLoopThread.Enabled
  next := EventLoopThread.next

instance {ι : Type u} {Functor : Type v} [DecidableEq ι] (s : EventLoopThread ι Functor)
    (a : EventLoopThreadAction ι Functor) : Decidable ((eventLoopThread ι Functor).enabled s a) :=
  inferInstanceAs (Decidable (s.Enabled a))

end CkServer
