import CkServer.Model.EPollPoller

/-! # The event loop, seen from a connection

A connection changes its interests through its loop and puts functors in its queue. A loop
that runs a functor in its own thread calls it at once, so `runInLoop` is `queueInLoop` for
the other threads and a plain call for the loop's own. -/

namespace CkServer

universe u

structure EventLoop (Functor : Type u) where
  poller_ : EPollPoller := {}
  pendingFuntors_ : List Functor := []

namespace EventLoop

variable {Functor : Type u}

def queueInLoop (loop : EventLoop Functor) (cb : Functor) : EventLoop Functor :=
  { loop with pendingFuntors_ := loop.pendingFuntors_ ++ [cb] }

def updateChannel (loop : EventLoop Functor) (ch : Channel) : EventLoop Functor × Channel :=
  let (poller, ch) := loop.poller_.updateChannel ch
  ({ loop with poller_ := poller }, ch)

def removeChannel (loop : EventLoop Functor) (ch : Channel) : EventLoop Functor × Channel :=
  let (poller, ch) := loop.poller_.removeChannel ch
  ({ loop with poller_ := poller }, ch)

end EventLoop

end CkServer
