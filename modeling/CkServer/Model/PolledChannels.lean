import CkServer.Library.Machine
import CkServer.Model.EPollPoller
import Mathlib.Logic.Embedding.Basic

/-! # Channels on one poller

The interest operations of `Channel` and `remove`, on any number of channels of one loop. -/

namespace CkServer

universe u

namespace EPollPoller

/-- The operation with which `updateChannel` calls `update`. -/
def updateOp (ch : Channel) : EpollOp :=
  match ch.index_ with
  | .kNew => .EPOLL_CTL_ADD
  | .kDeleted => .EPOLL_CTL_ADD
  | .kAdded => if ch.isNoneEvent then .EPOLL_CTL_DEL else .EPOLL_CTL_MOD

/-- The operation with which `removeChannel` calls `update`, if it does. -/
def removeOp (ch : Channel) : Option EpollOp :=
  if ch.index_ = .kAdded then some .EPOLL_CTL_DEL else none

end EPollPoller

/-- The channels, and their poller. `calls` has the calls of `epoll_ctl`, and whether they have
succeeded. -/
structure PolledChannels (ι : Type u) where
  poller_ : EPollPoller := {}
  channels : ι → Channel
  calls : List (EpollOp × Bool) := []

inductive ChannelAction (ι : Type u) where
  | enableReading (i : ι)
  | disableReading (i : ι)
  | enableWriting (i : ι)
  | disableWriting (i : ι)
  | disableAll (i : ι)
  | remove (i : ι)

namespace PolledChannels

variable {ι : Type u}

/-- A call of `epoll_ctl` for a channel, and whether it succeeds. -/
def call (s : PolledChannels ι) (ch : Channel) (op : EpollOp) : EpollOp × Bool :=
  (op, (epollCtl op ch.fd_ ch.events_ s.poller_.epoll).isSome)

variable [DecidableEq ι]

/-- `update()` after the interests of a channel have become `events`. -/
def update (s : PolledChannels ι) (i : ι) (events : Events) : PolledChannels ι :=
  let ch := { s.channels i with events_ := events }
  let (poller, ch') := s.poller_.updateChannel ch
  { poller_ := poller
    channels := Function.update s.channels i ch'
    calls := s.calls ++ [s.call ch (EPollPoller.updateOp ch)] }

def remove (s : PolledChannels ι) (i : ι) : PolledChannels ι :=
  let ch := s.channels i
  let (poller, ch') := s.poller_.removeChannel ch
  { poller_ := poller
    channels := Function.update s.channels i ch'
    calls := s.calls ++ (EPollPoller.removeOp ch).toList.map (s.call ch) }

def next (s : PolledChannels ι) : ChannelAction ι → PolledChannels ι
  | .enableReading i => s.update i ((s.channels i).events_ ||| kReadEvent)
  | .disableReading i => s.update i ((s.channels i).events_ &&& ~~~kReadEvent)
  | .enableWriting i => s.update i ((s.channels i).events_ ||| kWriteEvent)
  | .disableWriting i => s.update i ((s.channels i).events_ &&& ~~~kWriteEvent)
  | .disableAll i => s.update i kNoneEvent
  | .remove i => s.remove i

/-- Channels as their constructor leaves them, at their addresses. -/
def initial (fd : ι ↪ ℕ) (address : ι → ℕ) : PolledChannels ι where
  channels i := { address := address i, fd_ := fd i }

end PolledChannels

/-- The machine of the channels of a loop. Every operation is allowed at any time. -/
def polledChannels (ι : Type u) [DecidableEq ι] : Machine (PolledChannels ι) (ChannelAction ι) where
  enabled _ _ := True
  next := PolledChannels.next

end CkServer
