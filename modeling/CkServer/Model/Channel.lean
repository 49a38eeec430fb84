import Mathlib.Data.Nat.Notation

/-! # Channels

A channel is a file descriptor with the events that it is interested in. The function that
dispatches an event to the callbacks is modelled by the list of the callbacks it calls. -/

namespace CkServer

/-- An epoll event mask. -/
abbrev Events := BitVec 32

def EPOLLIN : Events := 0x001#32
def EPOLLPRI : Events := 0x002#32
def EPOLLOUT : Events := 0x004#32
def EPOLLERR : Events := 0x008#32
def EPOLLHUP : Events := 0x010#32

def kNoneEvent : Events := 0#32
def kReadEvent : Events := EPOLLIN ||| EPOLLPRI
def kWriteEvent : Events := EPOLLOUT

/-- The values of `index_`. -/
inductive ChannelIndex where
  | kNew
  | kAdded
  | kDeleted
  deriving DecidableEq, Repr

/-- `address` is where the channel is, the pointer under which others know it. The last four tell
which callbacks have been set. -/
structure Channel where
  address : ℕ
  fd_ : ℕ
  events_ : Events := kNoneEvent
  revents_ : Events := 0#32
  index_ : ChannelIndex := .kNew
  tied_ : Bool := false
  readCallback_ : Bool := false
  writeCallback_ : Bool := false
  closeCallback_ : Bool := false
  errorCallback_ : Bool := false
  deriving DecidableEq

inductive EventCallback where
  | closeCallback_
  | errorCallback_
  | readCallback_
  | writeCallback_
  deriving DecidableEq, Repr

namespace Channel

def isReading (ch : Channel) : Bool := ch.events_ &&& kReadEvent ≠ 0#32

def isWriting (ch : Channel) : Bool := ch.events_ &&& kWriteEvent ≠ 0#32

def isNoneEvent (ch : Channel) : Bool := ch.events_ = kNoneEvent

def set_revents (ch : Channel) (revents : Events) : Channel := { ch with revents_ := revents }

def setindex (ch : Channel) (index : ChannelIndex) : Channel := { ch with index_ := index }

def tie (ch : Channel) : Channel := { ch with tied_ := true }

/-- The callbacks that `handleEventWithGuard` calls, in their order. -/
def handleEventWithGuard (ch : Channel) : List EventCallback :=
  (if ch.revents_ &&& EPOLLHUP ≠ 0#32 ∧ ¬ ch.revents_ &&& EPOLLIN ≠ 0#32 then
    if ch.closeCallback_ then [.closeCallback_] else [] else []) ++
  (if ch.revents_ &&& EPOLLERR ≠ 0#32 then
    if ch.errorCallback_ then [.errorCallback_] else [] else []) ++
  (if ch.revents_ &&& (EPOLLIN ||| EPOLLPRI) ≠ 0#32 then
    if ch.readCallback_ then [.readCallback_] else [] else []) ++
  (if ch.revents_ &&& EPOLLOUT ≠ 0#32 then
    if ch.writeCallback_ then [.writeCallback_] else [] else [])

/-- The callbacks that `handleEvent` calls. `guard` tells that `tie_.lock()` has found an owner. -/
def handleEvent (ch : Channel) (guard : Bool) : List EventCallback :=
  if ch.tied_ then if guard then ch.handleEventWithGuard else [] else ch.handleEventWithGuard

end Channel

end CkServer
