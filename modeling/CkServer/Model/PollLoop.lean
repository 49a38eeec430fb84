import CkServer.Model.PolledChannels

/-! # The loop around the poller

A turn of `EventLoop::loop` polls and then handles the channels that are active, one after
another. What the callbacks and the functors do with the channels of the loop is open, and so are
the conditions of the descriptors, the order in which the kernel reports them, and whether the
owner of a channel that is tied still lives. -/

namespace CkServer

universe u

def kInitEventListSize : ℕ := 16

/-- What epoll reports of a condition to one with that interest. -/
def reported (condition interest : Events) : Events :=
  condition &&& (interest ||| EPOLLERR ||| EPOLLHUP)

/-- A channel that has been handled: whether its owner was found, and what was called. -/
structure Handling (ι : Type u) where
  channel : ι
  guard : Bool
  called : List EventCallback

/-- `data` has the `data.ptr` of the kernel for a descriptor, and `size` is the size of
`events_`. The last two fields are history: the channels handled in this turn, and the number of
polls that have filled `events_`. -/
structure PollLoop (ι : Type u) where
  polled : PolledChannels ι
  data : ℕ → Option ι := fun _ => none
  size : ℕ := kInitEventListSize
  activeChannels_ : List ι := []
  handled : List (Handling ι) := []
  full : ℕ := 0

/-- In `poll`, `condition` has the conditions of the descriptors and `ready` the descriptors that
`epoll_wait` has stored. -/
inductive PollLoopAction (ι : Type u) where
  | poll (condition : ℕ → Events) (ready : List ℕ)
  /-- `epoll_wait` fails. -/
  | interrupted
  /-- The next active channel is handled. -/
  | handleEvent (guard : Bool)
  | operate (a : ChannelAction ι)

namespace PollLoop

variable {ι : Type u}

/-- What the kernel reports of a descriptor. -/
def report (s : PollLoop ι) (condition : ℕ → Events) (f : ℕ) : Events :=
  match s.polled.poller_.epoll f with
  | some interest => reported (condition f) interest
  | none => 0#32

/-- `epoll_wait` stores descriptors that have something to report, each once and no more than
there is room for, and all of them if there is room to spare. -/
structure Waited (s : PollLoop ι) (condition : ℕ → Events) (ready : List ℕ) : Prop where
  nodup : ready.Nodup
  length_le : ready.length ≤ s.size
  reports : ∀ f ∈ ready, s.report condition f ≠ 0#32
  complete : ready.length < s.size → ∀ f, s.report condition f ≠ 0#32 → f ∈ ready

/-- Every active channel has been handled. -/
def TurnEnded (s : PollLoop ι) : Prop := s.handled.length = s.activeChannels_.length

def enabled (s : PollLoop ι) : PollLoopAction ι → Prop
  | .poll condition ready => s.TurnEnded ∧ s.Waited condition ready
  | .interrupted => s.TurnEnded
  | .handleEvent _ => s.handled.length < s.activeChannels_.length
  | .operate _ => True

variable [DecidableEq ι]

/-- The turn of the loop in `fillActiveChannel` for a descriptor. -/
def fill (s : PollLoop ι) (condition : ℕ → Events) (f : ℕ) : PollLoop ι :=
  match s.data f with
  | some i =>
      { s with
        polled := { s.polled with
          channels := Function.update s.polled.channels i
            ((s.polled.channels i).set_revents (s.report condition f)) }
        activeChannels_ := s.activeChannels_ ++ [i] }
  | none => s

def fillActiveChannel (s : PollLoop ι) (condition : ℕ → Events) (ready : List ℕ) : PollLoop ι :=
  ready.foldl (fun s f => s.fill condition f) s

/-- `activeChannels_.clear()`. -/
def clear (s : PollLoop ι) : PollLoop ι := { s with activeChannels_ := [], handled := [] }

def poll (s : PollLoop ι) (condition : ℕ → Events) (ready : List ℕ) : PollLoop ι :=
  let numEvents := ready.length
  if numEvents > 0 then
    let s := s.clear.fillActiveChannel condition ready
    if numEvents = s.size then { s with size := s.size * 2, full := s.full + 1 } else s
  else s.clear

/-- `update` gives the kernel the channel with its interests. -/
def store (s : PollLoop ι) (i : ι) (events : Events) : ℕ → Option ι :=
  let ch := { s.polled.channels i with events_ := events }
  let (op, succeeded) := s.polled.call ch (EPollPoller.updateOp ch)
  if op ≠ .EPOLL_CTL_DEL ∧ succeeded then Function.update s.data ch.fd_ (some i) else s.data

/-- `data` after an operation of a channel. -/
def dataAfter (s : PollLoop ι) : ChannelAction ι → ℕ → Option ι
  | .enableReading i => s.store i ((s.polled.channels i).events_ ||| kReadEvent)
  | .disableReading i => s.store i ((s.polled.channels i).events_ &&& ~~~kReadEvent)
  | .enableWriting i => s.store i ((s.polled.channels i).events_ ||| kWriteEvent)
  | .disableWriting i => s.store i ((s.polled.channels i).events_ &&& ~~~kWriteEvent)
  | .disableAll i => s.store i kNoneEvent
  | .remove _ => s.data

def handleEvent (s : PollLoop ι) (guard : Bool) : PollLoop ι :=
  match s.activeChannels_[s.handled.length]? with
  | some i =>
      { s with handled := s.handled ++ [⟨i, guard, (s.polled.channels i).handleEvent guard⟩] }
  | none => s

def next (s : PollLoop ι) : PollLoopAction ι → PollLoop ι
  | .poll condition ready => s.poll condition ready
  | .interrupted => s.clear
  | .handleEvent guard => s.handleEvent guard
  | .operate a => { s with polled := s.polled.next a, data := s.dataAfter a }

/-- The channels as their owners leave them before their first interest: some are tied, and each
has some of the callbacks. -/
def initial (fd : ι ↪ ℕ) (address : ι → ℕ) (tied : ι → Bool) (has : ι → EventCallback → Bool) :
    PollLoop ι where
  polled := {
    channels := fun i => {
      address := address i
      fd_ := fd i
      tied_ := tied i
      readCallback_ := has i .readCallback_
      writeCallback_ := has i .writeCallback_
      closeCallback_ := has i .closeCallback_
      errorCallback_ := has i .errorCallback_ } }

end PollLoop

def pollLoop (ι : Type u) [DecidableEq ι] : Machine (PollLoop ι) (PollLoopAction ι) where
  enabled := PollLoop.enabled
  next := PollLoop.next

end CkServer
