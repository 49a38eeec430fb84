import CkServer.Model.TcpConnection

/-! # Interests and their registration

What the interest operations of a connection do to its channel and to the poller. The
kernel's set follows the channel through every change of interest. -/

namespace CkServer

/-! ## Masks -/

theorem or_kWriteEvent_and_kReadEvent (e : Events) :
    (e ||| kWriteEvent) &&& kReadEvent = e &&& kReadEvent := by
  rw [BitVec.and_or_distrib_right, show kWriteEvent &&& kReadEvent = 0#32 by decide]
  exact BitVec.or_zero

theorem or_kWriteEvent_and_kWriteEvent (e : Events) :
    (e ||| kWriteEvent) &&& kWriteEvent ≠ 0#32 := by
  intro h
  rw [BitVec.and_or_distrib_right, BitVec.or_eq_zero_iff] at h
  exact absurd h.2 (by decide)

theorem or_kReadEvent_and_kReadEvent (e : Events) :
    (e ||| kReadEvent) &&& kReadEvent ≠ 0#32 := by
  intro h
  rw [BitVec.and_or_distrib_right, BitVec.or_eq_zero_iff] at h
  exact absurd h.2 (by decide)

theorem or_kReadEvent_and_kWriteEvent (e : Events) :
    (e ||| kReadEvent) &&& kWriteEvent = e &&& kWriteEvent := by
  rw [BitVec.and_or_distrib_right, show kReadEvent &&& kWriteEvent = 0#32 by decide]
  exact BitVec.or_zero

theorem and_not_kWriteEvent_and_kReadEvent (e : Events) :
    (e &&& ~~~kWriteEvent) &&& kReadEvent = e &&& kReadEvent := by
  rw [BitVec.and_assoc, show ~~~kWriteEvent &&& kReadEvent = kReadEvent by decide]

theorem and_not_kWriteEvent_and_kWriteEvent (e : Events) :
    (e &&& ~~~kWriteEvent) &&& kWriteEvent = 0#32 := by
  rw [BitVec.and_assoc, BitVec.not_and_self]
  exact BitVec.and_zero

/-! ## The poller -/

/-- The poller knows the channel as the channel knows itself. -/
structure Channel.Tracked (ch : Channel) (p : EPollPoller) : Prop where
  channels : p.channels_ ch.fd_ = if ch.index_ = .kNew then none else some ch.address
  epoll : p.epoll ch.fd_ = if ch.index_ = .kAdded then some ch.events_ else none
  running : p.aborted = false

namespace EPollPoller

@[simp] theorem updateChannel_events_ (p : EPollPoller) (ch : Channel) :
    (p.updateChannel ch).2.events_ = ch.events_ := by
  simp only [updateChannel]
  split
  · rfl
  · rfl
  · split <;> rfl

@[simp] theorem updateChannel_fd_ (p : EPollPoller) (ch : Channel) :
    (p.updateChannel ch).2.fd_ = ch.fd_ := by
  simp only [updateChannel]
  split
  · rfl
  · rfl
  · split <;> rfl

/-- Only a channel that is added and has no interest left is taken out of the kernel's set;
any other update puts it there. -/
theorem updateChannel_index_ (p : EPollPoller) (ch : Channel) :
    (p.updateChannel ch).2.index_ =
      if ch.index_ = .kAdded ∧ ch.events_ = kNoneEvent then .kDeleted else .kAdded := by
  cases h : ch.index_ with
  | kNew => simp [updateChannel, h, Channel.setindex]
  | kDeleted => simp [updateChannel, h, Channel.setindex]
  | kAdded =>
      by_cases hnone : ch.events_ = kNoneEvent
      · simp [updateChannel, h, Channel.isNoneEvent, hnone, Channel.setindex]
      · simp [updateChannel, h, Channel.isNoneEvent, hnone]

/-- An update keeps the kernel's set in step, whatever the interests have become. -/
theorem updateChannel_tracked {p : EPollPoller} {ch : Channel} {old : Events}
    (h : Channel.Tracked { ch with events_ := old } p) :
    (p.updateChannel ch).2.Tracked (p.updateChannel ch).1 := by
  obtain ⟨hchannels, hepoll, hrunning⟩ := h
  simp only at hchannels hepoll
  cases hindex : ch.index_ with
  | kNew =>
      simp only [hindex] at hepoll
      constructor <;>
        simp [updateChannel, hindex, update, epollCtl, hepoll, hrunning, Channel.setindex]
  | kDeleted =>
      simp only [hindex] at hchannels hepoll
      constructor <;>
        simp [updateChannel, hindex, update, epollCtl, hchannels, hepoll, hrunning,
          Channel.setindex]
  | kAdded =>
      simp only [hindex] at hchannels hepoll
      by_cases hnone : ch.events_ = kNoneEvent
      · constructor <;>
          simp [updateChannel, hindex, update, epollCtl, hchannels, hepoll, hrunning,
            Channel.setindex, Channel.isNoneEvent, hnone]
      · constructor <;>
          simp [updateChannel, hindex, update, epollCtl, hchannels, hepoll, hrunning,
            Channel.isNoneEvent, hnone]

theorem removeChannel_tracked {p : EPollPoller} {ch : Channel} (h : ch.Tracked p) :
    (p.removeChannel ch).2.Tracked (p.removeChannel ch).1 := by
  obtain ⟨hchannels, hepoll, hrunning⟩ := h
  cases hindex : ch.index_ with
  | kNew =>
      simp only [hindex] at hepoll
      constructor <;> simp [removeChannel, hindex, hepoll, hrunning, Channel.setindex]
  | kDeleted =>
      simp only [hindex] at hepoll
      constructor <;> simp [removeChannel, hindex, hepoll, hrunning, Channel.setindex]
  | kAdded =>
      simp only [hindex] at hepoll
      constructor <;>
        simp [removeChannel, hindex, update, epollCtl, hepoll, hrunning, Channel.setindex]

end EPollPoller

/-! ## The connection's operations -/

namespace TcpConnection

/-- The poller of the connection's loop knows the connection's channel. -/
def Tracked (c : TcpConnection) : Prop := c.channel_.Tracked c.loop_.poller_

section SetEvents

variable (c : TcpConnection) (events : Events)

@[simp] theorem setEvents_state_ : (c.setEvents events).state_ = c.state_ := rfl

@[simp] theorem setEvents_outputBuffer_ :
    (c.setEvents events).outputBuffer_ = c.outputBuffer_ := rfl

@[simp] theorem setEvents_socket_ : (c.setEvents events).socket_ = c.socket_ := rfl

@[simp] theorem setEvents_upcalls : (c.setEvents events).upcalls = c.upcalls := rfl

@[simp] theorem setEvents_pendingFuntors_ :
    (c.setEvents events).loop_.pendingFuntors_ = c.loop_.pendingFuntors_ := rfl

@[simp] theorem setEvents_events_ : (c.setEvents events).channel_.events_ = events :=
  EPollPoller.updateChannel_events_ _ _

theorem setEvents_index_ :
    (c.setEvents events).channel_.index_ =
      if c.channel_.index_ = .kAdded ∧ events = kNoneEvent then .kDeleted else .kAdded :=
  EPollPoller.updateChannel_index_ _ _

theorem setEvents_tracked (h : c.Tracked) : (c.setEvents events).Tracked := by
  have hold : Channel.Tracked { { c.channel_ with events_ := events } with
      events_ := c.channel_.events_ } c.loop_.poller_ := h
  exact EPollPoller.updateChannel_tracked hold

end SetEvents

@[simp] theorem disableWriting_writeCompleteCallback_ (c : TcpConnection) :
    c.disableWriting.writeCompleteCallback_ = c.writeCompleteCallback_ := rfl

@[simp] theorem isWriting_enableWriting (c : TcpConnection) :
    c.enableWriting.channel_.isWriting = true := by
  simp only [enableWriting, Channel.isWriting, setEvents_events_, decide_eq_true_eq]
  exact or_kWriteEvent_and_kWriteEvent _

@[simp] theorem isReading_enableWriting (c : TcpConnection) :
    c.enableWriting.channel_.isReading = c.channel_.isReading := by
  simp only [enableWriting, Channel.isReading, setEvents_events_, or_kWriteEvent_and_kReadEvent]

@[simp] theorem isWriting_disableWriting (c : TcpConnection) :
    c.disableWriting.channel_.isWriting = false := by
  simp [disableWriting, Channel.isWriting, and_not_kWriteEvent_and_kWriteEvent]

@[simp] theorem isReading_disableWriting (c : TcpConnection) :
    c.disableWriting.channel_.isReading = c.channel_.isReading := by
  simp only [disableWriting, Channel.isReading, setEvents_events_,
    and_not_kWriteEvent_and_kReadEvent]

@[simp] theorem isReading_enableReading (c : TcpConnection) :
    c.enableReading.channel_.isReading = true := by
  simp only [enableReading, Channel.isReading, setEvents_events_, decide_eq_true_eq]
  exact or_kReadEvent_and_kReadEvent _

@[simp] theorem isWriting_enableReading (c : TcpConnection) :
    c.enableReading.channel_.isWriting = c.channel_.isWriting := by
  simp only [enableReading, Channel.isWriting, setEvents_events_, or_kReadEvent_and_kWriteEvent]

@[simp] theorem isWriting_disableAll (c : TcpConnection) :
    c.disableAll.channel_.isWriting = false := by
  simp [disableAll, Channel.isWriting, kNoneEvent]

@[simp] theorem isReading_disableAll (c : TcpConnection) :
    c.disableAll.channel_.isReading = false := by
  simp [disableAll, Channel.isReading, kNoneEvent]

end TcpConnection

end CkServer
