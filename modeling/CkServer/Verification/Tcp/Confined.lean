import CkServer.Verification.Tcp.System

/-! # What an operation of a connection leaves alone

In the poller of its loop an operation changes what is kept for the connection's own
descriptor, and in the queue it adds user callbacks at the end. -/

namespace CkServer

namespace EPollPoller

theorem update_channels_ (p : EPollPoller) (op : EpollOp) (ch : Channel) :
    (p.update op ch).channels_ = p.channels_ := by
  simp only [update]
  cases epollCtl op ch.fd_ ch.events_ p.epoll with
  | some epoll => rfl
  | none => by_cases h : op = .EPOLL_CTL_DEL <;> simp [h]

theorem epollCtl_of_ne {op : EpollOp} {fd f : ℕ} {events : Events}
    {epoll epoll' : ℕ → Option Events} (h : epollCtl op fd events epoll = some epoll')
    (hf : f ≠ fd) : epoll' f = epoll f := by
  cases op with
  | EPOLL_CTL_ADD =>
      cases hfd : epoll fd with
      | none =>
          simp only [epollCtl, hfd, Option.some.injEq] at h
          rw [← h, Function.update_of_ne hf]
      | some e => simp [epollCtl, hfd] at h
  | EPOLL_CTL_MOD =>
      cases hfd : epoll fd with
      | none => simp [epollCtl, hfd] at h
      | some e =>
          simp only [epollCtl, hfd, Option.some.injEq] at h
          rw [← h, Function.update_of_ne hf]
  | EPOLL_CTL_DEL =>
      cases hfd : epoll fd with
      | none => simp [epollCtl, hfd] at h
      | some e =>
          simp only [epollCtl, hfd, Option.some.injEq] at h
          rw [← h, Function.update_of_ne hf]

theorem update_epoll_of_ne (p : EPollPoller) (op : EpollOp) {ch : Channel} {f : ℕ}
    (hf : f ≠ ch.fd_) : (p.update op ch).epoll f = p.epoll f := by
  simp only [update]
  cases h : epollCtl op ch.fd_ ch.events_ p.epoll with
  | some epoll => exact epollCtl_of_ne h hf
  | none => by_cases hop : op = .EPOLL_CTL_DEL <;> simp [hop]

theorem updateChannel_channels_of_ne (p : EPollPoller) {ch : Channel} {f : ℕ}
    (hf : f ≠ ch.fd_) : (p.updateChannel ch).1.channels_ f = p.channels_ f := by
  cases h : ch.index_ with
  | kNew => simp [updateChannel, h, update_channels_, Function.update_of_ne hf]
  | kDeleted => simp [updateChannel, h, update_channels_]
  | kAdded => by_cases hnone : ch.isNoneEvent <;> simp [updateChannel, h, hnone, update_channels_]

theorem updateChannel_epoll_of_ne (p : EPollPoller) {ch : Channel} {f : ℕ}
    (hf : f ≠ ch.fd_) : (p.updateChannel ch).1.epoll f = p.epoll f := by
  cases h : ch.index_ with
  | kNew =>
      simp only [updateChannel, h]
      exact update_epoll_of_ne _ _ hf
  | kDeleted =>
      simp only [updateChannel, h]
      exact update_epoll_of_ne _ _ hf
  | kAdded =>
      by_cases hnone : ch.isNoneEvent
      · simp only [updateChannel, h, hnone, if_true]
        exact update_epoll_of_ne _ _ hf
      · simp only [updateChannel, h, hnone]
        exact update_epoll_of_ne _ _ hf

theorem removeChannel_channels_of_ne (p : EPollPoller) {ch : Channel} {f : ℕ}
    (hf : f ≠ ch.fd_) : (p.removeChannel ch).1.channels_ f = p.channels_ f := by
  by_cases h : ch.index_ = .kAdded <;>
    simp [removeChannel, h, update_channels_, Function.update_of_ne hf]

theorem removeChannel_epoll_of_ne (p : EPollPoller) {ch : Channel} {f : ℕ}
    (hf : f ≠ ch.fd_) : (p.removeChannel ch).1.epoll f = p.epoll f := by
  by_cases h : ch.index_ = .kAdded
  · simp only [removeChannel, h, if_true]
    exact update_epoll_of_ne _ _ hf
  · simp [removeChannel, h]

end EPollPoller

namespace TcpConnection

/-- Apart from the connection itself, an operation has changed what the poller keeps for the
connection's descriptor, and has queued user callbacks. -/
structure Confined (c c' : TcpConnection) : Prop where
  fd_ : c'.channel_.fd_ = c.channel_.fd_
  address : c'.channel_.address = c.channel_.address
  channels : ∀ f, f ≠ c.channel_.fd_ → c'.loop_.poller_.channels_ f = c.loop_.poller_.channels_ f
  epoll : ∀ f, f ≠ c.channel_.fd_ → c'.loop_.poller_.epoll f = c.loop_.poller_.epoll f
  tracked : c.Tracked → c'.Tracked
  queues : c.Queues c'

theorem Confined.trans {c c' c'' : TcpConnection} (h : c.Confined c') (h' : c'.Confined c'') :
    c.Confined c'' where
  fd_ := by rw [h'.fd_, h.fd_]
  address := by rw [h'.address, h.address]
  channels f hf := by rw [h'.channels f (by rw [h.fd_]; exact hf), h.channels f hf]
  epoll f hf := by rw [h'.epoll f (by rw [h.fd_]; exact hf), h.epoll f hf]
  tracked ht := h'.tracked (h.tracked ht)
  queues := h.queues.trans h'.queues

/-- An operation that changes neither the channel nor the poller. -/
theorem Confined.of_eq {c c' : TcpConnection} (hch : c'.channel_ = c.channel_)
    (hp : c'.loop_.poller_ = c.loop_.poller_) (hq : c.Queues c') : c.Confined c' where
  fd_ := by rw [hch]
  address := by rw [hch]
  channels _ _ := by rw [hp]
  epoll _ _ := by rw [hp]
  tracked h := by
    rw [Tracked, hch, hp]
    exact h
  queues := hq

theorem Confined.refl (c : TcpConnection) : c.Confined c := .of_eq rfl rfl (.refl c)

theorem confined_setEvents (c : TcpConnection) (events : Events) :
    c.Confined (c.setEvents events) where
  fd_ := EPollPoller.updateChannel_fd_ _ _
  address := by
    simp only [setEvents, EventLoop.updateChannel, EPollPoller.updateChannel]
    split
    · rfl
    · rfl
    · split <;> rfl
  channels _ hf := EPollPoller.updateChannel_channels_of_ne _ hf
  epoll _ hf := EPollPoller.updateChannel_epoll_of_ne _ hf
  tracked := setEvents_tracked c events
  queues := .of_eq rfl

theorem confined_remove (c : TcpConnection) : c.Confined c.remove where
  fd_ := rfl
  address := rfl
  channels _ hf := EPollPoller.removeChannel_channels_of_ne _ hf
  epoll _ hf := EPollPoller.removeChannel_epoll_of_ne _ hf
  tracked := tracked_remove
  queues := .of_eq rfl

/-! ## The operations -/

theorem confined_invoke (c : TcpConnection) (call : Upcall) : c.Confined (c.invoke call) :=
  .of_eq rfl rfl (.of_eq rfl)

theorem confined_setDisconnected (c : TcpConnection) : c.Confined c.setDisconnected := by
  have hstate : c.Confined (c.setState .kDisconnected) := .of_eq rfl rfl (.of_eq rfl)
  exact hstate.trans ((confined_setEvents _ _).trans (confined_invoke _ _))

theorem confined_connectEstablished (c : TcpConnection) : c.Confined c.connectEstablished := by
  have htie : c.Confined { c.setState .kConnected with channel_ := c.channel_.tie } :=
    ⟨rfl, rfl, fun _ _ => rfl, fun _ _ => rfl, fun h => ⟨h.channels, h.epoll, h.running⟩,
      .of_eq rfl⟩
  exact htie.trans ((confined_setEvents _ _).trans (confined_invoke _ _))

theorem confined_connectDestroyed (c : TcpConnection) : c.Confined c.connectDestroyed := by
  by_cases h : c.state_ = .kConnected
  · simp only [connectDestroyed, h, if_true]
    exact c.confined_setDisconnected.trans (confined_remove _)
  · simp only [connectDestroyed, h, if_false]
    exact confined_remove c

theorem confined_shutdownInLoop (c : TcpConnection) : c.Confined c.shutdownInLoop :=
  .of_eq (by simp) (by simp) (queues_shutdownInLoop c)

theorem confined_shutdown (c : TcpConnection) : c.Confined c.shutdown := by
  by_cases h : c.state_ = .kConnected
  · have hstate : c.Confined (c.setState .kDisconnecting) := .of_eq rfl rfl (.of_eq rfl)
    simp only [shutdown, h, if_true]
    exact hstate.trans (confined_shutdownInLoop _)
  · simp only [shutdown, h, if_false]
    exact .refl c

theorem confined_readInput (c : TcpConnection) (r : Except Errno (List UInt8)) :
    c.Confined (c.readInput r).1 :=
  .of_eq (by simp) (by simp) (queues_readInput c r)

theorem confined_bufferRest (c : TcpConnection) (rest : List UInt8) (fault : Bool) :
    c.Confined (c.bufferRest rest fault) := by
  apply bufferRest_rule
  · exact .refl c
  · exact fun cbs hcbs _ => .of_eq rfl rfl ⟨cbs, hcbs, rfl⟩
  · intro cbs hcbs _
    have hqueued : c.Confined { c.queued cbs with
        outputBuffer_ := c.outputBuffer_.append rest } := .of_eq rfl rfl ⟨cbs, hcbs, rfl⟩
    exact hqueued.trans (confined_setEvents _ _)

theorem confined_sendInLoop (c : TcpConnection) (data : List UInt8) (r : Except Errno ℕ) :
    c.Confined (c.sendInLoop data r) := by
  have hdirect : c.Confined (c.writeDirect data r).1 :=
    .of_eq (by simp) (by simp) (queues_writeDirect c data r)
  rw [sendInLoop_eq]
  exact hdirect.trans (confined_bufferRest _ _ _)

theorem confined_send (c : TcpConnection) (data : List UInt8) (r : Except Errno ℕ) :
    c.Confined (c.send data r) := by
  by_cases h : c.state_ = .kConnected
  · simp only [send, h, if_true]
    exact confined_sendInLoop c data r
  · simp only [send, h, if_false]
    exact .refl c

theorem confined_writeOutput (c : TcpConnection) (r : Except Errno ℕ) :
    c.Confined (c.writeOutput r).1 := by
  apply writeOutput_rule
  · exact fun _ => .refl c
  · exact fun _ _ _ _ => .of_eq rfl rfl (.of_eq rfl)
  · intro n cbs _ hcbs _ _
    have hwritten : c.Confined { c with
        socket_ := c.socket_ ++ [.write c.outputBuffer_.readable r]
        outputBuffer_ := c.outputBuffer_.retrieve n } := .of_eq rfl rfl (.of_eq rfl)
    have hqueued (c' : TcpConnection) : c'.Confined (c'.queued cbs) :=
      .of_eq rfl rfl ⟨cbs, hcbs, rfl⟩
    exact hwritten.trans ((confined_setEvents _ _).trans (hqueued _))

theorem confined_handleWrite (c : TcpConnection) (r : Except Errno ℕ) :
    c.Confined (c.handleWrite r) := by
  simp only [handleWrite]
  split
  · exact (confined_writeOutput c r).trans (confined_shutdownInLoop _)
  · exact confined_writeOutput c r

end TcpConnection

end CkServer
