import CkServer.Model.PolledChannels
import CkServer.Verification.Tcp.Confined

/-! # The poller's bookkeeping

The index of a channel, `channels_` and the kernel's set agree after every operation, whatever
the other channels do. So no call of `epoll_ctl` fails. -/

namespace CkServer

universe u

namespace EPollPoller

variable {p : EPollPoller} {ch : Channel} {old : Events}

theorem updateChannel_address (p : EPollPoller) (ch : Channel) :
    (p.updateChannel ch).2.address = ch.address := by
  cases h : ch.index_ with
  | kNew => simp [updateChannel, h, Channel.setindex]
  | kDeleted => simp [updateChannel, h, Channel.setindex]
  | kAdded => by_cases hnone : ch.isNoneEvent <;> simp [updateChannel, h, hnone, Channel.setindex]

/-- `updateChannel` calls `epoll_ctl` once, with `updateOp`. -/
theorem updateChannel_epoll (p : EPollPoller) (ch : Channel) :
    (p.updateChannel ch).1.epoll = (p.update (updateOp ch) ch).epoll := by
  cases h : ch.index_ with
  | kNew =>
      simp only [updateChannel, updateOp, h, update, Channel.setindex]
      cases epollCtl .EPOLL_CTL_ADD ch.fd_ ch.events_ p.epoll <;> simp
  | kDeleted =>
      simp only [updateChannel, updateOp, h, update, Channel.setindex]
  | kAdded =>
      by_cases hnone : ch.isNoneEvent
      · simp only [updateChannel, updateOp, h, if_pos hnone]
      · simp only [updateChannel, updateOp, h, if_neg hnone]

/-- `removeChannel` calls `epoll_ctl` with `removeOp`, or not at all. -/
theorem removeChannel_epoll (p : EPollPoller) (ch : Channel) :
    (p.removeChannel ch).1.epoll =
      match removeOp ch with
      | some op => (p.update op ch).epoll
      | none => p.epoll := by
  by_cases h : ch.index_ = .kAdded
  · simp only [removeChannel, removeOp, if_pos h, update]
    cases epollCtl .EPOLL_CTL_DEL ch.fd_ ch.events_ p.epoll <;> simp
  · simp only [removeChannel, removeOp, if_neg h]

theorem updateOp_succeeds (h : Channel.Tracked { ch with events_ := old } p) :
    (epollCtl (updateOp ch) ch.fd_ ch.events_ p.epoll).isSome = true := by
  have hepoll := h.epoll
  simp only at hepoll
  cases hindex : ch.index_ with
  | kNew =>
      simp only [hindex] at hepoll
      simp [updateOp, hindex, epollCtl, hepoll]
  | kDeleted =>
      simp only [hindex] at hepoll
      simp [updateOp, hindex, epollCtl, hepoll]
  | kAdded =>
      simp only [hindex] at hepoll
      by_cases hnone : ch.isNoneEvent <;> simp [updateOp, hindex, hnone, epollCtl, hepoll]

theorem removeOp_succeeds (h : ch.Tracked p) {op : EpollOp} (hop : op ∈ removeOp ch) :
    (epollCtl op ch.fd_ ch.events_ p.epoll).isSome = true := by
  have hepoll := h.epoll
  by_cases hindex : ch.index_ = .kAdded
  · rw [removeOp, if_pos hindex, Option.mem_some_iff] at hop
    rw [if_pos hindex] at hepoll
    simp [← hop, epollCtl, hepoll]
  · rw [removeOp, if_neg hindex] at hop
    cases hop

end EPollPoller

namespace PolledChannels

variable {ι : Type u} {s : PolledChannels ι} {fd : ι ↪ ℕ} {address : ι → ℕ}

/-- The poller knows every channel as it knows itself, and no call of `epoll_ctl` has failed. -/
structure InStep (s : PolledChannels ι) (fd : ι ↪ ℕ) (address : ι → ℕ) : Prop where
  fd_ : ∀ i, (s.channels i).fd_ = fd i
  address : ∀ i, (s.channels i).address = address i
  tracked : ∀ i, (s.channels i).Tracked s.poller_
  running : s.poller_.aborted = false
  calls : ∀ c ∈ s.calls, c.2 = true

theorem inStep_initial (fd : ι ↪ ℕ) (address : ι → ℕ) : (initial fd address).InStep fd address where
  fd_ _ := rfl
  address _ := rfl
  tracked _ := ⟨rfl, rfl, rfl⟩
  running := rfl
  calls := by simp [initial]

variable [DecidableEq ι]

/-- One channel changes, and what the poller knows of its descriptor. -/
theorem InStep.change (h : s.InStep fd address) {i : ι} {p : EPollPoller} {ch : Channel}
    {new : List (EpollOp × Bool)} (hfd : ch.fd_ = fd i) (haddress : ch.address = address i)
    (htracked : ch.Tracked p) (hchannels : ∀ f, f ≠ fd i → p.channels_ f = s.poller_.channels_ f)
    (hepoll : ∀ f, f ≠ fd i → p.epoll f = s.poller_.epoll f) (hnew : ∀ c ∈ new, c.2 = true) :
    InStep { poller_ := p, channels := Function.update s.channels i ch, calls := s.calls ++ new }
      fd address := by
  refine ⟨fun j => ?_, fun j => ?_, fun j => ?_, htracked.running, fun c hc => ?_⟩
  · by_cases hj : j = i
    · simp only [hj, Function.update_self, hfd]
    · simp only [Function.update_of_ne hj, h.fd_ j]
  · by_cases hj : j = i
    · simp only [hj, Function.update_self, haddress]
    · simp only [Function.update_of_ne hj, h.address j]
  · by_cases hj : j = i
    · simp only [hj, Function.update_self]
      exact htracked
    · simp only [Function.update_of_ne hj]
      have hne : (s.channels j).fd_ ≠ fd i := by
        rw [h.fd_ j]
        exact fun heq => hj (fd.injective heq)
      constructor
      · rw [hchannels _ hne]
        exact (h.tracked j).channels
      · rw [hepoll _ hne]
        exact (h.tracked j).epoll
      · exact htracked.running
  · rcases List.mem_append.mp hc with hc | hc
    · exact h.calls c hc
    · exact hnew c hc

theorem InStep.update (h : s.InStep fd address) (i : ι) (events : Events) :
    (s.update i events).InStep fd address := by
  have htracked : Channel.Tracked
      { { s.channels i with events_ := events } with events_ := (s.channels i).events_ }
      s.poller_ := h.tracked i
  have hfd : ({ s.channels i with events_ := events } : Channel).fd_ = fd i := h.fd_ i
  have hcall := EPollPoller.updateOp_succeeds htracked
  refine h.change ((EPollPoller.updateChannel_fd_ _ _).trans hfd)
    ((EPollPoller.updateChannel_address _ _).trans (h.address i))
    (EPollPoller.updateChannel_tracked htracked) (fun f hf => ?_) (fun f hf => ?_) fun c hc => ?_
  · exact s.poller_.updateChannel_channels_of_ne (by rw [hfd]; exact hf)
  · exact s.poller_.updateChannel_epoll_of_ne (by rw [hfd]; exact hf)
  · rw [List.mem_singleton.mp hc]
    exact hcall

theorem InStep.remove (h : s.InStep fd address) (i : ι) : (s.remove i).InStep fd address := by
  apply h.change
  · exact h.fd_ i
  · exact h.address i
  · exact EPollPoller.removeChannel_tracked (h.tracked i)
  · exact fun f hf => s.poller_.removeChannel_channels_of_ne (by rw [h.fd_ i]; exact hf)
  · exact fun f hf => s.poller_.removeChannel_epoll_of_ne (by rw [h.fd_ i]; exact hf)
  · intro c hc
    obtain ⟨op, hop, rfl⟩ := List.mem_map.mp hc
    exact EPollPoller.removeOp_succeeds (h.tracked i) (Option.mem_toList.mp hop)

theorem InStep.next (h : s.InStep fd address) (a : ChannelAction ι) :
    (s.next a).InStep fd address := by
  cases a with
  | remove i => exact h.remove i
  | _ => exact h.update _ _

theorem inStep_run (fd : ι ↪ ℕ) (address : ι → ℕ) (as : List (ChannelAction ι)) :
    ((polledChannels ι).run (initial fd address) as).InStep fd address := by
  have hruns : (polledChannels ι).Runs (initial fd address) as :=
    (polledChannels ι).always_of_forall (fun _ _ => trivial) _ as
  exact (polledChannels ι).invariant_of_runs (I := fun s => s.InStep fd address)
    (fun _ a h _ => h.next a) (inStep_initial fd address) hruns

/-- After any operations on any channels of different descriptors the kernel watches a channel
exactly if its index is `kAdded`, with the events of the channel; `channels_` has the channel
exactly if its index is `kAdded` or `kDeleted`; and no call of `epoll_ctl` has failed. -/
theorem bookkeeping_run (fd : ι ↪ ℕ) (address : ι → ℕ) (as : List (ChannelAction ι)) :
    let s := (polledChannels ι).run (initial fd address) as
    (∀ i, (s.poller_.epoll (fd i) ≠ none ↔ (s.channels i).index_ = .kAdded) ∧
        ((s.channels i).index_ = .kAdded →
          s.poller_.epoll (fd i) = some (s.channels i).events_) ∧
        (s.poller_.channels_ (fd i) = some (address i) ↔
          (s.channels i).index_ = .kAdded ∨ (s.channels i).index_ = .kDeleted)) ∧
      (∀ c ∈ s.calls, c.2 = true) ∧ s.poller_.aborted = false := by
  intro s
  have h : s.InStep fd address := inStep_run fd address as
  refine ⟨fun i => ?_, h.calls, h.running⟩
  have hepoll := (h.tracked i).epoll
  have hchannels := (h.tracked i).channels
  rw [h.fd_ i] at hepoll hchannels
  rw [h.address i] at hchannels
  rw [hepoll, hchannels]
  cases (s.channels i).index_ <;> simp

end PolledChannels

end CkServer
