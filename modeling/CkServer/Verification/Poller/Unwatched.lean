import CkServer.Verification.Poller.Bookkeeping

/-! # Channels without interest

`updateChannel` takes a channel without interest out of the kernel's set if the channel is there.
If it is not, the channel is added with an empty mask, for which epoll still reports errors and
hang-ups. -/

namespace CkServer

universe u

theorem or_kReadEvent_ne (e : Events) : e ||| kReadEvent ≠ kNoneEvent := by
  intro h
  have hand := or_kReadEvent_and_kReadEvent e
  rw [h] at hand
  exact absurd hand (by decide)

theorem or_kWriteEvent_ne (e : Events) : e ||| kWriteEvent ≠ kNoneEvent := by
  intro h
  have hand := or_kWriteEvent_and_kWriteEvent e
  rw [h] at hand
  exact absurd hand (by decide)

namespace PolledChannels

variable {ι : Type u} {s : PolledChannels ι} {fd : ι ↪ ℕ} {address : ι → ℕ}

/-- The kernel watches no channel that has no interest. -/
def Unwatched (s : PolledChannels ι) : Prop :=
  ∀ i, (s.channels i).events_ = kNoneEvent → s.poller_.epoll (s.channels i).fd_ = none

/-- An operation that leaves a channel without interest finds it in the kernel's set. -/
def FindsAdded (s : PolledChannels ι) : ChannelAction ι → Prop
  | .disableReading i =>
      (s.channels i).events_ &&& ~~~kReadEvent = kNoneEvent → (s.channels i).index_ = .kAdded
  | .disableWriting i =>
      (s.channels i).events_ &&& ~~~kWriteEvent = kNoneEvent → (s.channels i).index_ = .kAdded
  | .disableAll i => (s.channels i).index_ = .kAdded
  | .enableReading _ | .enableWriting _ | .remove _ => True

theorem InStep.unseen_iff (h : s.InStep fd address) :
    s.Unwatched ↔ ∀ i, (s.channels i).events_ = kNoneEvent → (s.channels i).index_ ≠ .kAdded := by
  apply forall_congr'
  intro i
  rw [(h.tracked i).epoll]
  by_cases hindex : (s.channels i).index_ = .kAdded
  · simp [hindex]
  · simp [hindex]

variable [DecidableEq ι]

/-- The channels other than `i` keep their interests and their indices. -/
theorem unwatched_change {p : EPollPoller} {i : ι} {ch : Channel} {calls : List (EpollOp × Bool)}
    (h : s.InStep fd address) (hquiet : s.Unwatched)
    (hnext : InStep { poller_ := p, channels := Function.update s.channels i ch, calls := calls }
      fd address) :
    Unwatched { poller_ := p, channels := Function.update s.channels i ch, calls := calls } ↔
      (ch.events_ = kNoneEvent → ch.index_ ≠ .kAdded) := by
  rw [h.unseen_iff] at hquiet
  rw [hnext.unseen_iff]
  constructor
  · intro hall
    have hi := hall i
    simp only [Function.update_self] at hi
    exact hi
  · intro hi j
    by_cases hj : j = i
    · simp only [hj, Function.update_self]
      exact hi
    · simp only [Function.update_of_ne hj]
      exact hquiet j

theorem update_eq (s : PolledChannels ι) (i : ι) (events : Events) :
    s.update i events =
      { poller_ := (s.poller_.updateChannel { s.channels i with events_ := events }).1
        channels := Function.update s.channels i
          (s.poller_.updateChannel { s.channels i with events_ := events }).2
        calls := s.calls ++ [s.call { s.channels i with events_ := events }
          (EPollPoller.updateOp { s.channels i with events_ := events })] } := rfl

theorem InStep.unwatched_update (h : s.InStep fd address) (hquiet : s.Unwatched) (i : ι)
    (events : Events) :
    (s.update i events).Unwatched ↔
      (events = kNoneEvent → (s.channels i).index_ = .kAdded) := by
  have hnext := h.update i events
  rw [update_eq] at hnext ⊢
  rw [unwatched_change h hquiet hnext, EPollPoller.updateChannel_events_,
    EPollPoller.updateChannel_index_]
  apply imp_congr_right
  intro hnone
  have hevents : events = kNoneEvent := hnone
  by_cases hindex : (s.channels i).index_ = .kAdded
  · simp [hindex, hevents]
  · simp [hindex]

theorem InStep.unwatched_next (h : s.InStep fd address) (hquiet : s.Unwatched)
    (a : ChannelAction ι) : (s.next a).Unwatched ↔ s.FindsAdded a := by
  cases a with
  | enableReading i =>
      rw [PolledChannels.next, h.unwatched_update hquiet, FindsAdded, iff_true]
      exact fun hnone => absurd hnone (or_kReadEvent_ne _)
  | enableWriting i =>
      rw [PolledChannels.next, h.unwatched_update hquiet, FindsAdded, iff_true]
      exact fun hnone => absurd hnone (or_kWriteEvent_ne _)
  | disableReading i => exact h.unwatched_update hquiet i _
  | disableWriting i => exact h.unwatched_update hquiet i _
  | disableAll i =>
      rw [PolledChannels.next, h.unwatched_update hquiet, FindsAdded]
      exact ⟨fun hadded => hadded rfl, fun hadded _ => hadded⟩
  | remove i =>
      rw [FindsAdded, iff_true]
      apply (unwatched_change h hquiet (h.remove i)).mpr
      simp [Channel.setindex]

/-- In every run the kernel watches at no time a channel without interest, exactly if each
operation that leaves a channel without interest finds it in the kernel's set. -/
theorem unwatched_iff (fd : ι ↪ ℕ) (address : ι → ℕ) (as : List (ChannelAction ι)) :
    (∀ bs, bs <+: as → ((polledChannels ι).run (initial fd address) bs).Unwatched) ↔
      (polledChannels ι).Always FindsAdded (initial fd address) as := by
  have hinitial : (initial fd address).Unwatched := fun _ _ => rfl
  have hruns : (polledChannels ι).Runs (initial fd address) as :=
    (polledChannels ι).always_of_forall (fun _ _ => trivial) _ as
  exact (polledChannels ι).forall_prefix_iff_always
    (I := fun s => s.InStep fd address ∧ s.Unwatched)
    (fun _ a h _ hfinds => ⟨h.1.next a, (h.1.unwatched_next h.2 a).mpr hfinds⟩) (fun _ h => h.2)
    (fun _ a h _ hbad hnext => hbad ((h.1.unwatched_next h.2 a).mp hnext))
    ⟨inStep_initial fd address, hinitial⟩ hruns

/-- One channel. -/
def oneChannel : PolledChannels Unit := initial ⟨fun _ => 5, fun _ _ _ => rfl⟩ fun _ => 100

/-- `disableAll` on a channel that was never registered, and a second `disableAll`, put the
channel in the kernel's set with an empty mask. -/
theorem watched_disableAll :
    let fresh := (polledChannels Unit).run oneChannel [.disableAll ()]
    let once := (polledChannels Unit).run oneChannel [.enableReading (), .disableAll ()]
    let twice := (polledChannels Unit).run oneChannel
      [.enableReading (), .disableAll (), .disableAll ()]
    (fresh.channels ()).events_ = kNoneEvent ∧ fresh.poller_.epoll 5 = some kNoneEvent ∧
      once.poller_.epoll 5 = none ∧ (twice.channels ()).events_ = kNoneEvent ∧
      twice.poller_.epoll 5 = some kNoneEvent ∧ ¬ fresh.Unwatched ∧ ¬ twice.Unwatched := by
  intro fresh once twice
  refine ⟨by decide, by decide, by decide, by decide, by decide, fun h => ?_, fun h => ?_⟩
  · have hnone := h () (by decide)
    exact absurd hnone (by decide)
  · have hnone := h () (by decide)
    exact absurd hnone (by decide)

end PolledChannels

end CkServer
