import CkServer.Model.PollLoop
import CkServer.Verification.Poller.Unwatched
import Mathlib.Algebra.Group.Nat.Defs

/-! # The turns of the loop

A poll activates the channels whose descriptors have something to report. It leaves some of them
out only if they fill `events_`, and as `events_` grows then, that happens seldom. -/

namespace CkServer

universe u

/-! ## What is reported -/

/-- All interests a channel can have. -/
def kAllEvents : Events := kReadEvent ||| kWriteEvent

/-- The callbacks that the kernel's report asks for, in the order in which they are called. -/
def asked (revents : Events) : List EventCallback :=
  (if revents &&& EPOLLHUP ≠ 0#32 ∧ ¬ revents &&& EPOLLIN ≠ 0#32
    then [.closeCallback_] else []) ++
  (if revents &&& EPOLLERR ≠ 0#32 then [.errorCallback_] else []) ++
  (if revents &&& kReadEvent ≠ 0#32 then [.readCallback_] else []) ++
  (if revents &&& kWriteEvent ≠ 0#32 then [.writeCallback_] else [])

/-- The channel has the callback. -/
def Channel.has (ch : Channel) : EventCallback → Bool
  | .closeCallback_ => ch.closeCallback_
  | .errorCallback_ => ch.errorCallback_
  | .readCallback_ => ch.readCallback_
  | .writeCallback_ => ch.writeCallback_

theorem filter_ite_singleton {α : Type u} (p : α → Bool) (c : Prop) [Decidable c] (a : α) :
    (if c then [a] else []).filter p = if c then if p a then [a] else [] else [] := by
  by_cases hc : c
  · rw [if_pos hc, if_pos hc, List.filter_cons, List.filter_nil]
  · rw [if_neg hc, if_neg hc, List.filter_nil]

theorem Channel.handleEventWithGuard_eq (ch : Channel) :
    ch.handleEventWithGuard = (asked ch.revents_).filter ch.has := by
  simp only [asked, List.filter_append, filter_ite_singleton]
  rfl

/-- A channel that is tied to an owner which is gone calls nothing. -/
theorem Channel.handleEvent_eq (ch : Channel) (guard : Bool) :
    ch.handleEvent guard =
      if ch.tied_ = true ∧ guard = false then [] else (asked ch.revents_).filter ch.has := by
  rw [Channel.handleEvent, Channel.handleEventWithGuard_eq]
  cases ch.tied_ <;> cases guard <;> simp

/-- Only errors and hang-ups come without interest. -/
theorem reported_and {condition interest mask : Events}
    (hmask : mask &&& (EPOLLERR ||| EPOLLHUP) = 0#32)
    (h : reported condition interest &&& mask ≠ 0#32) : interest &&& mask ≠ 0#32 := by
  intro hnone
  apply h
  rw [reported, BitVec.and_assoc, BitVec.or_assoc, BitVec.and_or_distrib_right, hnone,
    BitVec.zero_or, BitVec.and_comm (EPOLLERR ||| EPOLLHUP), hmask, BitVec.and_zero]

theorem readCallback_mem {revents : Events} :
    .readCallback_ ∈ asked revents ↔ revents &&& kReadEvent ≠ 0#32 := by
  simp [asked]

theorem writeCallback_mem {revents : Events} :
    .writeCallback_ ∈ asked revents ↔ revents &&& kWriteEvent ≠ 0#32 := by
  simp [asked]

theorem and_all_or {e mask : Events} (h : e &&& kAllEvents = e)
    (hmask : mask &&& kAllEvents = mask) : (e ||| mask) &&& kAllEvents = e ||| mask := by
  rw [BitVec.and_or_distrib_right, h, hmask]

theorem and_all_and {e : Events} (h : e &&& kAllEvents = e) (mask : Events) :
    e &&& mask &&& kAllEvents = e &&& mask := by
  rw [BitVec.and_assoc, BitVec.and_comm mask, ← BitVec.and_assoc, h]

theorem reported_and_all {condition interest : Events} (h : interest &&& kAllEvents = interest) :
    reported condition interest &&& (kAllEvents ||| EPOLLERR ||| EPOLLHUP) =
      reported condition interest := by
  have hsub : (interest ||| EPOLLERR ||| EPOLLHUP) &&& (kAllEvents ||| EPOLLERR ||| EPOLLHUP) =
      interest ||| EPOLLERR ||| EPOLLHUP := by
    ext i hi
    have hbit := congrArg (fun e : Events => e[i]) h
    simp only [BitVec.getElem_and] at hbit
    simp only [BitVec.getElem_and, BitVec.getElem_or, Bool.and_eq_left_iff_imp, Bool.or_eq_true]
    cases hx : interest[i] with
    | false =>
        exact fun hor => hor.imp_left fun herr => .inr (herr.resolve_left Bool.false_ne_true)
    | true =>
        rw [hx] at hbit
        simp [show kAllEvents[i] = true by simpa using hbit]
  rw [reported, BitVec.and_assoc, hsub]

/-- Something that is reported asks for a callback. -/
theorem asked_ne_nil {condition interest revents : Events}
    (hinterest : interest &&& kAllEvents = interest)
    (hrevents : revents = reported condition interest) (hne : revents ≠ 0#32) :
    asked revents ≠ [] := by
  intro hnil
  apply hne
  rw [asked] at hnil
  simp only [List.append_eq_nil_iff, ite_eq_right_iff, List.cons_ne_nil, imp_false, not_and,
    not_not] at hnil
  obtain ⟨⟨⟨hclose, herror⟩, hread⟩, hwrite⟩ := hnil
  have hin : revents &&& EPOLLIN = 0#32 := by
    have hsplit := hread
    rw [kReadEvent, BitVec.and_or_distrib_left, BitVec.or_eq_zero_iff] at hsplit
    exact hsplit.1
  have hhup : revents &&& EPOLLHUP = 0#32 := by
    by_contra hhup
    exact hclose hhup hin
  have hall : revents &&& (kAllEvents ||| EPOLLERR ||| EPOLLHUP) = revents := by
    rw [hrevents]
    exact reported_and_all hinterest
  rw [← hall, kAllEvents, BitVec.and_or_distrib_left, BitVec.and_or_distrib_left,
    BitVec.and_or_distrib_left, hread, hwrite, herror, hhup]
  decide

/-! ## The loop and its poller -/

/-- `updateChannel` sets the index. -/
theorem EPollPoller.updateChannel_snd (p : EPollPoller) (ch : Channel) :
    ∃ index, (p.updateChannel ch).2 = ch.setindex index := by
  simp only [updateChannel]
  split
  · exact ⟨_, rfl⟩
  · exact ⟨_, rfl⟩
  · split
    · exact ⟨_, rfl⟩
    · exact ⟨ch.index_, rfl⟩

theorem EPollPoller.updateOp_eq_del_iff (ch : Channel) :
    updateOp ch = .EPOLL_CTL_DEL ↔ ch.index_ = .kAdded ∧ ch.events_ = kNoneEvent := by
  cases hindex : ch.index_ with
  | kNew => simp [updateOp, hindex]
  | kDeleted => simp [updateOp, hindex]
  | kAdded =>
      by_cases hnone : ch.events_ = kNoneEvent <;>
        simp [updateOp, hindex, Channel.isNoneEvent, hnone]

/-- An operation of a channel writes its interests and its index, and nothing else. -/
theorem PolledChannels.channels_next {ι : Type u} [DecidableEq ι] (s : PolledChannels ι)
    (a : ChannelAction ι) (j : ι) : ∃ events index,
      (s.next a).channels j = { s.channels j with events_ := events, index_ := index } := by
  have hupdate (i : ι) (events : Events) : ∃ events' index,
      (s.update i events).channels j =
        { s.channels j with events_ := events', index_ := index } := by
    rw [PolledChannels.update_eq]
    by_cases hji : j = i
    · subst hji
      obtain ⟨index, hindex⟩ :=
        s.poller_.updateChannel_snd { s.channels j with events_ := events }
      exact ⟨events, index, by simp [hindex, Channel.setindex]⟩
    · exact ⟨(s.channels j).events_, (s.channels j).index_, by simp [hji]⟩
  cases a with
  | remove i =>
      by_cases hji : j = i
      · subst hji
        refine ⟨(s.channels j).events_, .kNew, ?_⟩
        simp [PolledChannels.next, PolledChannels.remove, EPollPoller.removeChannel,
          Channel.setindex]
      · refine ⟨(s.channels j).events_, (s.channels j).index_, ?_⟩
        simp [PolledChannels.next, PolledChannels.remove, hji]
  | _ => exact hupdate _ _

namespace PollLoop

variable {ι : Type u} {s : PollLoop ι} {fd : ι ↪ ℕ} {address : ι → ℕ} {tied : ι → Bool}
  {has : ι → EventCallback → Bool} {condition : ℕ → Events}

/-- The loop's poller and the kernel know the channels, and the channels that have been handled
are the first of those that are active. -/
structure InTurn (s : PollLoop ι) (fd : ι ↪ ℕ) (address : ι → ℕ) (tied : ι → Bool)
    (has : ι → EventCallback → Bool) : Prop where
  polled : s.polled.InStep fd address
  watched : ∀ f, s.polled.poller_.epoll f ≠ none → ∃ i, fd i = f ∧ s.data f = some i
  events_ : ∀ i, (s.polled.channels i).events_ &&& kAllEvents = (s.polled.channels i).events_
  tied_ : ∀ i, (s.polled.channels i).tied_ = tied i
  has : ∀ i, (s.polled.channels i).has = has i
  handled : s.handled.map Handling.channel = s.activeChannels_.take s.handled.length
  called : ∀ e ∈ s.handled, e.called = (s.polled.channels e.channel).handleEvent e.guard
  size_eq : s.size = kInitEventListSize * 2 ^ s.full

theorem inTurn_initial (fd : ι ↪ ℕ) (address : ι → ℕ) (tied : ι → Bool)
    (has : ι → EventCallback → Bool) :
    (initial fd address tied has).InTurn fd address tied has where
  polled := {
    fd_ := fun _ => rfl
    address := fun _ => rfl
    tracked := fun _ => ⟨rfl, rfl, rfl⟩
    running := rfl
    calls := by simp [initial] }
  watched _ hwatched := absurd rfl hwatched
  events_ _ := show kNoneEvent &&& kAllEvents = kNoneEvent by decide
  tied_ _ := rfl
  has i := by
    funext cb
    cases cb <;> rfl
  handled := rfl
  called := by simp [initial]
  size_eq := rfl

theorem InTurn.epoll_eq (h : s.InTurn fd address tied has) (i : ι) :
    s.polled.poller_.epoll (fd i) =
      if (s.polled.channels i).index_ = .kAdded then some (s.polled.channels i).events_
      else none := by
  have hepoll := (h.polled.tracked i).epoll
  rwa [h.polled.fd_ i] at hepoll

theorem InTurn.report_eq (h : s.InTurn fd address tied has) (condition : ℕ → Events) (i : ι) :
    s.report condition (fd i) =
      if (s.polled.channels i).index_ = .kAdded
      then reported (condition (fd i)) (s.polled.channels i).events_ else 0#32 := by
  rw [report, h.epoll_eq i]
  split_ifs <;> rfl

/-- What epoll reports on belongs to a channel that is added. -/
theorem InTurn.of_report (h : s.InTurn fd address tied has) {f : ℕ}
    (hreport : s.report condition f ≠ 0#32) : ∃ i, fd i = f ∧ s.data f = some i := by
  refine h.watched f fun hnone => hreport ?_
  rw [report, hnone]

theorem InTurn.size_pos (h : s.InTurn fd address tied has) : 0 < s.size := by
  rw [h.size_eq]
  exact Nat.mul_pos (by decide) (Nat.two_pow_pos _)

theorem InTurn.added_of_report (h : s.InTurn fd address tied has) {i : ι}
    (hreport : s.report condition (fd i) ≠ 0#32) : (s.polled.channels i).index_ = .kAdded := by
  by_contra hne
  exact hreport ((h.report_eq condition i).trans (if_neg hne))

/-- The kernel gets the channel with every interest that it gets. -/
theorem InTurn.store_eq (h : s.InTurn fd address tied has) (i : ι) (events : Events) :
    s.store i events =
      if (s.polled.channels i).index_ = .kAdded ∧ events = kNoneEvent then s.data
      else Function.update s.data (fd i) (some i) := by
  let ch := { s.polled.channels i with events_ := events }
  have htracked : Channel.Tracked { ch with events_ := (s.polled.channels i).events_ }
      s.polled.poller_ := h.polled.tracked i
  have hsucceeds : (s.polled.call ch (EPollPoller.updateOp ch)).2 = true :=
    EPollPoller.updateOp_succeeds htracked
  have hfd : ch.fd_ = fd i := h.polled.fd_ i
  have hdel : EPollPoller.updateOp ch = .EPOLL_CTL_DEL ↔
      (s.polled.channels i).index_ = .kAdded ∧ events = kNoneEvent :=
    EPollPoller.updateOp_eq_del_iff ch
  have hstore : s.store i events =
      if EPollPoller.updateOp ch ≠ .EPOLL_CTL_DEL ∧
        (s.polled.call ch (EPollPoller.updateOp ch)).2 = true
      then Function.update s.data ch.fd_ (some i) else s.data := rfl
  rw [hstore, hfd]
  by_cases hnone : (s.polled.channels i).index_ = .kAdded ∧ events = kNoneEvent
  · rw [if_pos hnone, if_neg (by simp [hdel.mpr hnone])]
  · rw [if_neg hnone, if_pos ⟨fun heq => hnone (hdel.mp heq), hsucceeds⟩]

theorem InTurn.exists_map (h : s.InTurn fd address tied has) {ready : List ℕ}
    (hreports : ∀ f ∈ ready, s.report condition f ≠ 0#32) :
    ∃ is : List ι, ready = is.map fd ∧ ∀ i ∈ is, s.data (fd i) = some i := by
  induction ready with
  | nil => exact ⟨[], rfl, by simp⟩
  | cons f ready ih =>
      obtain ⟨i, rfl, hdata⟩ := h.of_report (hreports f (by simp))
      obtain ⟨is, rfl, his⟩ := ih fun f hf => hreports f (by simp [hf])
      exact ⟨i :: is, rfl, by simpa using ⟨hdata, his⟩⟩

theorem InTurn.clear (h : s.InTurn fd address tied has) : s.clear.InTurn fd address tied has where
  polled := h.polled
  watched := h.watched
  events_ := h.events_
  tied_ := h.tied_
  has := h.has
  handled := rfl
  called := by simp [PollLoop.clear]
  size_eq := h.size_eq

theorem InTurn.handleEvent (h : s.InTurn fd address tied has)
    (hen : s.handled.length < s.activeChannels_.length) (guard : Bool) :
    (s.handleEvent guard).InTurn fd address tied has := by
  have hget : s.activeChannels_[s.handled.length]? = some s.activeChannels_[s.handled.length] :=
    List.getElem?_eq_getElem hen
  rw [PollLoop.handleEvent, hget]
  refine ⟨h.polled, h.watched, h.events_, h.tied_, h.has, ?_, ?_, h.size_eq⟩
  · rw [List.length_append, List.length_singleton, List.take_succ_eq_append_getElem hen,
      List.map_append, h.handled]
    rfl
  · intro e he
    rcases List.mem_append.mp he with hold | hnew
    · exact h.called e hold
    · rw [List.mem_singleton.mp hnew]

variable [DecidableEq ι]

/-- The revents of the channels `is` are those of a report. -/
def marked (s : PollLoop ι) (fd : ι ↪ ℕ) (condition : ℕ → Events) (is : List ι) (i : ι) : Channel :=
  if i ∈ is then (s.polled.channels i).set_revents (s.report condition (fd i))
  else s.polled.channels i

theorem fillActiveChannel_map (is : List ι) (hdata : ∀ i ∈ is, s.data (fd i) = some i) :
    s.fillActiveChannel condition (is.map fd) =
      { s with
        polled := { s.polled with channels := s.marked fd condition is }
        activeChannels_ := s.activeChannels_ ++ is } := by
  induction is generalizing s with
  | nil =>
      have hnone : s.marked fd condition [] = s.polled.channels := by
        funext j
        simp [marked]
      simp [fillActiveChannel, hnone]
  | cons i is ih =>
      have hfill : s.fill condition (fd i) =
          { s with
            polled := { s.polled with
              channels := Function.update s.polled.channels i
                ((s.polled.channels i).set_revents (s.report condition (fd i))) }
            activeChannels_ := s.activeChannels_ ++ [i] } := by
        rw [fill, hdata i (by simp)]
      have hrest := ih (s := s.fill condition (fd i))
        (by rw [hfill]; exact fun j hj => hdata j (by simp [hj]))
      have hmarked : (s.fill condition (fd i)).marked fd condition is =
          s.marked fd condition (i :: is) := by
        funext j
        rw [hfill]
        by_cases hji : j = i
        · subst hji
          by_cases hj : j ∈ is <;> simp [marked, hj, Channel.set_revents, report]
        · by_cases hj : j ∈ is <;> simp [marked, hj, hji, report]
      rw [hmarked, hfill] at hrest
      rw [fillActiveChannel, List.map_cons, List.foldl_cons, hfill]
      refine hrest.trans ?_
      simp

/-- The state after a poll that has stored the descriptors of the channels `is`. -/
def polledState (s : PollLoop ι) (fd : ι ↪ ℕ) (condition : ℕ → Events) (is : List ι) :
    PollLoop ι where
  polled := { s.polled with channels := s.marked fd condition is }
  data := s.data
  size := if is.length = s.size then s.size * 2 else s.size
  activeChannels_ := is
  full := if is.length = s.size then s.full + 1 else s.full

theorem InTurn.poll_eq (h : s.InTurn fd address tied has) {ready : List ℕ}
    (hreports : ∀ f ∈ ready, s.report condition f ≠ 0#32) :
    ∃ is : List ι, ready = is.map fd ∧ s.poll condition ready = s.polledState fd condition is := by
  obtain ⟨is, rfl, hdata⟩ := h.exists_map hreports
  refine ⟨is, rfl, ?_⟩
  have hfill : s.clear.fillActiveChannel condition (is.map fd) = _ :=
    fillActiveChannel_map is hdata
  rw [poll, hfill, List.length_map]
  by_cases hlen : is.length = s.size
  · have hpos : is.length > 0 := hlen ▸ h.size_pos
    rw [if_pos hpos]
    simp only [PollLoop.clear, hlen, if_true, PollLoop.polledState, List.nil_append]
    rfl
  · by_cases hnone : is = []
    · subst hnone
      have hmarked : s.marked fd condition [] = s.polled.channels := by
        funext j
        simp [marked]
      rw [List.length_nil] at hlen
      simp [PollLoop.clear, PollLoop.polledState, hlen, hmarked]
    · rw [if_pos (List.length_pos_iff.mpr hnone)]
      simp only [PollLoop.clear, hlen, if_false, PollLoop.polledState, List.nil_append]
      rfl

/-! ## The steps -/

section Marked

variable (s : PollLoop ι) (fd : ι ↪ ℕ) (condition : ℕ → Events) (is : List ι) (i : ι)

@[simp] theorem marked_fd_ : (s.marked fd condition is i).fd_ = (s.polled.channels i).fd_ := by
  unfold marked
  split <;> rfl

@[simp] theorem marked_address :
    (s.marked fd condition is i).address = (s.polled.channels i).address := by
  unfold marked
  split <;> rfl

@[simp] theorem marked_index_ :
    (s.marked fd condition is i).index_ = (s.polled.channels i).index_ := by
  unfold marked
  split <;> rfl

@[simp] theorem marked_events_ :
    (s.marked fd condition is i).events_ = (s.polled.channels i).events_ := by
  unfold marked
  split <;> rfl

@[simp] theorem marked_tied_ :
    (s.marked fd condition is i).tied_ = (s.polled.channels i).tied_ := by
  unfold marked
  split <;> rfl

@[simp] theorem marked_has : (s.marked fd condition is i).has = (s.polled.channels i).has := by
  unfold marked
  split
  · funext cb
    cases cb <;> rfl
  · rfl

end Marked

theorem InTurn.polledState (h : s.InTurn fd address tied has) (condition : ℕ → Events)
    (is : List ι) : (s.polledState fd condition is).InTurn fd address tied has where
  polled := {
    fd_ := fun i => (marked_fd_ s fd condition is i).trans (h.polled.fd_ i)
    address := fun i => (marked_address s fd condition is i).trans (h.polled.address i)
    tracked := fun i => by
      obtain ⟨hchannels, hepoll, hrunning⟩ := h.polled.tracked i
      constructor
      · simpa [PollLoop.polledState] using hchannels
      · simpa [PollLoop.polledState] using hepoll
      · exact hrunning
    running := h.polled.running
    calls := h.polled.calls }
  watched := h.watched
  events_ i := by simpa [PollLoop.polledState] using h.events_ i
  tied_ i := by simpa [PollLoop.polledState] using h.tied_ i
  has i := by simpa [PollLoop.polledState] using h.has i
  handled := rfl
  called := by simp [PollLoop.polledState]
  size_eq := by
    simp only [PollLoop.polledState]
    split_ifs
    · rw [h.size_eq, Nat.pow_succ, Nat.mul_assoc]
    · exact h.size_eq

theorem InTurn.watched_update (h : s.InTurn fd address tied has) (i : ι) (events : Events) (f : ℕ)
    (hwatched : (s.polled.update i events).poller_.epoll f ≠ none) :
    ∃ j, fd j = f ∧ s.store i events f = some j := by
  let ch := { s.polled.channels i with events_ := events }
  have hfd : ch.fd_ = fd i := h.polled.fd_ i
  rw [h.store_eq i events]
  by_cases hf : f = fd i
  · subst hf
    have hepoll := ((h.polled.update i events).tracked i).epoll
    rw [(h.polled.update i events).fd_ i] at hepoll
    have hindex : ((s.polled.update i events).channels i).index_ = .kAdded := by
      by_contra hne
      rw [if_neg hne] at hepoll
      exact hwatched hepoll
    have hkept : ¬ ((s.polled.channels i).index_ = .kAdded ∧ events = kNoneEvent) := by
      intro hnone
      have hdeleted := EPollPoller.updateChannel_index_ s.polled.poller_ ch
      rw [if_pos hnone] at hdeleted
      rw [PolledChannels.update_eq] at hindex
      simp only [Function.update_self] at hindex
      rw [hdeleted] at hindex
      cases hindex
    exact ⟨i, rfl, by rw [if_neg hkept, Function.update_self]⟩
  · have hsame : (s.polled.update i events).poller_.epoll f = s.polled.poller_.epoll f :=
      s.polled.poller_.updateChannel_epoll_of_ne (by rw [hfd]; exact hf)
    rw [hsame] at hwatched
    obtain ⟨j, hj, hdata⟩ := h.watched f hwatched
    refine ⟨j, hj, ?_⟩
    split_ifs
    · exact hdata
    · rw [Function.update_of_ne hf, hdata]

theorem InTurn.watched_operate (h : s.InTurn fd address tied has) (a : ChannelAction ι) (f : ℕ)
    (hwatched : (s.polled.next a).poller_.epoll f ≠ none) :
    ∃ j, fd j = f ∧ s.dataAfter a f = some j := by
  cases a with
  | remove i =>
      have hfd := h.polled.fd_ i
      by_cases hf : f = fd i
      · subst hf
        have hepoll := ((h.polled.remove i).tracked i).epoll
        rw [(h.polled.remove i).fd_ i] at hepoll
        refine absurd (hepoll.trans (if_neg ?_)) hwatched
        simp [PolledChannels.remove, EPollPoller.removeChannel, Channel.setindex]
      · have hsame : (s.polled.remove i).poller_.epoll f = s.polled.poller_.epoll f :=
          s.polled.poller_.removeChannel_epoll_of_ne (by rw [hfd]; exact hf)
        exact h.watched f (hsame ▸ hwatched)
  | _ => exact h.watched_update _ _ f hwatched

theorem InTurn.events_update (h : s.InTurn fd address tied has) (i : ι) {events : Events}
    (hevents : events &&& kAllEvents = events) (j : ι) :
    ((s.polled.update i events).channels j).events_ &&& kAllEvents =
      ((s.polled.update i events).channels j).events_ := by
  rw [PolledChannels.update_eq]
  by_cases hji : j = i
  · simp only [hji, Function.update_self, EPollPoller.updateChannel_events_]
    exact hevents
  · simp only [Function.update_of_ne hji]
    exact h.events_ j

theorem InTurn.events_operate (h : s.InTurn fd address tied has) (a : ChannelAction ι) (j : ι) :
    ((s.polled.next a).channels j).events_ &&& kAllEvents =
      ((s.polled.next a).channels j).events_ := by
  cases a with
  | enableReading i => exact h.events_update i (and_all_or (h.events_ i) (by decide)) j
  | enableWriting i => exact h.events_update i (and_all_or (h.events_ i) (by decide)) j
  | disableReading i => exact h.events_update i (and_all_and (h.events_ i) _) j
  | disableWriting i => exact h.events_update i (and_all_and (h.events_ i) _) j
  | disableAll i => exact h.events_update i (by decide) j
  | remove i =>
      by_cases hji : j = i
      · subst hji
        simpa [PolledChannels.next, PolledChannels.remove, EPollPoller.removeChannel,
          Channel.setindex] using h.events_ j
      · simpa [PolledChannels.next, PolledChannels.remove, hji] using h.events_ j

theorem InTurn.operate (h : s.InTurn fd address tied has) (a : ChannelAction ι) :
    (s.next (.operate a)).InTurn fd address tied has := by
  have hsame (i : ι) : ((s.polled.next a).channels i).tied_ = (s.polled.channels i).tied_ ∧
      ((s.polled.next a).channels i).has = (s.polled.channels i).has ∧
      ∀ guard, ((s.polled.next a).channels i).handleEvent guard =
        (s.polled.channels i).handleEvent guard := by
    obtain ⟨events, index, hchannel⟩ := s.polled.channels_next a i
    rw [hchannel]
    exact ⟨rfl, rfl, fun _ => rfl⟩
  refine ⟨h.polled.next a, h.watched_operate a, h.events_operate a, ?_, ?_, h.handled, ?_,
    h.size_eq⟩
  · exact fun i => (hsame i).1.trans (h.tied_ i)
  · exact fun i => (hsame i).2.1.trans (h.has i)
  · exact fun e he => (h.called e he).trans ((hsame e.channel).2.2 e.guard).symm

theorem InTurn.next (h : s.InTurn fd address tied has) {a : PollLoopAction ι} (hen : s.enabled a) :
    (s.next a).InTurn fd address tied has := by
  cases a with
  | poll condition ready =>
      obtain ⟨is, -, hpoll⟩ := h.poll_eq hen.2.reports
      rw [PollLoop.next, hpoll]
      exact h.polledState condition is
  | interrupted => exact h.clear
  | handleEvent guard => exact h.handleEvent hen guard
  | operate a => exact h.operate a

/-! ## Runs -/

/-- No more than `n` channels are in the kernel's set. -/
def AtMost (s : PollLoop ι) (n : ℕ) : Prop :=
  ∀ is : List ι, is.Nodup → (∀ i ∈ is, (s.polled.channels i).index_ = .kAdded) → is.length ≤ n

/-- What a poll makes of the state `s`. -/
structure Turn (s s' : PollLoop ι) (condition : ℕ → Events) : Prop where
  nodup : s'.activeChannels_.Nodup
  added : ∀ i ∈ s'.activeChannels_, (s.polled.channels i).index_ = .kAdded
  revents_ : ∀ i ∈ s'.activeChannels_, (s'.polled.channels i).revents_ =
    reported (condition (s.polled.channels i).fd_) (s.polled.channels i).events_
  asks : ∀ i ∈ s'.activeChannels_, asked (s'.polled.channels i).revents_ ≠ []
  reading : ∀ i ∈ s'.activeChannels_, .readCallback_ ∈ asked (s'.polled.channels i).revents_ →
    (s.polled.channels i).isReading = true
  writing : ∀ i ∈ s'.activeChannels_, .writeCallback_ ∈ asked (s'.polled.channels i).revents_ →
    (s.polled.channels i).isWriting = true
  complete : s'.full = s.full → ∀ i, (s.polled.channels i).index_ = .kAdded →
    reported (condition (s.polled.channels i).fd_) (s.polled.channels i).events_ ≠ 0#32 →
      i ∈ s'.activeChannels_

/-- A poll reports, and no other step changes what has been reported. -/
def Reports (s : PollLoop ι) : PollLoopAction ι → Prop
  | .poll condition ready => Turn s (s.poll condition ready) condition
  | a => ∀ i, ((s.next a).polled.channels i).revents_ = (s.polled.channels i).revents_

theorem InTurn.turn (h : s.InTurn fd address tied has) {ready : List ℕ}
    (hw : s.Waited condition ready) : Turn s (s.poll condition ready) condition := by
  obtain ⟨is, rfl, hpoll⟩ := h.poll_eq hw.reports
  have hreports : ∀ i ∈ is, s.report condition (fd i) ≠ 0#32 := fun i hi =>
    hw.reports _ (List.mem_map_of_mem hi)
  have hadded : ∀ i ∈ is, (s.polled.channels i).index_ = .kAdded := fun i hi =>
    h.added_of_report (hreports i hi)
  have hreport : ∀ i ∈ is, s.report condition (fd i) =
      reported (condition (s.polled.channels i).fd_) (s.polled.channels i).events_ := by
    intro i hi
    rw [h.report_eq, if_pos (hadded i hi), h.polled.fd_ i]
  have hrevents : ∀ i ∈ is, ((s.polledState fd condition is).polled.channels i).revents_ =
      reported (condition (s.polled.channels i).fd_) (s.polled.channels i).events_ := by
    intro i hi
    rw [← hreport i hi]
    simp [PollLoop.polledState, marked, hi, Channel.set_revents]
  rw [hpoll]
  refine ⟨hw.nodup.of_map _, hadded, hrevents, ?_, ?_, ?_, ?_⟩
  · intro i hi
    refine asked_ne_nil (h.events_ i) (hrevents i hi) ?_
    rw [hrevents i hi, ← hreport i hi]
    exact hreports i hi
  · intro i hi hread
    rw [readCallback_mem, hrevents i hi] at hread
    simpa [Channel.isReading] using reported_and (by decide) hread
  · intro i hi hwrite
    rw [writeCallback_mem, hrevents i hi] at hwrite
    simpa [Channel.isWriting] using reported_and (by decide) hwrite
  · intro hfull i hindex hne
    have hroom : is.length < s.size := by
      refine Nat.lt_of_le_of_ne (by simpa using hw.length_le) fun heq => ?_
      simp [PollLoop.polledState, heq] at hfull
    have hready : fd i ∈ is.map fd := by
      refine hw.complete (by simpa using hroom) (fd i) ?_
      rw [h.report_eq, if_pos hindex, ← h.polled.fd_ i]
      exact hne
    exact (List.mem_map_of_injective fd.injective).mp hready

theorem InTurn.reports (h : s.InTurn fd address tied has) {a : PollLoopAction ι}
    (hen : s.enabled a) : s.Reports a := by
  cases a with
  | poll condition ready => exact h.turn hen.2
  | interrupted => exact fun _ => rfl
  | operate a =>
      intro i
      obtain ⟨events, index, hchannel⟩ := s.polled.channels_next a i
      simp only [PollLoop.next, hchannel]
  | handleEvent guard =>
      intro i
      rw [PollLoop.next, PollLoop.handleEvent, List.getElem?_eq_getElem hen]

/-- A poll that fills `events_` has found so many channels. -/
theorem InTurn.size_le_next (h : s.InTurn fd address tied has) {n : ℕ}
    (hsize : s.size ≤ max kInitEventListSize (2 * n)) {a : PollLoopAction ι} (hen : s.enabled a)
    (hmost : s.AtMost n) :
    (s.next a).size ≤ max kInitEventListSize (2 * n) := by
  cases a with
  | interrupted => exact hsize
  | operate a => exact hsize
  | handleEvent guard =>
      rw [PollLoop.next, PollLoop.handleEvent, List.getElem?_eq_getElem hen]
      exact hsize
  | poll condition ready =>
      obtain ⟨is, rfl, hpoll⟩ := h.poll_eq hen.2.reports
      have hle : is.length ≤ n := hmost is (hen.2.nodup.of_map _) fun i hi =>
        h.added_of_report (hen.2.reports _ (List.mem_map_of_mem hi))
      rw [PollLoop.next, hpoll, PollLoop.polledState]
      simp only
      split_ifs
      · omega
      · exact hsize

/-- In every run in which no more than `n` channels are in the kernel's set, the size of `events_`
is bounded by that, so that few polls fill it. Every other poll activates exactly the channels that
epoll has something to report of, which always asks for a callback. The channels are handled in
their order. A channel that is tied to an owner which is gone calls nothing, and every other one
calls those callbacks that the poll's report asks for and that it has. -/
theorem turns_of_runs (fd : ι ↪ ℕ) (address : ι → ℕ) (tied : ι → Bool)
    (has : ι → EventCallback → Bool) (n : ℕ) {as : List (PollLoopAction ι)}
    (hruns : (pollLoop ι).Runs (initial fd address tied has) as)
    (hmost : (pollLoop ι).Always (fun s _ => s.AtMost n) (initial fd address tied has) as) :
    let s := (pollLoop ι).run (initial fd address tied has) as
    s.size = kInitEventListSize * 2 ^ s.full ∧ s.size ≤ max kInitEventListSize (2 * n) ∧
      s.handled.map Handling.channel = s.activeChannels_.take s.handled.length ∧
      (∀ e ∈ s.handled, e.called =
        if tied e.channel = true ∧ e.guard = false then []
        else (asked (s.polled.channels e.channel).revents_).filter (has e.channel)) ∧
      (pollLoop ι).Always Reports (initial fd address tied has) as := by
  intro s
  have hstep : ∀ (s : PollLoop ι) a,
      s.InTurn fd address tied has ∧ s.size ≤ max kInitEventListSize (2 * n) → s.enabled a →
        s.AtMost n →
          (s.next a).InTurn fd address tied has ∧
            (s.next a).size ≤ max kInitEventListSize (2 * n) :=
    fun s a h hen hmost => ⟨h.1.next hen, h.1.size_le_next h.2 hen hmost⟩
  have hinitial : (initial fd address tied has).InTurn fd address tied has ∧
      (initial fd address tied has).size ≤ max kInitEventListSize (2 * n) :=
    ⟨inTurn_initial fd address tied has, Nat.le_max_left _ _⟩
  have h : s.InTurn fd address tied has ∧ s.size ≤ max kInitEventListSize (2 * n) :=
    (pollLoop ι).invariant hstep hinitial hruns hmost
  refine ⟨h.1.size_eq, h.2, h.1.handled, ?_, (pollLoop ι).always_of_invariant hstep
    (fun s a hs hen _ => hs.1.reports hen) hinitial hruns hmost⟩
  intro e he
  rw [h.1.called e he, Channel.handleEvent_eq, h.1.tied_, h.1.has]

/-- One channel, for the descriptor 5, which has only the callback for reading. -/
def oneLoop : PollLoop Unit :=
  initial ⟨fun _ => 5, fun _ _ _ => rfl⟩ (fun _ => 100) (fun _ => false)
    fun _ cb => cb = .readCallback_

/-- The channel becomes readable with an error, is handled, and loses its interest. Then there is
nothing to report of it. -/
theorem turns_oneReadable :
    let as : List (PollLoopAction Unit) := [.operate (.enableReading ()),
      .poll (fun _ => EPOLLIN ||| EPOLLERR) [5], .handleEvent false, .operate (.disableAll ()),
      .poll (fun _ => EPOLLIN) []]
    let s := (pollLoop Unit).run oneLoop as
    s.size = kInitEventListSize * 2 ^ s.full ∧ s.size ≤ max kInitEventListSize (2 * 1) ∧
      s.handled.map Handling.channel = s.activeChannels_.take s.handled.length ∧
      (∀ e ∈ s.handled, e.called =
        if false = true ∧ e.guard = false then []
        else (asked (s.polled.channels e.channel).revents_).filter (· = .readCallback_)) ∧
      (pollLoop Unit).Always Reports oneLoop as := by
  intro as
  have hmost (s : PollLoop Unit) : s.AtMost 1 := by
    intro is hnodup _
    match is, hnodup with
    | [], _ => exact Nat.zero_le 1
    | [_], _ => exact Nat.le_refl 1
    | _ :: _ :: _, hnodup => simp at hnodup
  have hother (s : PollLoop Unit) (condition : ℕ → Events)
      (h : s.InTurn ⟨fun _ => 5, fun _ _ _ => rfl⟩ (fun _ => 100) (fun _ => false)
        fun _ cb => cb = .readCallback_) {f : ℕ}
      (hreport : s.report condition f ≠ 0#32) : f = 5 := by
    obtain ⟨_, hf, -⟩ := h.of_report hreport
    exact hf.symm
  have hinitial := inTurn_initial (⟨fun _ => 5, fun _ _ _ => rfl⟩ : Unit ↪ ℕ) (fun _ => 100)
    (fun _ => false) fun _ cb => cb = .readCallback_
  have hadded := hinitial.operate (.enableReading ())
  have hpoll : (oneLoop.next (.operate (.enableReading ()))).enabled
      (.poll (fun _ => EPOLLIN ||| EPOLLERR) [5]) :=
    ⟨rfl, by decide, by decide, by decide,
      fun _ _ hf => List.mem_singleton.mpr (hother _ _ hadded hf)⟩
  have hcalled := (hadded.next hpoll).handleEvent Nat.zero_lt_one false
  refine turns_of_runs ⟨fun _ => 5, fun _ _ _ => rfl⟩ (fun _ => 100) (fun _ => false)
    (fun _ cb => cb = .readCallback_) 1 ?_
    ((pollLoop Unit).always_of_forall (fun s _ => hmost s) _ as)
  refine ⟨trivial, hpoll, Nat.zero_lt_one, trivial, ⟨rfl, by decide, by decide, by decide, ?_⟩,
    trivial⟩
  intro _ f hf
  have hdel := hother _ _ (hcalled.operate (.disableAll ())) hf
  subst hdel
  exact absurd rfl hf

end PollLoop

end CkServer
