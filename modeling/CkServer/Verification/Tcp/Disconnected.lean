import CkServer.Verification.Tcp.System

/-! # Disconnected is final

Under a condition on the steps nothing happens to a connection after its state has become
`kDisconnected`. The condition excludes the three steps that break this: a `sendInLoop` taken
from the queue, which writes in every state, the store of a `shutdown` that has tested the
state before, and a second `handleClose`, whose `disableAll` registers the channel again. -/

namespace CkServer

/-- The rest of a function that comes first among the tasks. -/
def Task.isRest : Task → Bool
  | .drained => true
  | .sendInLoop _ => true
  | .storeDisconnecting => true
  | .bufferRest _ _ _ _ _ => true
  | .storeDisconnected => true
  | _ => false

def Task.isEvent : Task → Bool
  | .handleClose => true
  | .handleError => true
  | .handleRead => true
  | .handleWrite => true
  | _ => false

/-- A functor of the queue, or the rest of `connectDestroyed`. -/
def Task.isFunctor : Task → Bool
  | .functor _ => true
  | .storeDisconnected => true
  | .remove => true
  | _ => false

/-- A `sendInLoop` out of the queue. -/
def Task.isQueuedSend : Task → Bool
  | .functor (.sendInLoop _ _ _) => true
  | _ => false

/-- The store of a `shutdown` in another thread. -/
def Action.isStore {n : ℕ} : Action n → Bool
  | .storeDisconnecting _ => true
  | _ => false

namespace ConnectionSystem

variable {n : ℕ} {s : ConnectionSystem n}

/-! ## The property and the condition -/

/-- From `s` to `t` nothing has happened to a disconnected connection: its state is final,
nothing was written or put in the output buffer, and the channel has no interest and is not
registered. -/
structure Frozen (s t : ConnectionSystem n) : Prop where
  state : t.conn.state_ = .kDisconnected
  writes : t.conn.socket_.filter SocketCall.isWrite = s.conn.socket_.filter SocketCall.isWrite
  outputBuffer : t.conn.outputBuffer_ = s.conn.outputBuffer_
  interest : t.conn.channel_.events_ = kNoneEvent
  unregistered : t.conn.loop_.poller_.epoll t.conn.channel_.fd_ = none

/-- In the state `kDisconnected` no `shutdown` stores `kDisconnecting`, `handleClose` is not
called and no `sendInLoop` comes out of the queue. -/
def LeavesAlone (s : ConnectionSystem n) (a : Action n) : Prop :=
  s.conn.state_ = .kDisconnected →
    a.isStore = false ∧ s.doing a ≠ some .handleClose ∧ (s.doing a).any Task.isQueuedSend = false

instance (s : ConnectionSystem n) (a : Action n) : Decidable (s.LeavesAlone a) :=
  inferInstanceAs (Decidable (_ → _))

/-! ## The invariant before the end -/

/-- The connection is not disconnected. Its channel is registered whenever an event or
`connectDestroyed` may disable it. -/
structure Open (s : ConnectionSystem n) : Prop where
  state : s.conn.state_ ≠ .kDisconnected
  tracked : s.conn.Tracked
  reading : s.conn.channel_.isReading = true
  added : s.conn.state_ = .kConnected ∨ (∃ t ∈ s.todo, t.isEvent = true) ∨
    .storeDisconnected ∈ s.todo → s.conn.channel_.index_ = .kAdded
  removing : .remove ∈ s.todo → s.conn.state_ ≠ .kConnected
  tail : ∀ t ∈ s.todo.tail, t.isRest = false
  mode : (∀ t ∈ s.todo, t.isEvent = false) ∨ ∀ t ∈ s.todo, t.isFunctor = false

/-- The connection is disconnected, and no function is in the middle of its work. -/
structure Down (s : ConnectionSystem n) : Prop where
  state : s.conn.state_ = .kDisconnected
  tracked : s.conn.Tracked
  events : s.conn.channel_.events_ = kNoneEvent
  index : s.conn.channel_.index_ ≠ .kAdded
  todo : ∀ t ∈ s.todo, t.isRest = false

theorem Down.unregistered (h : Down s) :
    s.conn.loop_.poller_.epoll s.conn.channel_.fd_ = none := by
  rw [h.tracked.epoll, if_neg h.index]

theorem Down.frozen (h : Down s) : Frozen s s := ⟨h.state, rfl, rfl, h.events, h.unregistered⟩

/-- A task is done and at most one takes its place, which is an event only if the task was
one. -/
theorem Open.of_todo (h : Open s) {s' : ConnectionSystem n} {task : Task} {rest : List Task}
    (htodo : s.todo = task :: rest)
    (hstate : s'.conn.state_ = s.conn.state_ ∨ s'.conn.state_ = .kDisconnecting)
    (htracked : s'.conn.Tracked)
    (hreading : s'.conn.channel_.isReading = true)
    (hindex : s'.conn.channel_.index_ = s.conn.channel_.index_ ∨
      s'.conn.channel_.index_ = .kAdded)
    (htodo' : s'.todo = rest ∨ ∃ t, s'.todo = t :: rest ∧ t.isFunctor = false ∧
      (t.isEvent = true → task.isEvent = true)) : Open s' := by
  have hsub {t : Task} (ht : t.isFunctor = true) : t ∈ s'.todo → t ∈ s.todo := by
    intro hmem
    rw [htodo]
    rcases htodo' with heq | ⟨t', heq, hfunctor, -⟩
    · exact List.mem_cons_of_mem _ (heq ▸ hmem)
    · rw [heq, List.mem_cons] at hmem
      rcases hmem with rfl | hmem
      · rw [ht] at hfunctor
        cases hfunctor
      · exact List.mem_cons_of_mem _ hmem
  have hevents : (∃ t ∈ s'.todo, t.isEvent = true) → ∃ t ∈ s.todo, t.isEvent = true := by
    rintro ⟨t, hmem, ht⟩
    rw [htodo]
    rcases htodo' with heq | ⟨t', heq, -, hevent⟩
    · exact ⟨t, List.mem_cons_of_mem _ (heq ▸ hmem), ht⟩
    · rw [heq, List.mem_cons] at hmem
      rcases hmem with rfl | hmem
      · exact ⟨task, List.mem_cons_self, hevent ht⟩
      · exact ⟨t, List.mem_cons_of_mem _ hmem, ht⟩
  have hconnected : s'.conn.state_ = .kConnected → s.conn.state_ = .kConnected := by
    intro hnew
    rcases hstate with heq | heq
    · rw [← heq, hnew]
    · rw [hnew] at heq
      cases heq
  constructor
  · rcases hstate with heq | heq <;> rw [heq]
    · exact h.state
    · simp
  · exact htracked
  · exact hreading
  · rintro hneeds
    rcases hindex with heq | heq
    · rw [heq]
      apply h.added
      rcases hneeds with hnew | hevent | hmem
      · exact .inl (hconnected hnew)
      · exact .inr (.inl (hevents hevent))
      · exact .inr (.inr (hsub rfl hmem))
    · exact heq
  · intro hmem hnew
    exact h.removing (hsub rfl hmem) (hconnected hnew)
  · have htail : ∀ t ∈ rest, t.isRest = false := by simpa [htodo] using h.tail
    rcases htodo' with heq | ⟨t', heq, -, -⟩
    · rw [heq]
      exact fun t ht => htail t (List.mem_of_mem_tail ht)
    · rw [heq]
      exact htail
  · rcases h.mode with hmode | hmode
    · left
      intro t ht
      by_contra hevent
      obtain ⟨t', ht', hevent'⟩ := hevents ⟨t, ht, by simpa using hevent⟩
      rw [hmode t' ht'] at hevent'
      cases hevent'
    · right
      intro t ht
      by_contra hfunctor
      have hmem := hsub (by simpa using hfunctor) ht
      exact hfunctor (hmode t hmem)

/-- The tasks and the channel are left alone. -/
theorem Open.of_frame (h : Open s) {s' : ConnectionSystem n}
    (hstate : s'.conn.state_ = s.conn.state_ ∨ s'.conn.state_ = .kDisconnecting)
    (hchannel : s'.conn.channel_ = s.conn.channel_)
    (hpoller : s'.conn.loop_.poller_ = s.conn.loop_.poller_) (htodo : s'.todo = s.todo) :
    Open s' := by
  have hconnected : s'.conn.state_ = .kConnected → s.conn.state_ = .kConnected := by
    intro hnew
    rcases hstate with heq | heq
    · rw [← heq, hnew]
    · rw [hnew] at heq
      cases heq
  constructor
  · rcases hstate with heq | heq <;> rw [heq]
    · exact h.state
    · simp
  · rw [TcpConnection.Tracked, hchannel, hpoller]
    exact h.tracked
  · rw [hchannel]
    exact h.reading
  · rw [hchannel, htodo]
    exact fun hneeds => h.added (hneeds.imp_left hconnected)
  · rw [htodo]
    exact fun hmem hnew => h.removing hmem (hconnected hnew)
  · rw [htodo]
    exact h.tail
  · rw [htodo]
    exact h.mode

/-- The loop's thread begins with functors. -/
theorem Open.of_functors (h : Open s) {s' : ConnectionSystem n} (fs : List Functor)
    (hstate : s'.conn.state_ = s.conn.state_)
    (hchannel : s'.conn.channel_ = s.conn.channel_)
    (hpoller : s'.conn.loop_.poller_ = s.conn.loop_.poller_)
    (htodo : s'.todo = fs.map .functor) : Open s' := by
  have hfunctor : ∀ t ∈ s'.todo, ∃ f, t = .functor f := by
    intro t ht
    rw [htodo] at ht
    obtain ⟨f, -, rfl⟩ := List.mem_map.mp ht
    exact ⟨f, rfl⟩
  constructor
  · rw [hstate]
    exact h.state
  · rw [TcpConnection.Tracked, hchannel, hpoller]
    exact h.tracked
  · rw [hchannel]
    exact h.reading
  · rw [hchannel, hstate]
    rintro (hconnected | ⟨t, ht, hevent⟩ | hmem)
    · exact h.added (.inl hconnected)
    · obtain ⟨f, rfl⟩ := hfunctor t ht
      cases hevent
    · obtain ⟨f, heq⟩ := hfunctor _ hmem
      cases heq
  · intro hmem
    obtain ⟨f, heq⟩ := hfunctor _ hmem
    cases heq
  · intro t ht
    obtain ⟨f, rfl⟩ := hfunctor t (List.mem_of_mem_tail ht)
    rfl
  · left
    intro t ht
    obtain ⟨f, rfl⟩ := hfunctor t ht
    rfl

theorem isRest_of_userCode {task : Task} {rest : List Task} (h : userCode (task :: rest) = true) :
    task.isRest = false := by
  cases task <;> first | rfl | cases h

/-- The user's code calls `send` or `shutdown` in the loop's thread. -/
theorem Open.of_userCode (h : Open s) {s' : ConnectionSystem n} {t : Task}
    (ht : t = .storeDisconnecting ∨ ∃ data, t = .sendInLoop data)
    (huser : userCode s.todo = true) (hconn : s'.conn = s.conn) (htodo : s'.todo = t :: s.todo) :
    Open s' := by
  obtain ⟨hevent, hfunctor⟩ : t.isEvent = false ∧ t.isFunctor = false := by
    rcases ht with rfl | ⟨data, rfl⟩ <;> exact ⟨rfl, rfl⟩
  have hmem {t' : Task} (ht' : t'.isFunctor = true) : t' ∈ s'.todo → t' ∈ s.todo := by
    rw [htodo, List.mem_cons]
    rintro (rfl | hmem)
    · rw [ht'] at hfunctor
      cases hfunctor
    · exact hmem
  constructor
  · rw [hconn]
    exact h.state
  · rw [hconn]
    exact h.tracked
  · rw [hconn]
    exact h.reading
  · rw [hconn]
    rintro (hconnected | ⟨t', ht', hevent'⟩ | hstore)
    · exact h.added (.inl hconnected)
    · rw [htodo, List.mem_cons] at ht'
      rcases ht' with rfl | ht'
      · rw [hevent] at hevent'
        cases hevent'
      · exact h.added (.inr (.inl ⟨t', ht', hevent'⟩))
    · exact h.added (.inr (.inr (hmem rfl hstore)))
  · rw [hconn]
    exact fun hremove => h.removing (hmem rfl hremove)
  · rw [htodo, List.tail_cons]
    intro t' ht'
    cases hs : s.todo with
    | nil => simp [hs] at ht'
    | cons task rest =>
        rw [hs] at ht' huser
        rcases List.mem_cons.mp ht' with rfl | ht'
        · exact isRest_of_userCode huser
        · exact h.tail t' (by rwa [hs])
  · rcases h.mode with hmode | hmode
    · left
      rw [htodo]
      exact List.forall_mem_cons.mpr ⟨hevent, hmode⟩
    · right
      rw [htodo]
      exact List.forall_mem_cons.mpr ⟨hfunctor, hmode⟩

/-- The end of the connection, by `handleClose` or `connectDestroyed`: what is registered is
deleted. -/
theorem Open.down (h : Open s) {task t : Task} {rest : List Task} (htodo : s.todo = task :: rest)
    (htask : task = .handleClose ∨ task = .storeDisconnected) (ht : t.isRest = false) :
    Down { s with conn := s.conn.setDisconnected, todo := t :: rest } := by
  have hadded : s.conn.channel_.index_ = .kAdded := by
    apply h.added
    rcases htask with rfl | rfl
    · exact .inr (.inl ⟨_, htodo ▸ List.mem_cons_self, rfl⟩)
    · exact .inr (.inr (htodo ▸ List.mem_cons_self))
  constructor
  · rfl
  · exact TcpConnection.tracked_setDisconnected h.tracked
  · exact TcpConnection.setEvents_events_ _ _
  · simp only [TcpConnection.index_setDisconnected hadded]
    simp
  · refine List.forall_mem_cons.mpr ⟨ht, ?_⟩
    simpa [htodo] using h.tail

theorem Open.connectDestroyed (h : Open s) {rest : List Task}
    (htodo : s.todo = .functor .connectDestroyed :: rest) :
    Open { s with
      todo := (if s.conn.state_ = .kConnected then .storeDisconnected else .remove) :: rest } := by
  have hrest : ∀ t ∈ rest, t.isRest = false := by simpa [htodo] using h.tail
  have hnone : ∀ t ∈ rest, t.isEvent = false := by
    rcases h.mode with hmode | hmode
    · exact fun t ht => hmode t (htodo ▸ List.mem_cons_of_mem _ ht)
    · have hfalse := hmode (.functor .connectDestroyed) (htodo ▸ List.mem_cons_self)
      cases hfalse
  refine ⟨h.state, h.tracked, h.reading, ?_, ?_, hrest, .inl ?_⟩
  · rintro (hconnected | ⟨t, ht, hevent⟩ | hmem)
    · exact h.added (.inl hconnected)
    · rcases List.mem_cons.mp ht with rfl | ht
      · split at hevent <;> cases hevent
      · rw [hnone t ht] at hevent
        cases hevent
    · rcases List.mem_cons.mp hmem with heq | hmem
      · split at heq
        · next hconnected => exact h.added (.inl hconnected)
        · cases heq
      · cases hrest _ hmem
  · intro hmem
    rcases List.mem_cons.mp hmem with heq | hmem
    · split at heq
      · cases heq
      · assumption
    · exact h.removing (htodo ▸ List.mem_cons_of_mem _ hmem)
  · refine List.forall_mem_cons.mpr ⟨?_, hnone⟩
    split <;> rfl

/-- A connection that was not connected when `connectDestroyed` found it loses its channel. -/
theorem Open.remove (h : Open s) {rest : List Task} (htodo : s.todo = .remove :: rest) :
    Open { s with conn := s.conn.remove, todo := rest, destroyed := true } := by
  have hrest : ∀ t ∈ rest, t.isRest = false := by simpa [htodo] using h.tail
  have hnone : ∀ t ∈ rest, t.isEvent = false := by
    rcases h.mode with hmode | hmode
    · exact fun t ht => hmode t (htodo ▸ List.mem_cons_of_mem _ ht)
    · have hfalse := hmode .remove (htodo ▸ List.mem_cons_self)
      cases hfalse
  have hnot : s.conn.state_ ≠ .kConnected := h.removing (htodo ▸ List.mem_cons_self)
  refine ⟨h.state, TcpConnection.tracked_remove h.tracked, h.reading, ?_, fun _ => hnot,
    fun t ht => hrest t (List.mem_of_mem_tail ht), .inl hnone⟩
  rintro (hconnected | ⟨t, ht, hevent⟩ | hmem)
  · exact absurd hconnected hnot
  · rw [hnone t ht] at hevent
    cases hevent
  · cases hrest _ hmem

theorem Open.removeConnection (h : Open s) : Open s.removeConnection := by
  obtain ⟨cbs, inConnections, baseQueue, -, heq⟩ := s.removeConnection_eq
  rw [heq]
  exact h.of_frame (.inl rfl) rfl rfl rfl

/-! ## Steps before the end -/

theorem Open.shutdownInLoop (h : Open s) {task : Task} {rest : List Task}
    (htodo : s.todo = task :: rest) {c : TcpConnection}
    (hc : c = s.conn ∨ c = s.conn.setState .kDisconnecting) :
    Open { s with conn := c.shutdownInLoop, todo := rest } := by
  apply h.of_todo htodo
  · rw [TcpConnection.shutdownInLoop_state_]
    rcases hc with rfl | rfl
    · exact .inl rfl
    · exact .inr rfl
  · rw [TcpConnection.Tracked, TcpConnection.shutdownInLoop_channel_,
      TcpConnection.shutdownInLoop_loop_]
    rcases hc with rfl | rfl <;> exact h.tracked
  · rw [TcpConnection.shutdownInLoop_channel_]
    rcases hc with rfl | rfl <;> exact h.reading
  · rw [TcpConnection.shutdownInLoop_channel_]
    rcases hc with rfl | rfl <;> exact .inl rfl
  · exact .inl rfl

theorem Open.runFunctor (h : Open s) (o : Outside) {rest : List Task} {f : Functor}
    (hbegun : Begun s) (htodo : s.todo = .functor f :: rest) : Open (s.runFunctor o rest f) := by
  have hsame : s.conn.channel_.index_ = s.conn.channel_.index_ ∨ s.conn.channel_.index_ = .kAdded :=
    .inl rfl
  cases f with
  | connectEstablished => exact absurd (htodo ▸ List.mem_cons_self) hbegun.todo
  | connectDestroyed => exact h.connectDestroyed htodo
  | sendInLoop data len call =>
      simp only [ConnectionSystem.runFunctor]
      apply h.of_todo htodo
      · simp
      · exact TcpConnection.tracked_writeDirect _ _ _ h.tracked
      · simpa using h.reading
      · simp
      · exact .inr ⟨_, rfl, rfl, by simp [Task.isEvent]⟩
  | shutdownInLoop => exact h.shutdownInLoop htodo (.inl rfl)
  | writeCompleteCallback_ =>
      exact h.of_todo htodo (.inl rfl) h.tracked h.reading hsame (.inl rfl)
  | highWaterMarkCallback_ bytes =>
      exact h.of_todo htodo (.inl rfl) h.tracked h.reading hsame (.inl rfl)

theorem Open.runTask (h : Open s) (o : Outside) {task : Task} {rest : List Task}
    (hbegun : Begun s) (htodo : s.todo = task :: rest) :
    Open (s.runTask o rest task) ∨ Down (s.runTask o rest task) := by
  have hsame : s.conn.channel_.index_ = s.conn.channel_.index_ ∨ s.conn.channel_.index_ = .kAdded :=
    .inl rfl
  cases task with
  | handleClose => exact .inr (h.down htodo (.inl rfl) rfl)
  | handleError =>
      exact .inl (h.of_todo htodo (.inl rfl) h.tracked h.reading hsame (.inl rfl))
  | handleRead =>
      left
      simp only [ConnectionSystem.runTask]
      apply h.of_todo htodo
      · simp
      · simpa [TcpConnection.Tracked] using h.tracked
      · simpa using h.reading
      · simp
      · split
        · exact .inr ⟨_, rfl, rfl, fun _ => rfl⟩
        · exact .inl rfl
  | handleWrite =>
      left
      simp only [ConnectionSystem.runTask]
      apply h.of_todo htodo
      · simp
      · exact TcpConnection.tracked_writeOutput _ _ h.tracked
      · simpa using h.reading
      · exact TcpConnection.index_writeOutput _ _ h.reading
      · split
        · exact .inr ⟨_, rfl, rfl, fun _ => rfl⟩
        · exact .inl rfl
  | functor f => exact .inl (h.runFunctor o hbegun htodo)
  | drained =>
      left
      simp only [ConnectionSystem.runTask]
      split
      · exact h.shutdownInLoop htodo (.inl rfl)
      · exact h.of_todo htodo (.inl rfl) h.tracked h.reading hsame (.inl rfl)
  | closeCallback =>
      left
      apply Open.removeConnection
      exact h.of_todo htodo (.inl rfl) h.tracked h.reading hsame (.inl rfl)
  | sendInLoop data =>
      left
      simp only [ConnectionSystem.runTask]
      apply h.of_todo htodo
      · simp
      · apply TcpConnection.tracked_bufferRest
        exact TcpConnection.tracked_writeDirect _ _ _ h.tracked
      · simpa using h.reading
      · rw [← TcpConnection.writeDirect_channel_ s.conn data o.written]
        exact TcpConnection.index_bufferRest _ _ _
      · exact .inl rfl
  | storeDisconnecting => exact .inl (h.shutdownInLoop htodo (.inr rfl))
  | bufferRest taken data len call fault =>
      left
      simp only [ConnectionSystem.runTask]
      apply h.of_todo htodo
      · simp
      · exact TcpConnection.tracked_bufferRest _ _ _ h.tracked
      · simpa using h.reading
      · exact TcpConnection.index_bufferRest _ _ _
      · exact .inl rfl
  | storeDisconnected => exact .inr (h.down htodo (.inr rfl) rfl)
  | remove => exact .inl (h.remove htodo)

/-- A step leaves the connection open or ends it. -/
theorem Open.next (h : Open s) (hbegun : Begun s) {a : Action n} (hen : s.Enabled a) :
    Open (s.next a) ∨ Down (s.next a) := by
  cases a with
  | callSend thread cell =>
      left
      simp only [ConnectionSystem.next]
      split
      · exact h.of_frame (.inl rfl) rfl rfl rfl
      · exact h
  | queueSend thread =>
      left
      simp only [ConnectionSystem.next]
      split
      · exact h.of_frame (.inl rfl) rfl rfl rfl
      · exact h
  | callShutdown thread =>
      left
      simp only [ConnectionSystem.next]
      split
      · exact h.of_frame (.inl rfl) rfl rfl rfl
      · exact h
  | storeDisconnecting thread => exact .inl (h.of_frame (.inr rfl) rfl rfl rfl)
  | queueShutdown thread => exact .inl (h.of_frame (.inl rfl) rfl rfl rfl)
  | assign cell value => exact .inl (h.of_frame (.inl rfl) rfl rfl rfl)
  | poll revents =>
      left
      have hadded : s.conn.channel_.index_ = .kAdded := by
        by_contra hnot
        apply hen.2
        rw [h.tracked.epoll, if_neg hnot]
      have hevent : ∀ t ∈ (s.next (.poll revents)).todo, t.isEvent = true := by
        intro t ht
        obtain ⟨event, -, rfl⟩ := List.mem_map.mp ht
        cases event <;> rfl
      refine ⟨h.state, ⟨h.tracked.channels, h.tracked.epoll, h.tracked.running⟩, h.reading,
        fun _ => hadded, fun hmem => ?_, fun t ht => ?_, .inr fun t ht => ?_⟩
      · cases hevent _ hmem
      · have ht' := hevent t (List.mem_of_mem_tail ht)
        cases t <;> first | rfl | cases ht'
      · have ht' := hevent t ht
        cases t <;> first | rfl | cases ht'
  | doPendingFunctors => exact .inl (h.of_functors _ rfl rfl rfl rfl)
  | loopSend data =>
      left
      simp only [ConnectionSystem.next]
      split
      · exact h.of_userCode (.inr ⟨data, rfl⟩) hen.2 rfl rfl
      · exact h
  | loopShutdown =>
      left
      simp only [ConnectionSystem.next]
      split
      · exact h.of_userCode (.inl rfl) hen.2 rfl rfl
      · exact h
  | execute o =>
      obtain ⟨task, rest, htodo⟩ := List.exists_cons_of_ne_nil hen.1
      rw [next_execute htodo]
      exact h.runTask o hbegun htodo
  | removeConnectionInLoop => exact .inl (h.of_frame (.inl rfl) rfl rfl rfl)
  | destroyServer =>
      left
      simp only [ConnectionSystem.next]
      split
      · split
        · exact h.of_functors [.connectDestroyed] rfl rfl rfl rfl
        · exact h.of_frame (.inl rfl) rfl rfl rfl
      · exact h.of_frame (.inl rfl) rfl rfl rfl

theorem Waiting.open (h : Waiting s) {rest : List Task}
    (htodo : s.todo = .functor .connectEstablished :: rest) : Open (s.begin rest) := by
  obtain ⟨address, fd, cbs, pending, hconn⟩ := h.conn
  obtain ⟨later, hqueue, hlater⟩ := h.queue
  rw [htodo, List.cons_append, List.cons.injEq] at hqueue
  have hrest : ∀ t ∈ rest, t = .functor .connectDestroyed :=
    fun t ht => hlater t (hqueue.2 ▸ List.mem_append_left _ ht)
  have htracked : s.conn.Tracked := by
    rw [hconn]
    exact ⟨rfl, rfl, rfl⟩
  have hadded : (s.begin rest).conn.channel_.index_ = .kAdded := by
    rw [begin, hconn]
    rfl
  refine ⟨by simp [begin], TcpConnection.tracked_connectEstablished htracked, by simp [begin],
    fun _ => hadded, fun hmem => ?_, fun t ht => ?_, .inl fun t ht => ?_⟩
  · cases hrest _ hmem
  · rw [hrest t (List.mem_of_mem_tail ht)]
    rfl
  · rw [hrest t ht]
    rfl

/-! ## Steps after the end -/

theorem Frozen.trans {t u : ConnectionSystem n} (h : Frozen s t) (h' : Frozen t u) : Frozen s u :=
  ⟨h'.state, h'.writes.trans h.writes, h'.outputBuffer.trans h.outputBuffer, h'.interest,
    h'.unregistered⟩

/-- The connection may call `shutdownWrite` and queue functors, and that is all. -/
theorem Down.of_frame (h : Down s) {s' : ConnectionSystem n}
    (hstate : s'.conn.state_ = s.conn.state_)
    (hchannel : s'.conn.channel_ = s.conn.channel_)
    (hpoller : s'.conn.loop_.poller_ = s.conn.loop_.poller_)
    (houtput : s'.conn.outputBuffer_ = s.conn.outputBuffer_)
    (hwrites : s'.conn.socket_.filter SocketCall.isWrite =
      s.conn.socket_.filter SocketCall.isWrite)
    (htodo : ∀ t ∈ s'.todo, t ∈ s.todo ∨ t.isRest = false) : Down s' ∧ Frozen s s' := by
  have hdown : Down s' := by
    constructor
    · rw [hstate]
      exact h.state
    · rw [TcpConnection.Tracked, hchannel, hpoller]
      exact h.tracked
    · rw [hchannel]
      exact h.events
    · rw [hchannel]
      exact h.index
    · intro t ht
      rcases htodo t ht with hold | hrest
      · exact h.todo t hold
      · exact hrest
  exact ⟨hdown, hdown.state, hwrites, houtput, hdown.events, hdown.unregistered⟩

theorem Down.stutter (h : Down s) : Down s ∧ Frozen s s := ⟨h, h.frozen⟩

theorem Down.removeConnection (h : Down s) :
    Down s.removeConnection ∧ Frozen s s.removeConnection := by
  obtain ⟨cbs, inConnections, baseQueue, -, heq⟩ := s.removeConnection_eq
  rw [heq]
  exact h.of_frame rfl rfl rfl rfl rfl fun t ht => .inl ht

theorem Down.shutdownInLoop (h : Down s) {rest : List Task} (hrest : ∀ t ∈ rest, t ∈ s.todo) :
    Down { s with conn := s.conn.shutdownInLoop, todo := rest } ∧
      Frozen s { s with conn := s.conn.shutdownInLoop, todo := rest } := by
  apply h.of_frame
  · simp
  · simp
  · simp
  · simp
  · rcases s.conn.shutdownInLoop_eq with heq | ⟨-, heq⟩
    · rw [heq]
    · rw [heq]
      simp [TcpConnection.onSocket, SocketCall.isWrite]
  · exact fun t ht => .inl (hrest t ht)

theorem Down.remove (h : Down s) {rest : List Task} (hrest : ∀ t ∈ rest, t ∈ s.todo) :
    Down { s with conn := s.conn.remove, todo := rest, destroyed := true } ∧
      Frozen s { s with conn := s.conn.remove, todo := rest, destroyed := true } := by
  have hdown : Down { s with conn := s.conn.remove, todo := rest, destroyed := true } :=
    ⟨h.state, TcpConnection.tracked_remove h.tracked, h.events,
      by simp [TcpConnection.index_remove], fun t ht => h.todo t (hrest t ht)⟩
  exact ⟨hdown, hdown.state, rfl, rfl, hdown.events, hdown.unregistered⟩

theorem Down.runFunctor (h : Down s) (o : Outside) {rest : List Task} {f : Functor}
    (hbegun : Begun s) (htodo : s.todo = .functor f :: rest) (hok : s.LeavesAlone (.execute o)) :
    Down (s.runFunctor o rest f) ∧ Frozen s (s.runFunctor o rest f) := by
  have hrest : ∀ t ∈ rest, t ∈ s.todo := fun t ht => htodo ▸ List.mem_cons_of_mem _ ht
  cases f with
  | connectEstablished => exact absurd (htodo ▸ List.mem_cons_self) hbegun.todo
  | connectDestroyed =>
      refine h.of_frame rfl rfl rfl rfl rfl fun t ht => ?_
      rcases List.mem_cons.mp ht with rfl | ht
      · rw [if_neg (by simp [h.state])]
        exact .inr rfl
      · exact .inl (hrest t ht)
  | sendInLoop data len call =>
      have hnot := (hok h.state).2.2
      rw [doing_execute htodo] at hnot
      cases hnot
  | shutdownInLoop => exact h.shutdownInLoop hrest
  | writeCompleteCallback_ => exact h.of_frame rfl rfl rfl rfl rfl fun t ht => .inl (hrest t ht)
  | highWaterMarkCallback_ bytes =>
      exact h.of_frame rfl rfl rfl rfl rfl fun t ht => .inl (hrest t ht)

theorem Down.runTask (h : Down s) (o : Outside) {task : Task} {rest : List Task}
    (hbegun : Begun s) (htodo : s.todo = task :: rest) (hok : s.LeavesAlone (.execute o)) :
    Down (s.runTask o rest task) ∧ Frozen s (s.runTask o rest task) := by
  have hrest : ∀ t ∈ rest, t ∈ s.todo := fun t ht => htodo ▸ List.mem_cons_of_mem _ ht
  have hnot : task.isRest = false := h.todo task (htodo ▸ List.mem_cons_self)
  cases task with
  | handleClose => exact absurd (doing_execute htodo o) (hok h.state).2.1
  | handleError => exact h.of_frame rfl rfl rfl rfl rfl fun t ht => .inl (hrest t ht)
  | handleRead =>
      simp only [ConnectionSystem.runTask]
      apply h.of_frame
      · simp
      · simp
      · simp
      · simp
      · simp
      · intro t ht
        simp only at ht
        split at ht
        · rcases List.mem_cons.mp ht with rfl | ht
          · exact .inr rfl
          · exact .inl (hrest t ht)
        · exact .inl (hrest t ht)
  | handleWrite =>
      -- without interest nothing is written
      have hidle : s.conn.channel_.isWriting = false := by
        simp [Channel.isWriting, h.events, kNoneEvent]
      simp only [ConnectionSystem.runTask, TcpConnection.writeOutput_of_idle _ _ hidle]
      exact h.of_frame rfl rfl rfl rfl rfl fun t ht => .inl (hrest t ht)
  | functor f => exact h.runFunctor o hbegun htodo hok
  | closeCallback =>
      have hinvoked : Down { s with conn := s.conn.invoke .closeCallback_, todo := rest } ∧
          Frozen s { s with conn := s.conn.invoke .closeCallback_, todo := rest } :=
        h.of_frame rfl rfl rfl rfl rfl fun t ht => .inl (hrest t ht)
      have hremoved := hinvoked.1.removeConnection
      exact ⟨hremoved.1, hinvoked.2.trans hremoved.2⟩
  | remove => exact h.remove hrest
  | drained => cases hnot
  | sendInLoop data => cases hnot
  | storeDisconnecting => cases hnot
  | bufferRest taken data len call fault => cases hnot
  | storeDisconnected => cases hnot

/-- Nothing happens to a disconnected connection in a step that leaves it alone. -/
theorem Down.next (h : Down s) (hbegun : Begun s) {a : Action n} (hen : s.Enabled a)
    (hok : s.LeavesAlone a) : Down (s.next a) ∧ Frozen s (s.next a) := by
  have hclosed : s.conn.state_ ≠ .kConnected := by simp [h.state]
  have hsame : ∀ t ∈ s.todo, t ∈ s.todo ∨ t.isRest = false := fun t ht => .inl ht
  cases a with
  | callSend thread cell =>
      simp only [ConnectionSystem.next, if_neg hclosed]
      exact h.stutter
  | queueSend thread =>
      simp only [ConnectionSystem.next]
      split
      · exact h.of_frame rfl rfl rfl rfl rfl hsame
      · exact h.stutter
  | callShutdown thread =>
      simp only [ConnectionSystem.next, if_neg hclosed]
      exact h.stutter
  | storeDisconnecting thread => cases (hok h.state).1
  | queueShutdown thread => exact h.of_frame rfl rfl rfl rfl rfl hsame
  | assign cell value => exact h.of_frame rfl rfl rfl rfl rfl hsame
  | poll revents => exact absurd h.unregistered hen.2
  | doPendingFunctors =>
      refine h.of_frame rfl rfl rfl rfl rfl fun t ht => .inr ?_
      obtain ⟨f, -, rfl⟩ := List.mem_map.mp ht
      rfl
  | loopSend data =>
      simp only [ConnectionSystem.next, if_neg hclosed]
      exact h.stutter
  | loopShutdown =>
      simp only [ConnectionSystem.next, if_neg hclosed]
      exact h.stutter
  | execute o =>
      obtain ⟨task, rest, htodo⟩ := List.exists_cons_of_ne_nil hen.1
      rw [next_execute htodo]
      exact h.runTask o hbegun htodo hok
  | removeConnectionInLoop => exact h.of_frame rfl rfl rfl rfl rfl hsame
  | destroyServer =>
      simp only [ConnectionSystem.next]
      split
      · split
        · refine h.of_frame rfl rfl rfl rfl rfl fun t ht => .inr ?_
          obtain rfl := List.mem_singleton.mp ht
          rfl
        · exact h.of_frame rfl rfl rfl rfl rfl hsame
      · exact h.of_frame rfl rfl rfl rfl rfl hsame

/-! ## Every run -/

/-- In a run in which every step meets the condition, a connection that is disconnected after
some of the steps is left as it is by all the others. -/
theorem frozen_of_leavesAlone {address fd : ℕ} {cbs : Callbacks}
    {cells : ℕ → Option (List UInt8)} {sameLoop : Bool} {as bs : List (Action n)}
    (hruns : (connectionSystem n).Runs (newConnection n address fd cbs cells sameLoop) (as ++ bs))
    (hok : (connectionSystem n).Always LeavesAlone
      (newConnection n address fd cbs cells sameLoop) (as ++ bs))
    (hstate : ((connectionSystem n).run (newConnection n address fd cbs cells sameLoop)
      as).conn.state_ = .kDisconnected) :
    Frozen ((connectionSystem n).run (newConnection n address fd cbs cells sameLoop) as)
      ((connectionSystem n).run (newConnection n address fd cbs cells sameLoop) (as ++ bs)) := by
  rw [(connectionSystem n).runs_append] at hruns
  rw [(connectionSystem n).always_append] at hok
  rw [(connectionSystem n).run_append]
  rcases invariant_of_begun (J := fun s => Open s ∨ Down s) (p := LeavesAlone)
    (fun s rest hs htodo => .inl (hs.open htodo))
    (fun s a hs hJ hen hperm => hJ.elim (fun hopen => hopen.next hs hen)
      fun hdown => .inr (hdown.next hs hen hperm).1)
    hruns.1 hok.1 with hwaiting | ⟨hbegun, hopen | hdown⟩
  · obtain ⟨address, fd, cbs, pending, hconn⟩ := hwaiting.conn
    rw [hconn] at hstate
    cases hstate
  · exact absurd hstate hopen.state
  · apply (connectionSystem n).invariant_from (I := fun t => Begun t ∧ Down t) (p := LeavesAlone)
      hdown.frozen _ _ ⟨hbegun, hdown⟩ hruns.2 hok.2
    · exact fun t a ht hfrozen hen hperm => hfrozen.trans (ht.2.next ht.1 hen hperm).2
    · exact fun t a ht hen hperm => ⟨ht.1.next a, (ht.2.next ht.1 hen hperm).1⟩

/-- A thread calls `shutdown`, and the peer closes after the bytes sent have been written. -/
def closedAfterShutdown : List (Action 1) :=
  [.doPendingFunctors, .execute {}, .callSend oneThread 0, .queueSend oneThread,
    .callShutdown oneThread, .storeDisconnecting oneThread, .doPendingFunctors,
    .execute { written := .ok 1 }, .execute {}, .poll EPOLLIN, .execute { received := .ok [] },
    .execute {}]

/-- What follows: the functor `shutdownInLoop`, and the destruction of the connection. -/
def destroyedAfterClose : List (Action 1) :=
  [.queueShutdown oneThread, .execute {}, .removeConnectionInLoop, .doPendingFunctors, .execute {},
    .execute {}, .execute {}]

def oneByte : ℕ → Option (List UInt8) := fun _ => some [65]

theorem frozen_closedAfterShutdown :
    Frozen ((connectionSystem 1).run (newConnection 1 0 5 {} oneByte false) closedAfterShutdown)
      ((connectionSystem 1).run (newConnection 1 0 5 {} oneByte false)
        (closedAfterShutdown ++ destroyedAfterClose)) :=
  frozen_of_leavesAlone (by decide +kernel) (by decide +kernel) (by decide +kernel)

/-- A thread has queued a `sendInLoop` when the peer closes. -/
def closedAfterSend : List (Action 1) :=
  [.doPendingFunctors, .execute {}, .callSend oneThread 0, .queueSend oneThread, .poll EPOLLIN,
    .execute { received := .ok [] }, .execute {}]

/-- The functor writes, and puts what the kernel does not take in the output buffer. -/
def sentAfterClose : List (Action 1) :=
  [.execute {}, .doPendingFunctors, .execute {}, .execute {}]

theorem not_frozen_sentAfterClose :
    (connectionSystem 1).Runs (newConnection 1 0 5 {} oneByte false)
        (closedAfterSend ++ sentAfterClose) ∧
      ((connectionSystem 1).run (newConnection 1 0 5 {} oneByte false)
        closedAfterSend).conn.state_ = .kDisconnected ∧
      ¬ Frozen ((connectionSystem 1).run (newConnection 1 0 5 {} oneByte false) closedAfterSend)
        ((connectionSystem 1).run (newConnection 1 0 5 {} oneByte false)
          (closedAfterSend ++ sentAfterClose)) := by
  refine ⟨by decide +kernel, by decide +kernel, fun h => ?_⟩
  have hwrites := h.writes
  revert hwrites
  decide +kernel

end ConnectionSystem

end CkServer
