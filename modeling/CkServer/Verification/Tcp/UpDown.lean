import CkServer.Verification.Tcp.System

/-! # One DOWN for each UP

The connection callback reports a connection once when it begins and, if the steps keep to a
condition, once when it has ended. The condition excludes the two steps that break this: a
second `handleClose`, and a `connectDestroyed` that finds a connection that `shutdown` has been
called on and that has not been closed. -/

namespace CkServer

/-- The tasks that end a connection. -/
def Task.isEnd : Task → Bool
  | .closeCallback => true
  | .remove => true
  | .storeDisconnected => true
  | _ => false

namespace ConnectionSystem

variable {n : ℕ} {s : ConnectionSystem n}

/-- When `connectDestroyed` has run, the callback has been invoked once for the beginning and
once for the end, and the server has been told of the end at most once. -/
def OneDown (s : ConnectionSystem n) : Prop :=
  s.destroyed = true →
    s.conn.upcalls.count (.connectioncallback_ true) = 1 ∧
    s.conn.upcalls.count (.connectioncallback_ false) = 1 ∧
    s.conn.upcalls.count .closeCallback_ ≤ 1

instance (s : ConnectionSystem n) : Decidable s.OneDown :=
  inferInstanceAs (Decidable (_ = true → _ = 1 ∧ _ = 1 ∧ _ ≤ 1))

/-- `handleClose` finds the channel with its interest in reading, and `connectDestroyed` finds
it without, or the state `kConnected`. -/
def ClosesOnce (s : ConnectionSystem n) (a : Action n) : Prop :=
  (s.doing a = some .handleClose → s.conn.channel_.isReading = true) ∧
  (s.doing a = some (.functor .connectDestroyed) →
    s.conn.state_ = .kConnected ∨ s.conn.channel_.isReading = false)

instance (s : ConnectionSystem n) (a : Action n) : Decidable (s.ClosesOnce a) :=
  inferInstanceAs (Decidable ((_ → _) ∧ (_ → _)))

/-! ## The invariant -/

/-- A connection reads until its end is reported. -/
structure Balanced (s : ConnectionSystem n) : Prop where
  up : s.conn.upcalls.count (.connectioncallback_ true) = 1
  reading : s.conn.channel_.isReading = true →
    s.conn.upcalls.count (.connectioncallback_ false) = 0 ∧
    s.conn.upcalls.count .closeCallback_ = 0 ∧
    .closeCallback ∉ s.todo ∧ .remove ∉ s.todo ∧ .storeDisconnected ∉ s.todo.tail ∧
    s.destroyed = false
  ended : s.conn.channel_.isReading = false →
    s.conn.upcalls.count (.connectioncallback_ false) = 1 ∧
    s.conn.upcalls.count .closeCallback_ + s.todo.count .closeCallback ≤ 1 ∧
    .storeDisconnected ∉ s.todo ∧ s.conn.state_ ≠ .kConnected

theorem Balanced.oneDown (h : Balanced s) : OneDown s := by
  intro hdestroyed
  cases hreading : s.conn.channel_.isReading with
  | true =>
      obtain ⟨-, -, -, -, -, hnot⟩ := h.reading hreading
      rw [hdestroyed] at hnot
      cases hnot
  | false =>
      obtain ⟨hdown, hclose, -, -⟩ := h.ended hreading
      exact ⟨h.up, hdown, by omega⟩

/-- The connection may change as long as it reports nothing and keeps its interest in reading,
and the tasks as long as none is added that ends it. -/
structure Quiet (s s' : ConnectionSystem n) : Prop where
  calls : ∀ call, call ≠ .messagecallback_ →
    s'.conn.upcalls.count call = s.conn.upcalls.count call
  reading : s'.conn.channel_.isReading = s.conn.channel_.isReading
  state : s'.conn.state_ = .kConnected → s.conn.state_ = .kConnected
  destroyed : s'.destroyed = s.destroyed
  todo : ∀ t, t.isEnd = true → s'.todo.count t ≤ s.todo.count t
  tail : .storeDisconnected ∉ s.todo.tail → .storeDisconnected ∉ s'.todo.tail

theorem Quiet.mem {s' : ConnectionSystem n} (h : Quiet s s') {t : Task} (ht : t.isEnd = true) :
    t ∈ s'.todo → t ∈ s.todo := by
  intro hmem
  have hle := h.todo t ht
  rw [← List.count_pos_iff] at hmem ⊢
  omega

theorem Balanced.of_quiet {s' : ConnectionSystem n} (h : Balanced s) (hq : Quiet s s') :
    Balanced s' := by
  constructor
  · rw [hq.calls _ (by decide)]
    exact h.up
  · intro hreading
    obtain ⟨hdown, hclose, hnot, hnot', htail, hdestroyed⟩ := h.reading (hq.reading ▸ hreading)
    rw [hq.calls _ (by decide), hq.calls _ (by decide), hq.destroyed]
    exact ⟨hdown, hclose, mt (hq.mem rfl) hnot, mt (hq.mem rfl) hnot', hq.tail htail, hdestroyed⟩
  · intro hreading
    obtain ⟨hdown, hclose, hnot, hstate⟩ := h.ended (hq.reading ▸ hreading)
    have hcount := hq.todo .closeCallback rfl
    rw [hq.calls _ (by decide), hq.calls _ (by decide)]
    exact ⟨hdown, by omega, mt (hq.mem rfl) hnot, mt hq.state hstate⟩

/-- A task that is done makes room for at most one that does not end the connection. -/
theorem quiet_of_todo {s' : ConnectionSystem n} {task : Task} {rest : List Task}
    (htodo : s.todo = task :: rest)
    (hcalls : ∀ call, call ≠ .messagecallback_ →
      s'.conn.upcalls.count call = s.conn.upcalls.count call)
    (hreading : s'.conn.channel_.isReading = s.conn.channel_.isReading)
    (hstate : s'.conn.state_ = .kConnected → s.conn.state_ = .kConnected)
    (hdestroyed : s'.destroyed = s.destroyed)
    (htodo' : s'.todo = rest ∨ ∃ t, t.isEnd = false ∧ s'.todo = t :: rest) : Quiet s s' := by
  refine ⟨hcalls, hreading, hstate, hdestroyed, ?_, ?_⟩
  · intro t ht
    rw [htodo]
    rcases htodo' with heq | ⟨t', ht', heq⟩
    · rw [heq]
      exact List.count_le_count_cons
    · have hne : t' ≠ t := by
        rintro rfl
        rw [ht] at ht'
        cases ht'
      rw [heq, List.count_cons_of_ne hne]
      exact List.count_le_count_cons
  · rw [htodo, List.tail_cons]
    intro hnot
    rcases htodo' with heq | ⟨t', -, heq⟩
    · rw [heq]
      exact fun hmem => hnot (List.mem_of_mem_tail hmem)
    · rw [heq]
      exact hnot

/-- New tasks that do not end the connection. -/
theorem quiet_of_fresh {s' : ConnectionSystem n}
    (hconn : s'.conn.upcalls = s.conn.upcalls)
    (hreading : s'.conn.channel_.isReading = s.conn.channel_.isReading)
    (hstate : s'.conn.state_ = s.conn.state_) (hdestroyed : s'.destroyed = s.destroyed)
    (htodo' : ∀ t ∈ s'.todo, t.isEnd = false) : Quiet s s' := by
  refine ⟨fun _ _ => by rw [hconn], hreading, by rw [hstate]; exact id, hdestroyed, ?_, ?_⟩
  · intro t ht
    rw [List.count_eq_zero_of_not_mem]
    · exact Nat.zero_le _
    · intro hmem
      rw [htodo' t hmem] at ht
      cases ht
  · intro _ hmem
    cases htodo' _ (List.mem_of_mem_tail hmem)

/-- The user's code adds a task in front of the others. -/
theorem quiet_of_userCode {s' : ConnectionSystem n} {t : Task} (ht : t.isEnd = false)
    (huser : userCode s.todo = true) (hconn : s'.conn = s.conn)
    (hdestroyed : s'.destroyed = s.destroyed) (htodo : s'.todo = t :: s.todo) : Quiet s s' := by
  refine ⟨fun _ _ => by rw [hconn], by rw [hconn], by rw [hconn]; exact id, hdestroyed, ?_, ?_⟩
  · intro t' ht'
    have hne : t ≠ t' := by
      rintro rfl
      rw [ht'] at ht
      cases ht
    rw [htodo, List.count_cons_of_ne hne]
  · intro htail
    rw [htodo, List.tail_cons]
    cases hs : s.todo with
    | nil => simp
    | cons task rest =>
        rw [hs, List.tail_cons] at htail
        rw [List.mem_cons, not_or]
        refine ⟨?_, htail⟩
        rintro rfl
        rw [hs] at huser
        cases huser

theorem quiet_removeConnection (s : ConnectionSystem n) : Quiet s s.removeConnection := by
  obtain ⟨cbs, inConnections, baseQueue, -, heq⟩ := s.removeConnection_eq
  rw [heq]
  exact ⟨fun _ _ => rfl, rfl, id, rfl, fun _ _ => le_rfl, id⟩

/-! ## Steps -/

/-- The end of a connection is reported: it does not read any more. -/
theorem Balanced.setDisconnected (h : Balanced s) {task t : Task} {rest : List Task}
    (htodo : s.todo = task :: rest) (hreading : s.conn.channel_.isReading = true)
    (ht : t = .closeCallback ∨ t = .remove) :
    Balanced { s with conn := s.conn.setDisconnected, todo := t :: rest } := by
  obtain ⟨hdown, hclose, hnot, hnot', htail, -⟩ := h.reading hreading
  rw [htodo] at hnot hnot' htail
  have hup := h.up
  have hcount : rest.count .closeCallback = 0 :=
    List.count_eq_zero_of_not_mem fun hmem => hnot (List.mem_cons_of_mem _ hmem)
  constructor
  · simpa [List.count_append] using hup
  · intro hreading'
    simp at hreading'
  · intro _
    refine ⟨by simp [List.count_append, hdown], ?_, ?_, by simp⟩
    · rcases ht with rfl | rfl <;> simp [List.count_append, hclose, hcount]
    · rcases ht with rfl | rfl <;> simpa using htail

/-- `connectDestroyed` goes on to report an end that has not been reported. -/
theorem Balanced.connectDestroyed (h : Balanced s) {rest : List Task}
    (htodo : s.todo = .functor .connectDestroyed :: rest)
    (hok : s.conn.state_ = .kConnected ∨ s.conn.channel_.isReading = false) :
    Balanced { s with
      todo := (if s.conn.state_ = .kConnected then .storeDisconnected else .remove) :: rest } := by
  constructor
  · exact h.up
  · intro hreading
    have hstate : s.conn.state_ = .kConnected := by
      rcases hok with hstate | hnot
      · exact hstate
      · rw [hnot] at hreading
        cases hreading
    obtain ⟨hdown, hclose, hnot, hnot', htail, hdestroyed⟩ := h.reading hreading
    rw [htodo] at hnot hnot' htail
    rw [List.mem_cons, not_or] at hnot hnot'
    simp only [hstate, if_true]
    exact ⟨hdown, hclose, by simpa using hnot.2, by simpa using hnot'.2, htail, hdestroyed⟩
  · intro hreading
    obtain ⟨hdown, hclose, hnot, hstate⟩ := h.ended hreading
    rw [htodo, List.count_cons_of_ne (by simp)] at hclose
    rw [htodo, List.mem_cons, not_or] at hnot
    simp only [hstate, if_false]
    exact ⟨hdown, by simpa using hclose, by simpa using hnot.2, hstate⟩

/-- The server is told of an end that has been reported. -/
theorem Balanced.closeCallback (h : Balanced s) {rest : List Task}
    (htodo : s.todo = .closeCallback :: rest) :
    Balanced { s with conn := s.conn.invoke .closeCallback_, todo := rest } := by
  constructor
  · simpa [TcpConnection.invoke, List.count_append] using h.up
  · intro hreading
    obtain ⟨-, -, hnot, -⟩ := h.reading hreading
    exact absurd (htodo ▸ List.mem_cons_self) hnot
  · intro hreading
    obtain ⟨hdown, hclose, hnot, hstate⟩ := h.ended hreading
    rw [htodo, List.count_cons_self] at hclose
    rw [htodo, List.mem_cons, not_or] at hnot
    refine ⟨by simpa [TcpConnection.invoke, List.count_append] using hdown, ?_, hnot.2, hstate⟩
    simp only [TcpConnection.invoke, List.count_append, List.count_singleton_self]
    omega

theorem Balanced.remove (h : Balanced s) {rest : List Task} (htodo : s.todo = .remove :: rest) :
    Balanced { s with conn := s.conn.remove, todo := rest, destroyed := true } := by
  constructor
  · exact h.up
  · intro hreading
    obtain ⟨-, -, -, hnot, -⟩ := h.reading hreading
    exact absurd (htodo ▸ List.mem_cons_self) hnot
  · intro hreading
    obtain ⟨hdown, hclose, hnot, hstate⟩ := h.ended hreading
    rw [htodo, List.count_cons_of_ne (by simp)] at hclose
    rw [htodo, List.mem_cons, not_or] at hnot
    exact ⟨hdown, hclose, hnot.2, hstate⟩

theorem Balanced.runFunctor (h : Balanced s) (o : Outside) {rest : List Task} {f : Functor}
    (hbegun : Begun s) (htodo : s.todo = .functor f :: rest)
    (hok : s.ClosesOnce (.execute o)) : Balanced (s.runFunctor o rest f) := by
  cases f with
  | connectEstablished => exact absurd (htodo ▸ List.mem_cons_self) hbegun.todo
  | connectDestroyed =>
      exact h.connectDestroyed htodo (hok.2 (doing_execute htodo o))
  | sendInLoop data len call =>
      refine h.of_quiet (quiet_of_todo htodo ?_ ?_ ?_ rfl (.inr ⟨_, rfl, rfl⟩))
      · intro call _
        simp [ConnectionSystem.runFunctor]
      · simp [ConnectionSystem.runFunctor]
      · simp [ConnectionSystem.runFunctor]
  | shutdownInLoop =>
      refine h.of_quiet (quiet_of_todo htodo ?_ ?_ ?_ rfl (.inl rfl))
      · intro call _
        simp [ConnectionSystem.runFunctor]
      · simp [ConnectionSystem.runFunctor]
      · simp [ConnectionSystem.runFunctor]
  | writeCompleteCallback_ =>
      exact h.of_quiet (quiet_of_todo htodo (fun _ _ => rfl) rfl id rfl (.inl rfl))
  | highWaterMarkCallback_ bytes =>
      exact h.of_quiet (quiet_of_todo htodo (fun _ _ => rfl) rfl id rfl (.inl rfl))

theorem Balanced.runTask (h : Balanced s) (o : Outside) {task : Task} {rest : List Task}
    (hbegun : Begun s) (htodo : s.todo = task :: rest) (hok : s.ClosesOnce (.execute o)) :
    Balanced (s.runTask o rest task) := by
  cases task with
  | handleClose =>
      exact h.setDisconnected htodo (hok.1 (doing_execute htodo o)) (.inl rfl)
  | handleError => exact h.of_quiet (quiet_of_todo htodo (fun _ _ => rfl) rfl id rfl (.inl rfl))
  | handleRead =>
      refine h.of_quiet (quiet_of_todo htodo
        (fun call hcall => TcpConnection.count_upcalls_readInput _ _ hcall) ?_ ?_ rfl ?_)
      · simp [ConnectionSystem.runTask]
      · simp [ConnectionSystem.runTask]
      · simp only [ConnectionSystem.runTask]
        split
        · exact .inr ⟨_, rfl, rfl⟩
        · exact .inl rfl
  | handleWrite =>
      refine h.of_quiet (quiet_of_todo htodo ?_ ?_ ?_ rfl ?_)
      · intro call _
        simp [ConnectionSystem.runTask]
      · simp [ConnectionSystem.runTask]
      · simp [ConnectionSystem.runTask]
      · simp only [ConnectionSystem.runTask]
        split
        · exact .inr ⟨_, rfl, rfl⟩
        · exact .inl rfl
  | functor f => exact h.runFunctor o hbegun htodo hok
  | drained =>
      refine h.of_quiet (quiet_of_todo htodo ?_ ?_ ?_ rfl (.inl rfl))
      · intro call _
        simp only [ConnectionSystem.runTask]
        split <;> simp
      · simp only [ConnectionSystem.runTask]
        split <;> simp
      · simp only [ConnectionSystem.runTask]
        split <;> simp
  | closeCallback => exact (h.closeCallback htodo).of_quiet (quiet_removeConnection _)
  | sendInLoop data =>
      refine h.of_quiet (quiet_of_todo htodo ?_ ?_ ?_ rfl (.inl rfl))
      · intro call _
        simp [ConnectionSystem.runTask]
      · simp [ConnectionSystem.runTask]
      · simp [ConnectionSystem.runTask]
  | storeDisconnecting =>
      refine h.of_quiet (quiet_of_todo htodo ?_ ?_ ?_ rfl (.inl rfl))
      · intro call _
        simp [ConnectionSystem.runTask, TcpConnection.setState]
      · simp [ConnectionSystem.runTask, TcpConnection.setState]
      · simp [ConnectionSystem.runTask, TcpConnection.setState]
  | bufferRest taken data len call fault =>
      refine h.of_quiet (quiet_of_todo htodo ?_ ?_ ?_ rfl (.inl rfl))
      · intro call _
        simp [ConnectionSystem.runTask]
      · simp [ConnectionSystem.runTask]
      · simp [ConnectionSystem.runTask]
  | storeDisconnected =>
      have hreading : s.conn.channel_.isReading = true := by
        by_contra hnot
        obtain ⟨-, -, hnot', -⟩ := h.ended (by simpa using hnot)
        exact hnot' (htodo ▸ List.mem_cons_self)
      exact h.setDisconnected htodo hreading (.inr rfl)
  | remove => exact h.remove htodo

theorem Balanced.next (h : Balanced s) (hbegun : Begun s) {a : Action n} (hen : s.Enabled a)
    (hok : s.ClosesOnce a) : Balanced (s.next a) := by
  cases a with
  | callSend thread cell =>
      simp only [ConnectionSystem.next]
      split
      · exact h.of_quiet ⟨fun _ _ => rfl, rfl, id, rfl, fun _ _ => le_rfl, id⟩
      · exact h
  | queueSend thread =>
      simp only [ConnectionSystem.next]
      split
      · exact h.of_quiet ⟨fun _ _ => rfl, rfl, id, rfl, fun _ _ => le_rfl, id⟩
      · exact h
  | callShutdown thread =>
      simp only [ConnectionSystem.next]
      split
      · exact h.of_quiet ⟨fun _ _ => rfl, rfl, id, rfl, fun _ _ => le_rfl, id⟩
      · exact h
  | storeDisconnecting thread =>
      refine h.of_quiet ⟨fun _ _ => rfl, rfl, fun hstate => ?_, rfl, fun _ _ => le_rfl, id⟩
      cases hstate
  | queueShutdown thread =>
      exact h.of_quiet ⟨fun _ _ => rfl, rfl, id, rfl, fun _ _ => le_rfl, id⟩
  | assign cell value =>
      exact h.of_quiet ⟨fun _ _ => rfl, rfl, id, rfl, fun _ _ => le_rfl, id⟩
  | poll revents =>
      refine h.of_quiet (quiet_of_fresh rfl rfl rfl rfl fun t ht => ?_)
      obtain ⟨event, -, rfl⟩ := List.mem_map.mp ht
      cases event <;> rfl
  | doPendingFunctors =>
      refine h.of_quiet (quiet_of_fresh rfl rfl rfl rfl fun t ht => ?_)
      obtain ⟨f, -, rfl⟩ := List.mem_map.mp ht
      rfl
  | loopSend data =>
      simp only [ConnectionSystem.next]
      split
      · exact h.of_quiet (quiet_of_userCode (t := .sendInLoop data) rfl hen.2 rfl rfl rfl)
      · exact h
  | loopShutdown =>
      simp only [ConnectionSystem.next]
      split
      · exact h.of_quiet (quiet_of_userCode (t := .storeDisconnecting) rfl hen.2 rfl rfl rfl)
      · exact h
  | execute o =>
      obtain ⟨task, rest, htodo⟩ := List.exists_cons_of_ne_nil hen.1
      rw [next_execute htodo]
      exact h.runTask o hbegun htodo hok
  | removeConnectionInLoop =>
      exact h.of_quiet ⟨fun _ _ => rfl, rfl, id, rfl, fun _ _ => le_rfl, id⟩
  | destroyServer =>
      simp only [ConnectionSystem.next]
      split
      · split
        · refine h.of_quiet (quiet_of_fresh rfl rfl rfl rfl fun t ht => ?_)
          obtain rfl := List.mem_singleton.mp ht
          rfl
        · exact h.of_quiet ⟨fun _ _ => rfl, rfl, id, rfl, fun _ _ => le_rfl, id⟩
      · exact h.of_quiet ⟨fun _ _ => rfl, rfl, id, rfl, fun _ _ => le_rfl, id⟩

theorem Waiting.balanced (h : Waiting s) {rest : List Task}
    (htodo : s.todo = .functor .connectEstablished :: rest) : Balanced (s.begin rest) := by
  obtain ⟨later, hqueue, hlater⟩ := h.queue
  rw [htodo, List.cons_append, List.cons.injEq] at hqueue
  have hnot {t : Task} (ht : t ≠ .functor .connectDestroyed) : t ∉ rest := by
    intro hmem
    exact ht (hlater t (hqueue.2 ▸ List.mem_append_left _ hmem))
  have hup := h.upcalls
  constructor
  · simp [begin, hup]
  · intro _
    exact ⟨by simp [begin, hup], by simp [begin, hup], hnot (by simp), hnot (by simp),
      fun hmem => hnot (by simp) (List.mem_of_mem_tail hmem), h.destroyed⟩
  · intro hreading
    simp [begin] at hreading

/-! ## Every run -/

/-- In a run in which every step meets the condition each UP has its DOWN. -/
theorem oneDown_of_closesOnce {address fd : ℕ} {cbs : Callbacks}
    {cells : ℕ → Option (List UInt8)} {sameLoop : Bool} {as : List (Action n)}
    (hruns : (connectionSystem n).Runs (newConnection n address fd cbs cells sameLoop) as)
    (hok : (connectionSystem n).Always ClosesOnce
      (newConnection n address fd cbs cells sameLoop) as) :
    OneDown ((connectionSystem n).run (newConnection n address fd cbs cells sameLoop) as) := by
  rcases invariant_of_begun (J := Balanced) (p := ClosesOnce)
    (fun s rest hs htodo => hs.balanced htodo)
    (fun s a hs hJ hen hperm => hJ.next hs hen hperm) hruns hok with hwaiting | ⟨-, hbalanced⟩
  · intro hdestroyed
    rw [hwaiting.destroyed] at hdestroyed
    cases hdestroyed
  · exact hbalanced.oneDown

/-- The peer closes: `readv` returns 0, the connection is closed, taken out of the server's map
and destroyed. -/
def closedByPeer : List (Action 0) :=
  [.doPendingFunctors, .execute {}, .poll EPOLLIN, .execute { received := .ok [] }, .execute {},
    .execute {}, .removeConnectionInLoop, .doPendingFunctors, .execute {}, .execute {}]

theorem oneDown_closedByPeer :
    OneDown ((connectionSystem 0).run (newConnection 0 0 5 {} (fun _ => none) false)
      closedByPeer) :=
  oneDown_of_closesOnce (by decide +kernel) (by decide +kernel)

/-- The server is destroyed after the user has called `shutdown` on the connection. -/
def destroyedAfterShutdown : List (Action 0) :=
  [.doPendingFunctors, .execute {}, .loopShutdown, .execute {}, .destroyServer,
    .doPendingFunctors, .execute {}, .execute {}]

theorem not_oneDown_destroyedAfterShutdown :
    (connectionSystem 0).Runs (newConnection 0 0 5 {} (fun _ => none) false)
        destroyedAfterShutdown ∧
      ¬ OneDown ((connectionSystem 0).run (newConnection 0 0 5 {} (fun _ => none) false)
        destroyedAfterShutdown) := by
  decide +kernel

end ConnectionSystem

end CkServer
