import CkServer.Model.ConnectionSystem
import CkServer.Verification.Tcp.Output

/-! # Runs of a connection among threads

A run begins with `connectEstablished`: before it nothing but the destruction of the server
can happen, and nothing starts the connection a second time. An invariant of the runs is an
invariant of the steps after it. -/

namespace CkServer

/-! ## What the operations queue -/

namespace TcpConnection

/-- The queue has grown by user callbacks at most. -/
def Queues (c c' : TcpConnection) : Prop :=
  ∃ cbs, (∀ cb ∈ cbs, cb.isUserCallback = true) ∧
    c'.loop_.pendingFuntors_ = c.loop_.pendingFuntors_ ++ cbs

theorem Queues.of_eq {c c' : TcpConnection}
    (h : c'.loop_.pendingFuntors_ = c.loop_.pendingFuntors_) : c.Queues c' :=
  ⟨[], by simp, by rw [h, List.append_nil]⟩

theorem Queues.refl (c : TcpConnection) : c.Queues c := .of_eq rfl

theorem Queues.trans {c c' c'' : TcpConnection} (h : c.Queues c') (h' : c'.Queues c'') :
    c.Queues c'' := by
  obtain ⟨cbs, hcbs, heq⟩ := h
  obtain ⟨cbs', hcbs', heq'⟩ := h'
  refine ⟨cbs ++ cbs', ?_, by rw [heq', heq, List.append_assoc]⟩
  intro cb hcb
  rcases List.mem_append.mp hcb with hcb | hcb
  · exact hcbs cb hcb
  · exact hcbs' cb hcb

theorem Queues.mem_iff {c c' : TcpConnection} (h : c.Queues c') {cb : Functor}
    (hcb : cb.isUserCallback = false) :
    cb ∈ c'.loop_.pendingFuntors_ ↔ cb ∈ c.loop_.pendingFuntors_ := by
  obtain ⟨cbs, hcbs, heq⟩ := h
  rw [heq, List.mem_append, or_iff_left]
  intro hmem
  rw [hcbs cb hmem] at hcb
  cases hcb

theorem queues_writeDirect (c : TcpConnection) (data : List UInt8) (r : Except Errno ℕ) :
    c.Queues (c.writeDirect data r).1 := by
  obtain ⟨cbs, calls, hcbs, heq, -⟩ := c.writeDirect_eq data r
  exact ⟨cbs, hcbs, by rw [heq]; rfl⟩

theorem queues_bufferRest (c : TcpConnection) (rest : List UInt8) (fault : Bool) :
    c.Queues (c.bufferRest rest fault) := by
  apply bufferRest_rule
  · exact .refl c
  · exact fun cbs hcbs _ => ⟨cbs, hcbs, rfl⟩
  · exact fun cbs hcbs _ => ⟨cbs, hcbs, rfl⟩

theorem queues_writeOutput (c : TcpConnection) (r : Except Errno ℕ) :
    c.Queues (c.writeOutput r).1 := by
  apply writeOutput_rule
  · exact fun _ => .refl c
  · exact fun _ _ _ _ => .of_eq rfl
  · exact fun n cbs _ hcbs _ _ => ⟨cbs, hcbs, rfl⟩

theorem queues_shutdownInLoop (c : TcpConnection) : c.Queues c.shutdownInLoop :=
  .of_eq (by simp)

theorem queues_readInput (c : TcpConnection) (r : Except Errno (List UInt8)) :
    c.Queues (c.readInput r).1 :=
  .of_eq (by simp)

theorem queues_connectEstablished (c : TcpConnection) : c.Queues c.connectEstablished :=
  .of_eq rfl

theorem queues_setDisconnected (c : TcpConnection) : c.Queues c.setDisconnected :=
  .of_eq rfl

end TcpConnection

namespace ConnectionSystem

variable {n : ℕ} {s : ConnectionSystem n}

/-! ## Steps -/

theorem next_execute {task : Task} {rest : List Task} (h : s.todo = task :: rest) (o : Outside) :
    s.next (.execute o) = s.runTask o rest task := by
  simp [next, h]

/-- The task that a step of the loop's thread does. -/
def doing (s : ConnectionSystem n) : Action n → Option Task
  | .execute _ => s.todo.head?
  | _ => none

theorem doing_execute {task : Task} {rest : List Task} (h : s.todo = task :: rest) (o : Outside) :
    s.doing (.execute o) = some task := by
  simp [doing, h]

/-- The thread in the examples that have one. -/
def oneThread : Fin 1 := 0

theorem next_queueSend {thread : Fin n} {cell : ℕ} (h : s.threads thread = .queueSend cell) :
    s.next (.queueSend thread) =
      { s.queueInLoop (.sendInLoop cell ((s.cells cell).getD []).length s.queuedSends.length) with
        threads := Function.update s.threads thread .idle
        queuedSends := s.queuedSends ++ [(s.cells cell).getD []] } := by
  simp [next, h]

theorem exists_of_isQueueSend {pc : ThreadPc} (h : pc.isQueueSend = true) :
    ∃ cell, pc = .queueSend cell := by
  cases pc with
  | queueSend cell => exact ⟨cell, rfl⟩
  | idle => cases h
  | storeDisconnecting => cases h
  | queueShutdown => cases h

/-! ## Before and after the beginning -/

/-- `connectEstablished` has not run. -/
structure Waiting (s : ConnectionSystem n) : Prop where
  conn : ∃ address fd cbs pending, s.conn =
    { TcpConnection.new address fd cbs with loop_ := { pendingFuntors_ := pending } }
  queue : ∃ later, s.todo ++ s.conn.loop_.pendingFuntors_.map .functor =
    .functor .connectEstablished :: later ∧ ∀ t ∈ later, t = .functor .connectDestroyed
  sameLoop : s.sameLoop = true → s.todo ≠ []
  threads : ∀ thread, s.threads thread = .idle
  baseQueue : s.baseQueue = 0
  queuedSends : s.queuedSends = []
  handled : s.handled = []
  promised : s.promised = none
  destroyed : s.destroyed = false

/-- `connectEstablished` has run, and will not run again. -/
structure Begun (s : ConnectionSystem n) : Prop where
  called : s.conn.upcalls ≠ []
  state : s.conn.state_ ≠ .kconnecting
  todo : .functor .connectEstablished ∉ s.todo
  pending : .connectEstablished ∉ s.conn.loop_.pendingFuntors_

/-- The state after `connectEstablished`. -/
def begin (s : ConnectionSystem n) (rest : List Task) : ConnectionSystem n :=
  { s with conn := s.conn.connectEstablished, todo := rest }

theorem waiting_newConnection (address fd : ℕ) (cbs : Callbacks)
    (cells : ℕ → Option (List UInt8)) (sameLoop : Bool) :
    Waiting (newConnection n address fd cbs cells sameLoop) := by
  cases sameLoop with
  | false =>
      exact ⟨⟨address, fd, cbs, [.connectEstablished], rfl⟩, ⟨[], rfl, by simp⟩,
        fun h => (Bool.false_ne_true h).elim, fun _ => rfl, rfl, rfl, rfl, rfl, rfl⟩
  | true =>
      exact ⟨⟨address, fd, cbs, [], rfl⟩, ⟨[], rfl, by simp⟩, fun _ => List.cons_ne_nil _ _,
        fun _ => rfl, rfl, rfl, rfl, rfl, rfl⟩

theorem Waiting.upcalls (h : Waiting s) : s.conn.upcalls = [] := by
  obtain ⟨address, fd, cbs, pending, hconn⟩ := h.conn
  rw [hconn]
  rfl

/-- The first functor to run is `connectEstablished`. -/
theorem Waiting.todo_eq (h : Waiting s) {task : Task} {rest : List Task}
    (htodo : s.todo = task :: rest) : task = .functor .connectEstablished := by
  obtain ⟨later, hqueue, -⟩ := h.queue
  rw [htodo, List.cons_append, List.cons.injEq] at hqueue
  exact hqueue.1

/-- A step before the beginning waits on, or is the beginning. -/
theorem Waiting.next (h : Waiting s) {a : Action n} (hen : s.Enabled a) :
    Waiting (s.next a) ∨
      ∃ rest, s.todo = .functor .connectEstablished :: rest ∧ s.next a = s.begin rest := by
  have hupcalls := h.upcalls
  cases a with
  | callSend thread cell => exact absurd hupcalls hen.1
  | queueSend thread => simp [Enabled, h.threads thread, ThreadPc.isQueueSend] at hen
  | callShutdown thread => exact absurd hupcalls hen.1
  | storeDisconnecting thread => simp [Enabled, h.threads thread] at hen
  | queueShutdown thread => simp [Enabled, h.threads thread] at hen
  | assign cell value =>
      exact .inl ⟨h.conn, h.queue, h.sameLoop, h.threads, h.baseQueue, h.queuedSends, h.handled,
        h.promised, h.destroyed⟩
  | poll revents =>
      obtain ⟨address, fd, cbs, pending, hconn⟩ := h.conn
      simp [Enabled, hconn] at hen
  | doPendingFunctors =>
      have htodo : s.todo = [] := hen
      obtain ⟨address, fd, cbs, pending, hconn⟩ := h.conn
      refine .inl ⟨⟨address, fd, cbs, [], ?_⟩, ?_, fun hsame => absurd htodo (h.sameLoop hsame),
        h.threads, h.baseQueue, h.queuedSends, h.handled, h.promised, h.destroyed⟩
      · simp [ConnectionSystem.next, hconn]
      · simpa [ConnectionSystem.next, htodo] using h.queue
  | loopSend data => exact absurd hupcalls hen.1
  | loopShutdown => exact absurd hupcalls hen.1
  | execute o =>
      obtain ⟨task, rest, htodo⟩ := List.exists_cons_of_ne_nil hen.1
      obtain rfl := h.todo_eq htodo
      exact .inr ⟨rest, htodo, next_execute htodo o⟩
  | removeConnectionInLoop => simp [Enabled, h.baseQueue] at hen
  | destroyServer =>
      have hsame : s.sameLoop = false := by
        cases hs : s.sameLoop with
        | false => rfl
        | true => exact absurd (hen.2 hs) (h.sameLoop hs)
      obtain ⟨address, fd, cbs, pending, hconn⟩ := h.conn
      obtain ⟨later, hqueue, hlater⟩ := h.queue
      left
      simp only [ConnectionSystem.next]
      split
      · rw [if_neg (by simp [hsame])]
        refine ⟨⟨address, fd, cbs, pending ++ [.connectDestroyed], ?_⟩,
          ⟨later ++ [.functor .connectDestroyed], ?_, ?_⟩, h.sameLoop, h.threads, h.baseQueue,
          h.queuedSends, h.handled, h.promised, h.destroyed⟩
        · simp [queueInLoop, hconn, TcpConnection.queueInLoop, EventLoop.queueInLoop]
        · rw [← List.cons_append, ← hqueue]
          simp [queueInLoop, TcpConnection.queueInLoop, EventLoop.queueInLoop]
        · intro t ht
          rcases List.mem_append.mp ht with ht | ht
          · exact hlater t ht
          · exact List.mem_singleton.mp ht
      · exact ⟨⟨address, fd, cbs, pending, hconn⟩, ⟨later, hqueue, hlater⟩, h.sameLoop, h.threads,
          h.baseQueue, h.queuedSends, h.handled, h.promised, h.destroyed⟩

theorem Waiting.begun (h : Waiting s) {rest : List Task}
    (htodo : s.todo = .functor .connectEstablished :: rest) : Begun (s.begin rest) := by
  obtain ⟨later, hqueue, hlater⟩ := h.queue
  rw [htodo, List.cons_append, List.cons.injEq] at hqueue
  have hnot : .functor .connectEstablished ∉ rest ++ s.conn.loop_.pendingFuntors_.map .functor := by
    intro hmem
    rw [hqueue.2] at hmem
    cases hlater _ hmem
  rw [List.mem_append, not_or] at hnot
  refine ⟨by simp [begin], by simp [begin], hnot.1, ?_⟩
  intro hmem
  exact hnot.2 (List.mem_map_of_mem hmem)

/-! ## Steps after the beginning -/

/-- A connection that goes on: the callbacks are not taken back, the state is not set back,
and nothing starts again. -/
structure GoesOn (c c' : TcpConnection) : Prop where
  called : c.upcalls <+: c'.upcalls
  state : c'.state_ = c.state_ ∨ c'.state_ = .kDisconnecting ∨ c'.state_ = .kDisconnected
  pending : .connectEstablished ∈ c'.loop_.pendingFuntors_ →
    .connectEstablished ∈ c.loop_.pendingFuntors_

theorem GoesOn.refl (c : TcpConnection) : GoesOn c c := ⟨List.prefix_rfl, .inl rfl, id⟩

theorem GoesOn.of_queues {c c' : TcpConnection} (hcalls : c'.upcalls = c.upcalls)
    (hstate : c'.state_ = c.state_) (hqueue : c.Queues c') : GoesOn c c' :=
  ⟨by rw [hcalls], .inl hstate, (hqueue.mem_iff rfl).mp⟩

theorem goesOn_readInput (c : TcpConnection) (r : Except Errno (List UInt8)) :
    GoesOn c (c.readInput r).1 := by
  obtain ⟨buf, calls, -, heq⟩ := c.readInput_eq r
  rw [heq]
  exact ⟨List.prefix_append _ _, .inl rfl, id⟩

theorem goesOn_setDisconnected (c : TcpConnection) : GoesOn c c.setDisconnected :=
  ⟨by rw [TcpConnection.setDisconnected_upcalls]; exact List.prefix_append _ _, .inr (.inr rfl), id⟩

theorem goesOn_shutdownInLoop (c : TcpConnection) : GoesOn c c.shutdownInLoop :=
  ⟨by rw [TcpConnection.shutdownInLoop_upcalls], .inl c.shutdownInLoop_state_,
    by rw [TcpConnection.shutdownInLoop_loop_]; exact id⟩

theorem goesOn_queueInLoop (c : TcpConnection) {cb : Functor} (h : cb ≠ .connectEstablished) :
    GoesOn c (c.queueInLoop cb) := by
  refine ⟨List.prefix_rfl, .inl rfl, fun hmem => ?_⟩
  rcases List.mem_append.mp hmem with hmem | hmem
  · exact hmem
  · exact absurd (List.mem_singleton.mp hmem).symm h

theorem Begun.of_goesOn (h : Begun s) {s' : ConnectionSystem n} (hconn : GoesOn s.conn s'.conn)
    (htodo : .functor .connectEstablished ∈ s'.todo → .functor .connectEstablished ∈ s.todo) :
    Begun s' := by
  refine ⟨?_, ?_, fun hmem => h.todo (htodo hmem), fun hmem => h.pending (hconn.pending hmem)⟩
  · intro hnil
    have hpre := hconn.called
    rw [hnil, List.prefix_nil] at hpre
    exact h.called hpre
  · rcases hconn.state with hstate | hstate | hstate <;> rw [hstate]
    · exact h.state
    · simp
    · simp

/-- The server is told: `connectDestroyed` is queued at once, or later by its own loop. -/
theorem removeConnection_eq (s : ConnectionSystem n) :
    ∃ cbs inConnections baseQueue, (∀ cb ∈ cbs, cb = .connectDestroyed) ∧
      s.removeConnection = { s with
        conn := s.conn.queued cbs
        inConnections := inConnections
        baseQueue := baseQueue } := by
  unfold removeConnection
  split
  · split
    · exact ⟨[.connectDestroyed], false, s.baseQueue, by simp, rfl⟩
    · exact ⟨[], s.inConnections, s.baseQueue + 1, by simp, by rw [s.conn.queued_nil]⟩
  · exact ⟨[], s.inConnections, s.baseQueue, by simp, by rw [s.conn.queued_nil]⟩

theorem goesOn_removeConnection (s : ConnectionSystem n) :
    GoesOn s.conn s.removeConnection.conn := by
  obtain ⟨cbs, inConnections, baseQueue, hcbs, heq⟩ := s.removeConnection_eq
  rw [heq]
  refine ⟨List.prefix_rfl, .inl rfl, fun hmem => ?_⟩
  rcases List.mem_append.mp hmem with hmem | hmem
  · exact hmem
  · cases hcbs _ hmem

theorem removeConnection_todo (s : ConnectionSystem n) : s.removeConnection.todo = s.todo := by
  obtain ⟨cbs, inConnections, baseQueue, -, heq⟩ := s.removeConnection_eq
  rw [heq]

theorem Begun.runFunctor (h : Begun s) (o : Outside) {rest : List Task} {f : Functor}
    (htodo : s.todo = .functor f :: rest) : Begun (s.runFunctor o rest f) := by
  have hrest {t : Task} : t ∈ rest → t ∈ s.todo := fun ht => htodo ▸ List.mem_cons_of_mem _ ht
  cases f with
  | connectEstablished => exact absurd (htodo ▸ List.mem_cons_self) h.todo
  | connectDestroyed =>
      refine h.of_goesOn (.refl _) fun hmem => ?_
      simp only [ConnectionSystem.runFunctor] at hmem
      split at hmem <;> exact hrest (by simpa using hmem)
  | sendInLoop data len call =>
      refine h.of_goesOn ?_ fun hmem => hrest (by simpa [ConnectionSystem.runFunctor] using hmem)
      exact .of_queues (TcpConnection.writeDirect_upcalls _ _ _)
        (TcpConnection.writeDirect_state_ _ _ _) (TcpConnection.queues_writeDirect _ _ _)
  | shutdownInLoop => exact h.of_goesOn (goesOn_shutdownInLoop _) hrest
  | writeCompleteCallback_ => exact h.of_goesOn (.refl _) hrest
  | highWaterMarkCallback_ bytes => exact h.of_goesOn (.refl _) hrest

theorem Begun.runTask (h : Begun s) (o : Outside) {task : Task} {rest : List Task}
    (htodo : s.todo = task :: rest) : Begun (s.runTask o rest task) := by
  have hrest {t : Task} : t ∈ rest → t ∈ s.todo := fun ht => htodo ▸ List.mem_cons_of_mem _ ht
  cases task with
  | handleClose =>
      exact h.of_goesOn (goesOn_setDisconnected _)
        fun hmem => hrest (by simpa [ConnectionSystem.runTask] using hmem)
  | handleError => exact h.of_goesOn (.refl _) hrest
  | handleRead =>
      refine h.of_goesOn (goesOn_readInput _ _) fun hmem => hrest ?_
      simp only [ConnectionSystem.runTask] at hmem
      split at hmem
      · simpa using hmem
      · exact hmem
  | handleWrite =>
      refine h.of_goesOn ?_ fun hmem => hrest ?_
      · exact .of_queues (TcpConnection.writeOutput_upcalls _ _)
          (TcpConnection.writeOutput_state_ _ _) (TcpConnection.queues_writeOutput _ _)
      · simp only [ConnectionSystem.runTask] at hmem
        split at hmem
        · simpa using hmem
        · exact hmem
  | functor f => exact h.runFunctor o htodo
  | drained =>
      refine h.of_goesOn ?_ hrest
      simp only [ConnectionSystem.runTask]
      split
      · exact goesOn_shutdownInLoop _
      · exact .refl _
  | closeCallback =>
      have hinvoked : Begun { s with conn := s.conn.invoke .closeCallback_, todo := rest } :=
        h.of_goesOn ⟨List.prefix_append _ _, .inl rfl, id⟩ hrest
      refine hinvoked.of_goesOn (goesOn_removeConnection _) fun hmem => ?_
      rwa [ConnectionSystem.runTask, removeConnection_todo] at hmem
  | sendInLoop data =>
      refine h.of_goesOn ?_ hrest
      refine .of_queues ?_ ?_ ((TcpConnection.queues_writeDirect _ _ _).trans
        (TcpConnection.queues_bufferRest _ _ _))
      · simp [ConnectionSystem.runTask]
      · simp [ConnectionSystem.runTask]
  | storeDisconnecting =>
      refine h.of_goesOn ?_ hrest
      refine ⟨?_, .inr (.inl ?_), ?_⟩
      · simp [ConnectionSystem.runTask, TcpConnection.setState]
      · simp [ConnectionSystem.runTask, TcpConnection.setState]
      · simp [ConnectionSystem.runTask, TcpConnection.setState]
  | bufferRest taken data len call fault =>
      exact h.of_goesOn (.of_queues (TcpConnection.bufferRest_upcalls _ _ _)
        (TcpConnection.bufferRest_state_ _ _ _) (TcpConnection.queues_bufferRest _ _ _)) hrest
  | storeDisconnected =>
      exact h.of_goesOn (goesOn_setDisconnected _)
        fun hmem => hrest (by simpa [ConnectionSystem.runTask] using hmem)
  | remove => exact h.of_goesOn ⟨List.prefix_rfl, .inl rfl, id⟩ hrest

/-- What has begun stays begun. -/
theorem Begun.next (h : Begun s) (a : Action n) : Begun (s.next a) := by
  cases a with
  | callSend thread cell =>
      simp only [ConnectionSystem.next]
      split
      · exact h.of_goesOn (.refl _) id
      · exact h
  | queueSend thread =>
      simp only [ConnectionSystem.next]
      split
      · exact h.of_goesOn (goesOn_queueInLoop _ (by simp)) id
      · exact h
  | callShutdown thread =>
      simp only [ConnectionSystem.next]
      split
      · exact h.of_goesOn (.refl _) id
      · exact h
  | storeDisconnecting thread =>
      exact h.of_goesOn ⟨List.prefix_rfl, .inr (.inl rfl), id⟩ id
  | queueShutdown thread => exact h.of_goesOn (goesOn_queueInLoop _ (by decide)) id
  | assign cell value => exact h.of_goesOn (.refl _) id
  | poll revents =>
      refine h.of_goesOn ⟨List.prefix_rfl, .inl rfl, id⟩ fun hmem => ?_
      obtain ⟨event, -, heq⟩ := List.mem_map.mp hmem
      cases event <;> cases heq
  | doPendingFunctors =>
      refine ⟨h.called, h.state, fun hmem => ?_, by simp [ConnectionSystem.next]⟩
      obtain ⟨f, hf, heq⟩ := List.mem_map.mp hmem
      cases heq
      exact h.pending hf
  | loopSend data =>
      simp only [ConnectionSystem.next]
      split
      · exact h.of_goesOn (.refl _) (by simp)
      · exact h
  | loopShutdown =>
      simp only [ConnectionSystem.next]
      split
      · exact h.of_goesOn (.refl _) (by simp)
      · exact h
  | execute o =>
      simp only [ConnectionSystem.next]
      split
      · rename_i task rest htodo
        exact h.runTask o htodo
      · exact h
  | removeConnectionInLoop => exact h.of_goesOn (goesOn_queueInLoop _ (by decide)) id
  | destroyServer =>
      simp only [ConnectionSystem.next]
      split
      · split
        · exact h.of_goesOn (.refl _) (by simp)
        · exact h.of_goesOn (goesOn_queueInLoop _ (by decide)) id
      · exact h.of_goesOn (.refl _) id

/-! ## The rule -/

/-- What holds after `connectEstablished`, and is kept by every permitted step after it, holds
in every run of permitted steps once the connection has begun. -/
theorem invariant_of_begun {J : ConnectionSystem n → Prop}
    {p : ConnectionSystem n → Action n → Prop}
    (hbegin : ∀ s rest, Waiting s → s.todo = .functor .connectEstablished :: rest →
      J (s.begin rest))
    (hstep : ∀ s a, Begun s → J s → s.Enabled a → p s a → J (s.next a))
    {address fd : ℕ} {cbs : Callbacks} {cells : ℕ → Option (List UInt8)} {sameLoop : Bool}
    {as : List (Action n)}
    (hruns : (connectionSystem n).Runs (newConnection n address fd cbs cells sameLoop) as)
    (hok : (connectionSystem n).Always p (newConnection n address fd cbs cells sameLoop) as) :
    Waiting ((connectionSystem n).run (newConnection n address fd cbs cells sameLoop) as) ∨
      Begun ((connectionSystem n).run (newConnection n address fd cbs cells sameLoop) as) ∧
        J ((connectionSystem n).run (newConnection n address fd cbs cells sameLoop) as) := by
  refine (connectionSystem n).invariant (I := fun s => Waiting s ∨ Begun s ∧ J s) ?_
    (.inl (waiting_newConnection address fd cbs cells sameLoop)) hruns hok
  rintro s a (hs | ⟨hs, hJ⟩) hen hperm
  · rcases hs.next hen with hnext | ⟨rest, htodo, hnext⟩
    · exact .inl hnext
    · right
      change Begun (s.next a) ∧ J (s.next a)
      rw [hnext]
      exact ⟨hs.begun htodo, hbegin s rest hs htodo⟩
  · exact .inr ⟨hs.next a, hstep s a hs hJ hen hperm⟩

end ConnectionSystem

end CkServer
